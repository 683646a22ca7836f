import Comparability.Toml.Value

/-!
# Documents

A document is read statement by statement. An entry adds a value under the last header; a header
`[k]` begins a table, which must not have been begun before, and `[[k]]` adds a table to an array
of them.

* `declared` holds the tables that no header may begin again and no dotted key may add to; a table
  that a dotted key makes is among them from the next header on (`pending`).
* `closed` holds the tables and lists that were written as values, to which nothing may be added.
-/

namespace Comparability.Toml

open Config (Entries)

/-- What has been read of a document. -/
structure Progress where
  entries : Entries := []
  header : Path := []
  declared : List Path := []
  closed : List Path := []
  pending : List Path := []
  deriving Repr

namespace Progress

/-- The paths of the tables that a dotted key goes through. -/
def dottedTables (header path : Path) : List Path :=
  (List.range path.dropLast.length).map fun i => header ++ path.take (i + 1)

/-- Add an entry under the last header. -/
def insert? (p : Progress) (path : Path) (value : Config.Value) : Option Progress :=
  let tables := dottedTables p.header path
  if tables.any p.declared.contains || leadsInto p.closed (p.header ++ path.dropLast) then none
  else do
    let entries ← insertAt? true (p.header ++ path) value p.entries
    return { p with
      entries := entries
      pending := p.pending ++ tables
      closed := if isClosed value then p.closed ++ [p.header ++ path] else p.closed }

/-- From a header on, the tables that dotted keys made cannot be begun. -/
def settle (p : Progress) : Progress :=
  { p with declared := p.declared ++ p.pending, pending := [] }

def beginTable? (p : Progress) (path : Path) : Option Progress :=
  if p.declared.contains path || leadsInto p.closed path then none
  else do
    let entries ← changeAt? true some path p.entries
    return { p with entries := entries, header := path, declared := p.declared ++ [path] }

/-- Add a table to an array of tables. What was said of the tables inside the one before does not
hold of it. -/
def beginItem? (p : Progress) (path : Path) : Option Progress :=
  if leadsInto p.closed path then none
  else do
    let entries ← appendTableAt? path p.entries
    return { p with
      entries := entries
      header := path
      declared := p.declared.filter (fun place => !path.isPrefixOf place) ++ [path]
      closed := p.closed.filter fun place => !path.isPrefixOf place }

end Progress

/-- A change that is not allowed is a fault of the document. -/
def orMalformed : Option α → Except Fault α
  | some a => .ok a
  | none => .error .malformed

/-- Read a header, after its first bracket. -/
def readHeader (p : Progress) : Reader Progress
  | '[' :: rest => do
    let (path, cs) ← readPath (skipSpaces rest)
    let p ← orMalformed (p.settle.beginItem? path)
    match cs with
    | ']' :: ']' :: rest => return (p, rest)
    | _ => .error .malformed
  | cs => do
    let (path, cs) ← readPath (skipSpaces cs)
    let p ← orMalformed (p.settle.beginTable? path)
    match cs with
    | ']' :: rest => return (p, rest)
    | _ => .error .malformed

/-- Read what a line holds besides blanks and a comment. -/
def readStatement (p : Progress) : Reader Progress
  | [] => .ok (p, [])
  | '[' :: rest => readHeader p rest
  | c :: rest =>
    if c = '\n' || c = '#' then .ok (p, c :: rest)
    else do
      let ((path, value), cs) ← readEntry (c :: rest)
      let p ← orMalformed (p.insert? path value)
      return (p, cs)

/-- Read at most so many lines. -/
def readLines : Nat → Progress → List Char → Except Fault Progress
  | 0, _, _ => .error .malformed
  | bound + 1, p, cs => do
    let (p, cs) ← readStatement p (skipSpaces cs)
    match ← skipComment (skipSpaces cs) with
    | [] => return p
    | '\n' :: rest => readLines bound p rest
    | _ => .error .malformed

/-- Line ends of two characters are line feeds. -/
def unifyLineEnds : List Char → List Char
  | '\r' :: '\n' :: rest => '\n' :: unifyLineEnds rest
  | c :: rest => c :: unifyLineEnds rest
  | [] => []

def parse (text : String) : Except Fault Entries := do
  let cs := unifyLineEnds text.toList
  return (← readLines (cs.length + 1) {} cs).entries

end Comparability.Toml
