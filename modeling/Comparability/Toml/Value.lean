import Comparability.Toml.Moment
import Comparability.Toml.Number
import Comparability.Toml.Quoted
import Comparability.Toml.Table

/-!
# Keys and values

A key is a path of parts with dots between them. A value is a quoted text, a truth value, a date or
time, a number, an array, or a table on one line. Values nest, and the readers take a bound on the
number of steps, which `readEntry` computes from what is left to read.
-/

namespace Comparability.Toml

open Config (Value Entries)

/-- Read one part of a key. -/
def readKeyPart : Reader String
  | '\'' :: rest => readLiteral rest
  | '"' :: rest => readBasic rest
  | cs =>
    match cs.takeWhile isBareKey with
    | [] => .error .malformed
    | part => .ok (String.ofList part, cs.dropWhile isBareKey)

/-- Read a key of at most so many parts, and the spaces after it. -/
def readPathOf : Nat → Reader Path
  | 0, _ => .error .malformed
  | bound + 1, cs => do
    let (part, cs) ← readKeyPart cs
    match skipSpaces cs with
    | '.' :: rest => do
      let (path, cs) ← readPathOf bound (skipSpaces rest)
      return (part :: path, cs)
    | cs => return ([part], cs)

/-- Read a key, and the spaces after it. -/
def readPath : Reader Path := fun cs =>
  readPathOf cs.length cs

/-- Read a value of one word: a truth value, a date or time, a number, an infinity or a
not-a-number. -/
def readWord : Reader Value
  | 't' :: 'r' :: 'u' :: 'e' :: rest => .ok (.boolean true, rest)
  | 'f' :: 'a' :: 'l' :: 's' :: 'e' :: rest => .ok (.boolean false, rest)
  | cs =>
    match readMoment? cs with
    | some (value, rest) => value.map (·, rest)
    | none =>
      match readNumber? cs with
      | some (value, rest) => value.map (·, rest)
      | none =>
        let (sign, body) := readSign cs
        let name := String.ofList (body.take 3)
        if name = "inf" || name = "nan" then
          .ok (.fraction (String.ofList sign ++ name), body.drop 3)
        else .error .malformed

mutual

def readValue : Nat → Reader Value
  | 0, _ => .error .malformed
  | bound + 1, cs =>
    match cs with
    | '"' :: '"' :: '"' :: rest => (readLongBasic rest).map fun (text, cs) => (.text text, cs)
    | '"' :: rest => (readBasic rest).map fun (text, cs) => (.text text, cs)
    | '\'' :: '\'' :: '\'' :: rest => (readLongLiteral rest).map fun (text, cs) => (.text text, cs)
    | '\'' :: rest => (readLiteral rest).map fun (text, cs) => (.text text, cs)
    | '[' :: rest => (readItems bound rest).map fun (items, cs) => (.list items, cs)
    | '{' :: rest =>
      match skipSpaces rest with
      | '}' :: rest => .ok (.table [], rest)
      | cs => (readFields bound [] [] cs).map fun (entries, cs) => (.table entries, cs)
    | cs => readWord cs

def readItems : Nat → Reader (List Value)
  | 0, _ => .error .malformed
  | bound + 1, cs => do
    match ← skipFiller false cs with
    | ']' :: rest => return ([], rest)
    | cs => do
      let (item, cs) ← readValue bound cs
      match ← skipFiller false cs with
      | ']' :: rest => return ([item], rest)
      | ',' :: rest => do
        let (items, cs) ← readItems bound rest
        return (item :: items, cs)
      | _ => .error .malformed

/-- Read the fields of a table on one line that follow the given ones, to its closing brace. Nothing
may be added to the tables and lists that were written as values in it. -/
def readFields : Nat → Entries → List Path → Reader Entries
  | 0, _, _, _ => .error .malformed
  | bound + 1, entries, closed, cs => do
    let (path, cs) ← readPath cs
    match cs with
    | '=' :: rest => do
      let (value, cs) ← readValue bound (skipSpaces rest)
      if leadsInto closed path then .error .malformed
      else match insertAt? false path value entries with
        | none => .error .malformed
        | some entries =>
          match skipSpaces cs with
          | '}' :: rest => return (entries, rest)
          | ',' :: rest =>
            readFields bound entries (if isClosed value then path :: closed else closed)
              (skipSpaces rest)
          | _ => .error .malformed
    | _ => .error .malformed

end

/-- Read a key, an equals sign and a value. A step that reads nothing itself is followed by one that
does, so twice the characters bound the steps. -/
def readEntry : Reader (Path × Value) := fun cs => do
  let (path, cs) ← readPath cs
  match cs with
  | '=' :: rest => do
    let (value, cs) ← readValue (2 * rest.length + 2) (skipSpaces rest)
    return ((path, value), cs)
  | _ => .error .malformed

end Comparability.Toml
