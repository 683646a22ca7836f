import Comparability.Text.Blank
import Comparability.TypeExpr.Frame
import Comparability.TypeExpr.Fault

/-!
# Scanning a type expression

A type expression is read character by character, with a stack of open containers and finished
operands. `step` reads one character, `run` a list of them, and `conclude` decides at the end what
the whole text stands for; `scan` is the three together.

* A container is `[T]`, `[K: V]`, `Array<T>`, `Set<T>`, `Dictionary<K, V>` or `Dictionary<K: V>`.
  A bracket is undetermined when it opens and a dictionary from its first separator on.
* Everything else is a leaf. A `<` after a leaf's text begins an enclosed span, which runs to the
  `>` of its depth and belongs to the leaf with all that stands in it.
* Blanks mean nothing, and `?` marks the type before it as optional.

The keyword of a container is a leaf's text up to the `<` that follows: it opens the container
when it was written from the start of a type without a gap. What leaves and containers stand for
is given by a `Meaning`, so that the same scan yields a capability, a syntax tree, or the leaves
in their order.
-/

namespace Comparability.TypeExpr

open Text (Span isBlank)

/-- What leaves, containers and optional marks stand for. -/
structure Meaning (α : Type) where
  leaf : String → α
  sequence : α → α
  dictionary : α → α → α
  optional : α → α

/-- The state of a scan between two characters. -/
structure Scan (α : Type) where
  /-- the number of characters read -/
  position : Nat := 0
  /-- the open containers, keys and finished operands, the latest first -/
  stack : List (Frame α) := []
  /-- the text of the pending leaf, without blanks and optional marks -/
  leaf : String := ""
  /-- from the first to the last character of the pending leaf -/
  leafSpan : Span := Span.ofLength 0 0
  /-- the pending leaf is marked as optional -/
  marked : Bool := false
  /-- how many enclosed spans are open in the pending leaf -/
  depth : Nat := 0
  /-- a container may open here -/
  atTypeStart : Bool := true

namespace Scan

variable {α : Type}

def here (s : Scan α) : Span :=
  Span.ofLength s.position 1

def failHere (s : Scan α) (reason : Reason) : Except Fault (Scan α) :=
  .error ⟨reason, s.here⟩

def extendLeaf (s : Scan α) (c : Char) : Scan α :=
  { s with
    leaf := s.leaf.push c
    leafSpan := if s.leaf = "" then s.here else s.leafSpan.cover s.here
    atTypeStart := false }

/-- Go on at the start of a type, with another stack and no pending leaf. -/
def startType (s : Scan α) (stack : List (Frame α)) : Scan α :=
  { s with stack := stack, leaf := "", marked := false, atTypeStart := true }

def leafOperand (m : Meaning α) (s : Scan α) : Operand α :=
  ⟨if s.marked then m.optional (m.leaf s.leaf) else m.leaf s.leaf, s.leafSpan⟩

/-- The operand that was read last: the pending leaf, or else what is finished on top of the
stack. -/
def operand? (m : Meaning α) (s : Scan α) : Option (Operand α) :=
  if s.leaf = "" then
    match s.stack with
    | .operand o :: _ => some o
    | _ => none
  else some (s.leafOperand m)

/-- The stack under that operand. -/
def below (s : Scan α) : List (Frame α) :=
  if s.leaf = "" then
    match s.stack with
    | .operand _ :: rest => rest
    | stack => stack
  else s.stack

/-- Open a container whose text began at the given span and ends with the next character. -/
def openContainer (s : Scan α) (opener : Opener) (first : Span) : Scan α :=
  s.startType (.opened (.ofOpener opener (first.cover s.here)) :: s.stack)

/-- The container that the pending leaf opens if a `<` comes next. -/
def keyword? (s : Scan α) : Option Opener :=
  if s.leafSpan.start + s.leaf.length = s.position then
    Opener.all.find? fun opener => opener.text = s.leaf.push '<'
  else none

def readAngle (s : Scan α) : Except Fault (Scan α) :=
  if s.leaf = "" then s.failHere .unexpectedCharacter
  else match s.keyword? with
    | some opener => .ok (s.openContainer opener s.leafSpan)
    | none => .ok { s.extendLeaf '<' with depth := 1 }

def readBracket (s : Scan α) : Except Fault (Scan α) :=
  if s.atTypeStart then .ok (s.openContainer .bracket s.here)
  else s.failHere .unexpectedCharacter

def readEnclosed (s : Scan α) (c : Char) : Scan α :=
  if isBlank c || c = '?' then s
  else if c = '<' then { s.extendLeaf c with depth := s.depth + 1 }
  else if c = '>' then { s.extendLeaf c with depth := s.depth - 1 }
  else s.extendLeaf c

/-- Read a separator: the operand before it becomes the key of the container that it stands in. -/
def readSeparator (m : Meaning α) (s : Scan α) (c : Char) : Except Fault (Scan α) :=
  match s.operand? m, s.below with
  | none, .key _ :: _ => s.failHere .extraSeparator
  | none, _ => s.failHere .separatorWithoutType
  | some _, .key _ :: _ => s.failHere .extraSeparator
  | some _, .operand _ :: _ => s.failHere .missingSeparator
  | some _, [] => s.failHere .separatorNotAllowed
  | some o, .opened frame :: rest =>
    if frame.accepts (String.singleton c) then
      .ok (s.startType (.key o :: .opened frame.separated :: rest))
    else s.failHere .separatorNotAllowed

/-- Put a finished container on the stack, if the closing delimiter is the one of its opener. -/
def closeFrame (s : Scan α) (c : Char) (frame : OpenContainer) (value : Except Reason α)
    (rest : List (Frame α)) : Except Fault (Scan α) :=
  if frame.closer = String.singleton c then
    match value with
    | .ok v => .ok (s.startType (.operand ⟨v, frame.span.cover s.here⟩ :: rest))
    | .error reason => s.failHere reason
  else .error ⟨.mismatchedCloser, frame.span.cover s.here⟩

/-- Read a closing delimiter: it makes one operand of a container and what was read in it. -/
def readCloser (m : Meaning α) (s : Scan α) (c : Char) : Except Fault (Scan α) :=
  match s.operand? m, s.below with
  | none, .key _ :: _ => s.failHere .missingDictionaryValue
  | none, frame :: _ => .error ⟨.emptyContainer, frame.span.cover s.here⟩
  | some o, .operand _ :: _ => .error ⟨.missingSeparator, o.span⟩
  | some o, .key k :: .opened frame :: rest =>
    s.closeFrame c frame (.ok (m.dictionary k.value o.value)) rest
  | some o, .opened frame :: rest =>
    s.closeFrame c frame
      (if frame.isSequence then .ok (m.sequence o.value) else .error .missingDictionaryValue) rest
  | _, _ => s.failHere .unbalancedCloser

def readMark (m : Meaning α) (s : Scan α) : Except Fault (Scan α) :=
  if s.leaf = "" then
    match s.stack with
    | .operand o :: rest =>
      .ok { s with stack := .operand ⟨m.optional o.value, o.span.cover s.here⟩ :: rest }
    | _ => s.failHere .optionalWithoutType
  else .ok { s with marked := true }

/-- Read a character, at a position that does not move. -/
def read (m : Meaning α) (s : Scan α) (c : Char) : Except Fault (Scan α) :=
  if s.depth ≠ 0 then .ok (s.readEnclosed c)
  else if closers.contains c then s.readCloser m c
  else if separators.contains c then s.readSeparator m c
  else if c = '?' then s.readMark m
  else if isBlank c then .ok s
  else if c = '<' then s.readAngle
  else if c = '[' then s.readBracket
  else .ok (s.extendLeaf c)

def step (m : Meaning α) (s : Scan α) (c : Char) : Except Fault (Scan α) :=
  match s.read m c with
  | .ok t => .ok { t with position := s.position + 1 }
  | .error fault => .error fault

/-- Read characters up to the first fault. -/
def run (m : Meaning α) (s : Scan α) (cs : List Char) : Except Fault (Scan α) :=
  cs.foldlM (step m) s

def endSpan (s : Scan α) : Span :=
  Span.ofLength s.position 0

/-- The container that was opened last and is still open. -/
def innermost? (s : Scan α) : Option OpenContainer :=
  s.stack.findSome? Frame.opened?

/-- What the whole text stands for, when no more characters follow. -/
def conclude (m : Meaning α) (s : Scan α) : Except Fault α :=
  if s.depth ≠ 0 then .error ⟨.unbalancedGeneric, s.leafSpan.cover s.endSpan⟩
  else match s.innermost? with
    | some frame => .error ⟨.unclosedContainer, frame.span.cover s.endSpan⟩
    | none =>
      if s.leaf = "" then
        match s.stack.reverse with
        | [] => .error ⟨.emptyExpression, Span.ofLength 0 s.position⟩
        | [.operand o] => .ok o.value
        | [frame] => .error ⟨.unclosedContainer, frame.span⟩
        | _ :: second :: _ => .error ⟨.missingSeparator, second.span⟩
      else if s.stack.isEmpty then .ok (s.leafOperand m).value
      else .error ⟨.trailingText, s.leafSpan⟩

end Scan

/-- What a type expression stands for, and the stack that reading it leaves behind: nothing after a
leaf, one operand after a container. -/
def scan (m : Meaning α) (expression : String) : Except Fault (α × List (Frame α)) := do
  let s ← Scan.run m {} expression.toList
  let value ← s.conclude m
  return (value, s.stack)

end Comparability.TypeExpr
