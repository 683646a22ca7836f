/-!
# Finding a text in a source

`find? source text start` is the position of the leftmost occurrence of `text` in `source` that
begins at or after `start`. A negative start counts from the end of the source, and is moved to
the beginning where it would lie before it. The empty text occurs at every position up to the end.
-/

namespace Comparability.Text

/-- The leftmost place in `rest`, which begins at position `offset`, where `text` is read. -/
def findFrom? (text : List Char) : List Char → Nat → Option Nat
  | [], offset => if text.isEmpty then some offset else none
  | c :: rest, offset =>
    if text.isPrefixOf (c :: rest) then some offset else findFrom? text rest (offset + 1)

/-- The position that a start stands for in a text of `length` characters. -/
def clampStart (length : Nat) (start : Int) : Nat :=
  if start < 0 then (length + start).toNat else start.toNat

/-- The leftmost occurrence of a text at or after a start. -/
def find? (source text : String) (start : Int) : Option Nat :=
  let chars := source.toList
  let first := clampStart chars.length start
  if first ≤ chars.length then findFrom? text.toList (chars.drop first) first else none

end Comparability.Text
