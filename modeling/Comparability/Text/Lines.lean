/-!
# Lines of a text

A line ends at a line feed, a carriage return, the two together, a vertical tab, a form feed, one of
the separators U+001C to U+001E, a next line mark, or a Unicode line or paragraph separator. A
terminator at the very end opens no further line.
-/

namespace Comparability.Text

def isLineBreak (c : Char) : Bool :=
  let n := c.toNat
  (0x0A ≤ n && n ≤ 0x0D) || (0x1C ≤ n && n ≤ 0x1E) || n == 0x85 || n == 0x2028 || n == 0x2029

/-- The lines of a list of characters, without their terminators. -/
def linesOfChars : List Char → List (List Char)
  | [] => []
  | '\r' :: '\n' :: rest => [] :: linesOfChars rest
  | c :: rest =>
    if isLineBreak c then [] :: linesOfChars rest
    else match linesOfChars rest with
      | [] => [[c]]
      | line :: lines => (c :: line) :: lines

def lines (text : String) : List String :=
  (linesOfChars text.toList).map String.ofList

end Comparability.Text
