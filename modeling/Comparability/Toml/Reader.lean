/-!
# Reading TOML: characters, blanks and comments

A reader takes what is left of a document and gives what it read with what is left after it. Here
are the faults of a document, its classes of characters, and what may stand between the parts of a
statement: spaces, and inside an array also line ends and comments.
-/

namespace Comparability.Toml

/-- Why a document cannot be read. -/
inductive Fault where
  | malformed
  | integerTooLong (digits : Nat)
  deriving DecidableEq, Repr

def maxDigits : Nat :=
  4300

/-- The wording of an integer's excess; a malformed document has none. -/
def Fault.message? : Fault → Option String
  | malformed => none
  | integerTooLong digits =>
    some ("Exceeds the limit (" ++ toString maxDigits ++ " digits) for integer string conversion: " ++
      "value has " ++ toString digits ++ " digits; " ++
      "use sys.set_int_max_str_digits() to increase the limit")

/-- Read a value from what is left of a document. -/
abbrev Reader (α : Type) := List Char → Except Fault (α × List Char)

def isSpace (c : Char) : Bool :=
  c = ' ' || c = '\t'

/-- A control character other than the tab, which no comment and no quoted text on one line holds.
-/
def isControl (c : Char) : Bool :=
  c ≠ '\t' && (c.toNat < 0x20 || c.toNat = 0x7F)

/-- A letter, a digit, a dash or an underscore: the characters of a key without quotes. -/
def isBareKey (c : Char) : Bool :=
  c.isAlphanum || c = '-' || c = '_'

def hexDigit? (c : Char) : Option Nat :=
  if '0' ≤ c ∧ c ≤ '9' then some (c.toNat - '0'.toNat)
  else if 'a' ≤ c ∧ c ≤ 'f' then some (c.toNat - 'a'.toNat + 10)
  else if 'A' ≤ c ∧ c ≤ 'F' then some (c.toNat - 'A'.toNat + 10)
  else none

def isDigit (radix : Nat) (c : Char) : Bool :=
  match hexDigit? c with
  | some d => d < radix
  | none => false

/-- The number that digits write. -/
def numeral (radix : Nat) (digits : List Char) : Nat :=
  digits.foldl (fun n c => radix * n + (hexDigit? c).getD 0) 0

def skipSpaces (cs : List Char) : List Char :=
  cs.dropWhile isSpace

/-- What is left after a comment, if one begins here. The line end stays. -/
def skipComment : List Char → Except Fault (List Char)
  | '#' :: rest =>
    if (rest.takeWhile (· ≠ '\n')).any isControl then .error .malformed
    else .ok (rest.dropWhile (· ≠ '\n'))
  | cs => .ok cs

/-- What is left after spaces, line ends and comments, beginning inside a comment or outside. -/
def skipFiller (inComment : Bool) : List Char → Except Fault (List Char)
  | [] => .ok []
  | c :: rest =>
    if c = '\n' then skipFiller false rest
    else if inComment then if isControl c then .error .malformed else skipFiller true rest
    else if isSpace c then skipFiller false rest
    else if c = '#' then skipFiller true rest
    else .ok (c :: rest)

end Comparability.Toml
