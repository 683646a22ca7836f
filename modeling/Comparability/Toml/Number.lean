import Comparability.Config.Value
import Comparability.Toml.Reader

/-!
# Numbers

Integers are decimal, or hexadecimal, octal or binary after `0x`, `0o` or `0b`. A decimal number
with a fractional part or an exponent is a fraction. An underscore may stand between two digits.
Decimal integers have at most `maxDigits` digits.
-/

namespace Comparability.Toml

open Config (Value)

/-- The digits, each of which may follow an underscore, that begin a text. -/
def readMoreDigits (radix : Nat) : List Char → List Char × List Char
  | [] => ([], [])
  | [c] => if isDigit radix c then ([c], []) else ([], [c])
  | c :: d :: rest =>
    if isDigit radix c then
      let (digits, left) := readMoreDigits radix (d :: rest)
      (c :: digits, left)
    else if c = '_' && isDigit radix d then
      let (digits, left) := readMoreDigits radix rest
      (d :: digits, left)
    else ([], c :: d :: rest)

/-- The digits that begin a text, of which the first follows no underscore. -/
def readDigits (radix : Nat) : List Char → List Char × List Char
  | c :: rest => if isDigit radix c then readMoreDigits radix (c :: rest) else ([], c :: rest)
  | [] => ([], [])

def readSign : List Char → List Char × List Char
  | c :: rest => if c = '+' || c = '-' then ([c], rest) else ([], c :: rest)
  | [] => ([], [])

/-- The digits of a whole number: a zero, or digits that begin with another. -/
def readWhole : List Char → List Char × List Char
  | '0' :: rest => (['0'], rest)
  | cs => readDigits 10 cs

def readFractional : List Char → List Char × List Char
  | '.' :: rest =>
    match readDigits 10 rest with
    | ([], _) => ([], '.' :: rest)
    | (digits, left) => ('.' :: digits, left)
  | cs => ([], cs)

def readExponent : List Char → List Char × List Char
  | c :: rest =>
    if c = 'e' || c = 'E' then
      let (sign, body) := readSign rest
      match readDigits 10 body with
      | ([], _) => ([], c :: rest)
      | (digits, left) => (c :: sign ++ digits, left)
    else ([], c :: rest)
  | [] => ([], [])

/-- The integer that a sign and decimal digits write. -/
def decimalInteger (sign digits : List Char) : Except Fault Value :=
  if maxDigits < digits.length then .error (.integerTooLong digits.length)
  else if sign = ['-'] then .ok (.integer (-(numeral 10 digits : Int)))
  else .ok (.integer (numeral 10 digits : Int))

def readDecimal? (cs : List Char) : Option (Except Fault Value × List Char) :=
  let (sign, body) := readSign cs
  match readWhole body with
  | ([], _) => none
  | (whole, left) =>
    let (fractional, left) := readFractional left
    let (exponent, left) := readExponent left
    match fractional ++ exponent with
    | [] => some (decimalInteger sign whole, left)
    | rest => some (.ok (.fraction (String.ofList (sign ++ whole ++ rest))), left)

/-- The radix that a letter after a zero announces. -/
def radixOf? : Char → Option Nat
  | 'x' => some 16
  | 'o' => some 8
  | 'b' => some 2
  | _ => none

/-- The number with a radix of its own that begins a text. -/
def readRadix? : List Char → Option (Value × List Char)
  | '0' :: letter :: rest => do
    let radix ← radixOf? letter
    match readDigits radix rest with
    | ([], _) => none
    | (digits, left) => return (.integer (numeral radix digits : Int), left)
  | _ => none

def readNumber? (cs : List Char) : Option (Except Fault Value × List Char) :=
  match readRadix? cs with
  | some (value, left) => some (.ok value, left)
  | none => readDecimal? cs

end Comparability.Toml
