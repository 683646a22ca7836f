import Comparability.Toml.Reader

/-!
# Quoted texts

Basic texts stand in double quotes and hold escapes, literal texts stand in single quotes and hold
none. Three quotes begin a text of several lines, whose first line end is dropped and which may
end in one or two quotes of its own.
-/

namespace Comparability.Toml

/-- Where the reading of a basic text stands. -/
inductive BasicMode where
  /-- between two characters -/
  | plain
  /-- after a backslash -/
  | escaped
  /-- inside a code point, with the digits that are missing and the value so far -/
  | codePoint (missing value : Nat)
  /-- after a backslash and spaces, which must be the last of their line -/
  | lineEnd
  /-- after such a line end: blanks are dropped -/
  | folded
  deriving DecidableEq, Repr

/-- The character that an escape of one letter stands for. -/
def escape? : Char → Option Char
  | 'b' => some '\x08'
  | 't' => some '\t'
  | 'n' => some '\n'
  | 'f' => some '\x0c'
  | 'r' => some '\r'
  | '"' => some '"'
  | '\\' => some '\\'
  | _ => none

/-- The character with a code point, which must not be a surrogate. -/
def scalar? (n : Nat) : Option Char :=
  if n.isValidChar then some (Char.ofNat n) else none

/-- A character that may not stand in a quoted text as it is. -/
def isUnquotable (multiline : Bool) (c : Char) : Bool :=
  isControl c && !(multiline && c = '\n')

def readBasicFrom (multiline : Bool) : BasicMode → String → Reader String
  | _, _, [] => .error .malformed
  | .escaped, text, c :: rest =>
    if multiline && c = '\n' then readBasicFrom multiline .folded text rest
    else if multiline && isSpace c then readBasicFrom multiline .lineEnd text rest
    else if c = 'u' then readBasicFrom multiline (.codePoint 4 0) text rest
    else if c = 'U' then readBasicFrom multiline (.codePoint 8 0) text rest
    else match escape? c with
      | some d => readBasicFrom multiline .plain (text.push d) rest
      | none => .error .malformed
  | .codePoint missing value, text, c :: rest =>
    match hexDigit? c with
    | none => .error .malformed
    | some d =>
      if missing ≤ 1 then
        match scalar? (16 * value + d) with
        | some e => readBasicFrom multiline .plain (text.push e) rest
        | none => .error .malformed
      else readBasicFrom multiline (.codePoint (missing - 1) (16 * value + d)) text rest
  | .lineEnd, text, c :: rest =>
    if c = '\n' then readBasicFrom multiline .folded text rest
    else if isSpace c then readBasicFrom multiline .lineEnd text rest
    else .error .malformed
  | mode, text, c :: rest =>
    if mode = .folded && (isSpace c || c = '\n') then readBasicFrom multiline .folded text rest
    else if c = '\\' then readBasicFrom multiline .escaped text rest
    else if c = '"' then
      if multiline then
        match rest with
        | '"' :: '"' :: rest' => .ok (text, rest')
        | _ => readBasicFrom multiline .plain (text.push '"') rest
      else .ok (text, rest)
    else if isUnquotable multiline c then .error .malformed
    else readBasicFrom multiline .plain (text.push c) rest

def readLiteralFrom (multiline : Bool) : String → Reader String
  | _, [] => .error .malformed
  | text, c :: rest =>
    if c = '\'' then
      if multiline then
        match rest with
        | '\'' :: '\'' :: rest' => .ok (text, rest')
        | _ => readLiteralFrom multiline (text.push c) rest
      else .ok (text, rest)
    else if isUnquotable multiline c then .error .malformed
    else readLiteralFrom multiline (text.push c) rest

/-- What is left of a text of several lines after the line end that may follow its opening. -/
def dropFirstLineEnd : List Char → List Char
  | '\n' :: rest => rest
  | cs => cs

/-- One or two quotes that follow the closing of a text of several lines belong to the text. -/
def withTrailingQuotes (quote : Char) : String × List Char → String × List Char
  | (text, c :: d :: rest) =>
    if c = quote then
      if d = quote then ((text.push quote).push quote, rest) else (text.push quote, d :: rest)
    else (text, c :: d :: rest)
  | (text, [c]) => if c = quote then (text.push quote, []) else (text, [c])
  | (text, []) => (text, [])

def readBasic : Reader String :=
  readBasicFrom false .plain ""

def readLongBasic : Reader String := fun cs =>
  (readBasicFrom true .plain "" (dropFirstLineEnd cs)).map (withTrailingQuotes '"')

def readLiteral : Reader String :=
  readLiteralFrom false ""

def readLongLiteral : Reader String := fun cs =>
  (readLiteralFrom true "" (dropFirstLineEnd cs)).map (withTrailingQuotes '\'')

end Comparability.Toml
