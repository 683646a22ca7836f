import Comparability.Text.Digit
import Comparability.Text.Pieces

/-!
# Command-line arguments

An argument is an option, a value, or the mark `--` after which all arguments are values.

* A long option may be shortened to what no other long option begins with, and may carry its
  argument after an equals sign. The mark `--` written there leaves the option without a text.
* Short options take no argument and may stand in one word, where an equals sign after the first
  letter is passed over. A word with any other character is not allowed.
* An argument that looks like a negative number, or that holds a space and begins no option, is a
  value.
* The values that follow one another form one run. The first run gives the expressions; a second
  one is not understood.

`tokens?` sorts the arguments, and `readTokens` takes them from left to right. A request for help
and an argument that is not allowed stop there, whatever follows; what is not understood stops only
at the end.
-/

namespace Comparability.CommandLine

inductive OptionName where
  | help
  | file
  | config
  | comparable
  | equatable
  | progress
  | verbose
  deriving DecidableEq, Repr

namespace OptionName

def takesArgument : OptionName → Bool
  | file | config | comparable | equatable => true
  | help | progress | verbose => false

end OptionName

def longOptions : List (String × OptionName) :=
  [("--help", .help), ("--file", .file), ("--config", .config), ("--comparable", .comparable),
    ("--equatable", .equatable), ("--progress", .progress), ("--verbose", .verbose)]

def shortOptions : List (Char × OptionName) :=
  [('h', .help), ('v', .verbose)]

/-- Why there are no settings. -/
inductive Stop where
  | usage
  | help
  deriving DecidableEq, Repr

inductive Token where
  | value (text : String)
  | endOfOptions
  | long (name : OptionName) (argument : Option String)
  | short (names : List OptionName)
  /-- a word of short options with a character that is none -/
  | misused
  | unknown
  deriving Repr

/-- The text before the first equals sign, and the text after it. -/
def splitEquals (text : List Char) : String × Option String :=
  match text.dropWhile (· ≠ '=') with
  | _ :: argument => (String.ofList (text.takeWhile (· ≠ '=')), some (String.ofList argument))
  | [] => (String.ofList text, none)

/-- The letters of a word of short options. An equals sign between the first letter and the second
is passed over. -/
def shortLetters : List Char → List Char
  | first :: '=' :: second :: rest => first :: second :: rest
  | letters => letters

/-- A word of short options, without its dash. -/
def shortToken (word : List Char) : Token :=
  match (shortLetters word).mapM fun c => shortOptions.lookup c with
  | some names => .short names
  | none => .misused

def isDigits (cs : List Char) : Bool :=
  !cs.isEmpty && cs.all Text.isDecimalDigit

/-- A negative whole or decimal number, which a line feed may end. -/
def isNegativeNumber : List Char → Bool
  | '-' :: cs =>
    let body := if cs.getLast? = some '\n' then cs.dropLast else cs
    isDigits body || match body.dropWhile Text.isDecimalDigit with
      | '.' :: fraction => isDigits fraction
      | _ => false
  | _ => false

/-- An argument that begins like an option and is none. -/
def otherToken (text : String) : Token :=
  if isNegativeNumber text.toList || text.contains ' ' then .value text else .unknown

/-- The option that a long word writes or shortens. -/
def longToken? (text : String) : Except Stop Token :=
  let (written, argument) := splitEquals text.toList
  match longOptions.lookup written with
  | some name => .ok (.long name argument)
  | none =>
    match longOptions.filter fun option => written.toList.isPrefixOf option.1.toList with
    | [] => .ok (otherToken text)
    | [option] => .ok (.long option.2 argument)
    | _ => .error .usage

def token? (text : String) : Except Stop Token :=
  match text.toList with
  | '-' :: '-' :: _ => longToken? text
  | '-' :: c :: rest =>
    .ok (if (shortOptions.lookup c).isSome then shortToken (c :: rest) else otherToken text)
  | _ => .ok (.value text)

def tokens? : List String → Except Stop (List Token)
  | [] => .ok []
  | text :: rest =>
    if text = "--" then .ok (.endOfOptions :: rest.map .value)
    else do
      let token ← token? text
      return token :: (← tokens? rest)

/-- What an option was given as its argument. -/
inductive Argument where
  | text (text : String)
  | blank
  deriving DecidableEq, Repr

namespace Argument

/-- The argument that is written so. The mark `--` is a blank one. -/
def ofText (text : String) : Argument :=
  if text = "--" then .blank else .text text

/-- The text of an argument that is not blank. -/
def text? : Argument → Option String
  | text content => some content
  | blank => none

end Argument

/-- What the arguments ask for. -/
structure Settings where
  expressions : List String := []
  file : Option Argument := none
  config : Option Argument := none
  comparable : List String := []
  equatable : List String := []
  progress : Bool := false
  verbose : Bool := false
  deriving DecidableEq, Repr

namespace Settings

/-- Set an option that takes an argument. The lists grow, by nothing when the argument is blank; the
others keep the last. -/
def setArgument (s : Settings) (name : OptionName) (argument : Argument) : Settings :=
  match name with
  | .file => { s with file := some argument }
  | .config => { s with config := some argument }
  | .comparable => { s with comparable := s.comparable ++ argument.text?.toList }
  | .equatable => { s with equatable := s.equatable ++ argument.text?.toList }
  | _ => s

def setFlag (s : Settings) (name : OptionName) : Settings :=
  match name with
  | .progress => { s with progress := true }
  | .verbose => { s with verbose := true }
  | _ => s

end Settings

/-- How far the run of expressions has been read. -/
inductive RunState where
  | awaited
  | open
  | closed
  deriving DecidableEq, Repr

structure Reading where
  settings : Settings := {}
  run : RunState := .awaited
  understood : Bool := true
  deriving Repr

namespace Reading

/-- Read a value outside an option, or the end of the options. -/
def addValue (r : Reading) (value : Option String) : Reading :=
  match r.run with
  | .closed => { r with understood := false }
  | _ => { r with
      run := .open
      settings := { r.settings with expressions := r.settings.expressions ++ value.toList } }

def endRun (r : Reading) : Reading :=
  if r.run = .open then { r with run := .closed } else r

def addFlags (r : Reading) (names : List OptionName) : Except Stop Reading :=
  if names.contains .help then .error .help
  else .ok { r with settings := names.foldl Settings.setFlag r.settings }

def addArgument (r : Reading) (name : OptionName) (argument : String) : Reading :=
  { r with settings := r.settings.setArgument name (.ofText argument) }

end Reading

/-- Take the arguments from left to right. -/
def readTokens (r : Reading) : List Token → Except Stop Reading
  | [] => .ok r
  | .value text :: rest => readTokens (r.addValue (some text)) rest
  | .endOfOptions :: rest => readTokens (r.addValue none) rest
  | .unknown :: rest => readTokens { r.endRun with understood := false } rest
  | .misused :: _ => .error .usage
  | .short names :: rest => do
    let r ← r.endRun.addFlags names
    readTokens r rest
  | .long name (some argument) :: rest =>
    if name.takesArgument then readTokens (r.endRun.addArgument name argument) rest
    else .error .usage
  | .long name none :: rest =>
    if name.takesArgument then
      match rest with
      | .value argument :: rest => readTokens (r.endRun.addArgument name argument) rest
      | _ => .error .usage
    else do
      let r ← r.endRun.addFlags [name]
      readTokens r rest

namespace Settings

def ofArguments? (arguments : List String) : Except Stop Settings := do
  let r ← readTokens {} (← tokens? arguments)
  if r.understood then return r.settings else .error .usage

end Settings

end Comparability.CommandLine
