import Comparability.CommandLine.Run

/-!
# The program

Reads the files that the arguments name, and prints the report, the help, or what is wrong.
-/

namespace Comparability.CommandLine

def usageText : String :=
  "usage: comparability [-h] [--file FILE] [--config CONFIG] [--comparable TYPE]\n" ++
    "                     [--equatable TYPE] [--progress] [-v] [expressions ...]\n"

def readFaultOf : IO.Error → ReadFault
  | .noFileOrDirectory .. => .notFound
  | .inappropriateType .. => .isFolder
  | .userError _ => .notText
  | _ => .unreadable

def describeFault : ReadFault → String
  | .notFound => "no such file"
  | .isFolder => "is a folder"
  | .notAFolder => "not a folder"
  | .nullCharacter => "null character in path"
  | .tooLong => "path too long"
  | .notText => "not a text"
  | .unreadable => "cannot be read"

def describeLoadFault : Config.LoadFault → String
  | .unread fault => describeFault fault
  | fault => fault.message?.getD "malformed document"

def readText (path : String) : IO (Except ReadFault String) := do
  try
    return .ok (← IO.FS.readFile (Folder.Path.ofText path).toText)
  catch error =>
    return .error (readFaultOf error)

/-- Print how a run ends, and give the exit code. -/
def present : Outcome → IO UInt32
  | .stopped .help => do
    IO.print usageText
    return 0
  | .stopped .usage => do
    IO.eprint usageText
    return 2
  | .noExpressions => do
    IO.eprintln noExpressionsMessage
    return 1
  | .unnamed _ => do
    IO.eprintln "no file is named"
    return 1
  | .unread fault => do
    IO.eprintln (describeFault fault)
    return 1
  | .notConfigured fault => do
    IO.eprintln (describeLoadFault fault)
    return 1
  | .report report => do
    IO.print report.text
    return report.exitCode.toUInt32

end Comparability.CommandLine

def main (arguments : List String) : IO UInt32 := do
  Comparability.CommandLine.present
    (← Comparability.CommandLine.run Comparability.CommandLine.readText arguments)
