import Comparability.CommandLine.Arguments
import Comparability.CommandLine.Report
import Comparability.Config.Load
import Comparability.Session

/-!
# Running the command line

The expressions are those of the arguments and after them those of the file. The classifier knows
the built-in names, those of the configuration file and those of the arguments. What reads the
files is a parameter.
-/

namespace Comparability.CommandLine

open Config (LoadFault Options)

inductive Outcome where
  | stopped (stop : Stop)
  | noExpressions
  /-- an option that names a file was given a blank argument -/
  | unnamed (name : OptionName)
  | unread (fault : ReadFault)
  | notConfigured (fault : LoadFault)
  | report (report : Report)
  deriving Repr

def noExpressionsMessage : String :=
  "No type expressions given"

def Settings.options (settings : Settings) : Options :=
  ⟨settings.comparable, settings.equatable⟩

/-- The report about expressions under configured options and those of the arguments. -/
def reportOf (configured : Options) (settings : Settings) (expressions : List String) : Report :=
  Report.ofExpressions (classifierOf [] (configured.merge settings.options)) expressions

variable {m : Type → Type} [Monad m]

def fileExpressions (read : String → m (Except ReadFault String)) (settings : Settings) :
    m (Except Outcome (List String)) := do
  match settings.file with
  | none => return .ok []
  | some .blank => return .error (.unnamed .file)
  | some (.text path) => return ((← read path).map readExpressions).mapError .unread

def configuredOptions (read : String → m (Except ReadFault String)) (settings : Settings) :
    m (Except Outcome Options) := do
  match settings.config with
  | none => return .ok {}
  | some .blank => return .error (.unnamed .config)
  | some (.text path) => return (← Options.load read path).mapError .notConfigured

def runSettings (read : String → m (Except ReadFault String)) (settings : Settings) :
    m Outcome := do
  match ← fileExpressions read settings with
  | .error outcome => return outcome
  | .ok fromFile =>
    match settings.expressions ++ fromFile with
    | [] => return .noExpressions
    | expressions =>
      match ← configuredOptions read settings with
      | .error outcome => return outcome
      | .ok configured => return .report (reportOf configured settings expressions)

def run (read : String → m (Except ReadFault String)) (arguments : List String) : m Outcome := do
  match Settings.ofArguments? arguments with
  | .error stop => return .stopped stop
  | .ok settings => runSettings read settings

end Comparability.CommandLine
