import Comparability.Text.Blank
import Comparability.Text.Lines
import Comparability.TypeExpr.Resolution

/-!
# Expression files and reports

A file of expressions has one on a line; blank lines and lines that begin with `#` are left out. A
report has one record for each expression: the expression, and after a tab the name of its
capability, or `error` and the error text.
-/

namespace Comparability.CommandLine

open TypeExpr (Resolution resolveAll)

/-- The line holds an expression: it is not blank and no comment. -/
def holdsExpression (line : String) : Bool :=
  match line.toList.dropWhile Text.isBlank with
  | [] => false
  | c :: _ => c ≠ '#'

def readExpressions (text : String) : List String :=
  ((Text.lines text).filter holdsExpression).map Text.trim

def record (r : Resolution) : String :=
  match r.outcome with
  | .ok capability => r.expression ++ "\t" ++ capability.name
  | .error e => r.expression ++ "\terror\t" ++ e.message

structure Report where
  resolutions : List Resolution
  deriving Repr

namespace Report

def ofExpressions (classify : Classifier) (expressions : List String) : Report :=
  ⟨resolveAll classify expressions⟩

def records (report : Report) : List String :=
  report.resolutions.map record

def text (report : Report) : String :=
  String.join (report.records.map (· ++ "\n"))

/-- One if an expression is malformed, and zero otherwise. -/
def exitCode (report : Report) : Nat :=
  if report.resolutions.all Resolution.isOk then 0 else 1

end Report

end Comparability.CommandLine
