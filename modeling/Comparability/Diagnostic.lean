import Comparability.Text.Span

/-!
# Diagnostics

A diagnostic is a coded message about a span of a source. `collect` puts groups of them in one list,
`anyError` asks whether one of them is an error, and `sort` orders them by start, stop, code and
message, leaving those that agree in all four in the order in which they came.
-/

namespace Comparability

open Text (Span)

inductive Severity where
  | error
  | warning
  deriving DecidableEq, Repr

def Severity.name : Severity → String
  | .error => "error"
  | .warning => "warning"

/-- What all diagnostics of one kind share. -/
structure DiagnosticKind where
  code : String
  message : String
  hint : Option String := none
  severity : Severity := .error
  category : Option String := none
  deriving DecidableEq, Repr

/-- A message about a span of a source. -/
@[ext] structure Diagnostic where
  code : String
  message : String
  span : Span
  severity : Severity := .error
  hint : Option String := none
  category : Option String := none
  deriving DecidableEq, Repr

namespace DiagnosticKind

def malformedType : DiagnosticKind where
  code := "TYPE_EXPRESSION_MALFORMED"
  message := "Unable to parse type expression."
  hint := some ("Check that every `[`, `Array<`, `Set<` and `Dictionary<` is closed and that " ++
    "dictionaries have a key and a value type.")
  severity := .error
  category := some "resolver"

/-- Nothing was planned for a member because one of its annotations is malformed. -/
def blockedMember : DiagnosticKind where
  code := "MEMBER_SURFACE_BLOCKED"
  message := "Verification surface was not generated for member."
  hint := some "Fix the malformed type annotation reported for this member."
  severity := .warning
  category := some "pipeline"

def all : List DiagnosticKind :=
  [malformedType, blockedMember]

/-- The diagnostic of this kind about a span, with `detail` after the message of the kind. -/
def report (kind : DiagnosticKind) (detail : String) (span : Span) : Diagnostic where
  code := kind.code
  message := kind.message ++ " " ++ detail
  span := span
  severity := kind.severity
  hint := kind.hint
  category := kind.category

end DiagnosticKind

namespace Diagnostic

/-- The same diagnostic in a source where the text begins at `delta`. -/
def moved (d : Diagnostic) (delta : Nat) : Diagnostic :=
  { d with span := d.span.shift delta }

/-- The order by start, stop, code and message. -/
def le (a b : Diagnostic) : Bool :=
  decide (a.span.start < b.span.start ∨ a.span.start = b.span.start ∧
    (a.span.stop < b.span.stop ∨ a.span.stop = b.span.stop ∧
      (a.code < b.code ∨ a.code = b.code ∧ a.message ≤ b.message)))

/-- The diagnostics of all groups, one group after the other. -/
def collect (groups : List (List Diagnostic)) : List Diagnostic :=
  groups.flatten

def anyError (diagnostics : List Diagnostic) : Bool :=
  diagnostics.any fun d => d.severity == .error

/-- The diagnostics in order; those with equal keys keep their order. -/
def sort (diagnostics : List Diagnostic) : List Diagnostic :=
  diagnostics.mergeSort le

end Diagnostic

end Comparability
