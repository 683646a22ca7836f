import Comparability.Capability
import Comparability.Diagnostic
import Comparability.TypeExpr.Scan

/-!
# Resolving a type expression

`resolve` finds the capability of a type expression under a classifier of its leaf names. A
malformed expression is part of the answer: `Malformed` keeps the text, the reason and the span,
and writes the error text and the diagnostic.
-/

namespace Comparability

/-- The capability of each leaf name. -/
abbrev Classifier := String → Capability

namespace TypeExpr

open Text (Span)

/-- Leaves have the capability of their name, and containers that of their parts. -/
def capabilityMeaning (classify : Classifier) : Meaning Capability where
  leaf := classify
  sequence := Capability.sequence
  dictionary := Capability.dictionary
  optional := Capability.optional

/-- A type expression that could not be read. -/
structure Malformed where
  expression : String
  reason : Reason
  span : Span
  deriving DecidableEq, Repr

namespace Malformed

def excerpt (e : Malformed) : String :=
  e.span.slice e.expression

def message (e : Malformed) : String :=
  "Unable to parse type `" ++ e.expression ++ "`: " ++ e.reason.message ++ " at " ++
    toString e.span.start ++ ".." ++ toString e.span.stop

/-- The diagnostic, in the coordinates of the expression. -/
def diagnostic (e : Malformed) : Diagnostic :=
  DiagnosticKind.malformedType.report
    ("In `" ++ e.expression ++ "`: " ++ e.reason.message ++ ".") e.span

end Malformed

structure Resolution where
  expression : String
  outcome : Except Malformed Capability
  deriving Repr

/-- A resolution was given neither a capability nor an error, or both. -/
inductive ResolutionFault where
  | notExactlyOne
  deriving DecidableEq, Repr

def ResolutionFault.message : ResolutionFault → String
  | .notExactlyOne => "ResolveResult needs exactly one of conformance or error"

namespace Resolution

/-- The answer made of a capability or an error, of which exactly one must be given. -/
def ofParts? (expression : String) :
    Option Capability → Option Malformed → Except ResolutionFault Resolution
  | some capability, none => .ok ⟨expression, .ok capability⟩
  | none, some error => .ok ⟨expression, .error error⟩
  | _, _ => .error .notExactlyOne

def isOk (r : Resolution) : Bool :=
  match r.outcome with
  | .ok _ => true
  | .error _ => false

def capability? (r : Resolution) : Option Capability :=
  match r.outcome with
  | .ok capability => some capability
  | .error _ => none

def error? (r : Resolution) : Option Malformed :=
  match r.outcome with
  | .ok _ => none
  | .error error => some error

/-- One diagnostic for a malformed expression, none for a well-formed one. -/
def diagnostics (r : Resolution) : List Diagnostic :=
  r.error?.toList.map Malformed.diagnostic

end Resolution

/-- The capability of a type expression, or what is wrong with it. -/
def resolve (classify : Classifier) (expression : String) : Resolution :=
  match scan (capabilityMeaning classify) expression with
  | .ok (capability, _) => ⟨expression, .ok capability⟩
  | .error fault => ⟨expression, .error ⟨expression, fault.reason, fault.span⟩⟩

def resolveAll (classify : Classifier) (expressions : List String) : List Resolution :=
  expressions.map (resolve classify)

end TypeExpr

end Comparability
