import Comparability.Capability

/-!
# Matcher forms

A parameter can always be matched by an explicit matcher, by an exact value when its type is
equatable, and by a range when it is comparable. `sequences` combines the forms of a list of
parameters in every way, the first parameter varying fastest.
-/

namespace Comparability.Matcher

inductive Form where
  | explicit
  | range
  | exact
  deriving DecidableEq, Repr

/-- What the type of a parameter supports. -/
inductive ParameterKind where
  | comparable
  | equatable
  | notComparable
  deriving DecidableEq, Repr

namespace Form

def all : List Form :=
  [explicit, range, exact]

def name : Form → String
  | explicit => "explicit_matcher"
  | range => "range"
  | exact => "exact"

/-- The forms that a capability offers. -/
def offered : Capability → List Form
  | .comparable => [explicit, range, exact]
  | .equatable => [explicit, exact]
  | .neither => [explicit]

end Form

namespace ParameterKind

def all : List ParameterKind :=
  [comparable, equatable, notComparable]

def name : ParameterKind → String
  | comparable => "comparable"
  | equatable => "only_equatable"
  | notComparable => "not_comparable"

/-- The kind of a parameter with this capability. -/
def ofCapability : Capability → ParameterKind
  | .comparable => comparable
  | .equatable => equatable
  | .neither => notComparable

end ParameterKind

structure Slot where
  name : String
  kind : ParameterKind
  form : Form
  deriving DecidableEq, Repr

/-- A parameter with each of the forms that its capability offers. -/
def slots (parameter : String × Capability) : List Slot :=
  (Form.offered parameter.2).map fun form => ⟨parameter.1, .ofCapability parameter.2, form⟩

/-- Every choice of one slot for each parameter, the first varying fastest. -/
def choices : List (String × Capability) → List (List Slot)
  | [] => [[]]
  | parameter :: rest => (choices rest).flatMap fun tail => (slots parameter).map (· :: tail)

/-- Every combination of forms across a parameter list. No parameters yield no sequences. -/
def sequences (parameters : List (String × Capability)) : List (List Slot) :=
  if parameters.isEmpty then [] else choices parameters

end Comparability.Matcher
