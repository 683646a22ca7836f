import Comparability.Capability
import Comparability.Text.Blank
import Comparability.Text.Pieces

/-!
# Constraints of associated types

An associated type inherits constraint clauses. A clause may compose several constraints with `&`,
and promises what its strongest component promises; a declaration promises what its strongest
clause does.
-/

namespace Comparability.Names

/-- An associated type with its constraint clauses, as written. -/
structure AssociatedType where
  name : String
  inherited : List String := []
  deriving DecidableEq, Repr

def components (clause : String) : List String :=
  (Text.pieces '&' clause).map Text.trim

def clauseCapability (clause : String) : Capability :=
  if (components clause).contains "Comparable" then .comparable
  else if (components clause).contains "Equatable" then .equatable
  else .neither

namespace AssociatedType

/-- What a declaration promises. -/
def capability (declaration : AssociatedType) : Capability :=
  Capability.strongest (declaration.inherited.map clauseCapability)

/-- The names, without the blanks around them, of the declarations that promise just this. -/
def namesOf (declarations : List AssociatedType) (capability : Capability) : List String :=
  (declarations.filter fun declaration => declaration.capability = capability).map fun declaration =>
    Text.trim declaration.name

end AssociatedType

end Comparability.Names
