import Comparability.Capability
import Comparability.Names.Builtin
import Comparability.Text.Blank

/-!
# Name tables

A table lists the names of comparable types and those of equatable types. Lookup is exact; a name in
both lists is comparable. Names are normalised when the table is built, in the way in which the
scanner writes a leaf: without blanks and optional marks.
-/

namespace Comparability.Names

/-- A name as the scanner writes it. -/
def canonical (name : String) : String :=
  String.ofList (name.toList.filter fun c => !Text.isBlank c && c != '?')

/-- The normalised names of a list, those left out of which nothing remains. -/
def canonicalAll (names : List String) : List String :=
  (names.map canonical).filter fun name => name ≠ ""

/-- The names that a caller adds to the built-in ones. -/
structure Additions where
  associatedComparable : List String := []
  associatedEquatable : List String := []
  additionalComparable : List String := []
  additionalEquatable : List String := []
  deriving DecidableEq, Repr

/-- The names with a known capability. -/
structure Table where
  comparable : List String
  equatable : List String
  deriving DecidableEq, Repr

namespace Table

/-- The built-in names together with what a caller adds. -/
def build (additions : Additions) : Table where
  comparable := builtinComparable ++ canonicalAll additions.associatedComparable ++
    canonicalAll additions.additionalComparable
  equatable := builtinEquatable ++ canonicalAll additions.associatedEquatable ++
    canonicalAll additions.additionalEquatable

/-- The capability of a name; the stronger list decides. -/
def classify (table : Table) (name : String) : Capability :=
  if table.comparable.contains name then .comparable
  else if table.equatable.contains name then .equatable
  else .neither

def contains (table : Table) (name : String) : Bool :=
  table.comparable.contains name || table.equatable.contains name

end Table

end Comparability.Names
