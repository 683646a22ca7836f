import Comparability.Config.Options
import Comparability.Names.Constraint
import Comparability.Names.Table
import Comparability.TypeExpr.Resolution

/-!
# Sessions

A session collects associated types and options, and classifies names by everything it has been
given so far. Entries that are no options leave it as it was.
-/

namespace Comparability

open Config (Options OptionsFault Entries)
open Names (Additions AssociatedType Table)

/-- The names that associated types and options add to the built-in ones. -/
def additionsOf (associatedTypes : List AssociatedType) (options : Options) : Additions where
  associatedComparable := AssociatedType.namesOf associatedTypes .comparable
  associatedEquatable := AssociatedType.namesOf associatedTypes .equatable
  additionalComparable := options.comparableTypes
  additionalEquatable := options.equatableTypes

/-- The classifier of the built-in names, the associated types and the options. -/
def classifierOf (associatedTypes : List AssociatedType) (options : Options) : Classifier :=
  (Table.build (additionsOf associatedTypes options)).classify

/-- What a session has been given so far. -/
structure Session where
  options : Options := {}
  associatedTypes : List AssociatedType := []
  deriving DecidableEq, Repr

namespace Session

def configure? (s : Session) (entries : Entries) : Except OptionsFault Session := do
  return { s with options := s.options.merge (← Options.ofEntries? entries) }

def associate (s : Session) (declaration : AssociatedType) : Session :=
  { s with associatedTypes := s.associatedTypes ++ [declaration] }

/-- The classifier of everything the session has been given. -/
def classifier (s : Session) : Classifier :=
  classifierOf s.associatedTypes s.options

end Session

end Comparability
