import Comparability.Names.Constraint
import Comparability.Text.Search
import Comparability.Text.Span

/-!
# Declarations

A declaration has members with typed parameters and a return type, and associated types. A
`WrittenType` is the text of a type expression with its span in the source of the declaration;
`WrittenType.locate?` finds that span.
-/

namespace Comparability

namespace Declaration

open Text (Span OffsetFault)

/-- Why a written type has no place. -/
inductive WrittenTypeFault where
  | offset (fault : OffsetFault)
  | notFound (text : String)
  deriving DecidableEq, Repr

def WrittenTypeFault.message : WrittenTypeFault → String
  | offset fault => fault.message
  | notFound text => "Type annotation `" ++ text ++ "` not found in source"

/-- A type expression as written, with its place in the source. -/
structure WrittenType where
  text : String
  span : Span
  deriving DecidableEq, Repr

namespace WrittenType

def ofOffset (text : String) (offset : Nat) : WrittenType :=
  ⟨text, Span.ofLength offset text.length⟩

def ofOffset? (text : String) (offset : Int) : Except WrittenTypeFault WrittenType :=
  match Text.offset? offset with
  | .ok n => .ok (ofOffset text n)
  | .error fault => .error (.offset fault)

/-- The type with a span between two given numbers. -/
def ofOffsets? (text : String) (start stop : Int) : Except WrittenTypeFault WrittenType :=
  match Span.ofOffsets? start stop with
  | .ok span => .ok ⟨text, span⟩
  | .error fault => .error (.offset fault)

/-- The leftmost occurrence of the text in a source at or after a start. -/
def locate? (source text : String) (start : Int := 0) : Except WrittenTypeFault WrittenType :=
  match Text.find? source text start with
  | some offset => .ok (ofOffset text offset)
  | none => .error (.notFound text)

end WrittenType

structure Parameter where
  name : String
  type : WrittenType
  deriving DecidableEq, Repr

inductive MemberKind where
  | function
  | property
  | other (text : String)
  deriving DecidableEq, Repr

namespace MemberKind

def ofName (text : String) : MemberKind :=
  if text = "function" then function else if text = "property" then property else other text

def name : MemberKind → String
  | function => "function"
  | property => "property"
  | other text => text

@[simp] theorem name_ofName (text : String) : (ofName text).name = text := by
  unfold ofName
  split
  · simp_all [name]
  · split <;> simp_all [name]

end MemberKind

/-- A requirement of a declaration. For a property the return type is the type of the property. -/
structure Member where
  name : String
  kind : MemberKind := .function
  parameters : List Parameter := []
  returnType : Option WrittenType := none
  deriving DecidableEq, Repr

end Declaration

/-- A named group of members with its associated types. -/
structure Declaration where
  name : String
  members : List Declaration.Member := []
  associatedTypes : List Names.AssociatedType := []
  deriving DecidableEq, Repr

end Comparability
