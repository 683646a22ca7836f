import Comparability.Text.Span

/-!
# Containers and the frames of a parse stack

An `Opener` is the text that begins a container, with what may separate and close it. While a type
expression is read, the parse stack holds an `OpenContainer` for each container that has not been
closed, the finished operands, and the keys that wait for the value of their dictionary.
-/

namespace Comparability.TypeExpr

open Text (Span)

/-- The kinds of container. A bracket is undetermined until a separator makes it a dictionary. -/
inductive ContainerKind where
  | array
  | set
  | dictionary
  | undetermined
  deriving DecidableEq, Repr

namespace ContainerKind

def all : List ContainerKind :=
  [array, set, dictionary, undetermined]

def name : ContainerKind → String
  | array => "array"
  | set => "set"
  | dictionary => "dictionary"
  | undetermined => "undetermined"

/-- A container of this kind holds one element type. A bracket closed before any separator does. -/
def isSequence : ContainerKind → Bool
  | dictionary => false
  | _ => true

end ContainerKind

/-- The text that begins a container. -/
structure Opener where
  text : String
  kind : ContainerKind
  closer : String
  separators : List String
  deriving DecidableEq, Repr

namespace Opener

def array : Opener :=
  ⟨"Array<", .array, ">", []⟩

def set : Opener :=
  ⟨"Set<", .set, ">", []⟩

/-- The dictionary written out, whose key ends at a comma or a colon. -/
def dictionary : Opener :=
  ⟨"Dictionary<", .dictionary, ">", [",", ":"]⟩

/-- The bracket: an array, or a dictionary whose key ends at a colon. -/
def bracket : Opener :=
  ⟨"[", .undetermined, "]", [":"]⟩

def all : List Opener :=
  [array, set, dictionary, bracket]

theorem mem_all {opener : Opener} :
    opener ∈ all ↔
      opener = array ∨ opener = set ∨ opener = dictionary ∨ opener = bracket := by
  simp [all]

/-- A separator is that of a dictionary or of a bracket. -/
theorem eq_of_separator {opener : Opener} (ho : opener ∈ all) {c : Char}
    (hs : String.singleton c ∈ opener.separators) :
    opener = dictionary ∧ (c = ',' ∨ c = ':') ∨ opener = bracket ∧ c = ':' := by
  have hc : ∀ {d : Char}, String.singleton c = String.singleton d → c = d := by
    intro d h
    simpa using congrArg String.toList h
  rcases mem_all.mp ho with rfl | rfl | rfl | rfl
  · exact absurd hs List.not_mem_nil
  · exact absurd hs List.not_mem_nil
  · simp only [dictionary, List.mem_cons, List.not_mem_nil, or_false] at hs
    exact .inl ⟨rfl, hs.imp hc hc⟩
  · exact .inr ⟨rfl, hc (List.mem_singleton.mp hs)⟩

end Opener

def closers : List Char :=
  [']', '>']

/-- The characters that separate a key from its value. -/
def separators : List Char :=
  [',', ':']

theorem mem_closers {c : Char} : c ∈ closers ↔ c = ']' ∨ c = '>' := by
  simp [closers]

theorem mem_separators {c : Char} : c ∈ separators ↔ c = ',' ∨ c = ':' := by
  simp [separators]

/-- A container whose closing delimiter has not been read yet. -/
structure OpenContainer where
  kind : ContainerKind
  closer : String
  separators : List String
  span : Span
  deriving DecidableEq, Repr

namespace OpenContainer

/-- The frame of an opener that was read at a span. -/
def ofOpener (opener : Opener) (span : Span) : OpenContainer :=
  ⟨opener.kind, opener.closer, opener.separators, span⟩

def accepts (frame : OpenContainer) (separator : String) : Bool :=
  frame.separators.contains separator

def asDictionary (frame : OpenContainer) : OpenContainer :=
  { frame with kind := .dictionary }

/-- The frame once a separator was read in it: an undetermined bracket opens a dictionary. -/
def separated (frame : OpenContainer) : OpenContainer :=
  if frame.kind = .undetermined then frame.asDictionary else frame

/-- The frame may be closed around a single element. -/
def isSequence (frame : OpenContainer) : Bool :=
  frame.kind.isSequence

end OpenContainer

structure Operand (α : Type) where
  value : α
  span : Span
  deriving DecidableEq, Repr

inductive Frame (α : Type) where
  | opened (frame : OpenContainer)
  | operand (operand : Operand α)
  | key (operand : Operand α)
  deriving DecidableEq, Repr

namespace Frame

variable {α : Type}

def span : Frame α → Span
  | opened frame => frame.span
  | operand o => o.span
  | key o => o.span

/-- A finished operand as the key of a dictionary. -/
def toKey? : Frame α → Option (Frame α)
  | operand o => some (key o)
  | key o => some (key o)
  | opened _ => none

def opened? : Frame α → Option OpenContainer
  | opened frame => some frame
  | _ => none

end Frame

end Comparability.TypeExpr
