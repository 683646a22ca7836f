/-!
# Capabilities

What can be done with the values of a type: nothing, test two of them for equality, or also put them
in order. The three form a chain.

* `sequence` : the capability of an array or a set of such elements;
* `dictionary` : of a dictionary with such keys and values;
* `optional` : of an optional value;
* `strongest` : the join of a list, `neither` for none.
-/

namespace Comparability

/-- What can be done with the values of a type, from the least to the most. -/
inductive Capability where
  | neither
  | equatable
  | comparable
  deriving DecidableEq, Repr

namespace Capability

def all : List Capability :=
  [neither, equatable, comparable]

def rank : Capability → Nat
  | neither => 0
  | equatable => 1
  | comparable => 2

def name : Capability → String
  | neither => "neither"
  | equatable => "only_equatable"
  | comparable => "comparable_and_equatable"

def isEquatable : Capability → Bool
  | neither => false
  | equatable => true
  | comparable => true

def isComparable : Capability → Bool
  | comparable => true
  | _ => false

instance : LE Capability := ⟨fun a b => a.rank ≤ b.rank⟩

instance : LT Capability := ⟨fun a b => a.rank < b.rank⟩

instance (a b : Capability) : Decidable (a ≤ b) := inferInstanceAs (Decidable (a.rank ≤ b.rank))

instance (a b : Capability) : Decidable (a < b) := inferInstanceAs (Decidable (a.rank < b.rank))

/-- Sequences are never ordered; they are equatable when their elements are. -/
def sequence (element : Capability) : Capability :=
  if element.isEquatable then equatable else neither

/-- Dictionaries are never ordered; they are equatable when keys and values both are. -/
def dictionary (key value : Capability) : Capability :=
  if key.isEquatable && value.isEquatable then equatable else neither

/-- An optional value can do what the value can. -/
def optional (inner : Capability) : Capability :=
  inner

variable {a b c d : Capability}

theorem neither_le (a : Capability) : neither ≤ a :=
  Nat.zero_le _

theorem isEquatable_iff : a.isEquatable = true ↔ 1 ≤ a.rank := by
  cases a <;> decide

theorem isEquatable_of_le (h : a ≤ b) (ha : a.isEquatable = true) : b.isEquatable = true := by
  rw [isEquatable_iff] at ha ⊢
  exact Nat.le_trans ha h

theorem sequence_mono (h : a ≤ b) : a.sequence ≤ b.sequence := by
  unfold sequence
  split
  · next ha =>
    rw [if_pos (isEquatable_of_le h ha)]
    exact Nat.le_refl _
  · exact neither_le _

theorem dictionary_mono (hk : a ≤ b) (hv : c ≤ d) : a.dictionary c ≤ b.dictionary d := by
  unfold dictionary
  simp only [Bool.and_eq_true]
  split
  · next ha =>
    rw [if_pos ⟨isEquatable_of_le hk ha.1, isEquatable_of_le hv ha.2⟩]
    exact Nat.le_refl _
  · exact neither_le _

def join (a b : Capability) : Capability :=
  if a.rank < b.rank then b else a

/-- The strongest of a list, and `neither` for the empty list. -/
def strongest (capabilities : List Capability) : Capability :=
  capabilities.foldr join neither

end Capability

end Comparability
