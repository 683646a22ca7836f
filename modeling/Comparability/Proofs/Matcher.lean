import Mathlib.Algebra.BigOperators.Group.List.Basic
import Mathlib.Data.List.Flatten
import Mathlib.Data.List.Forall2
import Mathlib.Data.List.Nodup
import Comparability.Matcher

/-!
# Counting through matcher forms

The sequences of a parameter list are counted through like the numbers of a mixed radix: each
parameter is a digit with as many values as it has forms, and the first is the lowest one.

* `radix`, `stride` : the number of forms of a parameter, and the number of sequences after which
  the form at a place changes;
* `IsChoice parameter slot` : the slot is the parameter with one of its forms;
* `choices_getElem?` : the choice with a given number, digit by digit;
* `Weaker p q`, `picks` : a parameter of the same name with a weaker capability, and sequences
  without the kinds of their slots;
* `picks_sequences_sublist` : what weaker parameters can be matched by is found among what stronger
  ones can, in the same order.
-/

namespace Comparability.Matcher

variable {parameter : String × Capability} {parameters rest : List (String × Capability)}

/-- The number of forms of a parameter. -/
def radix (parameter : String × Capability) : Nat :=
  (Form.offered parameter.2).length

/-- The number of sequences that go by before the form of the parameter at a place changes. -/
def stride (parameters : List (String × Capability)) (place : Nat) : Nat :=
  ((parameters.take place).map radix).prod

structure IsChoice (parameter : String × Capability) (slot : Slot) : Prop where
  name : slot.name = parameter.1
  kind : slot.kind = .ofCapability parameter.2
  form : slot.form ∈ Form.offered parameter.2

/-! ## One parameter -/

theorem explicit_mem_offered (c : Capability) : Form.explicit ∈ Form.offered c := by
  cases c <;> decide

theorem nodup_offered (c : Capability) : (Form.offered c).Nodup := by
  cases c <;> decide

theorem radix_pos (parameter : String × Capability) : 0 < radix parameter :=
  List.length_pos_of_mem (explicit_mem_offered parameter.2)

@[simp] theorem length_slots (parameter : String × Capability) :
    (slots parameter).length = radix parameter :=
  List.length_map _

theorem slots_getElem? (parameter : String × Capability) (i : Nat) :
    (slots parameter)[i]? = (Form.offered parameter.2)[i]?.map fun form =>
      ⟨parameter.1, .ofCapability parameter.2, form⟩ :=
  List.getElem?_map

theorem nodup_slots (parameter : String × Capability) : (slots parameter).Nodup :=
  (nodup_offered parameter.2).map fun _ _ h => congrArg Slot.form h

theorem mem_slots_iff {slot : Slot} : slot ∈ slots parameter ↔ IsChoice parameter slot := by
  rw [slots, List.mem_map]
  constructor
  · rintro ⟨form, hf, rfl⟩
    exact ⟨rfl, rfl, hf⟩
  · rintro ⟨hn, hk, hf⟩
    exact ⟨slot.form, hf, by rw [← hn, ← hk]⟩

/-! ## All parameters -/

@[simp] theorem stride_zero : stride parameters 0 = 1 := rfl

@[simp] theorem stride_cons_succ (place : Nat) :
    stride (parameter :: rest) (place + 1) = radix parameter * stride rest place := by
  rw [stride, List.take_succ_cons, List.map_cons, List.prod_cons, stride]

theorem length_choices (parameters : List (String × Capability)) :
    (choices parameters).length = (parameters.map radix).prod := by
  induction parameters with
  | nil => rfl
  | cons parameter rest ih =>
    simp [choices, List.length_flatMap, ih, Nat.mul_comm]

/-- In parts of one length put one after the other, an index is that of a part and one within it. -/
theorem getElem?_flatMap_of_length {α β : Type} {f : α → List β} {r : Nat} (hr : 0 < r)
    (hf : ∀ a, (f a).length = r) (l : List α) (k : Nat) :
    (l.flatMap f)[k]? = l[k / r]?.bind fun a => (f a)[k % r]? := by
  induction l generalizing k with
  | nil => rfl
  | cons a l ih =>
    rw [List.flatMap_cons, List.getElem?_append, hf]
    split_ifs with hk
    · rw [Nat.div_eq_of_lt hk, Nat.mod_eq_of_lt hk]
      rfl
    · rw [ih, Nat.div_eq_sub_div hr (Nat.le_of_not_lt hk), Nat.mod_eq_sub_mod (Nat.le_of_not_lt hk)]
      rfl

/-- The forms of a choice are the digits of its number, the lowest that of the first parameter. -/
theorem choices_getElem? {k : Nat} {row : List Slot} (h : (choices parameters)[k]? = some row) :
    row.length = parameters.length ∧
      ∀ (j : Nat) (p : String × Capability), parameters[j]? = some p →
        row[j]? = (slots p)[k / stride parameters j % radix p]? := by
  induction parameters generalizing k row with
  | nil =>
    obtain rfl := List.mem_singleton.mp (List.mem_of_getElem? h)
    exact ⟨rfl, fun j p hp => by cases hp⟩
  | cons q rest ih =>
    rw [choices, getElem?_flatMap_of_length (radix_pos q) fun _ => by simp,
      Option.bind_eq_some_iff] at h
    obtain ⟨tail, htail, h⟩ := h
    rw [List.getElem?_map, Option.map_eq_some_iff] at h
    obtain ⟨slot, hslot, rfl⟩ := h
    obtain ⟨hlength, hdigits⟩ := ih htail
    refine ⟨congrArg Nat.succ hlength, fun j p hp => ?_⟩
    cases j with
    | zero =>
      obtain rfl := Option.some.inj hp
      rw [stride_zero, Nat.div_one]
      exact hslot.symm
    | succ j =>
      rw [stride_cons_succ, ← Nat.div_div_eq_div_mul]
      exact hdigits j p hp

theorem nodup_choices (parameters : List (String × Capability)) : (choices parameters).Nodup := by
  induction parameters with
  | nil => exact List.nodup_singleton []
  | cons parameter rest ih =>
    rw [choices, List.nodup_flatMap]
    refine ⟨fun tail _ => (nodup_slots parameter).map fun _ _ h => (List.cons.inj h).1, ?_⟩
    refine ih.imp fun {tail other} hne => ?_
    intro row htail hother
    obtain ⟨_, -, rfl⟩ := List.mem_map.mp htail
    obtain ⟨_, -, he⟩ := List.mem_map.mp hother
    exact hne (List.cons.inj he).2.symm

theorem mem_choices_iff {row : List Slot} :
    row ∈ choices parameters ↔ List.Forall₂ IsChoice parameters row := by
  induction parameters generalizing row with
  | nil => rw [choices, List.mem_singleton, List.forall₂_nil_left_iff]
  | cons parameter rest ih =>
    rw [choices, List.mem_flatMap, List.forall₂_cons_left_iff]
    simp only [List.mem_map, mem_slots_iff, ih]
    constructor
    · rintro ⟨tail, htail, slot, hslot, rfl⟩
      exact ⟨slot, tail, hslot, htail, rfl⟩
    · rintro ⟨slot, tail, hslot, htail, rfl⟩
      exact ⟨tail, htail, slot, hslot, rfl⟩

theorem choices_ne_nil (parameters : List (String × Capability)) : choices parameters ≠ [] := by
  have hchoice : List.Forall₂ IsChoice parameters
      (parameters.map fun p => ⟨p.1, .ofCapability p.2, .explicit⟩) := by
    rw [List.forall₂_map_right_iff, List.forall₂_same]
    intro p _
    exact ⟨rfl, rfl, explicit_mem_offered p.2⟩
  exact List.ne_nil_of_mem (mem_choices_iff.mpr hchoice)

theorem sequences_of_ne_nil (h : parameters ≠ []) : sequences parameters = choices parameters := by
  rw [sequences, if_neg fun he => h (List.isEmpty_iff.mp he)]

theorem sequences_eq_nil_iff : sequences parameters = [] ↔ parameters = [] := by
  cases parameters with
  | nil => exact iff_of_true rfl rfl
  | cons parameter rest => exact iff_of_false (choices_ne_nil _) (List.cons_ne_nil _ _)

/-- **The sequences count through the forms of the parameters**, the first one fastest. There are as
many as the product of the numbers of forms; the form at a place in the one with number `k` is given
by the digit of `k` there; no sequence comes twice, even where names do; and every choice of a form
for each parameter is one of them. -/
theorem sequences_enumerate (parameters : List (String × Capability)) (h : parameters ≠ []) :
    (sequences parameters).length =
      (parameters.map fun p => (Form.offered p.2).length).prod ∧
    (∀ k < (sequences parameters).length, ∃ row, (sequences parameters)[k]? = some row ∧
      row.length = parameters.length ∧
      ∀ (j : Nat) (p : String × Capability), parameters[j]? = some p → ∃ form,
        (Form.offered p.2)[k / stride parameters j % (Form.offered p.2).length]? = some form ∧
        row[j]? = some ⟨p.1, .ofCapability p.2, form⟩) ∧
    (sequences parameters).Nodup ∧
    ∀ row, row ∈ sequences parameters ↔ List.Forall₂ IsChoice parameters row := by
  rw [sequences_of_ne_nil h]
  refine ⟨length_choices parameters, fun k hk => ?_, nodup_choices parameters,
    fun row => mem_choices_iff⟩
  have hrow := List.getElem?_eq_getElem hk
  obtain ⟨hlength, hdigits⟩ := choices_getElem? hrow
  refine ⟨_, hrow, hlength, fun j p hp => ?_⟩
  have hdigit : k / stride parameters j % radix p < (Form.offered p.2).length :=
    Nat.mod_lt _ (radix_pos p)
  refine ⟨_, List.getElem?_eq_getElem hdigit, ?_⟩
  rw [hdigits j p hp, slots_getElem?, List.getElem?_eq_getElem hdigit]
  rfl

/-- Four parameters, two of them with one name: the ninth of twelve sequences, and one that is
chosen. -/
theorem sequences_of_repeated_name :
    ∃ parameters : List (String × Capability),
      parameters = [("x", .comparable), ("x", .equatable), ("y", .neither), ("z", .equatable)] ∧
      (sequences parameters).length = 12 ∧
      (∃ row, (sequences parameters)[8]? = some row ∧
        row[0]? = some ⟨"x", .comparable, .exact⟩ ∧ row[1]? = some ⟨"x", .equatable, .explicit⟩ ∧
        row[3]? = some ⟨"z", .equatable, .exact⟩) ∧
      (sequences parameters).Nodup ∧
      [⟨"x", .comparable, .range⟩, ⟨"x", .equatable, .exact⟩, ⟨"y", .notComparable, .explicit⟩,
        ⟨"z", .equatable, .explicit⟩] ∈ sequences parameters := by
  obtain ⟨hlength, hrows, hnodup, hmem⟩ := sequences_enumerate
    [("x", .comparable), ("x", .equatable), ("y", .neither), ("z", .equatable)]
    (List.cons_ne_nil _ _)
  have hlength : (sequences [("x", .comparable), ("x", .equatable), ("y", .neither),
      ("z", .equatable)]).length = 12 := hlength
  obtain ⟨row, hrow, -, hforms⟩ := hrows 8 (by rw [hlength]; decide)
  refine ⟨_, rfl, hlength, ⟨row, hrow, ?_, ?_, ?_⟩, hnodup, (hmem _).mpr ?_⟩
  · obtain ⟨form, hf, hslot⟩ := hforms 0 ("x", .comparable) rfl
    obtain rfl := Option.some.inj hf
    exact hslot
  · obtain ⟨form, hf, hslot⟩ := hforms 1 ("x", .equatable) rfl
    obtain rfl := Option.some.inj hf
    exact hslot
  · obtain ⟨form, hf, hslot⟩ := hforms 3 ("z", .equatable) rfl
    obtain rfl := Option.some.inj hf
    exact hslot
  · exact .cons ⟨rfl, rfl, by decide⟩ (.cons ⟨rfl, rfl, by decide⟩
      (.cons ⟨rfl, rfl, by decide⟩ (.cons ⟨rfl, rfl, by decide⟩ .nil)))

/-! ## Stronger parameters -/

/-- A parameter of the same name whose type supports no more. -/
structure Weaker (p q : String × Capability) : Prop where
  name : p.1 = q.1
  capability : p.2 ≤ q.2

def Slot.pick (slot : Slot) : String × Form :=
  (slot.name, slot.form)

/-- Sequences without the kinds of their slots. -/
def picks (sequences : List (List Slot)) : List (List (String × Form)) :=
  sequences.map fun row => row.map Slot.pick

theorem offered_sublist {a b : Capability} (h : a ≤ b) :
    (Form.offered a).Sublist (Form.offered b) := by
  revert h
  cases a <;> cases b <;> decide

theorem picks_choices_cons (parameter : String × Capability)
    (rest : List (String × Capability)) :
    picks (choices (parameter :: rest)) = (picks (choices rest)).flatMap fun tail =>
      (Form.offered parameter.2).map fun form => (parameter.1, form) :: tail := by
  simp [picks, choices, slots, List.map_flatMap, List.flatMap_map, Function.comp_def, Slot.pick]

theorem picks_choices_sublist {stronger : List (String × Capability)}
    (h : List.Forall₂ Weaker parameters stronger) :
    (picks (choices parameters)).Sublist (picks (choices stronger)) := by
  induction h with
  | nil => exact List.Sublist.refl _
  | @cons p q ps qs hp _ ih =>
    rw [picks_choices_cons, picks_choices_cons, hp.name]
    refine (ih.flatMap _).trans (List.Sublist.flatMap_right _ fun tail _ => ?_)
    exact (offered_sublist hp.capability).map _

/-- **Stronger parameters keep the combinations of weaker ones**, in their order. -/
theorem picks_sequences_sublist {stronger : List (String × Capability)}
    (h : List.Forall₂ Weaker parameters stronger) :
    (picks (sequences parameters)).Sublist (picks (sequences stronger)) := by
  cases h with
  | nil => exact List.Sublist.refl _
  | cons hp hps => exact picks_choices_sublist (.cons hp hps)

end Comparability.Matcher
