import Mathlib.Tactic.Common
import Comparability.Text.Search

/-!
# Occurrences of a text

* `Occurs source text p` : the text is read in the source from position `p` on;
* `first_of_find?` : what is found is the leftmost occurrence that begins at or after the start;
* `exists_find?_iff` : something is found where there is such an occurrence;
* `clampStart_eq` : a start below the beginning of the source stands for the beginning.
-/

namespace Comparability.Text

def Occurs (source text : List Char) (p : Nat) : Prop :=
  ∃ before after, source = before ++ text ++ after ∧ before.length = p

variable {source text rest : List Char} {c : Char} {k p first offset : Nat}

theorem occurs_zero_iff : Occurs source text 0 ↔ text.isPrefixOf source = true := by
  rw [List.isPrefixOf_iff_prefix]
  constructor
  · rintro ⟨before, after, rfl, hp⟩
    obtain rfl := List.length_eq_zero_iff.mp hp
    exact List.prefix_append text after
  · rintro ⟨after, rfl⟩
    exact ⟨[], after, rfl, rfl⟩

theorem occurs_cons_succ_iff : Occurs (c :: rest) text (k + 1) ↔ Occurs rest text k := by
  constructor
  · rintro ⟨before, after, ht, hp⟩
    obtain ⟨d, before, rfl⟩ := List.exists_cons_of_length_eq_add_one hp
    exact ⟨before, after, (List.cons.inj ht).2, Nat.succ.inj hp⟩
  · rintro ⟨before, after, rfl, rfl⟩
    exact ⟨c :: before, after, rfl, rfl⟩

theorem Occurs.add_length_le (h : Occurs source text p) : p + text.length ≤ source.length := by
  obtain ⟨before, after, rfl, rfl⟩ := h
  simp

theorem occurs_drop_iff (h : first ≤ source.length) :
    Occurs (source.drop first) text k ↔ Occurs source text (first + k) := by
  induction source generalizing first with
  | nil =>
    obtain rfl := Nat.le_zero.mp h
    rw [List.drop_zero, Nat.zero_add]
  | cons c source ih =>
    cases first with
    | zero => rw [List.drop_zero, Nat.zero_add]
    | succ first =>
      rw [List.drop_succ_cons, Nat.add_right_comm, occurs_cons_succ_iff]
      exact ih (Nat.le_of_succ_le_succ h)

/-! ## The search -/

theorem first_of_findFrom? (h : findFrom? text rest offset = some p) :
    ∃ k, p = offset + k ∧ Occurs rest text k ∧ ∀ j < k, ¬ Occurs rest text j := by
  induction rest generalizing offset with
  | nil =>
    rw [findFrom?] at h
    split_ifs at h with ht
    obtain rfl := Option.some.inj h
    obtain rfl := List.isEmpty_iff.mp ht
    exact ⟨0, rfl, occurs_zero_iff.mpr rfl, fun j hj => absurd hj j.not_lt_zero⟩
  | cons c rest ih =>
    rw [findFrom?] at h
    split_ifs at h with ht
    · obtain rfl := Option.some.inj h
      exact ⟨0, rfl, occurs_zero_iff.mpr ht, fun j hj => absurd hj j.not_lt_zero⟩
    · obtain ⟨k, rfl, ho, hfirst⟩ := ih h
      refine ⟨k + 1, by omega, occurs_cons_succ_iff.mpr ho, fun j hj => ?_⟩
      cases j with
      | zero => exact occurs_zero_iff.not.mpr ht
      | succ j => exact occurs_cons_succ_iff.not.mpr (hfirst j (Nat.lt_of_succ_lt_succ hj))

theorem not_occurs_of_findFrom? (h : findFrom? text rest offset = none) (k : Nat) :
    ¬ Occurs rest text k := by
  induction rest generalizing offset k with
  | nil =>
    rw [findFrom?] at h
    split_ifs at h with ht
    intro ho
    exact ht (List.isEmpty_iff.mpr (List.eq_nil_of_length_eq_zero
      (Nat.le_zero.mp (Nat.le_trans (Nat.le_add_left _ k) ho.add_length_le))))
  | cons c rest ih =>
    rw [findFrom?] at h
    split_ifs at h with ht
    cases k with
    | zero => exact occurs_zero_iff.not.mpr ht
    | succ k => exact occurs_cons_succ_iff.not.mpr (ih h k)

section Find

variable {source text : String} {start : Int}

/-- What is found is the leftmost occurrence that begins at or after the start. -/
theorem first_of_find? (h : find? source text start = some p) :
    clampStart source.length start ≤ p ∧ Occurs source.toList text.toList p ∧
      ∀ q, clampStart source.length start ≤ q → Occurs source.toList text.toList q → p ≤ q := by
  simp only [find?, String.length_toList] at h
  split_ifs at h with hle
  rw [← @String.length_toList source] at hle
  obtain ⟨k, rfl, ho, hfirst⟩ := first_of_findFrom? h
  refine ⟨Nat.le_add_right _ k, (occurs_drop_iff hle).mp ho, fun q hq hoq => ?_⟩
  obtain ⟨j, rfl⟩ := Nat.exists_eq_add_of_le hq
  by_contra hlt
  exact hfirst j (by omega) ((occurs_drop_iff hle).mpr hoq)

theorem not_occurs_of_find? (h : find? source text start = none)
    (hp : clampStart source.length start ≤ p) : ¬ Occurs source.toList text.toList p := by
  intro ho
  have hle : clampStart source.length start ≤ source.toList.length := by
    have := ho.add_length_le
    omega
  simp only [find?, String.length_toList] at h
  rw [if_pos (String.length_toList ▸ hle)] at h
  obtain ⟨k, rfl⟩ := Nat.exists_eq_add_of_le hp
  exact not_occurs_of_findFrom? h k ((occurs_drop_iff hle).mpr ho)

theorem exists_find?_iff : (∃ p, find? source text start = some p) ↔
    ∃ p, clampStart source.length start ≤ p ∧ Occurs source.toList text.toList p := by
  constructor
  · rintro ⟨p, hp⟩
    exact ⟨p, (first_of_find? hp).1, (first_of_find? hp).2.1⟩
  · rintro ⟨p, hp, ho⟩
    cases h : find? source text start with
    | none => exact absurd ho (not_occurs_of_find? h hp)
    | some q => exact ⟨q, rfl⟩

/-- A negative start counts from the end, and stands for the beginning where it lies before it. -/
theorem clampStart_eq {length : Nat} :
    (clampStart length start : Int) = max 0 (if start < 0 then length + start else start) := by
  unfold clampStart
  split_ifs <;> omega

end Find

end Comparability.Text
