import Comparability.Names.Constraint
import Comparability.Proofs.Capability
import Comparability.Proofs.Names.Table

/-!
# What is promised of names

A promise is a name, as written, with a capability that it is to have at least.

* `Promise.strongest` : the strongest of what is promised of a name;
* `Table.classify_le_iff` : a table answers with the least capability that agrees with its lists;
* `Table.build_classify_le_iff` : the same in terms of the names that a caller adds, as written;
* `AssociatedType.mem_namesOf` : the names that associated types contribute to a list.
-/

namespace Comparability.Names

/-- A name, as written, with what is said that its values can do at least. -/
structure Promise where
  name : String
  capability : Capability
  deriving DecidableEq, Repr

/-- The strongest of what is promised under a name with the given normal form. -/
def Promise.strongest (promises : List Promise) (name : String) : Capability :=
  Capability.strongest
    ((promises.filter fun p => canonical p.name = name).map Promise.capability)

variable {promises : List Promise} {name : String} {c : Capability}

theorem Promise.strongest_le_iff :
    Promise.strongest promises name ≤ c ↔
      ∀ p ∈ promises, canonical p.name = name → p.capability ≤ c := by
  simp only [Promise.strongest, Capability.strongest_le_iff, List.forall_mem_map, List.mem_filter,
    decide_eq_true_eq, and_imp]

/-! ## Tables -/

theorem mem_canonicalAll_iff {names : List String} :
    name ∈ canonicalAll names ↔ name ≠ "" ∧ ∃ known ∈ names, canonical known = name := by
  rw [canonicalAll, List.mem_filter, List.mem_map, decide_eq_true_eq, and_comm]

theorem mem_canonicalAll_congr {names more : List String}
    (h : ∀ name, Listed names name ↔ Listed more name) :
    name ∈ canonicalAll names ↔ name ∈ canonicalAll more := by
  rw [mem_canonicalAll_iff, mem_canonicalAll_iff, and_congr_right_iff]
  intro _
  constructor
  · rintro ⟨known, hk, rfl⟩
    exact (h known).mp ⟨known, hk, rfl⟩
  · rintro ⟨known, hk, rfl⟩
    exact (h known).mpr ⟨known, hk, rfl⟩

namespace Table

variable {table other : Table} {additions : Additions}

theorem classify_congr (hc : ∀ name, name ∈ table.comparable ↔ name ∈ other.comparable)
    (he : ∀ name, name ∈ table.equatable ↔ name ∈ other.equatable) :
    table.classify = other.classify := by
  funext name
  simp only [classify, List.contains_iff_mem, hc, he]

/-- A table answers with the least capability that agrees with both of its lists. -/
theorem classify_le_iff :
    table.classify name ≤ c ↔
      (name ∈ table.comparable → .comparable ≤ c) ∧ (name ∈ table.equatable → .equatable ≤ c) := by
  unfold classify
  simp only [List.contains_iff_mem]
  exact Capability.choose_le_iff

theorem build_classify_le_iff (h : name ≠ "") :
    (build additions).classify name ≤ c ↔
      (build {}).classify name ≤ c ∧
      (∀ known ∈ additions.associatedComparable ++ additions.additionalComparable,
        canonical known = name → .comparable ≤ c) ∧
      ∀ known ∈ additions.associatedEquatable ++ additions.additionalEquatable,
        canonical known = name → .equatable ≤ c := by
  simp only [classify_le_iff, build, List.mem_append, mem_canonicalAll_iff, h, ne_eq,
    not_false_eq_true, true_and, List.not_mem_nil, false_and, exists_false, or_false, or_imp,
    forall_and, forall_exists_index, and_imp]
  constructor
  · rintro ⟨⟨⟨hc, hac⟩, hdc⟩, ⟨he, hae⟩, hde⟩
    exact ⟨⟨hc, he⟩, ⟨hac, hdc⟩, hae, hde⟩
  · rintro ⟨⟨hc, he⟩, ⟨hac, hdc⟩, hae, hde⟩
    exact ⟨⟨⟨hc, hac⟩, hdc⟩, ⟨he, hae⟩, hde⟩

theorem build_classify_empty : (build additions).classify "" = .neither := by
  have hc : "" ∉ (build additions).comparable := by
    simp [build, mem_canonicalAll_iff, builtinComparable]
  have he : "" ∉ (build additions).equatable := by
    simp [build, mem_canonicalAll_iff, builtinEquatable]
  simp only [classify, List.contains_iff_mem, if_neg hc, if_neg he]

end Table

/-! ## Associated types -/

theorem AssociatedType.mem_namesOf {declarations : List AssociatedType} {written : String} :
    written ∈ namesOf declarations c ↔
      ∃ d ∈ declarations, d.capability = c ∧ Text.trim d.name = written := by
  simp only [namesOf, List.mem_map, List.mem_filter, decide_eq_true_eq, and_assoc]

end Comparability.Names
