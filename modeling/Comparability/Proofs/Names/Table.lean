import Mathlib.Tactic.Common
import Comparability.Names.Table

/-!
# Normalised names and the tables built from them

* `canonical_canonical` : normalising is idempotent, so that a name can be its own normal form;
* `Listed names name` : one of the names has the normal form of the given one;
* `Additions.comparable`, `Additions.equatable` : what the lists of a table are built from, as the
  caller and the built-in lists write it.

`Table.classify_canonical` says what a table answers about a normal form, in terms of the names as
they were written.
-/

namespace Comparability.Names

/-! ## Normal forms -/

theorem canonical_of_forall {name : String}
    (h : ∀ c ∈ name.toList, Text.isBlank c = false ∧ c ≠ '?') : canonical name = name := by
  rw [canonical, List.filter_eq_self.mpr fun c hc => by simp [h c hc], String.ofList_toList]

theorem mem_toList_canonical {name : String} {c : Char} (h : c ∈ (canonical name).toList) :
    Text.isBlank c = false ∧ c ≠ '?' := by
  rw [canonical, String.toList_ofList] at h
  simpa using (List.mem_filter.mp h).2

@[simp] theorem canonical_canonical (name : String) : canonical (canonical name) = canonical name :=
  canonical_of_forall fun _ h => mem_toList_canonical h

theorem filter_dropWhile {p q : Char → Bool} (h : ∀ c, q c = true → p c = false) (cs : List Char) :
    (cs.dropWhile q).filter p = cs.filter p := by
  induction cs with
  | nil => rfl
  | cons c cs ih =>
    cases hc : q c with
    | true => rw [List.dropWhile_cons_of_pos hc, ih, List.filter_cons_of_neg (by simp [h c hc])]
    | false => rw [List.dropWhile_cons_of_neg (by simp [hc])]

@[simp] theorem canonical_trim (name : String) : canonical (Text.trim name) = canonical name := by
  have hblank : ∀ c, Text.isBlank c = true → (!Text.isBlank c && c != '?') = false := by
    intro c hc
    rw [hc]
    rfl
  rw [canonical, canonical, Text.toList_trim, Text.trimChars, Text.trimRight, List.filter_reverse,
    filter_dropWhile hblank, ← List.filter_reverse, List.reverse_reverse, filter_dropWhile hblank]

/-- One of the names is written like the given one, up to blanks and optional marks. -/
def Listed (names : List String) (name : String) : Prop :=
  ∃ known ∈ names, canonical known = canonical name

instance (names : List String) (name : String) : Decidable (Listed names name) :=
  inferInstanceAs (Decidable (∃ known ∈ names, canonical known = canonical name))

theorem listed_append {names more : List String} {name : String} :
    Listed (names ++ more) name ↔ Listed names name ∨ Listed more name := by
  simp only [Listed, List.mem_append, or_and_right, exists_or]

theorem canonical_mem_canonicalAll_iff {names : List String} {name : String}
    (h : canonical name ≠ "") : canonical name ∈ canonicalAll names ↔ Listed names name := by
  simp only [canonicalAll, List.mem_filter, List.mem_map, decide_eq_true_eq, Listed]
  exact and_iff_left h

theorem canonical_mem_iff {names : List String} (h : ∀ name ∈ names, canonical name = name)
    {name : String} : canonical name ∈ names ↔ Listed names name := by
  constructor
  · exact fun hn => ⟨_, hn, canonical_canonical name⟩
  · rintro ⟨known, hk, he⟩
    rwa [← he, h known hk]

theorem canonical_of_builtin :
    ∀ name ∈ builtinComparable ++ builtinEquatable, canonical name = name := by
  decide

/-! ## Tables -/

namespace Additions

def comparable (additions : Additions) : List String :=
  builtinComparable ++ additions.associatedComparable ++ additions.additionalComparable

def equatable (additions : Additions) : List String :=
  builtinEquatable ++ additions.associatedEquatable ++ additions.additionalEquatable

end Additions

namespace Table

variable {additions : Additions} {name : String}

theorem canonical_mem_comparable_iff (h : canonical name ≠ "") :
    canonical name ∈ (build additions).comparable ↔ Listed additions.comparable name := by
  have hb : ∀ name ∈ builtinComparable, canonical name = name :=
    fun name hn => canonical_of_builtin name (List.mem_append_left _ hn)
  simp only [build, Additions.comparable, List.mem_append, listed_append, canonical_mem_iff hb,
    canonical_mem_canonicalAll_iff h]

theorem canonical_mem_equatable_iff (h : canonical name ≠ "") :
    canonical name ∈ (build additions).equatable ↔ Listed additions.equatable name := by
  have hb : ∀ name ∈ builtinEquatable, canonical name = name :=
    fun name hn => canonical_of_builtin name (List.mem_append_right _ hn)
  simp only [build, Additions.equatable, List.mem_append, listed_append, canonical_mem_iff hb,
    canonical_mem_canonicalAll_iff h]

/-- What a table answers about a normal form, in terms of the names as they were written. -/
theorem classify_canonical (h : canonical name ≠ "") :
    (build additions).classify (canonical name) =
      if Listed additions.comparable name then .comparable
      else if Listed additions.equatable name then .equatable
      else .neither := by
  simp only [classify, List.contains_iff_mem, canonical_mem_comparable_iff h,
    canonical_mem_equatable_iff h]

end Table

end Comparability.Names
