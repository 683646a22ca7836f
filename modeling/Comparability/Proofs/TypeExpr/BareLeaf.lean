import Comparability.Proofs.Names.Table
import Comparability.Proofs.TypeExpr.Lookup
import Comparability.Proofs.TypeExpr.Opening

/-!
# Leaf names and the names in tables

The scanner reads a leaf character by character, the table takes the characters out of a name that
mean nothing in one. Both give the same name:

* `mem_lookups` : every name that a scan looks up is the text of a leaf, which is a normal form;
* `IsBareLeaf.lookups_eq` : of an expression without containers, the normal form is looked up.

So a name stands for what the table lists under its normal form, however it is spelled.
-/

namespace Comparability.TypeExpr

open Text (isBlank)
open Names (canonical canonical_canonical mem_toList_canonical Listed Additions Table)

variable {α : Type} {m : Meaning α}

/-! ## Leaf texts -/

/-- The scanner and the table leave out the same characters. -/
theorem canonical_eq_leafText (name : String) : canonical name = leafText name.toList := rfl

theorem canonical_ofList (text : List Char) : canonical (String.ofList text) = leafText text := by
  rw [canonical_eq_leafText, String.toList_ofList]

theorem leafText_blanks_append {blanks : List Char} (h : Blanks blanks) (text : List Char) :
    leafText (blanks ++ text) = leafText text := by
  have hnil : (blanks.filter fun c => !isBlank c && c != '?') = [] :=
    List.filter_eq_nil_iff.mpr fun c hc => by simp [h c hc]
  rw [leafText, List.filter_append, hnil, List.nil_append, leafText]

/-! ## The names that are looked up -/

namespace Scan

variable {s t u : Scan α} {c : Char} {text : List Char}

theorem Accounts.pendingNames_spelled (h : s.Accounts m text) (hd : s.depth = 0) {name : String}
    (hn : name ∈ s.pendingNames) : ∃ raw, IsLeaf raw ∧ name = leafText raw := by
  unfold pendingNames at hn
  split_ifs at hn with hl
  · cases hn
  · obtain rfl := List.mem_singleton.mp hn
    obtain ⟨-, -, raw, -, -, -, hr⟩ := h.of_pending hl
    exact ⟨raw, isLeaf_iff.mpr (hd ▸ hr.leafPrefix), hr.leaf⟩

/-- Every name that is looked up is the text of a leaf, whether or not the scan goes on to find a
fault. -/
theorem Accounts.mem_lookups (hm : ∀ v, m.optional v = v) (h : s.Accounts m text)
    {cs : List Char} {name : String} (hn : name ∈ s.lookups m cs) :
    ∃ raw, IsLeaf raw ∧ name = leafText raw := by
  induction cs generalizing s text with
  | nil =>
    unfold lookups askedAtEnd at hn
    split_ifs at hn with hd
    · exact h.pendingNames_spelled hd hn
    · cases hn
  | cons c cs ih =>
    rw [lookups, List.mem_append] at hn
    rcases hn with hn | hn
    · unfold asked at hn
      split_ifs at hn with hc
      · exact h.pendingNames_spelled hc.1 hn
      · cases hn
    · split at hn
      · next t ht =>
        obtain ⟨u, hu, rfl⟩ := step_eq_ok_iff.mp ht
        exact ih (h.read hm hu) hn
      · cases hn

theorem Reads.asked_eq_nil (h : s.Reads m c u) (hu : u.stack = []) : s.asked c = [] := by
  cases h with
  | skip hc => exact asked_of_skip hc
  | extend _ _ hn _ => exact asked_of_nest hn
  | openKeyword _ _ _ => cases hu
  | openBracket _ _ => cases hu
  | separate _ _ _ _ _ => cases hu
  | closeSequence _ _ _ _ _ _ => cases hu
  | closeDictionary _ _ _ _ _ => cases hu
  | markOperand _ _ _ => cases hu
  | markLeaf _ _ => exact Scan.asked_eq_nil (by decide) (by decide)

theorem lookups_eq_askedAtEnd {cs : List Char} (h : s.run m cs = .ok t) (ht : t.stack = []) :
    s.lookups m cs = t.askedAtEnd := by
  induction cs generalizing s with
  | nil =>
    obtain rfl := Except.ok.inj h
    rfl
  | cons c cs ih =>
    rw [run_cons] at h
    cases hu : s.step m c with
    | error fault => rw [hu] at h; cases h
    | ok u =>
      rw [hu] at h
      have hrun : u.run m cs = .ok t := h
      obtain ⟨v, hv, rfl⟩ := step_eq_ok_iff.mp hu
      have hstack : v.stack = [] := by
        by_contra hne
        exact stack_ne_nil_of_run hrun hne ht
      rw [lookups, hu, hv.asked_eq_nil hstack]
      exact ih hrun

end Scan

/-- **A scan looks up normal forms**, of which something remains. -/
theorem mem_lookups {classify : Classifier} {text name : String}
    (h : name ∈ lookups classify text) : name ≠ "" ∧ canonical name = name := by
  obtain ⟨raw, hr, rfl⟩ := Scan.accounts_start.mem_lookups (fun _ => rfl) h
  refine ⟨(isLeaf_iff.mp hr).leafText_ne_empty, ?_⟩
  rw [← canonical_ofList, canonical_canonical]

/-! ## Bare leaves -/

def IsBareLeaf (classify : Classifier) (name : String) : Prop :=
  (resolve classify name).isOk = true ∧ ¬ OpensContainer (capabilityMeaning classify) name.toList

variable {classify : Classifier} {name : String}

theorem IsBareLeaf.exists_run (h : IsBareLeaf classify name) :
    ∃ s, Scan.run (capabilityMeaning classify) {} name.toList = .ok s ∧ s.stack = [] ∧
      s.depth = 0 ∧ s.leaf = canonical name ∧ s.leaf ≠ "" ∧
      (resolve classify name).outcome = .ok (classify s.leaf) := by
  obtain ⟨hok, hopens⟩ := h
  cases hc : (resolve classify name).outcome with
  | error e => rw [Resolution.isOk, hc] at hok; cases hok
  | ok c =>
    obtain ⟨stack, hscan⟩ := resolve_outcome_eq_ok_iff.mp hc
    obtain ⟨s, hs, hend, -⟩ := scan_eq_ok_iff.mp hscan
    have hstack : s.stack = [] := not_not.mp ((opensContainer_iff hs).not.mp hopens)
    obtain ⟨hd, span, ho, -⟩ := Scan.conclude_eq_ok_iff.mp hend
    rcases Scan.operand?_eq_some_iff.mp ho with ⟨hl, hv, -⟩ | ⟨-, htop⟩
    · obtain ⟨done, blanks, raw, ht, hst, hb, hr⟩ :=
        (Scan.accounts_of_run (fun _ => rfl) hs).of_pending hl
      rw [hstack] at hst
      cases hst
      have hleaf : s.leaf = canonical name := by
        rw [canonical_eq_leafText, ht, List.nil_append, leafText_blanks_append hb, hr.leaf]
      have hvalue : classify s.leaf = c := by
        have hv : (s.leafOperand (capabilityMeaning classify)).value = c :=
          congrArg Operand.value hv
        rw [← hv, Scan.leafOperand]
        split_ifs <;> rfl
      exact ⟨s, hs, hstack, hd, hleaf, hl, by rw [hvalue]⟩
    · rw [hstack] at htop
      cases htop

theorem IsBareLeaf.lookups_eq (h : IsBareLeaf classify name) :
    lookups classify name = [canonical name] := by
  obtain ⟨s, hs, hstack, hd, hleaf, hne, -⟩ := h.exists_run
  rw [lookups, Scan.lookups_eq_askedAtEnd hs hstack, Scan.askedAtEnd, if_pos hd,
    Scan.pendingNames, if_neg hne, hleaf]

theorem IsBareLeaf.canonical_ne_empty (h : IsBareLeaf classify name) : canonical name ≠ "" := by
  obtain ⟨s, -, -, -, hleaf, hne, -⟩ := h.exists_run
  exact hleaf ▸ hne

theorem IsBareLeaf.outcome_eq (h : IsBareLeaf classify name) :
    (resolve classify name).outcome = .ok (classify (canonical name)) := by
  obtain ⟨s, -, -, -, hleaf, -, ho⟩ := h.exists_run
  rw [ho, hleaf]

/-- **Tables and scans normalise names alike.** What a scan looks up is a normal form, and of a bare
leaf it is the normal form of what is written. So a bare leaf has the capability under which the
table lists a name with its normal form, the stronger one if there are two, and spellings with one
normal form have one capability. -/
theorem resolve_normalised :
    (∀ classify text, ∀ name ∈ lookups classify text,
      name ≠ "" ∧ (∀ c ∈ name.toList, isBlank c = false ∧ c ≠ '?') ∧ canonical name = name) ∧
    (∀ classify name, IsBareLeaf classify name → lookups classify name = [canonical name]) ∧
    (∀ (additions : Additions) (name : String),
      IsBareLeaf (Table.build additions).classify name →
        (resolve (Table.build additions).classify name).outcome =
          .ok (if Listed additions.comparable name then .comparable
            else if Listed additions.equatable name then .equatable
            else .neither)) ∧
    (∀ classify name other, IsBareLeaf classify name → IsBareLeaf classify other →
      canonical name = canonical other →
        (resolve classify name).outcome = (resolve classify other).outcome) := by
  refine ⟨fun classify text name hn => ?_, fun _ _ h => h.lookups_eq, fun additions name h => ?_,
    fun classify name other hn ho he => ?_⟩
  · obtain ⟨hne, hc⟩ := mem_lookups hn
    exact ⟨hne, fun c hm => mem_toList_canonical (hc.symm ▸ hm), hc⟩
  · rw [h.outcome_eq, Table.classify_canonical h.canonical_ne_empty]
  · rw [hn.outcome_eq, ho.outcome_eq, he]

/-- A generic name that a caller adds, in two spellings with other blanks and marks. -/
theorem resolve_of_spellings :
    ∃ additions : Additions, additions.additionalComparable = ["Foo < A?, B >"] ∧
      lookups (Table.build additions).classify " Foo<A ,B ?> ?" = ["Foo<A,B>"] ∧
      (resolve (Table.build additions).classify " Foo<A ,B ?> ?").outcome = .ok .comparable ∧
      (resolve (Table.build additions).classify " Foo<A ,B ?> ?").outcome =
        (resolve (Table.build additions).classify "Foo<A,B>").outcome := by
  refine ⟨{ additionalComparable := ["Foo < A?, B >"] }, rfl, ?_⟩
  obtain ⟨-, hlookups, htable, hspellings⟩ := resolve_normalised
  have hbare : ∀ name ∈ [" Foo<A ,B ?> ?", "Foo<A,B>"],
      IsBareLeaf (Table.build { additionalComparable := ["Foo < A?, B >"] }).classify name := by
    simp only [List.forall_mem_cons, List.not_mem_nil, false_implies, implies_true, and_true]
    exact ⟨⟨rfl, fun ho => (opensContainer_iff rfl).mp ho rfl⟩,
      ⟨rfl, fun ho => (opensContainer_iff rfl).mp ho rfl⟩⟩
  have hspaced := hbare " Foo<A ,B ?> ?" (by decide)
  have hlisted : Listed (Additions.comparable { additionalComparable := ["Foo < A?, B >"] })
      " Foo<A ,B ?> ?" := by
    decide
  refine ⟨hlookups _ _ hspaced, ?_, hspellings _ _ _ hspaced (hbare "Foo<A,B>" (by decide)) rfl⟩
  rw [htable _ _ hspaced, if_pos hlisted]

end Comparability.TypeExpr
