import Mathlib.Data.Fin.Tuple.Sort
import Comparability.Proofs.Declaration.Accounting
import Comparability.Proofs.Session

/-!
# Members are classified on their own

The class of a member depends on the member and on the classifier, and the classifier on what
associated types and options hold, not on the order or the repetitions in it. All diagnostics of a
declaration are known ones, so their order does not depend on that of the members either.

* `Options.SameNames` : two options list the same names;
* `classifierOf_congr` : the classifier depends on the members of the lists it is made from;
* `diagnostics_alone`, `diagnostics_reordered` : the diagnostics of a declaration from those of its
  members, in whatever order the members come.
-/

namespace Comparability

open Config (Options)
open Names (AssociatedType)

/-- The options list the same names, perhaps in another order or more often. -/
structure Config.Options.SameNames (o o' : Options) : Prop where
  comparable : ∀ name, name ∈ o'.comparableTypes ↔ name ∈ o.comparableTypes
  equatable : ∀ name, name ∈ o'.equatableTypes ↔ name ∈ o.equatableTypes

theorem Config.Options.SameNames.symm {o o' : Options} (h : o.SameNames o') : o'.SameNames o :=
  ⟨fun name => (h.comparable name).symm, fun name => (h.equatable name).symm⟩

theorem Config.Options.SameNames.promises_subset {o o' : Options} (h : o.SameNames o') :
    o.promises ⊆ o'.promises := by
  intro p hp
  simp only [promises, List.mem_append, List.mem_map] at hp ⊢
  rcases hp with ⟨name, hn, rfl⟩ | ⟨name, hn, rfl⟩
  · exact .inl ⟨name, (h.comparable name).mpr hn, rfl⟩
  · exact .inr ⟨name, (h.equatable name).mpr hn, rfl⟩

section Classifiers

variable {types types' : List AssociatedType} {o o' : Options}

theorem classifierOf_mono (ht : types ⊆ types') (ho : o.SameNames o') (name : String) :
    classifierOf types o name ≤ classifierOf types' o' name := by
  apply Session.classifier_mono (s := ⟨o, types⟩) (t := ⟨o', types'⟩)
  intro p hp
  rcases List.mem_append.mp hp with hp | hp
  · exact List.mem_append_left _ (ho.promises_subset hp)
  · exact List.mem_append_right _ (List.map_subset _ ht hp)

theorem classifierOf_congr (ht : ∀ t, t ∈ types' ↔ t ∈ types) (ho : o.SameNames o') :
    classifierOf types' o' = classifierOf types o := by
  funext name
  apply Capability.le_antisymm
  · exact classifierOf_mono (fun t => (ht t).mp) ho.symm name
  · exact classifierOf_mono (fun t => (ht t).mpr) ho name

end Classifiers

namespace Declaration.Classification

variable {d : Declaration} {classify : Classifier} {members : List Member}

theorem forall_known (members : List Member) :
    ∀ x ∈ members.flatMap fun m => m.errors classify ++ (m.warning? classify).toList, x.Known := by
  intro x hx
  obtain ⟨m, -, hx⟩ := List.mem_flatMap.mp hx
  exact Member.known_of_mem hx

/-- The diagnostics of a declaration are those of its members, each on its own, in order. -/
theorem diagnostics_alone : (ofClassifier d classify).diagnostics = Diagnostic.sort
    (d.members.flatMap fun m => (ofClassifier { d with members := [m] } classify).diagnostics) := by
  simp only [diagnostics_ofClassifier, List.flatMap_singleton]
  refine Diagnostic.sort_eq_of_perm (forall_known _) (List.Perm.flatMap_left _ fun m _ => ?_)
  exact (Diagnostic.sort_perm _).symm

section Reordering

variable (σ : Equiv.Perm (Fin d.members.length))

def reordered (d : Declaration) (σ : Equiv.Perm (Fin d.members.length)) : Declaration :=
  { d with members := List.ofFn fun i => d.members[σ i] }

theorem members_reordered (i : Fin d.members.length) :
    (ofClassifier (reordered d σ) classify).members[(i : Nat)]? =
      (ofClassifier d classify).members[(σ i : Nat)]? := by
  simp [members_ofClassifier, reordered]

theorem diagnostics_reordered :
    (ofClassifier (reordered d σ) classify).diagnostics =
      (ofClassifier d classify).diagnostics := by
  have hperm : (reordered d σ).members.Perm d.members := by
    conv_rhs => rw [← @List.ofFn_getElem _ d.members]
    exact Equiv.Perm.ofFn_comp_perm σ fun i => d.members[i]
  simp only [diagnostics_ofClassifier]
  exact Diagnostic.sort_eq_of_perm (forall_known _) (hperm.flatMap_right _)

end Reordering

/-- **Members are classified independently of each other and of order.** The class of a member is
the one that it has in a declaration without the other members, and the diagnostics are those of
such declarations together. Members in another order have their classes in that order and the very
same diagnostics; the order and the repetitions in associated types and options do not matter. -/
theorem ofDeclaration_independent (d : Declaration) (options : Option Options)
    (classifier : Option Classifier) (h : options = none ∨ classifier = none) :
    ∃ c, ofDeclaration? d options classifier = .ok c ∧
      (∃ alone : Member → Classification,
        (∀ m, ofDeclaration? { d with members := [m] } options classifier = .ok (alone m)) ∧
        c.members.map ([·]) = d.members.map (fun m => (alone m).members) ∧
        c.diagnostics = Diagnostic.sort (d.members.flatMap fun m => (alone m).diagnostics)) ∧
      (∀ σ, ∃ c', ofDeclaration? (reordered d σ) options classifier = .ok c' ∧
        (∀ i : Fin d.members.length, c'.members[(i : Nat)]? = c.members[(σ i : Nat)]?) ∧
        c'.diagnostics = c.diagnostics) ∧
      (∀ types, (∀ t, t ∈ types ↔ t ∈ d.associatedTypes) → ∃ c',
        ofDeclaration? { d with associatedTypes := types } options classifier = .ok c' ∧
        c'.members = c.members ∧ c'.diagnostics = c.diagnostics) ∧
      (∀ o o', options = some o → o.SameNames o' → ∃ c',
        ofDeclaration? d (some o') classifier = .ok c' ∧
        c'.members = c.members ∧ c'.diagnostics = c.diagnostics) := by
  refine ⟨_, ofDeclaration?_eq_ok h, ⟨_, fun m => ofDeclaration?_eq_ok h, ?_, diagnostics_alone⟩,
    fun σ => ⟨_, ofDeclaration?_eq_ok h, members_reordered σ, diagnostics_reordered σ⟩,
    fun types ht => ⟨_, ofDeclaration?_eq_ok h, ?_⟩, ?_⟩
  · rw [members_ofClassifier, List.map_map]
    rfl
  · have hc : classifierFor { d with associatedTypes := types } options classifier =
        classifierFor d options classifier := by
      cases classifier with
      | some classify => rfl
      | none => exact classifierOf_congr ht ⟨fun _ => Iff.rfl, fun _ => Iff.rfl⟩
    rw [hc]
    exact ⟨rfl, rfl⟩
  · rintro o o' rfl ho
    obtain rfl : classifier = none := h.resolve_left (Option.some_ne_none o)
    refine ⟨_, ofDeclaration?_eq_ok (.inr rfl), ?_⟩
    have hc : classifierFor d (some o') none = classifierFor d (some o) none :=
      classifierOf_congr (fun _ => Iff.rfl) ho
    rw [hc]
    exact ⟨rfl, rfl⟩

/-- Two members with one error in common, in either order, an associated type that comes twice, and
options that list their names in another order. -/
theorem classification_of_rearranged :
    ∃ d : Declaration, d = ⟨"Shape", [
        { name := "area", parameters := [⟨"unit", .ofOffset "[Int" 10⟩] },
        { name := "edges", kind := .property, returnType := some (.ofOffset "[Int" 10) }],
        [⟨"Unit", ["Equatable"]⟩]⟩ ∧
      ∃ c swapped doubled relisted,
        ofDeclaration? d (some ⟨["Angle"], ["Face", "Edge"]⟩) none = .ok c ∧
        ofDeclaration? { d with members := d.members.reverse }
          (some ⟨["Angle"], ["Face", "Edge"]⟩) none = .ok swapped ∧
        ofDeclaration? { d with associatedTypes := d.associatedTypes ++ d.associatedTypes }
          (some ⟨["Angle"], ["Face", "Edge"]⟩) none = .ok doubled ∧
        ofDeclaration? d (some ⟨["Angle"], ["Edge", "Face", "Edge"]⟩) none = .ok relisted ∧
        swapped.diagnostics = c.diagnostics ∧ swapped.members[0]? = c.members[1]? ∧
        doubled.members = c.members ∧ relisted.diagnostics = c.diagnostics := by
  refine ⟨_, rfl, ?_⟩
  obtain ⟨c, hc, -, hswap, htypes, hoptions⟩ := ofDeclaration_independent ⟨"Shape", [
      { name := "area", parameters := [⟨"unit", .ofOffset "[Int" 10⟩] },
      { name := "edges", kind := .property, returnType := some (.ofOffset "[Int" 10) }],
      [⟨"Unit", ["Equatable"]⟩]⟩ (some ⟨["Angle"], ["Face", "Edge"]⟩) none (.inr rfl)
  obtain ⟨swapped, hswapped, hmembers, hdiagnostics⟩ := hswap (Equiv.swap 0 1)
  obtain ⟨doubled, hdoubled, hsame, -⟩ :=
    htypes ([⟨"Unit", ["Equatable"]⟩] ++ [⟨"Unit", ["Equatable"]⟩]) (by simp)
  obtain ⟨relisted, hrelisted, -, hequal⟩ :=
    hoptions _ ⟨["Angle"], ["Edge", "Face", "Edge"]⟩ rfl ⟨by simp, by simp [or_comm]⟩
  exact ⟨c, swapped, doubled, relisted, hc, hswapped, hdoubled, hrelisted, hdiagnostics, hmembers 0,
    hsame, hequal⟩

end Declaration.Classification

end Comparability
