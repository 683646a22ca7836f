import Comparability.Proofs.Declaration.Accounting
import Comparability.Proofs.Matcher
import Comparability.Proofs.Session
import Comparability.Proofs.TypeExpr.Tree

/-!
# What a stronger classifier adds

Under a classifier that knows more, the parameters of a function support more, and every way to match
them that was planned before is planned still. Which members are blocked does not change.

* `MemberClass.Grows a b` : `b` is the class of the same member with all that was planned in `a`;
* `MemberClass.grows_ofMember` : so the classes of a member grow with the classifier;
* `classifierOf_mono_of_subset` : options that list more names give such a classifier.
-/

namespace Comparability

open Config (Options)
open Matcher (Weaker picks sequences)
open TypeExpr (resolve isOk_resolve resolve_mono)

theorem classifierOf_mono_of_subset (types : List Names.AssociatedType) {o o' : Options}
    (hc : o.comparableTypes ⊆ o'.comparableTypes) (he : o.equatableTypes ⊆ o'.equatableTypes)
    (name : String) : classifierOf types o name ≤ classifierOf types o' name := by
  apply Session.classifier_mono (s := ⟨o, types⟩) (t := ⟨o', types⟩)
  intro p hp
  simp only [Session.promises, Options.promises, List.mem_append] at hp ⊢
  exact hp.imp_left (Or.imp (fun h => List.map_subset _ hc h) fun h => List.map_subset _ he h)

namespace Declaration

variable {f g : Classifier}

theorem WrittenType.isMalformed_congr (f g : Classifier) : isMalformed f = isMalformed g := by
  funext w
  rw [isMalformed, isMalformed, isOk_resolve f g]

theorem Member.isBlocked_congr (f g : Classifier) : isBlocked f = isBlocked g := by
  funext m
  rw [isBlocked, isBlocked, WrittenType.isMalformed_congr f g]

theorem forall₂_weaker (h : ∀ name, f name ≤ g name) {parameters : List Parameter}
    {cs ds : List Capability}
    (hc : parameters.map (fun p => (resolve f p.type.text).outcome) = cs.map .ok)
    (hd : parameters.map (fun p => (resolve g p.type.text).outcome) = ds.map .ok) :
    List.Forall₂ Weaker ((parameters.map Parameter.name).zip cs)
      ((parameters.map Parameter.name).zip ds) := by
  induction parameters generalizing cs ds with
  | nil => exact .nil
  | cons p rest ih =>
    obtain ⟨c, cs, rfl, hpc, hc⟩ := List.map_eq_cons_iff.mp hc.symm
    obtain ⟨d, ds, rfl, hpd, hd⟩ := List.map_eq_cons_iff.mp hd.symm
    exact .cons ⟨rfl, resolve_mono h hpc.symm hpd.symm⟩ (ih hc.symm hd.symm)

/-- The class of the same member, blocked or not as before, with every sequence of names and forms
that was planned before, in the same order. -/
structure MemberClass.Grows (a b : MemberClass) : Prop where
  member : a.member = b.member
  blocked : a.blocked = b.blocked
  sequences : (picks a.sequences).Sublist (picks b.sequences)

theorem MemberClass.grows_ofMember (h : ∀ name, f name ≤ g name) (m : Member) :
    (ofMember f m).Grows (ofMember g m) := by
  have hblocked : m.isBlocked f = m.isBlocked g := congrFun (Member.isBlocked_congr f g) m
  refine ⟨by rw [member_ofMember, member_ofMember],
    by rw [blocked_ofMember, blocked_ofMember, hblocked], ?_⟩
  by_cases hplanned : m.isBlocked g = false ∧ m.kind = .function
  · obtain ⟨hb, hk⟩ := hplanned
    obtain ⟨cs, hcs, hf⟩ := exists_plan_of_not_blocked (hblocked.trans hb) hk
    obtain ⟨ds, hds, hg⟩ := exists_plan_of_not_blocked hb hk
    rw [hf, hg]
    exact Matcher.picks_sequences_sublist (forall₂_weaker h hcs hds)
  · have hnil : (ofMember f m).sequences = [] := by
      by_contra hne
      obtain ⟨hb, hk, -⟩ := sequences_ofMember_ne_nil_iff.mp hne
      exact hplanned ⟨hblocked.symm.trans hb, hk⟩
    rw [hnil]
    exact List.nil_sublist _

namespace Classification

structure Grows (c c' : Classification) : Prop where
  members : List.Forall₂ MemberClass.Grows c.members c'.members
  blockedNames : c.blockedNames = c'.blockedNames

theorem grows_ofClassifier (h : ∀ name, f name ≤ g name) (d : Declaration) :
    (ofClassifier d f).Grows (ofClassifier d g) where
  members := by
    rw [members_ofClassifier, members_ofClassifier, List.forall₂_map_left_iff,
      List.forall₂_map_right_iff, List.forall₂_same]
    exact fun m _ => MemberClass.grows_ofMember h m
  blockedNames := by
    rw [blockedNames_ofClassifier, blockedNames_ofClassifier, Member.isBlocked_congr f g]

/-- **More names only add combinations of forms.** What parameters can be matched by is found, in
its order, among what stronger parameters of the same names can be matched by. So every declaration
keeps the combinations of its functions, and its blocked members, under a classifier that answers
with more, and under options that list more names. -/
theorem sequences_grow :
    (∀ parameters stronger : List (String × Capability),
      List.Forall₂ Weaker parameters stronger →
        (picks (sequences parameters)).Sublist (picks (sequences stronger))) ∧
    (∀ (d : Declaration) (f g : Classifier), (∀ name, f name ≤ g name) →
      ∃ c c', ofDeclaration? d none (some f) = .ok c ∧ ofDeclaration? d none (some g) = .ok c' ∧
        c.Grows c') ∧
    ∀ (d : Declaration) (o o' : Options), o.comparableTypes ⊆ o'.comparableTypes →
      o.equatableTypes ⊆ o'.equatableTypes →
      ∃ c c', ofDeclaration? d (some o) none = .ok c ∧ ofDeclaration? d (some o') none = .ok c' ∧
        c.Grows c' := by
  refine ⟨fun _ _ h => Matcher.picks_sequences_sublist h, fun d f g h => ?_,
    fun d o o' hc he => ?_⟩
  · exact ⟨_, _, ofDeclaration?_eq_ok (.inl rfl), ofDeclaration?_eq_ok (.inl rfl),
      grows_ofClassifier h d⟩
  · exact ⟨_, _, ofDeclaration?_eq_ok (.inr rfl), ofDeclaration?_eq_ok (.inr rfl),
      grows_ofClassifier (classifierOf_mono_of_subset _ hc he) d⟩

/-- A function and a blocked member, under classifiers and options of which the second knows more. -/
theorem sequences_grow_of_known_item :
    ∃ d : Declaration, d = ⟨"Shape", [
        { name := "area"
          parameters := [⟨"unit", .ofOffset "Unit" 10⟩, ⟨"items", .ofOffset "[Item]" 20⟩] },
        { name := "edges", parameters := [⟨"of", .ofOffset "[Item" 50⟩] }], []⟩ ∧
      (picks (sequences [("unit", .equatable), ("items", .neither)])).Sublist
        (picks (sequences [("unit", .comparable), ("items", .equatable)])) ∧
      (∃ c c', ofDeclaration? d none
          (some fun name => if name = "Unit" then .equatable else .neither) = .ok c ∧
        ofDeclaration? d none (some fun _ => .comparable) = .ok c' ∧ c.Grows c') ∧
      ∃ c c', ofDeclaration? d (some ⟨["Unit"], []⟩) none = .ok c ∧
        ofDeclaration? d (some ⟨["Unit"], ["Item"]⟩) none = .ok c' ∧ c.Grows c' := by
  obtain ⟨hparameters, hclassifiers, hoptions⟩ := sequences_grow
  refine ⟨_, rfl, hparameters _ _ ?_, hclassifiers _ _ _ fun name => ?_,
    hoptions _ _ _ (List.Subset.refl _) (List.nil_subset _)⟩
  · exact .cons ⟨rfl, by decide⟩ (.cons ⟨rfl, by decide⟩ .nil)
  · split_ifs <;> decide

end Classification

end Declaration

end Comparability
