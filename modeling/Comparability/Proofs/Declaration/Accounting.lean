import Mathlib.Data.List.Perm.Basic
import Comparability.Proofs.Declaration.Member

/-!
# Accounting for the diagnostics of a declaration

The classes of the members, the list of blocked members, the diagnostics and the error flag are four
views of one thing: which types of a declaration cannot be read. `Accounts` says how each of them is
known from these types, under the classifier of a declaration (`classifierFor`).

* `Declaration.types` : the types of all members;
* `Declaration.reports` : the errors about them and the warnings about members, in no order;
* `diagnostics_perm`, `anyError_reports` : the diagnostics and the error flag in terms of the
  reports.
-/

namespace Comparability

open Config (Options)
open TypeExpr (resolve)

def Declaration.types (d : Declaration) : List Declaration.WrittenType :=
  d.members.flatMap Declaration.Member.types

namespace Declaration

variable {d : Declaration} {classify : Classifier} {options : Option Options}
  {classifier : Option Classifier}

/-- One error for each type that cannot be read, and one warning for each member with such a
type. -/
def reports (classify : Classifier) (d : Declaration) : List Diagnostic :=
  d.types.filterMap (WrittenType.error? classify) ++ d.members.filterMap (Member.warning? classify)

theorem severity_of_error? {w : WrittenType} {x : Diagnostic} (h : w.error? classify = some x) :
    x.severity = .error :=
  (WrittenType.ofKind_of_error? h).severity

theorem length_reports : (d.reports classify).length =
    d.types.countP (WrittenType.isMalformed classify) +
      d.members.countP (Member.isBlocked classify) := by
  rw [reports, List.length_append, List.length_filterMap_eq_countP, List.length_filterMap_eq_countP]
  simp only [WrittenType.isSome_error?, Member.isSome_warning?]

theorem exists_error_of_isMalformed {w : WrittenType} (h : w.isMalformed classify = true) :
    ∃ x, w.error? classify = some x :=
  Option.isSome_iff_exists.mp (WrittenType.isSome_error?.trans h)

theorem anyError_reports :
    Diagnostic.anyError (d.reports classify) = d.members.any (Member.isBlocked classify) := by
  rw [Bool.eq_iff_iff, Diagnostic.anyError, List.any_eq_true, List.any_eq_true]
  constructor
  · rintro ⟨x, hx, hs⟩
    rcases List.mem_append.mp hx with hx | hx
    · obtain ⟨w, hw, he⟩ := List.mem_filterMap.mp hx
      obtain ⟨m, hm, hw⟩ := List.mem_flatMap.mp hw
      refine ⟨m, hm, List.any_eq_true.mpr ⟨w, hw, ?_⟩⟩
      rw [← WrittenType.isSome_error?, he, Option.isSome_some]
    · obtain ⟨m, -, hm⟩ := List.mem_filterMap.mp hx
      rw [(Member.ofKind_of_warning? hm).severity] at hs
      cases hs
  · rintro ⟨m, hm, hb⟩
    obtain ⟨w, hw, hb⟩ := List.any_eq_true.mp hb
    obtain ⟨x, hx⟩ := exists_error_of_isMalformed hb
    refine ⟨x, List.mem_append_left _ (List.mem_filterMap.mpr ⟨w, ?_, hx⟩), ?_⟩
    · exact List.mem_flatMap.mpr ⟨m, hm, hw⟩
    · rw [severity_of_error? hx]
      rfl

namespace Classification

/-- The classifier under which a declaration is classified: the given one, or else that of its
associated types and the given options. -/
def classifierFor (d : Declaration) (options : Option Options) (classifier : Option Classifier) :
    Classifier :=
  classifier.getD (classifierOf d.associatedTypes (options.getD {}))

theorem ofDeclaration?_eq_ok (h : options = none ∨ classifier = none) :
    ofDeclaration? d options classifier =
      .ok (ofClassifier d (classifierFor d options classifier)) := by
  rcases h with rfl | rfl
  · cases classifier <;> rfl
  · cases options <;> rfl

theorem members_ofClassifier :
    (ofClassifier d classify).members = d.members.map (MemberClass.ofMember classify) :=
  rfl

theorem diagnostics_ofClassifier : (ofClassifier d classify).diagnostics = Diagnostic.sort
    (d.members.flatMap fun m => m.errors classify ++ (m.warning? classify).toList) := by
  simp only [ofClassifier, Diagnostic.collect, List.map_map, ← List.flatMap_def,
    Function.comp_def, MemberClass.diagnostics_ofMember]

theorem diagnostics_perm : (ofClassifier d classify).diagnostics.Perm (d.reports classify) := by
  rw [diagnostics_ofClassifier]
  refine (Diagnostic.sort_perm _).trans ?_
  rw [reports, types, List.filterMap_flatMap, List.filterMap_eq_flatMap_toList]
  exact (List.flatMap_append_perm _ _ _).symm

theorem blockedNames_ofClassifier : (ofClassifier d classify).blockedNames =
    (d.members.filter (Member.isBlocked classify)).map Member.name := by
  simp only [blockedNames, members_ofClassifier, List.filter_map, List.map_map, Function.comp_def,
    MemberClass.member_ofMember, MemberClass.blocked_ofMember]

/-- How the parts of a classification are known from the types that cannot be read. -/
structure Accounts (classify : Classifier) (c : Classification) : Prop where
  /-- each member has its class, in their order -/
  members : c.members.map MemberClass.member = c.declaration.members
  /-- a member is blocked when one of its types cannot be read -/
  blocked : ∀ m ∈ c.members, m.blocked = true ↔
    ∃ w ∈ m.member.types, ∃ e, (resolve classify w.text).outcome = .error e
  ordered : c.diagnostics.Pairwise fun a b => a.key ≤ b.key
  reports : c.diagnostics.Perm (c.declaration.reports classify)
  length : c.diagnostics.length =
    c.declaration.types.countP (WrittenType.isMalformed classify) + c.blockedNames.length
  anyError : c.anyError = true ↔ c.blockedNames ≠ []
  blockedNames : c.blockedNames =
    (c.declaration.members.filter (Member.isBlocked classify)).map Member.name
  sequences : ∀ m ∈ c.members, m.sequences ≠ [] ↔
    m.blocked = false ∧ m.member.kind = .function ∧ m.member.parameters ≠ []
  /-- a plan is made where each parameter has a capability -/
  planned : ∀ m ∈ c.members, m.blocked = false → m.member.kind = .function →
    ∃ capabilities : List Capability,
      m.member.parameters.map (fun p => (resolve classify p.type.text).outcome) =
        capabilities.map .ok ∧
      m.sequences = Matcher.sequences ((m.member.parameters.map Parameter.name).zip capabilities)

theorem accounts_ofClassifier (d : Declaration) (classify : Classifier) :
    (ofClassifier d classify).Accounts classify where
  members := by simp [ofClassifier, Function.comp_def]
  blocked := by
    intro m hm
    obtain ⟨member, -, rfl⟩ := List.mem_map.mp hm
    rw [MemberClass.blocked_ofMember, MemberClass.member_ofMember, Member.isBlocked,
      List.any_eq_true]
    simp only [WrittenType.isMalformed_iff]
  ordered := Diagnostic.pairwise_sort _
  reports := diagnostics_perm
  length := by
    rw [diagnostics_perm.length_eq, length_reports, blockedNames_ofClassifier, List.length_map,
      List.countP_eq_length_filter (p := Member.isBlocked classify)]
    rfl
  anyError := by
    rw [anyError, Diagnostic.anyError, diagnostics_perm.any_eq, ← Diagnostic.anyError,
      anyError_reports, blockedNames_ofClassifier]
    simp
  blockedNames := blockedNames_ofClassifier
  sequences := by
    intro m hm
    obtain ⟨member, -, rfl⟩ := List.mem_map.mp hm
    rw [MemberClass.blocked_ofMember, MemberClass.member_ofMember]
    exact MemberClass.sequences_ofMember_ne_nil_iff
  planned := by
    intro m hm hb hk
    obtain ⟨member, -, rfl⟩ := List.mem_map.mp hm
    rw [MemberClass.blocked_ofMember] at hb
    rw [MemberClass.member_ofMember] at hk ⊢
    exact MemberClass.exists_plan_of_not_blocked hb hk

/-- **The diagnostics of a declaration are accounted for.** Unless a classifier and options are both
given, a declaration is classified. One error for each type that cannot be read and one warning for
each member with such a type are its diagnostics, in order; there is an error among them when some
member is blocked; and the sequences of a function that is not blocked are made of the capabilities
that its parameters have. -/
theorem ofDeclaration_accounts (d : Declaration) (options : Option Options)
    (classifier : Option Classifier) (h : options = none ∨ classifier = none) :
    ∃ c, ofDeclaration? d options classifier = .ok c ∧ c.declaration = d ∧
      c.Accounts (classifierFor d options classifier) :=
  ⟨_, ofDeclaration?_eq_ok h, rfl, accounts_ofClassifier d _⟩

/-- Two members of one name, the first with two types that cannot be read, and a property. -/
theorem accounts_of_overloaded_member :
    ∃ c, ofDeclaration? ⟨"Shape", [
        { name := "area"
          parameters := [⟨"unit", .ofOffset "[Int" 10⟩, ⟨"scale", .ofOffset "Int" 20⟩]
          returnType := some (.ofOffset "Set<>" 30) },
        { name := "area", parameters := [⟨"unit", .ofOffset "[Int]" 50⟩] },
        { name := "edges", kind := .property, returnType := some (.ofOffset "Int]" 70) }], []⟩
        none none = .ok c ∧
      c.diagnostics.length = 5 ∧ c.blockedNames = ["area", "edges"] ∧ c.anyError = true := by
  obtain ⟨c, hc, hd, ha⟩ := ofDeclaration_accounts ⟨"Shape", [
      { name := "area"
        parameters := [⟨"unit", .ofOffset "[Int" 10⟩, ⟨"scale", .ofOffset "Int" 20⟩]
        returnType := some (.ofOffset "Set<>" 30) },
      { name := "area", parameters := [⟨"unit", .ofOffset "[Int]" 50⟩] },
      { name := "edges", kind := .property, returnType := some (.ofOffset "Int]" 70) }], []⟩
    none none (.inl rfl)
  have hnames : c.blockedNames = ["area", "edges"] := by
    rw [ha.blockedNames, hd]
    decide
  refine ⟨c, hc, ?_, hnames, ha.anyError.mpr (by simp [hnames])⟩
  rw [ha.length, hd, hnames]
  decide

end Classification

end Declaration

end Comparability
