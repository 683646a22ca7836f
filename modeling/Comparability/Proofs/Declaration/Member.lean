import Comparability.Declaration.Classification
import Comparability.Proofs.Diagnostic
import Comparability.Proofs.Matcher
import Comparability.Proofs.TypeExpr.Excerpt

/-!
# What the types of a member say about its class

* `Member.types` : the types of a member, the return type after those of the parameters;
* `WrittenType.isMalformed`, `error?` : a type that cannot be read, and the error about it;
* `Member.warning?` : the warning about a member with such a type, at the first one.

The class of a member is known from its types alone: it is blocked when one of them is malformed
(`blocked_ofMember`), it has the errors of its types and the warning for its diagnostics
(`diagnostics_ofMember`), and sequences are planned for it when it is a function whose types are all
well-formed (`exists_plan_of_not_blocked`).
-/

namespace Comparability

open TypeExpr (Malformed resolve)

namespace Declaration

variable {classify : Classifier}

/-! ## Types -/

namespace WrittenType

def isMalformed (classify : Classifier) (w : WrittenType) : Bool :=
  !(resolve classify w.text).isOk

/-- The error about a type that cannot be read, where the type stands in the source. -/
def error? (classify : Classifier) (w : WrittenType) : Option Diagnostic :=
  (resolve classify w.text).error?.map fun e =>
    DiagnosticKind.malformedType.report ("In `" ++ w.text ++ "`: " ++ e.reason.message ++ ".")
      (e.span.shift w.span.start)

variable {w : WrittenType}

theorem isMalformed_iff :
    w.isMalformed classify = true ↔ ∃ e, (resolve classify w.text).outcome = .error e := by
  unfold isMalformed TypeExpr.Resolution.isOk
  cases (resolve classify w.text).outcome <;> simp

theorem isSome_error? : (w.error? classify).isSome = w.isMalformed classify := by
  unfold error? isMalformed TypeExpr.Resolution.isOk TypeExpr.Resolution.error?
  cases (resolve classify w.text).outcome <;> rfl

theorem error?_eq_some_iff {d : Diagnostic} :
    w.error? classify = some d ↔ ∃ e, (resolve classify w.text).outcome = .error e ∧
      d = e.diagnostic.moved w.span.start := by
  unfold error? TypeExpr.Resolution.error?
  cases h : (resolve classify w.text).outcome with
  | ok capability => simp
  | error e =>
    obtain ⟨-, htext⟩ := TypeExpr.resolve_outcome_eq_error_iff.mp h
    simp only [Option.map_some, Option.some.injEq, Except.error.injEq, exists_eq_left', ← htext]
    exact eq_comm

theorem ofKind_of_error? {d : Diagnostic} (h : w.error? classify = some d) :
    d.OfKind .malformedType := by
  obtain ⟨e, -, rfl⟩ := Option.map_eq_some_iff.mp h
  exact DiagnosticKind.ofKind_report _ _ _

end WrittenType

namespace ResolvedType

variable {label : String} {w : WrittenType}

theorem diagnostics_ofWritten :
    (ofWritten classify label w).diagnostics = (w.error? classify).toList := by
  unfold diagnostics TypeExpr.Resolution.diagnostics TypeExpr.Resolution.error?
  cases h : (resolve classify w.text).outcome with
  | ok capability => simp [ofWritten, h, WrittenType.error?, TypeExpr.Resolution.error?]
  | error e =>
    rw [WrittenType.error?_eq_some_iff.mpr ⟨e, h, rfl⟩]
    simp [ofWritten, h]

end ResolvedType

/-! ## Members -/

namespace Member

/-- The types of a member, the return type after those of the parameters. -/
def types (m : Member) : List WrittenType :=
  m.parameters.map Parameter.type ++ m.returnType.toList

def errors (classify : Classifier) (m : Member) : List Diagnostic :=
  m.types.filterMap (WrittenType.error? classify)

def isBlocked (classify : Classifier) (m : Member) : Bool :=
  m.types.any (WrittenType.isMalformed classify)

/-- The warning about a member that is blocked, at the first type that cannot be read. -/
def warning? (classify : Classifier) (m : Member) : Option Diagnostic :=
  (m.types.find? (WrittenType.isMalformed classify)).map fun w =>
    DiagnosticKind.blockedMember.report
      ("Member `" ++ m.name ++ "` has a malformed type annotation.") w.span

variable {m : Member}

theorem isSome_warning? : (m.warning? classify).isSome = m.isBlocked classify := by
  rw [warning?, Option.isSome_map, List.isSome_find?, isBlocked]

theorem ofKind_of_warning? {d : Diagnostic} (h : m.warning? classify = some d) :
    d.OfKind .blockedMember := by
  obtain ⟨w, -, rfl⟩ := Option.map_eq_some_iff.mp h
  exact DiagnosticKind.ofKind_report _ _ _

theorem known_of_mem {d : Diagnostic}
    (h : d ∈ m.errors classify ++ (m.warning? classify).toList) : d.Known := by
  rcases List.mem_append.mp h with h | h
  · obtain ⟨w, -, hw⟩ := List.mem_filterMap.mp h
    exact ⟨.malformedType, by decide, WrittenType.ofKind_of_error? hw⟩
  · exact ⟨.blockedMember, by decide, ofKind_of_warning? (Option.mem_toList.mp h)⟩

end Member

namespace MemberClass

variable {m : Member} {sequences : List (List Matcher.Slot)}

def resolved (classify : Classifier) (m : Member) (sequences : List (List Matcher.Slot)) :
    MemberClass where
  member := m
  parameters := m.parameters.map fun p => .ofWritten classify p.name p.type
  returnType := m.returnType.map (.ofWritten classify ResolvedType.returnLabel)
  sequences := sequences

theorem exists_labels : ∃ labelled : List (String × WrittenType),
    labelled.map Prod.snd = m.types ∧ ∀ sequences, (resolved classify m sequences).annotations =
      labelled.map fun a => .ofWritten classify a.1 a.2 := by
  refine ⟨m.parameters.map (fun p => (p.name, p.type)) ++
    m.returnType.toList.map (ResolvedType.returnLabel, ·), ?_, fun sequences => ?_⟩
  · simp [Member.types, Function.comp_def]
  · simp [annotations, resolved, Function.comp_def, Option.toList_map]

theorem blocked_resolved : (resolved classify m sequences).blocked = m.isBlocked classify := by
  obtain ⟨labelled, htypes, h⟩ := @exists_labels classify m
  rw [blocked, h, Member.isBlocked, ← htypes, List.any_map, List.any_map]
  rfl

theorem ofMember_eq : ofMember classify m = resolved classify m
    (if m.isBlocked classify then []
      else plan m.kind (m.parameters.map fun p => .ofWritten classify p.name p.type)) := by
  have hblocked : (resolved classify m []).blocked = m.isBlocked classify := blocked_resolved
  show (if (resolved classify m []).blocked then resolved classify m [] else _) = _
  rw [hblocked]
  split_ifs <;> rfl

@[simp] theorem member_ofMember : (ofMember classify m).member = m := by
  rw [ofMember_eq]
  rfl

@[simp] theorem blocked_ofMember : (ofMember classify m).blocked = m.isBlocked classify := by
  rw [ofMember_eq, blocked_resolved]

theorem diagnostics_ofMember :
    (ofMember classify m).diagnostics = m.errors classify ++ (m.warning? classify).toList := by
  obtain ⟨labelled, htypes, h⟩ := @exists_labels classify m
  rw [ofMember_eq, diagnostics, h, Member.errors, Member.warning?, ← htypes, List.flatMap_map,
    List.filterMap_map, List.filterMap_eq_flatMap_toList, List.find?_map, List.find?_map,
    Option.map_map, Option.map_map]
  simp only [ResolvedType.diagnostics_ofWritten]
  rfl

/-! ## Plans -/

theorem sequences_ofMember : (ofMember classify m).sequences = if m.isBlocked classify then []
    else plan m.kind (m.parameters.map fun p => .ofWritten classify p.name p.type) := by
  rw [ofMember_eq]
  rfl

theorem plan_of_ne_function {kind : MemberKind} (h : kind ≠ .function)
    (parameters : List ResolvedType) : plan kind parameters = [] := by
  unfold plan
  split
  · exact absurd rfl h
  · rfl

/-- The parameters of a function whose types can all be read have capabilities, in their order. -/
theorem exists_capabilities {parameters : List Parameter}
    (h : ∀ p ∈ parameters, p.type.isMalformed classify = false) :
    ∃ capabilities : List Capability,
      parameters.map (fun p => (resolve classify p.type.text).outcome) = capabilities.map .ok ∧
      (parameters.map fun p => ResolvedType.ofWritten classify p.name p.type).mapM
        ResolvedType.parameter? = some ((parameters.map Parameter.name).zip capabilities) := by
  induction parameters with
  | nil => exact ⟨[], rfl, rfl⟩
  | cons p rest ih =>
    obtain ⟨capabilities, houtcomes, hparameters⟩ := ih fun q hq => h q (List.mem_cons_of_mem p hq)
    have hp := h p List.mem_cons_self
    cases ho : (resolve classify p.type.text).outcome with
    | error e =>
      rw [WrittenType.isMalformed_iff.mpr ⟨e, ho⟩] at hp
      cases hp
    | ok capability =>
      refine ⟨capability :: capabilities, ?_, ?_⟩
      · rw [List.map_cons, List.map_cons, ho, houtcomes]
      · have hfirst : (ResolvedType.ofWritten classify p.name p.type).parameter? =
            some (p.name, capability) := by
          simp [ResolvedType.parameter?, ResolvedType.ofWritten, TypeExpr.Resolution.capability?,
            ho]
        rw [List.map_cons, List.mapM_cons, hfirst, hparameters]
        rfl

/-- The plan for a function that is not blocked is made of the capabilities of its parameters. -/
theorem exists_plan_of_not_blocked (hb : m.isBlocked classify = false) (hk : m.kind = .function) :
    ∃ capabilities : List Capability,
      m.parameters.map (fun p => (resolve classify p.type.text).outcome) = capabilities.map .ok ∧
      (ofMember classify m).sequences =
        Matcher.sequences ((m.parameters.map Parameter.name).zip capabilities) := by
  have hparameters : ∀ p ∈ m.parameters, p.type.isMalformed classify = false := by
    intro p hp
    rw [Member.isBlocked, List.any_eq_false] at hb
    exact Bool.not_eq_true _ ▸ hb p.type (List.mem_append_left _ (List.mem_map_of_mem hp))
  obtain ⟨capabilities, houtcomes, hplan⟩ := exists_capabilities hparameters
  refine ⟨capabilities, houtcomes, ?_⟩
  rw [sequences_ofMember, hb, if_neg Bool.false_ne_true, hk]
  unfold plan
  rw [hplan]

/-- Sequences are planned for the functions that are not blocked and have parameters. -/
theorem sequences_ofMember_ne_nil_iff :
    (ofMember classify m).sequences ≠ [] ↔
      m.isBlocked classify = false ∧ m.kind = .function ∧ m.parameters ≠ [] := by
  cases hb : m.isBlocked classify with
  | true =>
    rw [sequences_ofMember, hb, if_pos rfl]
    exact iff_of_false (fun h => h rfl) fun h => Bool.noConfusion h.1
  | false =>
    by_cases hk : m.kind = .function
    · obtain ⟨capabilities, houtcomes, hplan⟩ := exists_plan_of_not_blocked hb hk
      have hlength := congrArg List.length houtcomes
      rw [List.length_map, List.length_map] at hlength
      have hnil : capabilities = [] ↔ m.parameters = [] := by
        rw [← List.length_eq_zero_iff, ← hlength, List.length_eq_zero_iff]
      simp [hplan, Matcher.sequences_eq_nil_iff, List.zip_eq_nil_iff, hnil, hk]
    · rw [sequences_ofMember, hb, if_neg Bool.false_ne_true, plan_of_ne_function hk]
      exact iff_of_false (fun h => h rfl) fun h => hk h.2.1

end MemberClass

end Declaration

end Comparability
