import Comparability.Proofs.Names.Promise
import Comparability.Session

/-!
# What a session knows

A session is given associated types and entries one after the other. All that it is given are
promises about names, and its classifier is the join of the built-in names and of these promises: it
answers with the strongest one, whatever the order and the repetitions, and never with less than
before.

* `Session.Step`, `Session.run` : what a session can be given, and the session after a list of it;
* `Session.promises`, `Step.promises` : what a session has been promised, and what a step promises;
* `Session.classifier_eq` : the classifier in terms of the promises;
* `Session.mem_promises_run` : the promises of a run are those of its steps.
-/

namespace Comparability

open Config (Options Entries)
open Names

namespace Names.AssociatedType

def promise (declaration : AssociatedType) : Promise :=
  ⟨declaration.name, declaration.capability⟩

variable {declarations : List AssociatedType} {name : String} {c : Capability}

/-- The two lists to which associated types contribute hold what the types promise. -/
theorem forall_namesOf_iff :
    (∀ known ∈ namesOf declarations .comparable, canonical known = name → .comparable ≤ c) ∧
      (∀ known ∈ namesOf declarations .equatable, canonical known = name → .equatable ≤ c) ↔
    ∀ d ∈ declarations, canonical d.name = name → d.capability ≤ c := by
  constructor
  · rintro ⟨hc, he⟩ d hd hn
    cases hp : d.capability with
    | neither => exact Capability.neither_le c
    | equatable => exact he _ (mem_namesOf.mpr ⟨d, hd, hp, rfl⟩) (by rw [canonical_trim, hn])
    | comparable => exact hc _ (mem_namesOf.mpr ⟨d, hd, hp, rfl⟩) (by rw [canonical_trim, hn])
  · intro h
    constructor <;> intro known hk hn <;> obtain ⟨d, hd, hp, rfl⟩ := mem_namesOf.mp hk
    all_goals
      rw [canonical_trim] at hn
      exact hp ▸ h d hd hn

end Names.AssociatedType

def Config.Options.promises (options : Options) : List Promise :=
  options.comparableTypes.map (⟨·, .comparable⟩) ++ options.equatableTypes.map (⟨·, .equatable⟩)

namespace Session

inductive Step where
  | configure (entries : Entries)
  | associate (declaration : AssociatedType)

/-- What a session is promised by what it is given: nothing, if entries are no options. -/
def Step.promises : Step → List Promise
  | configure entries =>
    match Options.ofEntries? entries with
    | .ok options => options.promises
    | .error _ => []
  | associate declaration => [declaration.promise]

/-- The session after a step. Entries that are no options leave it as it was. -/
def take (s : Session) : Step → Session
  | .configure entries =>
    match s.configure? entries with
    | .ok next => next
    | .error _ => s
  | .associate declaration => s.associate declaration

def run (s : Session) (steps : List Step) : Session :=
  steps.foldl take s

def promises (s : Session) : List Promise :=
  s.options.promises ++ s.associatedTypes.map AssociatedType.promise

variable {s t : Session} {step : Step} {steps other : List Step} {name : String} {c : Capability}

/-! ## The classifier of a session -/

theorem classifier_le_iff (h : name ≠ "") :
    s.classifier name ≤ c ↔
      (Table.build {}).classify name ≤ c ∧ Promise.strongest s.promises name ≤ c := by
  rw [classifier, classifierOf, Table.build_classify_le_iff h, Promise.strongest_le_iff]
  refine and_congr_right' ?_
  simp only [additionsOf, promises, Options.promises, List.forall_mem_append, List.forall_mem_map,
    AssociatedType.promise, ← AssociatedType.forall_namesOf_iff]
  constructor
  · rintro ⟨⟨hac, hdc⟩, hae, hde⟩
    exact ⟨⟨hdc, hde⟩, hac, hae⟩
  · rintro ⟨⟨hdc, hde⟩, hac, hae⟩
    exact ⟨⟨hac, hdc⟩, hae, hde⟩

/-- The classifier of a session is the join of the built-in names and of what it has been
promised. -/
theorem classifier_eq (h : name ≠ "") :
    s.classifier name =
      ((Table.build {}).classify name).join (Promise.strongest s.promises name) := by
  apply Capability.eq_of_forall_le_iff
  intro c
  rw [classifier_le_iff h, Capability.join_le_iff]

theorem classifier_empty : s.classifier "" = .neither :=
  Table.build_classify_empty

theorem classifier_mono (h : s.promises ⊆ t.promises) : s.classifier name ≤ t.classifier name := by
  by_cases hn : name = ""
  · rw [hn, classifier_empty]
    exact Capability.neither_le _
  · have ht := (classifier_le_iff hn).mp (Capability.le_refl (t.classifier name))
    refine (classifier_le_iff hn).mpr ⟨ht.1, Promise.strongest_le_iff.mpr fun p hp => ?_⟩
    exact Promise.strongest_le_iff.mp ht.2 p (h hp)

theorem le_classifier {p : Promise} (hp : p ∈ s.promises) (h : canonical p.name ≠ "") :
    p.capability ≤ s.classifier (canonical p.name) := by
  have hs := (classifier_le_iff h).mp (Capability.le_refl (s.classifier (canonical p.name)))
  exact Promise.strongest_le_iff.mp hs.2 p hp rfl

/-! ## Runs -/

theorem mem_promises_take {p : Promise} :
    p ∈ (s.take step).promises ↔ p ∈ s.promises ∨ p ∈ step.promises := by
  cases step with
  | configure entries =>
    cases ho : Options.ofEntries? entries with
    | error fault => simp [take, configure?, Step.promises, ho, bind, Except.bind]
    | ok options =>
      simp only [take, configure?, Step.promises, ho, bind, Except.bind, pure, Except.pure,
        promises, Options.promises, Options.merge, List.map_append, List.mem_append]
      tauto
  | associate declaration => simp [take, associate, Step.promises, promises, or_assoc]

theorem mem_promises_run {p : Promise} :
    p ∈ (s.run steps).promises ↔ p ∈ s.promises ∨ ∃ step ∈ steps, p ∈ step.promises := by
  induction steps generalizing s with
  | nil => simp [run]
  | cons step steps ih =>
    rw [run, List.foldl_cons, ← run, ih, mem_promises_take]
    simp only [List.mem_cons, exists_eq_or_imp, or_assoc]

theorem run_promises_subset (h : steps ⊆ other) :
    (s.run steps).promises ⊆ (s.run other).promises := by
  intro p hp
  rw [mem_promises_run] at hp ⊢
  exact hp.imp_right fun ⟨step, hs, hp⟩ => ⟨step, h hs, hp⟩

/-- **The classifier of a session is the join of all that the session was given.** It answers with
the strongest of the built-in capability of a name and of what associated types and accepted options
promise under names with that normal form; of the empty name it knows nothing. The order and the
repetition of the steps do not matter, no step lowers an answer, and no promise is lost. -/
theorem classifier_of_run (s : Session) (steps : List Step) :
    (∀ name, name ≠ "" →
      (s.run steps).classifier name =
        ((Table.build {}).classify name).join (Promise.strongest (s.run steps).promises name)) ∧
    (∀ p, p ∈ (s.run steps).promises ↔ p ∈ s.promises ∨ ∃ step ∈ steps, p ∈ step.promises) ∧
    (s.run steps).classifier "" = .neither ∧
    (∀ other, (∀ step, step ∈ other ↔ step ∈ steps) →
      (s.run other).classifier = (s.run steps).classifier) ∧
    (∀ step name, (s.run steps).classifier name ≤ (s.run (steps ++ [step])).classifier name) ∧
    ∀ p ∈ (s.run steps).promises, canonical p.name ≠ "" →
      p.capability ≤ (s.run steps).classifier (canonical p.name) := by
  refine ⟨fun name h => classifier_eq h, fun p => mem_promises_run, classifier_empty,
    fun other h => ?_, fun step name => ?_, fun p hp h => le_classifier hp h⟩
  · funext name
    apply Capability.le_antisymm
    · exact classifier_mono (run_promises_subset fun step hs => (h step).mp hs)
    · exact classifier_mono (run_promises_subset fun step hs => (h step).mpr hs)
  · exact classifier_mono (run_promises_subset (List.subset_append_left steps [step]))

/-- A name from two sources, a built-in name that is listed again, and entries that are refused. -/
theorem classifier_of_overlapping_steps :
    ∃ steps : List Step, steps = [.associate ⟨" Item ", ["Hashable & Equatable"]⟩,
        .configure [("additional_equatable_types", .list [.text "Int"])],
        .configure [("names", .list [.text "Other"])],
        .configure [("additional_comparable_types", .list [.text " It em?"])]] ∧
      (run {} steps).classifier "Item" = .comparable ∧
      (run {} steps).classifier "Int" = .comparable ∧
      (run {} steps).classifier "Other" = .neither ∧
      (run {} (steps.reverse ++ steps)).classifier = (run {} steps).classifier := by
  refine ⟨_, rfl, ?_⟩
  obtain ⟨hjoin, -, -, horder, -⟩ := classifier_of_run {}
    [.associate ⟨" Item ", ["Hashable & Equatable"]⟩,
      .configure [("additional_equatable_types", .list [.text "Int"])],
      .configure [("names", .list [.text "Other"])],
      .configure [("additional_comparable_types", .list [.text " It em?"])]]
  refine ⟨?_, ?_, ?_, horder _ fun step => ?_⟩
  · rw [hjoin "Item" (by decide)]
    decide +kernel
  · rw [hjoin "Int" (by decide)]
    decide +kernel
  · rw [hjoin "Other" (by decide)]
    decide +kernel
  · rw [List.mem_append, List.mem_reverse, or_self]

end Session

end Comparability
