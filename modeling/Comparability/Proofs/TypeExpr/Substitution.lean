import Comparability.Proofs.TypeExpr.Correspondence
import Comparability.Proofs.TypeExpr.Language

/-!
# Containers in context

Wherever a type may begin, a container is read as one operand, and what follows it cannot tell by
which characters it was written: only the spans do. Containers of one capability can therefore stand
in each other's place in any text.

* `Resolution.verdict` : the capability of a text or the reason of its fault, without the span;
* `StopsBetween classify p` : `p` is read without a fault and leaves no leaf pending;
* `IsContainer classify text c` : the text is a container of capability `c`;
* `sequenceForms`, `dictionaryForms` : the ways to write a container with the same parts.
-/

namespace Comparability.TypeExpr

variable {α : Type} {m : Meaning α}

def Resolution.verdict (r : Resolution) : Except Reason Capability :=
  r.outcome.mapError Malformed.reason

/-- Reading the text finds no fault and leaves no leaf pending. -/
def StopsBetween (classify : Classifier) (text : String) : Prop :=
  ∃ s, Scan.run (capabilityMeaning classify) {} text.toList = .ok s ∧ s.leaf = ""

/-- The text resolves to the capability, and reading it leaves a frame on the stack. -/
def IsContainer (classify : Classifier) (text : String) (c : Capability) : Prop :=
  (resolve classify text).outcome = .ok c ∧
    ∃ stack, scan (capabilityMeaning classify) text = .ok (c, stack) ∧ stack ≠ []

def sequenceForms (element : String) : List String :=
  ["[" ++ element ++ "]", "Array<" ++ element ++ ">", "Set<" ++ element ++ ">"]

def dictionaryForms (key value : String) : List String :=
  ["[" ++ key ++ ": " ++ value ++ "]", "Dictionary<" ++ key ++ ", " ++ value ++ ">",
    "Dictionary<" ++ key ++ ": " ++ value ++ ">"]

/-! ## A container is read as one operand -/

/-- What leaves a frame on the stack is derived from a container, with blanks before it and a trail
after it. -/
theorem derives_of_scan_container (hm : ∀ v, m.optional v = v) {text : String} {v : α}
    {stack : List (Frame α)} (h : scan m text = .ok (v, stack)) (hne : stack ≠ []) :
    ∃ before inner after, text.toList = before ++ inner ++ after ∧ Blanks before ∧
      Derives m .container inner v ∧ Trail after := by
  obtain ⟨s, hs, hv, rfl⟩ := scan_eq_ok_iff.mp h
  obtain ⟨-, span, ho, hb⟩ := Scan.conclude_eq_ok_iff.mp hv
  rcases Scan.operand?_eq_some_iff.mp ho with ⟨-, -, hbelow⟩ | ⟨hl, hstack⟩
  · exact absurd (hbelow.symm.trans hb) hne
  · obtain ⟨-, done, blanks, ht, hst, hblanks⟩ := (Scan.accounts_of_run hm hs).of_ready hl
    rw [hstack, hb] at hst
    cases hst with
    | @operand done before inner after _ _ hst hbefore ho ha =>
      cases hst
      refine ⟨before, inner, after ++ blanks, ?_, hbefore, ho, ha.append hblanks.trail⟩
      rw [ht, List.nil_append, List.append_assoc]

theorem Scan.Ready.run_container (hm : ∀ v, m.optional v = v) {s : Scan α} (hs : s.Ready)
    {text : String} {v : α} {stack : List (Frame α)} (h : scan m text = .ok (v, stack))
    (hne : stack ≠ []) :
    ∃ t span, s.run m text.toList = .ok t ∧ t.Ready ∧
      t.stack = .operand ⟨v, span⟩ :: s.stack := by
  obtain ⟨before, inner, after, ht, hb, hd, ha⟩ := derives_of_scan_container hm h hne
  have hs' : Scan.Ready { s with position := s.position + before.length } :=
    ⟨hs.1, hs.2, hs.3, hs.4⟩
  obtain ⟨t, hrun, hh, hr⟩ := Scan.readsAs_of_derives hm hd _ hs'
  obtain ⟨u, hrun', hh', hr'⟩ := hh.trail hm ha
  have hu := hr' (hr rfl)
  obtain ⟨span, hstack⟩ := hh'.stack_of_ready hu
  refine ⟨u, span, ?_, hu, hstack⟩
  rw [ht, List.append_assoc, Scan.run_append_of_eq (Scan.run_blanks hb),
    Scan.run_append_of_eq hrun, hrun']

/-! ## What follows sees the value alone -/

theorem Scan.Ready.alike {s t : Scan α} (hs : s.Ready) (ht : t.Ready)
    (h : List.Forall₂ (Frame.Alike Eq fun _ _ => True) s.stack t.stack) :
    s.Alike Eq (fun _ _ => True) t where
  position := trivial
  stack := h
  leaf := hs.leaf.trans ht.leaf.symm
  leafSpan := spansAlike_true _ _
  gap hl := absurd hs.leaf hl
  marked := hs.marked.trans ht.marked.symm
  depth := hs.depth.trans ht.depth.symm
  atTypeStart := hs.atTypeStart.trans ht.atTypeStart.symm

variable {classify : Classifier}

theorem verdict_resolve (classify : Classifier) (text : String) :
    (resolve classify text).verdict =
      (Scan.run (capabilityMeaning classify) {} text.toList >>=
        Scan.conclude (capabilityMeaning classify)).mapError Fault.reason := by
  unfold resolve scan
  cases Scan.run (capabilityMeaning classify) {} text.toList with
  | error fault => rfl
  | ok s =>
    simp only [bind, Except.bind, pure, Except.pure]
    cases s.conclude (capabilityMeaning classify) <;> rfl

theorem Scan.Alike.verdict {s t : Scan α} (h : s.Alike Eq (fun _ _ => True) t) (cs : List Char) :
    (s.run m cs >>= Scan.conclude m).mapError Fault.reason =
      (t.run m cs >>= Scan.conclude m).mapError Fault.reason := by
  have hrun := h.run m.alike_self tracks_true cs
  generalize s.run m cs = x, t.run m cs = y at hrun
  cases hrun with
  | error hreason _ => exact congrArg Except.error hreason
  | @ok u v hu =>
    have hend := hu.conclude m.alike_self tracks_true
    show (u.conclude m).mapError Fault.reason = (v.conclude m).mapError Fault.reason
    generalize u.conclude m = x, v.conclude m = y at hend
    cases hend with
    | error hreason _ => exact congrArg Except.error hreason
    | ok hv => exact congrArg Except.ok hv

/-- **Containers of one capability can stand in each other's place**: after them the states differ
in positions and spans alone. -/
theorem verdict_substitute {p e₁ e₂ : String} {c : Capability} (hp : StopsBetween classify p)
    (h₁ : IsContainer classify e₁ c) (h₂ : IsContainer classify e₂ c) (rest : String) :
    (resolve classify (p ++ e₁ ++ rest)).verdict =
      (resolve classify (p ++ e₂ ++ rest)).verdict := by
  obtain ⟨s, hs, hl⟩ := hp
  obtain ⟨-, stack₁, hscan₁, hne₁⟩ := h₁
  obtain ⟨-, stack₂, hscan₂, hne₂⟩ := h₂
  have hready : s.Ready := ((Scan.accounts_of_run (fun _ => rfl) hs).of_ready hl).1
  obtain ⟨t₁, span₁, hrun₁, hready₁, hstack₁⟩ :=
    hready.run_container (fun _ => rfl) hscan₁ hne₁
  obtain ⟨t₂, span₂, hrun₂, hready₂, hstack₂⟩ :=
    hready.run_container (fun _ => rfl) hscan₂ hne₂
  have halike : t₁.Alike Eq (fun _ _ => True) t₂ := by
    apply hready₁.alike hready₂
    rw [hstack₁, hstack₂]
    exact .cons (.operand ⟨rfl, spansAlike_true _ _⟩)
      (List.forall₂_same.mpr fun f _ => f.alike_self)
  rw [verdict_resolve, verdict_resolve]
  simp only [String.toList_append, List.append_assoc]
  rw [Scan.run_append_of_eq hs, Scan.run_append_of_eq hrun₁, Scan.run_append_of_eq hs,
    Scan.run_append_of_eq hrun₂]
  exact halike.verdict rest.toList

/-! ## The ways to write a container -/

theorem isContainer_of_derives {text : String} {c : Capability}
    (h : Derives (capabilityMeaning classify) .container text.toList c) :
    IsContainer classify text c := by
  obtain ⟨t, hrun, hh, hr⟩ := Scan.readsAs_of_derives (fun _ => rfl) h {} ⟨rfl, rfl, rfl, rfl⟩
  obtain ⟨span, hstack⟩ := hh.stack_of_ready (hr rfl)
  obtain ⟨ospan, ho⟩ := hh.operand
  have hend : t.conclude (capabilityMeaning classify) = .ok c :=
    Scan.conclude_eq_ok_iff.mpr ⟨hh.depth, ospan, ho, hh.below⟩
  have hscan : scan (capabilityMeaning classify) text = .ok (c, t.stack) :=
    scan_eq_ok_iff.mpr ⟨t, hrun, hend, rfl⟩
  refine ⟨resolve_outcome_eq_ok_iff.mpr ⟨_, hscan⟩, _, hscan, ?_⟩
  rw [hstack]
  exact List.cons_ne_nil _ _

theorem isContainer_of_sequenceForms {element : String} {c : Capability}
    (h : (resolve classify element).outcome = .ok c) :
    ∀ e ∈ sequenceForms element, IsContainer classify e c.sequence := by
  intro e he
  have hd := resolve_outcome_eq_ok_iff_derives.mp h
  apply isContainer_of_derives
  simp only [sequenceForms, List.mem_cons, List.not_mem_nil, or_false] at he
  rcases he with rfl | rfl | rfl <;> simp only [String.toList_append]
  · exact .bracket hd
  · exact .array hd
  · exact .set hd

theorem isContainer_of_dictionaryForms {key value : String} {c d : Capability}
    (hk : (resolve classify key).outcome = .ok c)
    (hv : (resolve classify value).outcome = .ok d) :
    ∀ e ∈ dictionaryForms key value, IsContainer classify e (c.dictionary d) := by
  intro e he
  have hkey := resolve_outcome_eq_ok_iff_derives.mp hk
  have hspace : Blanks [' '] := .singleton rfl
  have hvalue := (resolve_outcome_eq_ok_iff_derives.mp hv).blanks_append hspace
  apply isContainer_of_derives
  show Derives _ _ _ ((capabilityMeaning classify).dictionary c d)
  simp only [dictionaryForms, List.mem_cons, List.not_mem_nil, or_false] at he
  rcases he with rfl | rfl | rfl
  · simpa using Derives.bracketPair hkey hvalue
  · simpa using Derives.dictionary (.inl rfl) hkey hvalue
  · simpa using Derives.dictionary (.inr rfl) hkey hvalue

/-- **Containers in context.** After any text that is read without a fault and leaves no leaf
pending, and before any text at all, a container can be replaced by another of its capability; and
the ways to write a container have one capability. -/
theorem resolve_substitution (classify : Classifier) :
    (∀ p e₁ e₂ rest c, StopsBetween classify p → IsContainer classify e₁ c →
      IsContainer classify e₂ c →
      (resolve classify (p ++ e₁ ++ rest)).verdict =
        (resolve classify (p ++ e₂ ++ rest)).verdict) ∧
    (∀ element c, (resolve classify element).outcome = .ok c →
      ∀ e ∈ sequenceForms element, IsContainer classify e c.sequence) ∧
    (∀ key value c d, (resolve classify key).outcome = .ok c →
      (resolve classify value).outcome = .ok d →
      ∀ e ∈ dictionaryForms key value, IsContainer classify e (c.dictionary d)) ∧
    (∀ p element rest c, StopsBetween classify p → (resolve classify element).outcome = .ok c →
      ∀ e₁ ∈ sequenceForms element, ∀ e₂ ∈ sequenceForms element,
        (resolve classify (p ++ e₁ ++ rest)).verdict =
          (resolve classify (p ++ e₂ ++ rest)).verdict) ∧
    (∀ p key value rest c d, StopsBetween classify p →
      (resolve classify key).outcome = .ok c → (resolve classify value).outcome = .ok d →
      ∀ e₁ ∈ dictionaryForms key value, ∀ e₂ ∈ dictionaryForms key value,
        (resolve classify (p ++ e₁ ++ rest)).verdict =
          (resolve classify (p ++ e₂ ++ rest)).verdict) := by
  refine ⟨fun p e₁ e₂ rest c hp h₁ h₂ => verdict_substitute hp h₁ h₂ rest,
    fun element c h => isContainer_of_sequenceForms h,
    fun key value c d hk hv => isContainer_of_dictionaryForms hk hv, ?_, ?_⟩
  · intro p element rest c hp h e₁ h₁ e₂ h₂
    have hforms := isContainer_of_sequenceForms h
    exact verdict_substitute hp (hforms e₁ h₁) (hforms e₂ h₂) rest
  · intro p key value rest c d hp hk hv e₁ h₁ e₂ h₂
    have hforms := isContainer_of_dictionaryForms hk hv
    exact verdict_substitute hp (hforms e₁ h₁) (hforms e₂ h₂) rest

/-- A set in the place of an array, as the value of a dictionary. -/
theorem verdict_of_set_for_array :
    (resolve (fun _ => .comparable) ("[Int: " ++ "Array<A>" ++ "?] B")).verdict =
      (resolve (fun _ => .comparable) ("[Int: " ++ " Set< C >?" ++ "?] B")).verdict := by
  have h := (resolve_substitution fun _ => .comparable).1
  have hp : StopsBetween (fun _ => .comparable) "[Int: " := ⟨_, rfl, rfl⟩
  have h₁ : IsContainer (fun _ => .comparable) "Array<A>" .equatable :=
    ⟨rfl, _, rfl, List.cons_ne_nil _ _⟩
  have h₂ : IsContainer (fun _ => .comparable) " Set< C >?" .equatable :=
    ⟨rfl, _, rfl, List.cons_ne_nil _ _⟩
  exact h "[Int: " "Array<A>" " Set< C >?" "?] B" .equatable hp h₁ h₂

end Comparability.TypeExpr
