import Mathlib.Data.List.Infix
import Comparability.Proofs.TypeExpr.Language

/-!
# Where containers open

* `Reaches m text done s` : the scan of the text is in the state `s` after the characters `done`;
* `OpensContainer m text` : in one of these states a container is open;
* `SplitsOpener m text position` : the position lies between two characters that the scan reads as
  one opener.

An open container was read from the text of its opener, and its span says from where
(`Stacked.spells_opened`). A stack that has held a frame is never empty again, so a scan opens a
container exactly when it leaves a frame behind (`opensContainer_iff`).
-/

namespace Comparability.TypeExpr

open Text (Span)

variable {α : Type} {m : Meaning α}

/-- The scan of the text is in the given state after its first characters `done`. -/
structure Reaches (m : Meaning α) (text done : List Char) (s : Scan α) : Prop where
  isPrefix : done <+: text
  run : Scan.run m {} done = .ok s

theorem Reaches.append {text done : List Char} {s : Scan α} (h : Reaches m text done s)
    (rest : List Char) : Reaches m (text ++ rest) done s :=
  ⟨h.isPrefix.trans (List.prefix_append text rest), h.run⟩

def OpensContainer (m : Meaning α) (text : List Char) : Prop :=
  ∃ done s, Reaches m text done s ∧ s.innermost? ≠ none

/-- The position lies strictly within the span of an opener that the scan of the text reads. What the
scan takes for a pending leaf there is the beginning of the opener. -/
def SplitsOpener (m : Meaning α) (text : List Char) (position : Nat) : Prop :=
  ∃ done s, Reaches m text done s ∧
    ∃ frame, .opened frame ∈ s.stack ∧ frame.span.start < position ∧ position < frame.span.stop

/-! ## The text of an opener -/

structure Spells (text : List Char) (opener : Opener) (span : Span) : Prop where
  mem : opener ∈ Opener.all
  text : ∃ before after, text = before ++ opener.text.toList ++ after ∧ span.start = before.length
  stop : span.stop = span.start + opener.text.toList.length

theorem Spells.append {text : List Char} {opener : Opener} {span : Span}
    (h : Spells text opener span) (more : List Char) : Spells (text ++ more) opener span := by
  obtain ⟨before, after, rfl, hs⟩ := h.text
  exact ⟨h.mem, ⟨before, after ++ more, by simp, hs⟩, h.stop⟩

theorem Stacked.spells_opened {text : List Char} {stack : List (Frame α)}
    (h : Stacked m text stack) {frame : OpenContainer} (hf : .opened frame ∈ stack) :
    ∃ opener, Spells text opener frame.span ∧ frame.closer = opener.closer := by
  induction h generalizing frame with
  | nil => exact absurd hf List.not_mem_nil
  | @opened done blanks opener span rest _ _ ho hs he ih =>
    rcases List.mem_cons.mp hf with hf | hf
    · obtain rfl := Frame.opened.inj hf
      refine ⟨opener, ⟨ho, ⟨done ++ blanks, [], by simp, hs⟩, ?_⟩, rfl⟩
      rw [List.length_append, ← hs] at he
      exact he
    · obtain ⟨other, hsp, hc⟩ := ih hf
      refine ⟨other, ?_, hc⟩
      rw [List.append_assoc]
      exact hsp.append _
  | operand _ _ _ _ _ _ ih =>
    have hf := (List.mem_cons.mp hf).resolve_left (by simp)
    obtain ⟨opener, hsp, hc⟩ := ih hf
    refine ⟨opener, ?_, hc⟩
    rw [List.append_assoc, List.append_assoc]
    exact hsp.append _
  | @key done text separator k opened rest _ _ _ _ _ _ ih =>
    have hf := (List.mem_cons.mp hf).resolve_left (by simp)
    rw [List.append_assoc]
    rcases List.mem_cons.mp hf with hf | hf
    · obtain rfl := Frame.opened.inj hf
      obtain ⟨opener, hsp, hc⟩ := ih List.mem_cons_self
      rw [OpenContainer.span_separated, OpenContainer.closer_separated]
      exact ⟨opener, hsp.append _, hc⟩
    · obtain ⟨opener, hsp, hc⟩ := ih (List.mem_cons_of_mem _ hf)
      exact ⟨opener, hsp.append _, hc⟩

theorem Scan.Accounts.spells_opened {s : Scan α} {text : List Char} (h : s.Accounts m text)
    {frame : OpenContainer} (hf : .opened frame ∈ s.stack) :
    ∃ opener, Spells text opener frame.span ∧ frame.closer = opener.closer := by
  obtain ⟨-, done, blanks, raw, rfl, hs, -, -⟩ := h
  obtain ⟨opener, hsp, hc⟩ := hs.spells_opened hf
  refine ⟨opener, ?_, hc⟩
  rw [List.append_assoc]
  exact hsp.append _

variable {text : List Char}

theorem SplitsOpener.exists_opener (hm : ∀ v, m.optional v = v) {position : Nat}
    (h : SplitsOpener m text position) :
    ∃ opener ∈ Opener.all, ∃ start < position, opener.text.toList <+: text.drop start ∧
      position < start + opener.text.toList.length := by
  obtain ⟨done, s, hr, frame, hf, hstart, hstop⟩ := h
  obtain ⟨rest, ht⟩ := hr.isPrefix
  obtain ⟨opener, hsp, -⟩ := (Scan.accounts_of_run hm hr.run).spells_opened hf
  obtain ⟨before, after, hdone, hb⟩ := hsp.text
  refine ⟨opener, hsp.mem, frame.span.start, hstart, ?_, hsp.stop ▸ hstop⟩
  have hdrop : text.drop frame.span.start = opener.text.toList ++ (after ++ rest) := by
    rw [← ht, hdone, hb, List.append_assoc, List.append_assoc, List.drop_left]
  rw [hdrop]
  exact List.prefix_append _ _

def splitsAfter (m : Meaning α) (position : Nat) (done : List Char) : Bool :=
  match Scan.run m {} done with
  | .ok s => (s.stack.filterMap Frame.opened?).any fun frame =>
    decide (frame.span.start < position ∧ position < frame.span.stop)
  | .error _ => false

theorem Frame.opened?_eq_some_iff {f : Frame α} {frame : OpenContainer} :
    f.opened? = some frame ↔ f = .opened frame := by
  cases f <;> simp [opened?]

theorem splitsOpener_iff {position : Nat} :
    SplitsOpener m text position ↔ text.inits.any (splitsAfter m position) = true := by
  simp only [SplitsOpener, List.any_eq_true, List.mem_inits]
  constructor
  · rintro ⟨done, s, ⟨hp, hrun⟩, frame, hf, hlt⟩
    refine ⟨done, hp, ?_⟩
    simp only [splitsAfter, hrun, List.any_eq_true, List.mem_filterMap]
    exact ⟨frame, ⟨_, hf, rfl⟩, decide_eq_true hlt⟩
  · rintro ⟨done, hp, h⟩
    unfold splitsAfter at h
    split at h
    · next s hrun =>
      simp only [List.any_eq_true, List.mem_filterMap, Frame.opened?_eq_some_iff] at h
      obtain ⟨frame, ⟨f, hf, rfl⟩, hlt⟩ := h
      exact ⟨done, s, ⟨hp, hrun⟩, frame, hf, of_decide_eq_true hlt⟩
    · cases h

instance (position : Nat) : Decidable (SplitsOpener m text position) :=
  decidable_of_iff _ splitsOpener_iff.symm

/-! ## Containers that open leave a frame -/

namespace Scan

variable {s u : Scan α} {c : Char}

theorem Reads.stack_ne_nil (h : s.Reads m c u) (hs : s.stack ≠ []) : u.stack ≠ [] := by
  cases h with
  | skip _ => exact hs
  | extend _ _ _ _ => exact hs
  | markLeaf _ _ => exact hs
  | openKeyword _ _ _ => exact List.cons_ne_nil _ _
  | openBracket _ _ => exact List.cons_ne_nil _ _
  | separate _ _ _ _ _ => exact List.cons_ne_nil _ _
  | closeSequence _ _ _ _ _ _ => exact List.cons_ne_nil _ _
  | closeDictionary _ _ _ _ _ => exact List.cons_ne_nil _ _
  | markOperand _ _ _ => exact List.cons_ne_nil _ _

theorem below_eq_nil (hs : s.stack = []) : s.below = [] :=
  List.suffix_nil.mp (hs ▸ s.below_suffix)

theorem Reads.innermost_ne_none (h : s.Reads m c u) (hs : s.stack = []) (hu : u.stack ≠ []) :
    u.innermost? ≠ none := by
  have hbelow := below_eq_nil hs
  cases h with
  | skip _ => exact absurd hs hu
  | extend _ _ _ _ => exact absurd hs hu
  | markLeaf _ _ => exact absurd hs hu
  | openKeyword _ _ _ => simp [innermost?, openContainer, startType, Frame.opened?]
  | openBracket _ _ => simp [innermost?, openContainer, startType, Frame.opened?]
  | separate _ _ _ hb _ => rw [hbelow] at hb; cases hb
  | closeSequence _ _ _ hb _ _ => rw [hbelow] at hb; cases hb
  | closeDictionary _ _ _ hb _ => rw [hbelow] at hb; cases hb
  | markOperand _ _ hb => rw [hs] at hb; cases hb

theorem stack_ne_nil_of_run {t : Scan α} {cs : List Char} (h : s.run m cs = .ok t)
    (hs : s.stack ≠ []) : t.stack ≠ [] :=
  run_preserves (P := fun s => s.stack ≠ []) (fun hs hr => hr.stack_ne_nil hs) hs h

theorem stack_ne_nil_of_innermost (h : s.innermost? ≠ none) : s.stack ≠ [] := by
  intro hs
  rw [innermost?, hs] at h
  exact h rfl

theorem opensContainer_of_run {t : Scan α} {text : List Char} (h : run m {} text = .ok t)
    (ht : t.stack ≠ []) : OpensContainer m text := by
  refine run_start_induction (P := fun text t => t.stack ≠ [] → OpensContainer m text)
    (fun hne => absurd rfl hne) ?_ h ht
  intro text s c u hrun hs hu hne
  by_cases hstack : s.stack = []
  · exact ⟨text ++ [c], _, ⟨List.prefix_rfl, hu.run_snoc hrun⟩, hu.innermost_ne_none hstack hne⟩
  · obtain ⟨done, v, hv, hopen⟩ := hs hstack
    exact ⟨done, v, hv.append [c], hopen⟩

end Scan

/-- A scan that finds no fault opens a container exactly when it leaves a frame behind. -/
theorem opensContainer_iff {t : Scan α} (h : Scan.run m {} text = .ok t) :
    OpensContainer m text ↔ t.stack ≠ [] := by
  constructor
  · rintro ⟨done, s, ⟨⟨rest, rfl⟩, hrun⟩, hs⟩
    rw [Scan.run_append_of_eq hrun] at h
    exact Scan.stack_ne_nil_of_run h (Scan.stack_ne_nil_of_innermost hs)
  · exact Scan.opensContainer_of_run h

end Comparability.TypeExpr
