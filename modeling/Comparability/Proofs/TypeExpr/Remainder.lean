import Comparability.Proofs.Text.Blank
import Comparability.Proofs.TypeExpr.BareLeaf
import Comparability.Proofs.TypeExpr.Excerpt

/-!
# What a scan leaves on the stack

A scan that finds no fault leaves nothing on the stack after a bare leaf, and one operand after a
container. The span of the operand grows with every closer and every mark; in the end it is all of the
text but the blanks around it.

* `SpansAll text span` : the span runs from the first opener to the last closer or mark of the text;
* `ends_of_run` : a finished operand ends at a closer or a mark, which every character keeps.
-/

namespace Comparability.TypeExpr

open Text (Span isBlank)

variable {α : Type} {m : Meaning α}

def EndsOperand (c : Char) : Prop :=
  c ∈ closers ∨ c = '?'

/-- The span covers all of the text but the blanks around it, from an opener to a closer or a
mark. -/
structure SpansAll (text : String) (span : Span) : Prop where
  stop_le : span.stop ≤ text.length
  slice : span.slice text = Text.trim text
  before : Blanks (text.toList.take span.start)
  after : Blanks (text.toList.drop span.stop)
  opens : ∃ opener ∈ Opener.all, opener.text.toList <+: (span.slice text).toList
  ends : ∃ inner c, (span.slice text).toList = inner ++ [c] ∧ EndsOperand c

theorem EndsOperand.isBlank_eq {c : Char} (h : EndsOperand c) : isBlank c = false := by
  rcases h with h | rfl
  · rcases mem_closers.mp h with rfl | rfl <;> rfl
  · rfl

theorem Derives.exists_opener {text : List Char} {v : α} (h : Derives m .container text v) :
    ∃ opener ∈ Opener.all, opener.text.toList <+: text := by
  cases h with
  | array _ => exact ⟨.array, by decide, _, (List.append_assoc _ _ _).symm⟩
  | set _ => exact ⟨.set, by decide, _, (List.append_assoc _ _ _).symm⟩
  | bracket _ => exact ⟨.bracket, by decide, _, (List.append_assoc _ _ _).symm⟩
  | @bracketPair key value =>
    exact ⟨.bracket, by decide, key ++ [':'] ++ value ++ [']'], by simp [Opener.bracket]⟩
  | @dictionary key value _ _ separator =>
    exact ⟨.dictionary, by decide, key ++ [separator] ++ value ++ ['>'], by simp [Opener.dictionary]⟩

namespace Scan

variable {s t u : Scan α} {c : Char} {text : List Char}

/-! ## Where a finished operand ends -/

/-- A character that makes an operand or adds to one ends it. -/
theorem Reads.operand_cases (h : s.Reads m c u) {o : Operand α} (ho : .operand o ∈ u.stack) :
    .operand o ∈ s.stack ∨ EndsOperand c ∧ s.position + 1 ≤ o.span.stop := by
  have hbelow : ∀ above rest, s.below = above ++ rest → .operand o ∈ rest →
      .operand o ∈ s.stack :=
    fun _ _ hb ho => s.below_suffix.subset (hb ▸ List.mem_append_right _ ho)
  cases h with
  | skip _ => exact .inl ho
  | extend _ _ _ _ => exact .inl ho
  | markLeaf _ _ => exact .inl ho
  | openKeyword _ _ _ => exact .inl ((List.mem_cons.mp ho).resolve_left (by simp))
  | openBracket _ _ => exact .inl ((List.mem_cons.mp ho).resolve_left (by simp))
  | @separate _ _ frame rest _ _ _ hb _ =>
    have ho := (List.mem_cons.mp ho).resolve_left (by simp)
    have ho := (List.mem_cons.mp ho).resolve_left (by simp)
    exact .inl (hbelow [.opened frame] rest hb ho)
  | @closeSequence _ _ frame rest _ hc _ hb _ _ =>
    rcases List.mem_cons.mp ho with ho | ho
    · obtain rfl := Frame.operand.inj ho
      exact .inr ⟨.inl hc, Nat.le_max_right _ _⟩
    · exact .inl (hbelow [.opened frame] rest hb ho)
  | @closeDictionary _ _ k frame rest _ hc _ hb _ =>
    rcases List.mem_cons.mp ho with ho | ho
    · obtain rfl := Frame.operand.inj ho
      exact .inr ⟨.inl hc, Nat.le_max_right _ _⟩
    · exact .inl (hbelow [.key k, .opened frame] rest hb ho)
  | @markOperand p rest _ _ hs =>
    rcases List.mem_cons.mp ho with ho | ho
    · obtain rfl := Frame.operand.inj ho
      exact .inr ⟨.inr rfl, Nat.le_max_right _ _⟩
    · exact .inl (hs ▸ List.mem_cons_of_mem _ ho)

theorem ends_of_run (hm : ∀ v, m.optional v = v) (h : run m {} text = .ok s) {o : Operand α}
    (ho : .operand o ∈ s.stack) :
    ∃ inner c, text.take o.span.stop = inner ++ [c] ∧ EndsOperand c := by
  refine run_start_induction
    (P := fun text s => ∀ o, .operand o ∈ s.stack →
      ∃ inner c, text.take o.span.stop = inner ++ [c] ∧ EndsOperand c)
    (fun _ ho => absurd ho List.not_mem_nil) ?_ h o ho
  intro text s c u hrun hs hu o ho
  have ha := accounts_of_run hm hrun
  rcases hu.operand_cases ho with hold | ⟨hc, hle⟩
  · have hbehind := ha.spansInOrder.frames.behind _ (List.mem_map_of_mem hold)
    rw [List.take_append_of_le_length (ha.position ▸ hbehind)]
    exact hs o hold
  · have hlength : (text ++ [c]).length = s.position + 1 := (ha.read hm hu).position.symm
    rw [List.take_of_length_le (hlength ▸ hle)]
    exact ⟨text, c, rfl, hc⟩

/-! ## The end of a scan -/

theorem spansAll_of_run (hm : ∀ v, m.optional v = v) {text : String}
    (h : run m {} text.toList = .ok s) (hl : s.leaf = "") {o : Operand α}
    (hs : s.stack = [.operand o]) : SpansAll text o.span := by
  obtain ⟨init, c, htake, hc⟩ := ends_of_run hm h (hs ▸ List.mem_singleton_self _)
  obtain ⟨-, done, blanks, ht, hst, hblanks⟩ := (accounts_of_run hm h).of_ready hl
  rw [hs] at hst
  cases hst with
  | @operand done before inner after _ _ hst hbefore ho ha hstart hstop =>
    cases hst
    rw [List.nil_append] at ht hstart hstop
    have hcuts : Cuts text.toList o.span before (inner ++ after) blanks :=
      ⟨by simp [ht], hstart, by rw [hstop, List.append_assoc]⟩
    have hslice : (o.span.slice text).toList = inner ++ after := by
      rw [Span.toList_slice, ← hcuts.excerpt_eq]
    obtain ⟨⟨d, rest, hd, hdb⟩, -⟩ := ho.container_ends
    have hstarts : inner ++ after = d :: (rest ++ after) := by rw [hd, List.cons_append]
    have hends : ∃ body, inner ++ after = body ++ [c] := by
      have he : before ++ (inner ++ after) = init ++ [c] := by
        rw [← htake, hcuts.stop, hcuts.text, List.take_left]
      rcases List.append_eq_append_iff.mp he with ⟨body, -, hb⟩ | ⟨body, -, hb⟩
      · exact ⟨body, hb⟩
      · cases body with
        | nil => exact ⟨[], hb.symm⟩
        | cons e body => simp [hstarts] at hb
    obtain ⟨body, hbody⟩ := hends
    obtain ⟨opener, hmem, hopener⟩ := ho.exists_opener
    refine ⟨String.length_toList ▸ hcuts.stop_le, ?_, hcuts.before_eq ▸ hbefore,
      hcuts.after_eq ▸ hblanks, ⟨opener, hmem, ?_⟩, ⟨body, c, hslice.trans hbody, hc⟩⟩
    · rw [← String.toList_inj, hslice, Text.toList_trim, hcuts.text]
      exact (Text.trimChars_eq hbefore hblanks ⟨d, _, hstarts, hdb⟩
        ⟨body, c, hbody, hc.isBlank_eq⟩).symm
    · rw [hslice]
      exact hopener.trans (List.prefix_append _ _)

theorem exists_leaf_of_run (hm : ∀ v, m.optional v = v) (h : run m {} text = .ok s)
    (hd : s.depth = 0) (hl : s.leaf ≠ "") (hs : s.stack = []) :
    ∃ before raw, text = before ++ raw ∧ Blanks before ∧ IsLeaf raw ∧ s.leaf = leafText raw := by
  obtain ⟨done, blanks, raw, rfl, hst, hb, hr⟩ := (accounts_of_run hm h).of_pending hl
  rw [hs] at hst
  cases hst
  exact ⟨blanks, raw, rfl, hb, isLeaf_iff.mpr (hd ▸ hr.leafPrefix), hr.leaf⟩

end Scan

/-- **What a scan leaves behind.** After a scan that finds no fault the stack is empty and the
expression is a bare leaf, or the stack is a single operand, whose value is the answer and whose span
is all of the expression but the blanks around it: from the first opener to the last closer or mark. -/
theorem scan_stack_cases (classify : Classifier) (text : String) (c : Capability)
    (stack : List (Frame Capability))
    (h : scan (capabilityMeaning classify) text = .ok (c, stack)) :
    (stack = [] ∧ IsBareLeaf classify text ∧
      ∃ before leaf, text.toList = before ++ leaf ∧ Blanks before ∧ IsLeaf leaf ∧
        c = classify (leafText leaf)) ∨
    ∃ o, stack = [.operand o] ∧ o.value = c ∧ SpansAll text o.span := by
  have hm : ∀ v, (capabilityMeaning classify).optional v = v := fun _ => rfl
  obtain ⟨s, hs, hend, rfl⟩ := scan_eq_ok_iff.mp h
  obtain ⟨hd, span, ho, hb⟩ := Scan.conclude_eq_ok_iff.mp hend
  rcases Scan.operand?_eq_some_iff.mp ho with ⟨hl, hv, hbelow⟩ | ⟨hl, hstack⟩
  · have hempty : s.stack = [] := hbelow.symm.trans hb
    obtain ⟨before, raw, ht, hblanks, hleaf, hname⟩ := Scan.exists_leaf_of_run hm hs hd hl hempty
    refine .inl ⟨hempty, ⟨?_, ?_⟩, before, raw, ht, hblanks, hleaf, ?_⟩
    · rw [Resolution.isOk, resolve_outcome_eq_ok_iff.mpr ⟨_, h⟩]
    · exact fun hopens => (opensContainer_iff hs).mp hopens hempty
    · have hvalue : (s.leafOperand (capabilityMeaning classify)).value = c :=
        congrArg Operand.value hv
      rw [← hvalue, ← hname, Scan.leafOperand]
      split_ifs <;> rfl
  · rw [hb] at hstack
    exact .inr ⟨_, hstack, rfl, Scan.spansAll_of_run hm hs hl hstack⟩

/-- A dictionary with blanks and a mark after it, and a leaf. -/
theorem scan_stack_of_padded :
    (scan (capabilityMeaning fun _ => .comparable) " [Int : Foo<A, B?>] ? \t" =
        .ok (.equatable, [.operand ⟨.equatable, ⟨1, 21, by decide⟩⟩]) ∧
      SpansAll " [Int : Foo<A, B?>] ? \t" ⟨1, 21, by decide⟩) ∧
    scan (capabilityMeaning fun _ => .comparable) " Foo<A>? " = .ok (.comparable, []) ∧
      IsBareLeaf (fun _ => .comparable) " Foo<A>? " := by
  have hpadded : scan (capabilityMeaning fun _ => .comparable) " [Int : Foo<A, B?>] ? \t" =
      .ok (.equatable, [.operand ⟨.equatable, ⟨1, 21, by decide⟩⟩]) := rfl
  have hleaf : scan (capabilityMeaning fun _ => .comparable) " Foo<A>? " =
      .ok (.comparable, []) := rfl
  refine ⟨⟨hpadded, ?_⟩, hleaf, ?_⟩
  · rcases scan_stack_cases _ _ _ _ hpadded with ⟨hnil, -⟩ | ⟨o, hs, -, hspan⟩
    · cases hnil
    · cases hs
      exact hspan
  · rcases scan_stack_cases _ _ _ _ hleaf with ⟨-, hbare, -⟩ | ⟨o, hs, -⟩
    · exact hbare
    · cases hs

end Comparability.TypeExpr
