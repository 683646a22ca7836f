import Comparability.Proofs.TypeExpr.Excerpt

/-!
# Looking ahead for openers

A scan finds that a leaf was a keyword when it comes to the `<` after it. The same can be found from
the front: wherever a type may begin, look whether the text of an opener comes next, and pass over
it at once. That loop looks up to eleven characters ahead of what it has read. It agrees with the
scan, faults and their positions included, so what it sees ahead of a fault never matters.

* `runTo` : a run that says at which position it stopped;
* `lookAhead` : the loop that looks ahead, `ahead` the loop over a whole text;
* `AtHead s rest` : the loop may look at `rest` in the state `s`: the leaf that is pending, if any,
  will not turn out to be a keyword;
* `lookAhead_same` : the two agree, and `scanAhead_eq_scan` : they give the same answer;
* `runTo_of_take_eq` : what a run does up to its fault depends on the characters up to it.
-/

namespace Comparability.TypeExpr

open Text (Span isBlank)

variable {α : Type} {m : Meaning α}

/-- A fault, and the position of the character at which it was found. -/
structure Stop where
  position : Nat
  fault : Fault
  deriving DecidableEq, Repr

namespace Scan

/-! ## Stopping at a character -/

def runTo (m : Meaning α) (s : Scan α) : List Char → Except Stop (Scan α)
  | [] => .ok s
  | c :: cs =>
    match s.step m c with
    | .ok u => u.runTo m cs
    | .error fault => .error ⟨s.position, fault⟩

/-! ## The loop -/

/-- The opener whose text comes next, where a type may begin. -/
def openerAhead? (s : Scan α) (cs : List Char) : Option Opener :=
  if s.atTypeStart then Opener.all.find? fun opener => opener.text.toList.isPrefixOf cs else none

def openAhead (s : Scan α) (opener : Opener) : Scan α :=
  { s with
    position := s.position + opener.text.length
    stack := .opened (.ofOpener opener (Span.ofLength s.position opener.text.length)) :: s.stack }

/-- Read a character that is not the first of an opener: a `<` encloses a span, and a bracket stands
within a leaf. -/
def readLone (m : Meaning α) (s : Scan α) (c : Char) : Except Fault (Scan α) :=
  if s.depth = 0 ∧ c = '<' then
    if s.leaf = "" then s.failHere .unexpectedCharacter
    else .ok { s.extendLeaf '<' with depth := 1 }
  else if s.depth = 0 ∧ c = '[' then s.failHere .unexpectedCharacter
  else s.read m c

/-- Read characters up to the first fault, looking ahead for an opener wherever a type may begin.
The first `skip` characters are those of an opener that was found. -/
def lookAhead (m : Meaning α) (s : Scan α) : Nat → List Char → Except Stop (Scan α)
  | _, [] => .ok s
  | skip + 1, _ :: cs => s.lookAhead m skip cs
  | 0, c :: cs =>
    match s.openerAhead? (c :: cs) with
    | some opener => (s.openAhead opener).lookAhead m (opener.text.length - 1) cs
    | none =>
      match s.readLone m c with
      | .ok u => (s.next u).lookAhead m 0 cs
      | .error fault => .error ⟨s.position, fault⟩

end Scan

def ahead (m : Meaning α) (expression : String) : Except Stop (Scan α) :=
  Scan.lookAhead m {} 0 expression.toList

def scanAhead (m : Meaning α) (expression : String) : Except Fault (α × List (Frame α)) :=
  match ahead m expression with
  | .ok s => (s.conclude m).map fun value => (value, s.stack)
  | .error stop => .error stop.fault

namespace Scan

variable {s t u : Scan α} {c : Char} {cs raw : List Char} {opener : Opener}

theorem run_eq_runTo (s : Scan α) (cs : List Char) :
    s.run m cs = (s.runTo m cs).mapError Stop.fault := by
  induction cs generalizing s with
  | nil => rfl
  | cons c cs ih =>
    rw [run_cons, runTo]
    cases s.step m c with
    | ok u => exact ih u
    | error fault => rfl

/-- Where a run stops, and why, depends on the characters up to there alone. -/
theorem runTo_of_take_eq {stop : Stop} (h : s.runTo m cs = .error stop) :
    s.position ≤ stop.position ∧ stop.position < s.position + cs.length ∧
      ∀ ds, ds.take (stop.position + 1 - s.position) = cs.take (stop.position + 1 - s.position) →
        s.runTo m ds = .error stop := by
  induction cs generalizing s with
  | nil => cases h
  | cons c cs ih =>
    rw [runTo] at h
    have hfirst : ∀ {n ds}, ds.take (n + 1) = (c :: cs).take (n + 1) →
        ∃ es, ds = c :: es ∧ es.take n = cs.take n := by
      intro n ds hds
      cases ds with
      | nil => cases hds
      | cons d es =>
        obtain ⟨rfl, hes⟩ := List.cons.inj hds
        exact ⟨es, rfl, hes⟩
    cases hu : s.step m c with
    | error fault =>
      rw [hu] at h
      obtain rfl := Except.error.inj h
      refine ⟨Nat.le_refl _, by simp, ?_⟩
      intro ds hds
      rw [Nat.add_sub_cancel_left] at hds
      obtain ⟨es, rfl, -⟩ := hfirst hds
      rw [runTo, hu]
    | ok u =>
      rw [hu] at h
      obtain ⟨v, -, hv⟩ := step_eq_ok_iff.mp hu
      have hposition : u.position = s.position + 1 := hv ▸ rfl
      obtain ⟨hle, hlt, hfinal⟩ := ih h
      rw [hposition] at hle hlt hfinal
      refine ⟨by omega, by rw [List.length_cons]; omega, ?_⟩
      intro ds hds
      rw [show stop.position + 1 - s.position = stop.position + 1 - (s.position + 1) + 1 by omega]
        at hds
      obtain ⟨es, rfl, hes⟩ := hfirst hds
      rw [runTo, hu]
      exact hfinal es hes

/-! ## States that differ in a span that nothing looks at -/

def withLeafSpan (s : Scan α) (span : Span) : Scan α :=
  { s with leafSpan := span }

/-- The states differ at most in the span of the pending leaf, and only where none is pending. -/
inductive Same : Scan α → Scan α → Prop
  | refl (s : Scan α) : Same s s
  | leafSpan {s : Scan α} (h : s.Ready) (span : Span) : Same s (s.withLeafSpan span)

inductive SameResult {ε : Type} : Except ε (Scan α) → Except ε (Scan α) → Prop
  | ok {u v : Scan α} (h : Same u v) : SameResult (.ok u) (.ok v)
  | error (e : ε) : SameResult (.error e) (.error e)

theorem SameResult.refl {ε : Type} (r : Except ε (Scan α)) : SameResult r r := by
  cases r with
  | ok u => exact .ok (.refl u)
  | error e => exact .error e

theorem SameResult.error_iff {ε : Type} {x y : Except ε (Scan α)} (h : SameResult x y) {e : ε} :
    x = .error e ↔ y = .error e := by
  cases h with
  | ok h => simp
  | error => rfl

theorem Same.position_eq (h : Same s t) : s.position = t.position := by
  cases h <;> rfl

theorem Same.stack_eq (h : Same s t) : s.stack = t.stack := by
  cases h <;> rfl

namespace Ready

variable {span : Span}

theorem same (hs : s.Ready) (ht : t.Ready) (hp : s.position = t.position)
    (hst : s.stack = t.stack) : Same s t := by
  have heq : t = s.withLeafSpan t.leafSpan := by
    obtain ⟨hl, hd, hm, ha⟩ := hs
    obtain ⟨hl', hd', hm', ha'⟩ := ht
    obtain ⟨position, stack, leaf, leafSpan, marked, depth, atTypeStart⟩ := t
    simp_all [withLeafSpan]
  rw [heq]
  exact .leafSpan hs _

theorem withLeafSpan (h : s.Ready) (span : Span) : (s.withLeafSpan span).Ready :=
  ⟨h.leaf, h.depth, h.marked, h.atTypeStart⟩

theorem openAhead (h : s.Ready) (opener : Opener) : (s.openAhead opener).Ready :=
  ⟨h.leaf, h.depth, h.marked, h.atTypeStart⟩

theorem operand?_withLeafSpan (h : s.Ready) :
    (s.withLeafSpan span).operand? m = s.operand? m := by
  unfold operand?
  rw [if_pos h.leaf, if_pos (h.withLeafSpan span).leaf]
  rfl

theorem below_withLeafSpan (h : s.Ready) : (s.withLeafSpan span).below = s.below := by
  unfold Scan.below
  rw [if_pos h.leaf, if_pos (h.withLeafSpan span).leaf]
  rfl

theorem extendLeaf_withLeafSpan (h : s.Ready) (c : Char) :
    (s.withLeafSpan span).extendLeaf c = s.extendLeaf c := by
  unfold extendLeaf
  rw [if_pos h.leaf, if_pos (h.withLeafSpan span).leaf]
  rfl

theorem same_startType (h : s.Ready) (stack : List (Frame α)) :
    Same (s.startType stack) ((s.withLeafSpan span).startType stack) :=
  same ⟨rfl, h.depth, rfl, rfl⟩ ⟨rfl, h.depth, rfl, rfl⟩ rfl rfl

theorem same_closeFrame (h : s.Ready) (c : Char) (frame : OpenContainer) (value : Except Reason α)
    (rest : List (Frame α)) : SameResult (s.closeFrame c frame value rest)
      ((s.withLeafSpan span).closeFrame c frame value rest) := by
  unfold closeFrame
  split_ifs
  · cases value with
    | ok v => exact .ok (h.same_startType _)
    | error reason => exact .error _
  · exact .error _

theorem same_readCloser (h : s.Ready) (c : Char) :
    SameResult (s.readCloser m c) ((s.withLeafSpan span).readCloser m c) := by
  unfold readCloser
  rw [h.operand?_withLeafSpan, h.below_withLeafSpan]
  split
  · exact .error _
  · exact .error _
  · exact .error _
  · exact h.same_closeFrame _ _ _ _
  · exact h.same_closeFrame _ _ _ _
  · exact .error _

theorem same_readSeparator (h : s.Ready) (c : Char) :
    SameResult (s.readSeparator m c) ((s.withLeafSpan span).readSeparator m c) := by
  unfold readSeparator
  rw [h.operand?_withLeafSpan, h.below_withLeafSpan]
  split
  · exact .error _
  · exact .error _
  · exact .error _
  · exact .error _
  · exact .error _
  · split_ifs
    · exact .ok (h.same_startType _)
    · exact .error _

theorem same_readMark (h : s.Ready) :
    SameResult (s.readMark m) ((s.withLeafSpan span).readMark m) := by
  unfold readMark
  rw [if_pos h.leaf, if_pos (h.withLeafSpan span).leaf, show (s.withLeafSpan span).stack = s.stack
    from rfl]
  split
  · exact .ok (same (h.withStack _) ((h.withLeafSpan span).withStack _) rfl rfl)
  · exact .error _

end Ready

theorem Same.ready (h : Same s t) (hr : s.Ready) : t.Ready := by
  cases h with
  | refl => exact hr
  | leafSpan _ span => exact hr.withLeafSpan span

theorem Same.next {v : Scan α} (h : Same s t) (huv : Same u v) : Same (s.next u) (t.next v) := by
  cases huv with
  | refl =>
    show Same { u with position := s.position + 1 } { u with position := t.position + 1 }
    rw [h.position_eq]
    exact .refl _
  | leafSpan hr span =>
    exact (hr.next s).same ((hr.withLeafSpan span).next t) (congrArg Nat.succ h.position_eq) rfl

theorem Same.read (h : Same s t) (c : Char) : SameResult (s.read m c) (t.read m c) := by
  cases h with
  | refl => exact .refl _
  | leafSpan hr span =>
    have hr' := hr.withLeafSpan span
    unfold Scan.read
    rw [if_neg (not_ne_iff.mpr hr.depth), if_neg (not_ne_iff.mpr hr'.depth)]
    split_ifs
    · exact hr.same_readCloser c
    · exact hr.same_readSeparator c
    · exact hr.same_readMark
    · exact .ok (.leafSpan hr span)
    · unfold readAngle
      rw [if_pos hr.leaf, if_pos hr'.leaf]
      exact .error _
    · unfold readBracket
      rw [if_pos hr.atTypeStart, if_pos hr'.atTypeStart]
      exact .ok (hr.same_startType _)
    · rw [hr.extendLeaf_withLeafSpan]
      exact .refl _

theorem Same.conclude_eq (h : Same s t) : s.conclude m = t.conclude m := by
  cases h with
  | refl => rfl
  | leafSpan hr span =>
    have hr' := hr.withLeafSpan span
    unfold conclude
    rw [if_neg (not_ne_iff.mpr hr.depth), if_neg (not_ne_iff.mpr hr'.depth), if_pos hr.leaf,
      if_pos hr'.leaf]
    rfl

/-! ## Where the loop looks -/

theorem openerAhead?_eq_some (h : s.openerAhead? cs = some opener) :
    s.atTypeStart = true ∧ opener ∈ Opener.all ∧ opener.text.toList <+: cs := by
  unfold openerAhead? at h
  split_ifs at h with ht
  have hp : opener.text.toList.isPrefixOf cs = true := by simpa using List.find?_some h
  exact ⟨ht, List.mem_of_find?_eq_some h, List.isPrefixOf_iff_prefix.mp hp⟩

theorem not_prefix_of_openerAhead? (h : s.openerAhead? cs = none) (ht : s.atTypeStart = true) :
    ∀ opener ∈ Opener.all, ¬ opener.text.toList <+: cs := by
  intro opener ho hp
  rw [openerAhead?, if_pos ht] at h
  exact List.find?_eq_none.mp h opener ho (List.isPrefixOf_iff_prefix.mpr hp)

/-- A type may begin, or a leaf is pending that does not begin with an opener, whatever of `rest` is
read into it. -/
def AtHead (s : Scan α) (rest : List Char) : Prop :=
  s.Ready ∨ ∃ raw, s.Pending raw ∧ ∀ opener ∈ Opener.all, ¬ opener.text.toList <+: raw ++ rest

theorem Ready.next_cases (h : s.Ready) (hu : s.Reads m c u) :
    (s.next u).Ready ∨ (s.next u).Pending [c] := by
  cases hu with
  | skip _ => exact .inl (h.next s)
  | extend hb hq hn ha =>
    obtain ⟨hc, rfl⟩ := h.startsLeaf hb hq hn ha
    exact .inr (h.extend hc)
  | openKeyword hd hl hk => exact absurd h.leaf hl
  | openBracket hd ht => exact .inl (.startType hd)
  | separate hd _ _ _ _ => exact .inl (.startType hd)
  | closeSequence hd _ _ _ _ _ => exact .inl (.startType hd)
  | closeDictionary hd _ _ _ _ => exact .inl (.startType hd)
  | markOperand _ _ _ => exact .inl ((h.withStack _).next s)
  | markLeaf hd hl => exact absurd h.leaf hl

theorem Pending.next_cases (h : s.Pending raw) (hu : s.Reads m c u) :
    (s.next u).Ready ∨ (s.next u).Pending (raw ++ [c]) := by
  cases hu with
  | skip hc => exact .inr (h.snoc_trail (hc.imp_right And.left) s.marked)
  | extend hb hq hn ha => exact .inr (h.snoc hb hq hn ha)
  | openKeyword hd _ _ => exact .inl (.startType hd)
  | openBracket hd _ => exact .inl (.startType hd)
  | separate hd _ _ _ _ => exact .inl (.startType hd)
  | closeSequence hd _ _ _ _ _ => exact .inl (.startType hd)
  | closeDictionary hd _ _ _ _ => exact .inl (.startType hd)
  | markOperand _ hl _ => exact absurd hl h.leaf_ne
  | markLeaf _ _ => exact .inr (h.snoc_trail (.inr rfl) true)

theorem AtHead.ready_of_opener (h : s.AtHead cs) (ho : s.openerAhead? cs = some opener) :
    s.Ready := by
  rcases h with hr | ⟨raw, hp, -⟩
  · exact hr
  · have ht := (openerAhead?_eq_some ho).1
    rw [hp.atTypeStart] at ht
    cases ht

/-- A character that no opener begins with leads to the next place to look at. -/
theorem AtHead.next (h : s.AtHead (c :: cs)) (hn : s.openerAhead? (c :: cs) = none)
    (hu : s.Reads m c u) : (s.next u).AtHead cs := by
  rcases h with hr | ⟨raw, hp, hraw⟩
  · rcases hr.next_cases hu with hr' | hp'
    · exact .inl hr'
    · exact .inr ⟨[c], hp', not_prefix_of_openerAhead? hn hr.atTypeStart⟩
  · rcases hp.next_cases hu with hr' | hp'
    · exact .inl hr'
    · refine .inr ⟨raw ++ [c], hp', ?_⟩
      rw [List.append_assoc]
      exact hraw

/-- Where no opener comes next, a `<` ends no keyword and a bracket opens nothing. -/
theorem AtHead.readLone_eq (h : s.AtHead (c :: cs)) (hn : s.openerAhead? (c :: cs) = none) :
    s.readLone m c = s.read m c := by
  unfold readLone
  split_ifs with ha hl hb
  · obtain ⟨hd, rfl⟩ := ha
    simp [read, readAngle, hd, hl, closers, separators, isBlank]
  · obtain ⟨hd, rfl⟩ := ha
    have hk : s.keyword? = none := by
      rcases h with hr | ⟨raw, hp, hraw⟩
      · exact absurd hr.leaf hl
      · by_contra hk
        obtain ⟨opener, hk⟩ := Option.ne_none_iff_exists'.mp hk
        obtain ⟨ho, ht⟩ := hp.keyword?_eq_some hk
        exact hraw opener ho ⟨cs, by rw [ht]; simp⟩
    simp [read, readAngle, hd, hl, hk, closers, separators, isBlank]
  · obtain ⟨hd, rfl⟩ := hb
    have ht : s.atTypeStart = false := by
      rcases h with hr | ⟨raw, hp, -⟩
      · exact absurd ⟨cs, rfl⟩ (not_prefix_of_openerAhead? hn hr.atTypeStart .bracket (by decide))
      · exact hp.atTypeStart
    simp [read, readBracket, hd, ht, closers, separators, isBlank]
  · rfl

theorem Same.run_opener (h : Same s t) (hr : s.Ready) (ho : opener ∈ Opener.all) :
    ∃ v, t.run m opener.text.toList = .ok v ∧ Same (s.openAhead opener) v := by
  obtain ⟨v, hv, hrv, hstack⟩ := (h.ready hr).run_opener ho
  refine ⟨v, hv, (hr.openAhead opener).same hrv ?_ ?_⟩
  · rw [position_of_run hv, String.length_toList, ← h.position_eq]
    rfl
  · rw [hstack, ← h.position_eq, ← h.stack_eq]
    rfl

/-! ## The loop and the scan -/

theorem runTo_append_of_run (h : s.run m cs = .ok t) (ds : List Char) :
    s.runTo m (cs ++ ds) = t.runTo m ds := by
  induction cs generalizing s with
  | nil =>
    obtain rfl := Except.ok.inj h
    rfl
  | cons c cs ih =>
    rw [run_cons] at h
    rw [List.cons_append, runTo]
    cases hu : s.step m c with
    | error fault => rw [hu] at h; cases h
    | ok u =>
      rw [hu] at h
      exact ih h

/-- **The loop agrees with the scan.** It stops where the scan does, for the same fault, or ends in
the same state. -/
theorem lookAhead_same (skip : Nat) (h : s.AtHead (cs.drop skip)) (hst : Same s t) :
    SameResult (s.lookAhead m skip cs) (t.runTo m (cs.drop skip)) := by
  induction cs generalizing s t skip with
  | nil =>
    rw [List.drop_nil]
    cases skip <;> exact .ok hst
  | cons c cs ih =>
    cases skip with
    | succ skip => exact ih skip h hst
    | zero =>
      rw [List.drop_zero] at h ⊢
      cases ho : s.openerAhead? (c :: cs) with
      | some opener =>
        rw [lookAhead, ho]
        have hr := h.ready_of_opener ho
        obtain ⟨-, hmem, rest, hrest⟩ := openerAhead?_eq_some ho
        obtain ⟨v, hv, hsame⟩ := hst.run_opener (m := m) hr hmem
        have hpos := text_ne_of_opener opener hmem
        have hdrop : cs.drop (opener.text.length - 1) = rest := by
          rw [String.length_toList] at hpos
          rw [← List.drop_succ_cons, Nat.sub_add_cancel hpos, ← String.length_toList, ← hrest,
            List.drop_left]
        rw [← hrest, runTo_append_of_run hv, ← hdrop]
        exact ih _ (.inl (hr.openAhead opener)) hsame
      | none =>
        have hread := hst.read (m := m) c
        rw [lookAhead, ho, h.readLone_eq ho, runTo, step]
        generalize hx : s.read m c = x at hread ⊢
        generalize t.read m c = y at hread ⊢
        cases hread with
        | ok huv => exact ih 0 (h.next ho (.of_read hx)) (hst.next huv)
        | error fault =>
          rw [hst.position_eq]
          exact .error _

end Scan

theorem ahead_same (m : Meaning α) (text : String) :
    Scan.SameResult (ahead m text) (Scan.runTo m {} text.toList) :=
  Scan.lookAhead_same 0 (.inl ⟨rfl, rfl, rfl, rfl⟩) (.refl _)

/-- **Looking ahead changes nothing.** -/
theorem scanAhead_eq_scan (m : Meaning α) (text : String) : scanAhead m text = scan m text := by
  have h := ahead_same m text
  unfold scanAhead scan
  rw [Scan.run_eq_runTo]
  generalize ahead m text = x at h ⊢
  generalize Scan.runTo m {} text.toList = y at h ⊢
  cases h with
  | @ok u v h =>
    show (u.conclude m).map _ = v.conclude m >>= fun value => pure (value, v.stack)
    rw [h.conclude_eq, h.stack_eq]
    cases v.conclude m <;> rfl
  | error stop => rfl

theorem scan_eq_error_iff_ahead {text : String} {f : Fault} :
    scan m text = .error f ↔ (∃ stop, ahead m text = .error stop ∧ stop.fault = f) ∨
      ∃ s, ahead m text = .ok s ∧ s.conclude m = .error f := by
  rw [← scanAhead_eq_scan, scanAhead]
  cases ahead m text with
  | error stop => simp
  | ok s => cases hs : s.conclude m <;> simp [Except.map, hs]

/-- **A fault is final.** A malformed expression stops the loop at a character, or else is at fault
at its end. Where the loop stops at a character, every expression with the same characters up to and
with that one stops there too, whatever follows, and resolves to the same fault. -/
theorem resolve_stop_final (classify : Classifier) (text : String) :
    (∀ e, (resolve classify text).outcome = .error e ↔
      ((∃ stop, ahead (capabilityMeaning classify) text = .error stop ∧
          stop.fault = ⟨e.reason, e.span⟩) ∨
        ∃ s, ahead (capabilityMeaning classify) text = .ok s ∧
          s.conclude (capabilityMeaning classify) = .error ⟨e.reason, e.span⟩) ∧
      e.expression = text) ∧
    ∀ stop, ahead (capabilityMeaning classify) text = .error stop →
      stop.position < text.length ∧
      ∀ other : String,
        other.toList.take (stop.position + 1) = text.toList.take (stop.position + 1) →
          ahead (capabilityMeaning classify) other = .error stop ∧
          (resolve classify other).outcome =
            .error ⟨other, stop.fault.reason, stop.fault.span⟩ := by
  constructor
  · intro e
    rw [resolve_outcome_eq_error_iff, scan_eq_error_iff_ahead]
  · intro stop hstop
    rw [(ahead_same _ text).error_iff] at hstop
    obtain ⟨-, hlt, hfinal⟩ := Scan.runTo_of_take_eq hstop
    constructor
    · have hlt : stop.position < 0 + text.toList.length := hlt
      rwa [Nat.zero_add, String.length_toList] at hlt
    · intro other hother
      have hahead := (ahead_same _ other).error_iff.mpr (hfinal _ hother)
      refine ⟨hahead, ?_⟩
      rw [resolve_outcome_eq_error_iff, scan_eq_error_iff_ahead]
      exact ⟨.inl ⟨stop, hahead, rfl⟩, rfl⟩

/-- The separator that an array does not take, with the beginning of a dictionary behind it. -/
theorem resolve_stop_final_of_separator :
    ahead (capabilityMeaning fun _ => .comparable) "[Set<A>, Dictionary<B, C>]" =
        .error ⟨7, ⟨.separatorNotAllowed, ⟨7, 8, by decide⟩⟩⟩ ∧
      (resolve (fun _ => .comparable) "[Set<A>,").outcome =
        .error ⟨"[Set<A>,", .separatorNotAllowed, ⟨7, 8, by decide⟩⟩ := by
  have hstop : ahead (capabilityMeaning fun _ => .comparable) "[Set<A>, Dictionary<B, C>]" =
      .error ⟨7, ⟨.separatorNotAllowed, ⟨7, 8, by decide⟩⟩⟩ := rfl
  obtain ⟨-, hfinal⟩ := (resolve_stop_final _ _).2 _ hstop
  exact ⟨hstop, (hfinal "[Set<A>," rfl).2⟩

end Comparability.TypeExpr
