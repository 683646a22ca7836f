import Comparability.Proofs.TypeExpr.Step

/-!
# How a scan fails

`Fails m s c f` lists the faults that a character can bring about, one constructor for each place
where reading it stops, with the reason and the span that is reported there. `FailsAtEnd s f` does so
for a text that ends. `Fails.of_step` and `FailsAtEnd.of_conclude` say that these are all of them;
together with `Reads` they say all that a step can do. A scan that fails does so in one of the two
ways (`exists_fails_of_run`, `scan_eq_error_iff`).
-/

namespace Comparability.TypeExpr

variable {α : Type}

namespace Scan

variable {m : Meaning α} {s t : Scan α} {c : Char} {f : Fault}

theorem operand?_eq_none_iff :
    s.operand? m = none ↔
      s.leaf = "" ∧ s.below = s.stack ∧ ∀ o rest, s.stack ≠ .operand o :: rest := by
  by_cases h : s.leaf = ""
  · rw [operand?, below, if_pos h, if_pos h]
    cases hs : s.stack with
    | nil => simp [h]
    | cons f rest => cases f <;> simp [h]
  · rw [operand?_of_leaf h]
    simp [h]

/-! ## At a character -/

/-- The faults that a character brings about. -/
inductive Fails (m : Meaning α) (s : Scan α) : Char → Fault → Prop
  /-- an enclosed span without the leaf that it belongs to -/
  | angle (hd : s.depth = 0) (hl : s.leaf = "") : Fails m s '<' ⟨.unexpectedCharacter, s.here⟩
  /-- a bracket within a leaf -/
  | bracket (hd : s.depth = 0) (ht : s.atTypeStart = false) :
      Fails m s '[' ⟨.unexpectedCharacter, s.here⟩
  | mark (hd : s.depth = 0) (hl : s.leaf = "") (hs : ∀ o rest, s.stack ≠ .operand o :: rest) :
      Fails m s '?' ⟨.optionalWithoutType, s.here⟩
  | extraSeparator {c : Char} {k : Operand α} {rest : List (Frame α)} (hd : s.depth = 0)
      (hc : c ∈ separators) (hb : s.below = .key k :: rest) :
      Fails m s c ⟨.extraSeparator, s.here⟩
  | separatorWithoutType {c : Char} (hd : s.depth = 0) (hc : c ∈ separators)
      (ho : s.operand? m = none) (hb : ∀ k rest, s.below ≠ .key k :: rest) :
      Fails m s c ⟨.separatorWithoutType, s.here⟩
  /-- a separator after two operands -/
  | separatorOfTwo {c : Char} {o p : Operand α} {rest : List (Frame α)} (hd : s.depth = 0)
      (hc : c ∈ separators) (ho : s.operand? m = some o) (hb : s.below = .operand p :: rest) :
      Fails m s c ⟨.missingSeparator, s.here⟩
  /-- a separator outside containers, or in one that has none or another -/
  | separatorNotAllowed {c : Char} {o : Operand α} (hd : s.depth = 0) (hc : c ∈ separators)
      (ho : s.operand? m = some o)
      (hb : s.below = [] ∨ ∃ frame rest, s.below = .opened frame :: rest ∧
        frame.accepts (String.singleton c) = false) :
      Fails m s c ⟨.separatorNotAllowed, s.here⟩
  /-- a closer right after the separator -/
  | closerAfterKey {c : Char} {k : Operand α} {rest : List (Frame α)} (hd : s.depth = 0)
      (hc : c ∈ closers) (ho : s.operand? m = none) (hb : s.below = .key k :: rest) :
      Fails m s c ⟨.missingDictionaryValue, s.here⟩
  | emptyContainer {c : Char} {frame : OpenContainer} {rest : List (Frame α)} (hd : s.depth = 0)
      (hc : c ∈ closers) (ho : s.operand? m = none) (hs : s.stack = .opened frame :: rest) :
      Fails m s c ⟨.emptyContainer, frame.span.cover s.here⟩
  /-- a closer after two operands -/
  | closerOfTwo {c : Char} {o p : Operand α} {rest : List (Frame α)} (hd : s.depth = 0)
      (hc : c ∈ closers) (ho : s.operand? m = some o) (hb : s.below = .operand p :: rest) :
      Fails m s c ⟨.missingSeparator, o.span⟩
  | mismatchedCloser {c : Char} {o : Operand α} {frame : OpenContainer} {rest : List (Frame α)}
      (hd : s.depth = 0) (hc : c ∈ closers) (ho : s.operand? m = some o)
      (hb : s.below = .opened frame :: rest ∨ ∃ k, s.below = .key k :: .opened frame :: rest)
      (hf : frame.closer ≠ String.singleton c) :
      Fails m s c ⟨.mismatchedCloser, frame.span.cover s.here⟩
  /-- a closer of a dictionary that has one operand -/
  | closerOfOne {c : Char} {o : Operand α} {frame : OpenContainer} {rest : List (Frame α)}
      (hd : s.depth = 0) (hc : c ∈ closers) (ho : s.operand? m = some o)
      (hb : s.below = .opened frame :: rest) (hf : frame.closer = String.singleton c)
      (hq : frame.isSequence = false) : Fails m s c ⟨.missingDictionaryValue, s.here⟩
  | unbalancedCloser {c : Char} (hd : s.depth = 0) (hc : c ∈ closers)
      (hb : s.below = [] ∨ ∃ k rest, s.below = .key k :: rest ∧
        ∀ frame below, rest ≠ .opened frame :: below) :
      Fails m s c ⟨.unbalancedCloser, s.here⟩

theorem Fails.of_readSeparator (hd : s.depth = 0) (hc : c ∈ separators)
    (h : s.readSeparator m c = .error f) : s.Fails m c f := by
  unfold readSeparator failHere at h
  split at h
  · next hb =>
    obtain rfl := Except.error.inj h
    exact .extraSeparator hd hc hb
  · next ho hb =>
    obtain rfl := Except.error.inj h
    exact .separatorWithoutType hd hc ho fun k rest => hb k rest
  · next hb =>
    obtain rfl := Except.error.inj h
    exact .extraSeparator hd hc hb
  · next ho hb =>
    obtain rfl := Except.error.inj h
    exact .separatorOfTwo hd hc ho hb
  · next ho hb =>
    obtain rfl := Except.error.inj h
    exact .separatorNotAllowed hd hc ho (.inl hb)
  · next o frame rest ho hb =>
    split_ifs at h with ha
    obtain rfl := Except.error.inj h
    exact .separatorNotAllowed hd hc ho (.inr ⟨frame, rest, hb, Bool.not_eq_true _ ▸ ha⟩)

theorem closeFrame_eq_error {frame : OpenContainer} {value : Except Reason α}
    {rest : List (Frame α)} (h : s.closeFrame c frame value rest = .error f) :
    frame.closer ≠ String.singleton c ∧ f = ⟨.mismatchedCloser, frame.span.cover s.here⟩ ∨
      frame.closer = String.singleton c ∧ ∃ reason, value = .error reason ∧
        f = ⟨reason, s.here⟩ := by
  unfold closeFrame failHere at h
  split_ifs at h with hf
  · cases value with
    | ok v => cases h
    | error reason => exact .inr ⟨hf, reason, rfl, (Except.error.inj h).symm⟩
  · exact .inl ⟨hf, (Except.error.inj h).symm⟩

theorem Fails.of_readCloser (hd : s.depth = 0) (hc : c ∈ closers)
    (h : s.readCloser m c = .error f) : s.Fails m c f := by
  unfold readCloser at h
  split at h
  · next ho hb =>
    obtain rfl := Except.error.inj h
    exact .closerAfterKey hd hc ho hb
  · next frame rest hk ho hb =>
    obtain rfl := Except.error.inj h
    obtain ⟨-, hstack, hne⟩ := operand?_eq_none_iff.mp ho
    rw [hstack] at hb
    cases frame with
    | opened frame => exact .emptyContainer hd hc ho hb
    | operand o => exact absurd hb (hne o rest)
    | key k => exact absurd rfl (hk k)
  · next ho hb =>
    obtain rfl := Except.error.inj h
    exact .closerOfTwo hd hc ho hb
  · next o k frame rest ho hb =>
    rcases closeFrame_eq_error h with ⟨hf, rfl⟩ | ⟨-, reason, hv, -⟩
    · exact .mismatchedCloser hd hc ho (.inr ⟨k, hb⟩) hf
    · cases hv
  · next o frame rest ho hb =>
    rcases closeFrame_eq_error h with ⟨hf, rfl⟩ | ⟨hf, reason, hv, rfl⟩
    · exact .mismatchedCloser hd hc ho (.inl hb) hf
    · split_ifs at hv with hq
      obtain rfl := Except.error.inj hv
      exact .closerOfOne hd hc ho hb hf (Bool.not_eq_true _ ▸ hq)
  · next h₁ h₂ h₃ h₄ h₅ =>
    obtain rfl := Except.error.inj h
    refine .unbalancedCloser hd hc ?_
    cases ho : s.operand? m with
    | none =>
      cases hb : s.below with
      | nil => exact .inl rfl
      | cons frame rest => exact absurd hb (h₂ frame rest ho)
    | some o =>
      cases hb : s.below with
      | nil => exact .inl rfl
      | cons frame rest =>
        cases frame with
        | opened frame => exact absurd hb (h₅ o frame rest ho)
        | operand p => exact absurd hb (h₃ o p rest ho)
        | key k =>
          exact .inr ⟨k, rest, rfl, fun frame below he => h₄ o k frame below ho (he ▸ hb)⟩

theorem Fails.of_read (h : s.read m c = .error f) : s.Fails m c f := by
  unfold read at h
  split_ifs at h with hd hc hs hq hb ha hk
  · exact .of_readCloser (not_ne_iff.mp hd) (List.contains_iff_mem.mp hc) h
  · exact .of_readSeparator (not_ne_iff.mp hd) (List.contains_iff_mem.mp hs) h
  · subst hq
    unfold readMark failHere at h
    split_ifs at h with hl
    split at h
    · cases h
    · next hne =>
      obtain rfl := Except.error.inj h
      exact .mark (not_ne_iff.mp hd) hl hne
  · subst ha
    unfold readAngle failHere at h
    split_ifs at h with hl
    · obtain rfl := Except.error.inj h
      exact .angle (not_ne_iff.mp hd) hl
    · cases hkey : s.keyword? <;> rw [hkey] at h <;> cases h
  · subst hk
    unfold readBracket failHere at h
    split_ifs at h with ht
    obtain rfl := Except.error.inj h
    exact .bracket (not_ne_iff.mp hd) (Bool.not_eq_true _ ▸ ht)

/-- The constructors of `Fails` are the ways to stop at a character. -/
theorem Fails.of_step (h : s.step m c = .error f) : s.Fails m c f := by
  unfold step at h
  cases hr : s.read m c with
  | ok t => rw [hr] at h; cases h
  | error g =>
    rw [hr] at h
    exact .of_read (hr.trans h)

/-! ## In a text -/

/-- A run that fails does so at a character, in the state that the text before it leads to. -/
theorem exists_fails_of_run {cs : List Char} (h : s.run m cs = .error f) :
    ∃ done c rest t, cs = done ++ c :: rest ∧ s.run m done = .ok t ∧ t.Fails m c f := by
  induction cs generalizing s with
  | nil => cases h
  | cons c cs ih =>
    rw [run_cons] at h
    cases hu : s.step m c with
    | error g =>
      rw [hu] at h
      exact ⟨[], c, cs, s, rfl, run_nil, .of_step (hu.trans h)⟩
    | ok u =>
      rw [hu] at h
      obtain ⟨done, d, rest, t, rfl, ht, hf⟩ := ih h
      refine ⟨c :: done, d, rest, t, rfl, ?_, hf⟩
      rw [run_cons, hu]
      exact ht

/-! ## At the end -/

inductive FailsAtEnd (s : Scan α) : Fault → Prop
  | unbalancedGeneric (hd : s.depth ≠ 0) :
      FailsAtEnd s ⟨.unbalancedGeneric, s.leafSpan.cover s.endSpan⟩
  | unclosedContainer {frame : OpenContainer} (hd : s.depth = 0) (hi : s.innermost? = some frame) :
      FailsAtEnd s ⟨.unclosedContainer, frame.span.cover s.endSpan⟩
  | emptyExpression (hd : s.depth = 0) (hl : s.leaf = "") (hs : s.stack = []) :
      FailsAtEnd s ⟨.emptyExpression, .ofLength 0 s.position⟩
  /-- a key alone -/
  | loneFrame {frame : Frame α} (hd : s.depth = 0) (hi : s.innermost? = none)
      (hs : s.stack = [frame]) (hf : ∀ o, frame ≠ .operand o) :
      FailsAtEnd s ⟨.unclosedContainer, frame.span⟩
  | missingSeparator {first second : Frame α} {above : List (Frame α)} (hd : s.depth = 0)
      (hi : s.innermost? = none) (hl : s.leaf = "") (hs : s.stack = above ++ [second, first]) :
      FailsAtEnd s ⟨.missingSeparator, second.span⟩
  | trailingText (hd : s.depth = 0) (hi : s.innermost? = none) (hl : s.leaf ≠ "")
      (hs : s.stack ≠ []) : FailsAtEnd s ⟨.trailingText, s.leafSpan⟩

theorem FailsAtEnd.of_conclude (h : s.conclude m = .error f) : s.FailsAtEnd f := by
  unfold conclude at h
  split_ifs at h with hd hl hs
  · obtain rfl := Except.error.inj h
    exact .unbalancedGeneric hd
  all_goals
    have hd := not_ne_iff.mp hd
    split at h
    · next hi =>
      obtain rfl := Except.error.inj h
      exact .unclosedContainer hd hi
  · next hi =>
    split at h
    · next hr =>
      obtain rfl := Except.error.inj h
      exact .emptyExpression hd hl (List.reverse_eq_nil_iff.mp hr)
    · cases h
    · next frame hne hr =>
      obtain rfl := Except.error.inj h
      exact .loneFrame hd hi (by simpa using congrArg List.reverse hr) fun o he => hne o he
    · next first second rest hr =>
      obtain rfl := Except.error.inj h
      have hs : s.stack = rest.reverse ++ [second, first] := by
        simpa using congrArg List.reverse hr
      exact .missingSeparator hd hi hl hs
  · cases h
  · next hi =>
    obtain rfl := Except.error.inj h
    exact .trailingText hd hi hl fun he => hs (List.isEmpty_iff.mpr he)

end Scan

theorem scan_eq_error_iff {text : String} :
    scan m text = .error f ↔ Scan.run m {} text.toList = .error f ∨
      ∃ s, Scan.run m {} text.toList = .ok s ∧ s.conclude m = .error f := by
  unfold scan
  cases Scan.run m {} text.toList with
  | error fault => simp [bind, Except.bind]
  | ok s => cases hv : s.conclude m <;> simp [bind, Except.bind, pure, Except.pure, hv]

end Comparability.TypeExpr
