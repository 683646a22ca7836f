import Mathlib.Data.List.Forall2
import Comparability.Proofs.TypeExpr.Step

/-!
# Scans side by side

Two scans that read the same characters stay alike, whatever their values and positions are: the
scan never looks at a value, and at positions only to see whether a keyword was written without a
gap. `R` relates the values and `P` the positions.

* `Meaning.Alike R m n` : the meanings give related values to related parts;
* `Tracks P` : the arithmetic of spans keeps `P`;
* `Scan.Alike R P s t` : the same frames with related values and spans, and the same pending leaf;
* `Scan.Alike.run` : scans that are alike and read the same text stay alike, or stop for the same
  reason at related spans; `Scan.Alike.conclude` : so they do at the end.
-/

namespace Comparability.TypeExpr

open Text (Span isBlank)

variable {α β : Type} {R : α → β → Prop} {P : Nat → Nat → Prop}

/-! ## Positions and spans -/

/-- A relation of positions that survives the arithmetic of spans. -/
structure Tracks (P : Nat → Nat → Prop) : Prop where
  zero : P 0 0
  succ : ∀ {p q}, P p q → P (p + 1) (q + 1)
  min : ∀ {a b c d}, P a b → P c d → P (min a c) (min b d)
  max : ∀ {a b c d}, P a b → P c d → P (max a c) (max b d)

theorem tracks_eq : Tracks Eq :=
  ⟨rfl, fun h => h ▸ rfl, fun h₁ h₂ => h₁ ▸ h₂ ▸ rfl, fun h₁ h₂ => h₁ ▸ h₂ ▸ rfl⟩

theorem tracks_true : Tracks fun _ _ => True :=
  ⟨trivial, fun _ => trivial, fun _ _ => trivial, fun _ _ => trivial⟩

structure SpansAlike (P : Nat → Nat → Prop) (a b : Span) : Prop where
  start : P a.start b.start
  stop : P a.stop b.stop

theorem SpansAlike.cover (hP : Tracks P) {a b c d : Span} (h : SpansAlike P a b)
    (h' : SpansAlike P c d) : SpansAlike P (a.cover c) (b.cover d) :=
  ⟨hP.min h.start h'.start, hP.max h.stop h'.stop⟩

theorem SpansAlike.eq {a b : Span} (h : SpansAlike Eq a b) : a = b :=
  Span.ext h.start h.stop

theorem spansAlike_true (a b : Span) : SpansAlike (fun _ _ => True) a b :=
  ⟨trivial, trivial⟩

/-! ## Frames -/

structure Operand.Alike (R : α → β → Prop) (P : Nat → Nat → Prop) (a : Operand α) (b : Operand β) :
    Prop where
  value : R a.value b.value
  span : SpansAlike P a.span b.span

/-- Open containers that differ in their spans alone. -/
structure OpenContainer.Alike (P : Nat → Nat → Prop) (f g : OpenContainer) : Prop where
  kind : f.kind = g.kind
  closer : f.closer = g.closer
  separators : f.separators = g.separators
  span : SpansAlike P f.span g.span

theorem OpenContainer.Alike.separated {f g : OpenContainer} (h : f.Alike P g) :
    f.separated.Alike P g.separated := by
  unfold OpenContainer.separated
  rw [h.kind]
  split_ifs
  · exact ⟨rfl, h.closer, h.separators, h.span⟩
  · exact h

inductive Frame.Alike (R : α → β → Prop) (P : Nat → Nat → Prop) : Frame α → Frame β → Prop
  | opened {f g : OpenContainer} (h : f.Alike P g) : Frame.Alike R P (.opened f) (.opened g)
  | operand {a : Operand α} {b : Operand β} (h : a.Alike R P b) :
      Frame.Alike R P (.operand a) (.operand b)
  | key {a : Operand α} {b : Operand β} (h : a.Alike R P b) : Frame.Alike R P (.key a) (.key b)

theorem Frame.Alike.span {f : Frame α} {g : Frame β} (h : f.Alike R P g) :
    SpansAlike P f.span g.span := by
  cases h with
  | opened h => exact h.span
  | operand h => exact h.span
  | key h => exact h.span

theorem Frame.alike_self (f : Frame α) : f.Alike Eq (fun _ _ => True) f := by
  cases f with
  | opened f => exact .opened ⟨rfl, rfl, rfl, spansAlike_true _ _⟩
  | operand o => exact .operand ⟨rfl, spansAlike_true _ _⟩
  | key o => exact .key ⟨rfl, spansAlike_true _ _⟩

/-! ## States and results -/

structure Meaning.Alike (R : α → β → Prop) (m : Meaning α) (n : Meaning β) : Prop where
  leaf : ∀ text, R (m.leaf text) (n.leaf text)
  sequence : ∀ {a b}, R a b → R (m.sequence a) (n.sequence b)
  dictionary : ∀ {a b c d}, R a b → R c d → R (m.dictionary a c) (n.dictionary b d)
  optional : ∀ {a b}, R a b → R (m.optional a) (n.optional b)

theorem Meaning.alike_self (m : Meaning α) : m.Alike Eq m where
  leaf _ := rfl
  sequence h := congrArg m.sequence h
  dictionary hk hv := congrArg₂ m.dictionary hk hv
  optional h := congrArg m.optional h

/-- States that differ in values and positions alone, and by as much in the start of the pending
leaf as in the position. -/
structure Scan.Alike (R : α → β → Prop) (P : Nat → Nat → Prop) (s : Scan α) (t : Scan β) :
    Prop where
  position : P s.position t.position
  stack : List.Forall₂ (Frame.Alike R P) s.stack t.stack
  leaf : s.leaf = t.leaf
  leafSpan : SpansAlike P s.leafSpan t.leafSpan
  gap : s.leaf ≠ "" → s.position + t.leafSpan.start = t.position + s.leafSpan.start
  marked : s.marked = t.marked
  depth : s.depth = t.depth
  atTypeStart : s.atTypeStart = t.atTypeStart

/-- Both results are good and alike, or both are faults of one reason at related spans. -/
inductive ResultsAlike {σ τ : Type} (A : σ → τ → Prop) (P : Nat → Nat → Prop) :
    Except Fault σ → Except Fault τ → Prop
  | ok {a : σ} {b : τ} (h : A a b) : ResultsAlike A P (.ok a) (.ok b)
  | error {x y : Fault} (hr : x.reason = y.reason) (hs : SpansAlike P x.span y.span) :
      ResultsAlike A P (.error x) (.error y)

theorem ResultsAlike.exists_ok {σ τ : Type} {A : σ → τ → Prop} {P : Nat → Nat → Prop}
    {x : Except Fault σ} {y : Except Fault τ} (h : ResultsAlike A P x y) {b : τ} (hy : y = .ok b) :
    ∃ a, x = .ok a ∧ A a b := by
  subst hy
  cases h with
  | ok h => exact ⟨_, rfl, h⟩

theorem Scan.Reads.position_eq {m : Meaning α} {s t : Scan α} {c : Char} (h : s.Reads m c t) :
    t.position = s.position := by
  cases h <;> rfl

namespace Scan.Alike

variable {m : Meaning α} {n : Meaning β} {s : Scan α} {t : Scan β} {c : Char}

theorem here (hP : Tracks P) (h : s.Alike R P t) : SpansAlike P s.here t.here :=
  ⟨h.position, hP.succ h.position⟩

theorem endSpan (h : s.Alike R P t) : SpansAlike P s.endSpan t.endSpan :=
  ⟨h.position, h.position⟩

theorem failHere (hP : Tracks P) (h : s.Alike R P t) (reason : Reason) :
    ResultsAlike (Scan.Alike R P) P (s.failHere reason) (t.failHere reason) :=
  .error rfl (h.here hP)

theorem leafOperand (hm : m.Alike R n) (h : s.Alike R P t) :
    (s.leafOperand m).Alike R P (t.leafOperand n) := by
  refine ⟨?_, h.leafSpan⟩
  rw [Scan.leafOperand, Scan.leafOperand, h.marked, h.leaf]
  split_ifs
  · exact hm.optional (hm.leaf _)
  · exact hm.leaf _

theorem operand? (hm : m.Alike R n) (h : s.Alike R P t) :
    Option.Rel (Operand.Alike R P) (s.operand? m) (t.operand? n) := by
  unfold Scan.operand?
  rw [← h.leaf]
  split_ifs with hl
  · have hs := h.stack
    generalize s.stack = x, t.stack = y at hs
    cases hs with
    | nil => exact .none
    | cons hf _ =>
      cases hf with
      | opened _ => exact .none
      | operand ho => exact .some ho
      | key _ => exact .none
  · exact .some (h.leafOperand hm)

theorem below (h : s.Alike R P t) : List.Forall₂ (Frame.Alike R P) s.below t.below := by
  unfold Scan.below
  rw [← h.leaf]
  split_ifs with hl
  · have hs := h.stack
    generalize s.stack = x, t.stack = y at hs
    cases hs with
    | nil => exact .nil
    | cons hf hs =>
      cases hf with
      | opened hf => exact .cons (.opened hf) hs
      | operand _ => exact hs
      | key hf => exact .cons (.key hf) hs
  · exact h.stack

/-- Positions are looked at for keywords alone, and only for the gap between two of them. -/
theorem keyword? (h : s.Alike R P t) (hl : s.leaf ≠ "") : s.keyword? = t.keyword? := by
  have hg := h.gap hl
  have hp : s.leafSpan.start + s.leaf.length = s.position ↔
      t.leafSpan.start + t.leaf.length = t.position := by
    rw [← h.leaf]
    omega
  unfold Scan.keyword?
  rw [← h.leaf] at hp ⊢
  simp only [hp]

theorem extendLeaf (hP : Tracks P) (h : s.Alike R P t) (c : Char) {d e : Nat} (hd : d = e) :
    Scan.Alike R P { s.extendLeaf c with depth := d } { t.extendLeaf c with depth := e } := by
  refine ⟨h.position, h.stack, congrArg (·.push c) h.leaf, ?_, fun _ => ?_, h.marked, hd, rfl⟩
  · simp only [Scan.extendLeaf, ← h.leaf]
    split_ifs with hl
    · exact h.here hP
    · exact h.leafSpan.cover hP (h.here hP)
  · simp only [Scan.extendLeaf, ← h.leaf]
    split_ifs with hl
    · exact Nat.add_comm _ _
    · have hg := h.gap hl
      simp only [Scan.here, Span.start_cover, Span.start_ofLength]
      omega

theorem startType (h : s.Alike R P t) {stack : List (Frame α)} {other : List (Frame β)}
    (hs : List.Forall₂ (Frame.Alike R P) stack other) :
    (s.startType stack).Alike R P (t.startType other) :=
  ⟨h.position, hs, rfl, h.leafSpan, fun hl => absurd rfl hl, rfl, h.depth, rfl⟩

theorem openContainer (hP : Tracks P) (h : s.Alike R P t) (opener : Opener) {a b : Span}
    (hs : SpansAlike P a b) :
    (s.openContainer opener a).Alike R P (t.openContainer opener b) :=
  h.startType (.cons (.opened ⟨rfl, rfl, rfl, hs.cover hP (h.here hP)⟩) h.stack)

/-! ## One character -/

theorem readAngle (hP : Tracks P) (h : s.Alike R P t) :
    ResultsAlike (Scan.Alike R P) P s.readAngle t.readAngle := by
  unfold Scan.readAngle
  rw [← h.leaf]
  split_ifs with hl
  · exact h.failHere hP _
  · rw [← h.keyword? hl]
    cases s.keyword? with
    | none => exact .ok (h.extendLeaf hP '<' rfl)
    | some opener => exact .ok (h.openContainer hP opener h.leafSpan)

theorem readBracket (hP : Tracks P) (h : s.Alike R P t) :
    ResultsAlike (Scan.Alike R P) P s.readBracket t.readBracket := by
  unfold Scan.readBracket
  rw [← h.atTypeStart]
  split_ifs
  · exact .ok (h.openContainer hP .bracket (h.here hP))
  · exact h.failHere hP _

theorem readEnclosed (hP : Tracks P) (h : s.Alike R P t) (c : Char) :
    (s.readEnclosed c).Alike R P (t.readEnclosed c) := by
  unfold Scan.readEnclosed
  rw [← h.depth]
  split_ifs
  · exact h
  · exact h.extendLeaf hP c rfl
  · exact h.extendLeaf hP c rfl
  · exact h.extendLeaf hP c h.depth

theorem readSeparator (hm : m.Alike R n) (hP : Tracks P) (h : s.Alike R P t) (c : Char) :
    ResultsAlike (Scan.Alike R P) P (s.readSeparator m c) (t.readSeparator n c) := by
  have ho := h.operand? hm
  have hb := h.below
  unfold Scan.readSeparator
  generalize s.operand? m = o, t.operand? n = o' at ho
  generalize s.below = b, t.below = b' at hb
  cases ho with
  | none =>
    cases hb with
    | nil => exact h.failHere hP _
    | cons hf _ => cases hf <;> exact h.failHere hP _
  | some ho =>
    cases hb with
    | nil => exact h.failHere hP _
    | cons hf hs =>
      cases hf with
      | operand _ => exact h.failHere hP _
      | key _ => exact h.failHere hP _
      | @opened f g hf =>
        have ha : f.accepts (String.singleton c) = g.accepts (String.singleton c) := by
          rw [OpenContainer.accepts, OpenContainer.accepts, hf.separators]
        simp only [ha]
        split_ifs
        · exact .ok (h.startType (.cons (.key ho) (.cons (.opened hf.separated) hs)))
        · exact h.failHere hP _

theorem closeFrame (hP : Tracks P) (h : s.Alike R P t) (c : Char) {f g : OpenContainer}
    (hf : f.Alike P g) {v : Except Reason α} {w : Except Reason β}
    (hv : (∃ a b, v = .ok a ∧ w = .ok b ∧ R a b) ∨ ∃ r, v = .error r ∧ w = .error r)
    {stack : List (Frame α)} {other : List (Frame β)}
    (hs : List.Forall₂ (Frame.Alike R P) stack other) :
    ResultsAlike (Scan.Alike R P) P (s.closeFrame c f v stack) (t.closeFrame c g w other) := by
  have hspan := hf.span.cover hP (h.here hP)
  unfold Scan.closeFrame
  rw [← hf.closer]
  split_ifs
  · rcases hv with ⟨a, b, rfl, rfl, hr⟩ | ⟨r, rfl, rfl⟩
    · exact .ok (h.startType (.cons (.operand ⟨hr, hspan⟩) hs))
    · exact h.failHere hP r
  · exact .error rfl hspan

theorem readCloser (hm : m.Alike R n) (hP : Tracks P) (h : s.Alike R P t) (c : Char) :
    ResultsAlike (Scan.Alike R P) P (s.readCloser m c) (t.readCloser n c) := by
  have ho := h.operand? hm
  have hb := h.below
  unfold Scan.readCloser
  generalize s.operand? m = o, t.operand? n = o' at ho
  generalize s.below = b, t.below = b' at hb
  cases ho with
  | none =>
    cases hb with
    | nil => exact h.failHere hP _
    | cons hf _ =>
      cases hf with
      | opened hf => exact .error rfl (hf.span.cover hP (h.here hP))
      | operand hf => exact .error rfl (hf.span.cover hP (h.here hP))
      | key _ => exact h.failHere hP _
  | some ho =>
    cases hb with
    | nil => exact h.failHere hP _
    | cons hf hs =>
      cases hf with
      | operand _ => exact .error rfl ho.span
      | @opened f g hf =>
        refine h.closeFrame hP c hf ?_ hs
        rw [OpenContainer.isSequence, OpenContainer.isSequence, hf.kind]
        split_ifs
        · exact .inl ⟨_, _, rfl, rfl, hm.sequence ho.value⟩
        · exact .inr ⟨_, rfl, rfl⟩
      | key hk =>
        cases hs with
        | nil => exact h.failHere hP _
        | cons hf hs =>
          cases hf with
          | opened hf =>
            exact h.closeFrame hP c hf
              (.inl ⟨_, _, rfl, rfl, hm.dictionary hk.value ho.value⟩) hs
          | operand _ => exact h.failHere hP _
          | key _ => exact h.failHere hP _

theorem readMark (hm : m.Alike R n) (hP : Tracks P) (h : s.Alike R P t) :
    ResultsAlike (Scan.Alike R P) P (s.readMark m) (t.readMark n) := by
  unfold Scan.readMark
  by_cases hl : s.leaf = ""
  · rw [if_pos hl, if_pos (h.leaf.symm.trans hl)]
    obtain ⟨hp, hs, h₁, h₂, h₃, h₄, h₅, h₆⟩ := id h
    generalize s.stack = x, t.stack = y at hs
    cases hs with
    | nil => exact h.failHere hP _
    | cons hf hs =>
      cases hf with
      | opened _ => exact h.failHere hP _
      | key _ => exact h.failHere hP _
      | @operand a b ho =>
        have hnew : Operand.Alike R P ⟨m.optional a.value, a.span.cover s.here⟩
            ⟨n.optional b.value, b.span.cover t.here⟩ :=
          ⟨hm.optional ho.value, ho.span.cover hP (h.here hP)⟩
        exact .ok ⟨hp, .cons (.operand hnew) hs, h₁, h₂, h₃, h₄, h₅, h₆⟩
  · rw [if_neg hl, if_neg fun ht => hl (h.leaf.trans ht)]
    exact .ok ⟨h.position, h.stack, h.leaf, h.leafSpan, h.gap, rfl, h.depth, h.atTypeStart⟩

theorem read (hm : m.Alike R n) (hP : Tracks P) (h : s.Alike R P t) (c : Char) :
    ResultsAlike (Scan.Alike R P) P (s.read m c) (t.read n c) := by
  unfold Scan.read
  rw [← h.depth]
  split_ifs with hd
  · exact .ok (h.readEnclosed hP c)
  · exact h.readCloser hm hP c
  · exact h.readSeparator hm hP c
  · exact h.readMark hm hP
  · exact .ok h
  · exact h.readAngle hP
  · exact h.readBracket hP
  · exact .ok (h.extendLeaf hP c h.depth)

/-! ## Texts -/

theorem step (hm : m.Alike R n) (hP : Tracks P) (h : s.Alike R P t) (c : Char) :
    ResultsAlike (Scan.Alike R P) P (s.step m c) (t.step n c) := by
  have hr := h.read hm hP c
  unfold Scan.step
  cases hs : s.read m c <;> cases ht : t.read n c <;> rw [hs, ht] at hr <;> cases hr
  case error.error.error hreason hspan => exact .error hreason hspan
  case ok.ok.ok u v hu =>
    have hus := (Scan.read_eq_ok_iff.mp hs).position_eq
    have hvt := (Scan.read_eq_ok_iff.mp ht).position_eq
    refine .ok ⟨hP.succ h.position, hu.stack, hu.leaf, hu.leafSpan, fun hl => ?_, hu.marked,
      hu.depth, hu.atTypeStart⟩
    have hg := hu.gap hl
    show s.position + 1 + v.leafSpan.start = t.position + 1 + u.leafSpan.start
    omega

/-- **Scans that are alike stay alike**, or stop for the same reason at related spans. -/
theorem run (hm : m.Alike R n) (hP : Tracks P) (h : s.Alike R P t) (cs : List Char) :
    ResultsAlike (Scan.Alike R P) P (s.run m cs) (t.run n cs) := by
  induction cs generalizing s t with
  | nil => exact .ok h
  | cons c cs ih =>
    rw [Scan.run_cons, Scan.run_cons]
    have hr := h.step hm hP c
    generalize s.step m c = x, t.step n c = y at hr
    cases hr with
    | ok h => exact ih h
    | error hreason hspan => exact .error hreason hspan

theorem innermost? (h : s.Alike R P t) :
    Option.Rel (OpenContainer.Alike P) s.innermost? t.innermost? := by
  have hs := h.stack
  unfold Scan.innermost?
  generalize s.stack = x, t.stack = y at hs
  induction hs with
  | nil => exact .none
  | cons hf _ ih =>
    cases hf with
    | opened hf => exact .some hf
    | operand _ => exact ih
    | key _ => exact ih

theorem conclude (hm : m.Alike R n) (hP : Tracks P) (h : s.Alike R P t) :
    ResultsAlike R P (s.conclude m) (t.conclude n) := by
  have hend := h.endSpan
  have hi := h.innermost?
  have hs := List.forall₂_reverse_iff.mpr h.stack
  have he : s.stack.isEmpty = t.stack.isEmpty := by
    have hs := h.stack
    generalize s.stack = x, t.stack = y at hs
    cases hs <;> rfl
  unfold Scan.conclude
  rw [← h.depth, ← h.leaf, ← he]
  by_cases hd : s.depth ≠ 0
  · rw [if_pos hd, if_pos hd]
    exact .error rfl (h.leafSpan.cover hP hend)
  rw [if_neg hd, if_neg hd]
  generalize s.innermost? = i, t.innermost? = j at hi
  cases hi with
  | some hf => exact .error rfl (hf.span.cover hP hend)
  | none =>
    split_ifs with hl hn
    · generalize s.stack.reverse = x, t.stack.reverse = y at hs
      cases hs with
      | nil => exact .error rfl ⟨hP.zero, by simpa using h.position⟩
      | cons hf hs =>
        cases hs with
        | nil =>
          cases hf with
          | opened hf => exact .error rfl hf.span
          | operand ho => exact .ok ho.value
          | key hk => exact .error rfl hk.span
        | cons hf' _ => cases hf <;> exact .error rfl hf'.span
    · exact .ok (h.leafOperand hm).value
    · exact .error rfl h.leafSpan

end Scan.Alike

theorem Scan.alike_start (hP : Tracks P) : ({} : Scan α).Alike R P ({} : Scan β) :=
  ⟨hP.zero, .nil, rfl, ⟨hP.zero, hP.zero⟩, fun hl => absurd rfl hl, rfl, rfl, rfl⟩

/-- Meanings that are alike read every text to related values, or find the same fault in it. -/
theorem scan_alike {m : Meaning α} {n : Meaning β} (hm : m.Alike R n) (text : String) :
    ResultsAlike (fun a b => R a.1 b.1) Eq (scan m text) (scan n text) := by
  have hrun := (Scan.alike_start (R := R) tracks_eq).run hm tracks_eq text.toList
  unfold scan
  generalize Scan.run m {} text.toList = x, Scan.run n {} text.toList = y at hrun
  cases hrun with
  | error hreason hspan => exact .error hreason hspan
  | @ok s t h =>
    have hend := h.conclude hm tracks_eq
    show ResultsAlike _ _ (do let v ← s.conclude m; return (v, s.stack))
      (do let v ← t.conclude n; return (v, t.stack))
    generalize s.conclude m = x, t.conclude n = y at hend
    cases hend with
    | error hreason hspan => exact .error hreason hspan
    | ok hv => exact .ok hv

end Comparability.TypeExpr
