import Comparability.Proofs.TypeExpr.Opening
import Comparability.Proofs.TypeExpr.Substitution

/-!
# Blanks and marks that change nothing

A blank can be put anywhere into a text, and a mark after any part of a type, without a change of the
verdict, unless the position splits an opener. The text with the character in it is read beside the
text without it:

* between leaves the two states are alike at once (`Scan.Ready.alike`);
* within a leaf they are `Loosened`: they hold the same leaf, but one has a gap in it and can no
  longer read it as a keyword. They stay so as long as the leaf goes on (`Loosened.step`), and a
  character that ends the leaf makes them alike, because it finds the leaf as if it had been a
  finished operand before (`Scan.settled`).
-/

namespace Comparability.TypeExpr

open Text (Span isBlank)

variable {α : Type} {m : Meaning α}

namespace Scan

variable {s t : Scan α} {c : Char}

/-! ## Taking the pending leaf -/

/-- The state with its pending leaf as a finished operand on the stack. -/
def settled (m : Meaning α) (s : Scan α) : Scan α :=
  s.startType (.operand (s.leafOperand m) :: s.stack)

theorem operand?_settled (h : s.leaf ≠ "") : (s.settled m).operand? m = s.operand? m := by
  rw [operand?_of_leaf h]
  rfl

theorem below_settled (h : s.leaf ≠ "") : (s.settled m).below = s.below := by
  rw [below_of_leaf h]
  rfl

theorem readCloser_settled (h : s.leaf ≠ "") (c : Char) :
    (s.settled m).readCloser m c = s.readCloser m c := by
  unfold readCloser
  rw [operand?_settled h, below_settled h]
  rfl

theorem readSeparator_settled (h : s.leaf ≠ "") (c : Char) :
    (s.settled m).readSeparator m c = s.readSeparator m c := by
  unfold readSeparator
  rw [operand?_settled h, below_settled h]
  rfl

theorem step_settled (h : s.leaf ≠ "") (hd : s.depth = 0) (hc : c ∈ closers ∨ c ∈ separators) :
    (s.settled m).step m c = s.step m c := by
  have hread : (s.settled m).read m c = s.read m c := by
    have hd' : (s.settled m).depth = 0 := hd
    unfold read
    rw [readCloser_settled h, readSeparator_settled h, if_neg (not_ne_iff.mpr hd),
      if_neg (not_ne_iff.mpr hd')]
    by_cases hclose : closers.contains c = true
    · rw [if_pos hclose, if_pos hclose]
    · have hsep : separators.contains c = true :=
        List.contains_iff_mem.mpr
          (hc.resolve_left fun hm => hclose (List.contains_iff_mem.mpr hm))
      rw [if_neg hclose, if_neg hclose, if_pos hsep, if_pos hsep]
  unfold step
  rw [hread]
  rfl

/-! ## A leaf with a gap -/

/-- Both states hold the same pending leaf on the same stack. In `t` it has a gap; in `s` the leaf was
begun before the position, which has been passed. -/
structure Loosened (position : Nat) (s t : Scan α) : Prop where
  leaf_ne : s.leaf ≠ ""
  leaf : t.leaf = s.leaf
  stack : t.stack = s.stack
  depth : t.depth = s.depth
  notAtStart : s.atTypeStart = false ∧ t.atTypeStart = false
  gap : t.leafSpan.start + t.leaf.length < t.position
  start_lt : s.leafSpan.start < position
  le_position : position ≤ s.position

namespace Loosened

variable {position : Nat}

theorem leaf_ne' (h : Loosened position s t) : t.leaf ≠ "" :=
  h.leaf ▸ h.leaf_ne

theorem keyword?_eq_none (h : Loosened position s t) : t.keyword? = none :=
  if_neg (Nat.ne_of_lt h.gap)

theorem skip (h : Loosened position s t) : Loosened position (s.next s) (t.next t) where
  leaf_ne := h.leaf_ne
  leaf := h.leaf
  stack := h.stack
  depth := h.depth
  notAtStart := h.notAtStart
  gap := Nat.lt_succ_of_lt h.gap
  start_lt := h.start_lt
  le_position := Nat.le_succ_of_le h.le_position

theorem mark (h : Loosened position s t) (b d : Bool) :
    Loosened position (s.next { s with marked := b }) (t.next { t with marked := d }) :=
  ⟨h.leaf_ne, h.leaf, h.stack, h.depth, h.notAtStart, h.skip.gap, h.start_lt, h.skip.le_position⟩

theorem extend (h : Loosened position s t) (c : Char) (depth : Nat) :
    Loosened position (s.next { s.extendLeaf c with depth := depth })
      (t.next { t.extendLeaf c with depth := depth }) where
  leaf_ne := by simp [extendLeaf]
  leaf := congrArg (·.push c) h.leaf
  stack := h.stack
  depth := rfl
  notAtStart := ⟨rfl, rfl⟩
  gap := by
    have hspan : (t.extendLeaf c).leafSpan = t.leafSpan.cover t.here := if_neg h.leaf_ne'
    have hgap := h.gap
    show (t.extendLeaf c).leafSpan.start + (t.leaf.push c).length < t.position + 1
    rw [hspan, Span.start_cover, String.length_push]
    omega
  start_lt := by
    have hspan : (s.extendLeaf c).leafSpan = s.leafSpan.cover s.here := if_neg h.leaf_ne
    have hlt := h.start_lt
    simp only [hspan, Span.start_cover]
    omega
  le_position := Nat.le_succ_of_le h.le_position

theorem settled (hm : ∀ v, m.optional v = v) (h : Loosened position s t) :
    (s.settled m).Alike Eq (fun _ _ => True) (t.settled m) where
  position := trivial
  stack := by
    have hvalue : (s.leafOperand m).value = (t.leafOperand m).value := by
      simp only [leafOperand, hm, ite_self, h.leaf]
    have hstack : List.Forall₂ (Frame.Alike Eq fun _ _ => True) s.stack t.stack := by
      rw [h.stack]
      exact List.forall₂_same.mpr fun f _ => f.alike_self
    exact .cons (.operand ⟨hvalue, spansAlike_true _ _⟩) hstack
  leaf := rfl
  leafSpan := spansAlike_true _ _
  gap hl := absurd rfl hl
  marked := rfl
  depth := h.depth.symm
  atTypeStart := rfl

/-- One more character: the leaf goes on in both, or it ends in both and they become alike. -/
theorem step (hm : ∀ v, m.optional v = v) (h : Loosened position s t) (c : Char)
    (hk : s.depth = 0 → c = '<' → s.keyword? = none) :
    ResultsAlike
      (fun u v => Loosened position u v ∨ u.Alike Eq (fun _ _ => True) v) (fun _ _ => True)
      (s.step m c) (t.step m c) := by
  have hreads : ∀ {u v}, s.Reads m c u → t.Reads m c v →
      Loosened position (s.next u) (t.next v) →
      ResultsAlike
        (fun u v => Loosened position u v ∨ u.Alike Eq (fun _ _ => True) v) (fun _ _ => True)
        (s.step m c) (t.step m c) := by
    intro u v hu hv hl
    rw [step_eq_ok_iff.mpr ⟨u, hu, rfl⟩, step_eq_ok_iff.mpr ⟨v, hv, rfl⟩]
    exact .ok (.inl hl)
  by_cases htrail : isBlank c = true ∨ c = '?'
  · by_cases hskip : isBlank c = true ∨ c = '?' ∧ s.depth ≠ 0
    · exact hreads (.skip hskip) (.skip (h.depth ▸ hskip)) h.skip
    · rw [not_or, not_and, not_ne_iff] at hskip
      obtain rfl := htrail.resolve_left hskip.1
      have hd := hskip.2 rfl
      exact hreads (.markLeaf hd h.leaf_ne) (.markLeaf (h.depth.trans hd) h.leaf_ne') (h.mark _ _)
  rw [not_or, Bool.not_eq_true] at htrail
  cases hn : nest s.depth c with
  | some depth =>
    have hs : s.Reads m c { s.extendLeaf c with depth := depth } :=
      .extend htrail.1 htrail.2 hn fun hd hc => ⟨h.leaf_ne, hk hd hc⟩
    have ht : t.Reads m c { t.extendLeaf c with depth := depth } :=
      .extend htrail.1 htrail.2 (h.depth ▸ hn) fun _ _ => ⟨h.leaf_ne', h.keyword?_eq_none⟩
    exact hreads hs ht (h.extend c depth)
  | none =>
    have hd : s.depth = 0 ∧ c ∈ ['>', '[', ']', ',', ':'] := by
      unfold nest at hn
      split_ifs at hn with _ hd hc
      exact ⟨hd, hc⟩
    obtain ⟨hd, hc⟩ := hd
    by_cases hb : c = '['
    · subst hb
      have hfail : ∀ {r : Scan α}, r.depth = 0 → r.atTypeStart = false →
          r.step m '[' = .error ⟨.unexpectedCharacter, r.here⟩ := by
        intro r hd ha
        simp [Scan.step, read, readBracket, failHere, hd, ha, closers, separators, isBlank]
      rw [hfail hd h.notAtStart.1, hfail (h.depth.trans hd) h.notAtStart.2]
      exact .error rfl (spansAlike_true _ _)
    · have htaken : c ∈ closers ∨ c ∈ separators := by
        simp only [List.mem_cons, List.not_mem_nil, or_false] at hc
        rw [mem_closers, mem_separators]
        tauto
      have hstep := (h.settled hm).step m.alike_self tracks_true c
      rw [step_settled h.leaf_ne hd htaken, step_settled h.leaf_ne' (h.depth.trans hd) htaken]
        at hstep
      cases hs : s.step m c <;> cases ht : t.step m c <;> rw [hs, ht] at hstep <;> cases hstep
      case error.error.error hreason hspan => exact .error hreason hspan
      case ok.ok.ok hu => exact .ok (.inr hu)

theorem conclude (hm : ∀ v, m.optional v = v) (h : Loosened position s t) :
    (s.conclude m).mapError Fault.reason = (t.conclude m).mapError Fault.reason := by
  have hvalue : (s.leafOperand m).value = (t.leafOperand m).value := by
    simp only [leafOperand, hm, ite_self, h.leaf]
  unfold Scan.conclude innermost?
  rw [h.depth, h.stack, h.leaf, hvalue]
  split_ifs with hd hl
  · rfl
  · exact absurd hl h.leaf_ne
  · cases s.stack.findSome? Frame.opened? with
    | some frame => rfl
    | none => rfl
  · cases s.stack.findSome? Frame.opened? with
    | some frame => rfl
    | none => rfl

/-- A keyword that ends after the position opens a container around it. -/
theorem keyword_of_opened (h : Loosened position s t) (hd : s.depth = 0) {opener : Opener}
    (hk : s.keyword? = some opener) :
    ∃ u frame, s.run m ['<'] = .ok u ∧ .opened frame ∈ u.stack ∧ frame.span.start < position ∧
      position < frame.span.stop := by
  have hu : s.Reads m '<' (s.openContainer opener s.leafSpan) := .openKeyword hd h.leaf_ne hk
  have hlt := h.start_lt
  have hle := h.le_position
  refine ⟨_, _, hu.run_snoc run_nil, List.mem_cons_self, ?_, ?_⟩
  · show min s.leafSpan.start s.position < position
    omega
  · show position < max s.leafSpan.stop (s.position + 1)
    omega

/-- Every text leads both states to one verdict, if no container opens around the position. -/
theorem verdict (hm : ∀ v, m.optional v = v) (h : Loosened position s t) {cs : List Char}
    (hopen : ∀ done u, done <+: cs → s.run m done = .ok u → ∀ frame, .opened frame ∈ u.stack →
      frame.span.start < position → ¬ position < frame.span.stop) :
    (s.run m cs >>= Scan.conclude m).mapError Fault.reason =
      (t.run m cs >>= Scan.conclude m).mapError Fault.reason := by
  induction cs generalizing s t with
  | nil => exact h.conclude hm
  | cons c cs ih =>
    have hk : s.depth = 0 → c = '<' → s.keyword? = none := by
      rintro hd rfl
      by_contra hk
      obtain ⟨opener, hk⟩ := Option.ne_none_iff_exists'.mp hk
      obtain ⟨u, frame, hu, hf, hlt, hgt⟩ := h.keyword_of_opened (m := m) hd hk
      exact hopen ['<'] u ⟨cs, rfl⟩ hu frame hf hlt hgt
    have hstep := h.step hm c hk
    rw [run_cons, run_cons]
    cases hs : s.step m c <;> cases ht : t.step m c <;> rw [hs, ht] at hstep <;> cases hstep
    case error.error.error hreason _ => exact congrArg Except.error hreason
    case ok.ok.ok u v hnext =>
      rcases hnext with hnext | hnext
      · refine ih hnext fun done w hp hw => hopen (c :: done) w (List.cons_prefix_cons.mpr ⟨rfl, hp⟩) ?_
        rw [run_cons, hs]
        exact hw
      · exact hnext.verdict cs

end Loosened

/-! ## One more character -/

/-- Reading one more character does not matter for what follows. -/
def Inert (position : Nat) (s t : Scan α) : Prop :=
  Loosened position s t ∨ s.Alike Eq (fun _ _ => True) t

/-- Between leaves, a character that leaves the frames as they are but for spans does not matter. -/
theorem Ready.inert {position : Nat} (hs : s.Ready) (ht : t.Ready)
    (h : List.Forall₂ (Frame.Alike Eq fun _ _ => True) s.stack t.stack) : Inert position s t :=
  .inr (hs.alike ht h)

theorem Pending.inert {raw : List Char} (h : s.Pending raw) (marked : Bool) :
    Inert s.position s (s.next { s with marked := marked }) := by
  have hlen : s.leaf.length ≤ raw.length := by
    rw [h.leaf, ← String.length_toList, leafText, String.toList_ofList]
    exact List.length_filter_le _ _
  have hadd := h.start_add
  have hlt := h.start_lt
  have hle := h.stop_le
  refine .inl ⟨h.leaf_ne, rfl, rfl, rfl, ⟨h.atTypeStart, h.atTypeStart⟩, ?_, by omega, Nat.le_refl _⟩
  show s.leafSpan.start + s.leaf.length < s.position + 1
  omega

variable {text : List Char}

theorem Accounts.inert_blank (h : s.Accounts m text) (hc : isBlank c = true) :
    s.Reads m c s ∧ Inert s.position s (s.next s) := by
  refine ⟨.skip (.inl hc), ?_⟩
  by_cases hl : s.leaf = ""
  · obtain ⟨hr, -⟩ := h.of_ready hl
    exact hr.inert ⟨hr.1, hr.2, hr.3, hr.4⟩ (List.forall₂_same.mpr fun f _ => f.alike_self)
  · obtain ⟨_, _, _, -, -, -, hp⟩ := h.of_pending hl
    exact hp.inert s.marked

theorem Accounts.inert_mark (hm : ∀ v, m.optional v = v) (h : s.Accounts m text)
    (ht : s.leaf ≠ "" ∨ ∃ o rest, s.stack = .operand o :: rest) :
    ∃ u, s.Reads m '?' u ∧ Inert s.position s (s.next u) := by
  by_cases hl : s.leaf = ""
  · obtain ⟨hr, -⟩ := h.of_ready hl
    obtain ⟨o, rest, hs⟩ := ht.resolve_left (not_ne_iff.mpr hl)
    refine ⟨_, .markOperand hr.depth hl hs, hr.inert ⟨hr.1, hr.2, hr.3, hr.4⟩ ?_⟩
    rw [hs]
    exact .cons (.operand ⟨(hm o.value).symm, spansAlike_true _ _⟩)
      (List.forall₂_same.mpr fun f _ => f.alike_self)
  · obtain ⟨_, _, _, -, -, -, hp⟩ := h.of_pending hl
    by_cases hd : s.depth = 0
    · exact ⟨_, .markLeaf hd hl, hp.inert true⟩
    · exact ⟨_, .skip (.inr ⟨rfl, hd⟩), hp.inert s.marked⟩

end Scan

variable {classify : Classifier}

theorem verdict_append_of_fault {before : String} {fault : Fault}
    (h : Scan.run (capabilityMeaning classify) {} before.toList = .error fault) (after : String) :
    (resolve classify (before ++ after)).verdict = .error fault.reason := by
  rw [verdict_resolve, String.toList_append, Scan.run_append, h]
  rfl

theorem verdict_insert {before after : String} {c : Char} {s u : Scan Capability}
    (hs : Scan.run (capabilityMeaning classify) {} before.toList = .ok s)
    (hu : s.Reads (capabilityMeaning classify) c u)
    (hi : Scan.Inert s.position s (s.next u))
    (hsplit : ¬ SplitsOpener (capabilityMeaning classify) (before ++ after).toList s.position) :
    (resolve classify (before ++ String.singleton c ++ after)).verdict =
      (resolve classify (before ++ after)).verdict := by
  rw [verdict_resolve, verdict_resolve]
  simp only [String.toList_append, String.toList_singleton, List.append_assoc,
    List.singleton_append] at hsplit ⊢
  rw [Scan.run_append_of_eq hs, Scan.run_append_of_eq hs, hu.run_cons]
  rcases hi with hi | hi
  · refine (hi.verdict (fun _ => rfl) fun done v hp hv frame hf hlt hgt => hsplit ?_).symm
    have hrun := (Scan.run_append_of_eq hs done).trans hv
    exact ⟨_, v, ⟨(List.prefix_append_right_inj _).mpr hp, hrun⟩, frame, hf, hlt, hgt⟩
  · exact (hi.verdict after.toList).symm

/-- **Blanks and marks are inert.** A blank can be put anywhere into a text, well-formed or not, but
within an opener; a mark can be put there too if the scan has read a part of a leaf, which the
beginning of an opener is not, or a finished operand lies on top of its stack. A well-formed text
keeps its capability with a mark at its end. -/
theorem resolve_inert (classify : Classifier) :
    (∀ before after c, isBlank c = true →
      ¬ SplitsOpener (capabilityMeaning classify) (before ++ after).toList before.length →
      (resolve classify (before ++ String.singleton c ++ after)).verdict =
        (resolve classify (before ++ after)).verdict) ∧
    (∀ before after s,
      Reaches (capabilityMeaning classify) (before ++ after).toList before.toList s →
      ¬ SplitsOpener (capabilityMeaning classify) (before ++ after).toList before.length →
      (s.leaf ≠ "" ∨ ∃ o rest, s.stack = .operand o :: rest) →
      (resolve classify (before ++ "?" ++ after)).verdict =
        (resolve classify (before ++ after)).verdict) ∧
    (∀ text c, (resolve classify text).outcome = .ok c →
      (resolve classify (text ++ "?")).outcome = .ok c) := by
  have haccounts : ∀ {before : String} {s},
      Scan.run (capabilityMeaning classify) {} before.toList = .ok s →
        s.Accounts (capabilityMeaning classify) before.toList ∧ s.position = before.length := by
    intro before s hs
    have ha := Scan.accounts_of_run (fun _ => rfl) hs
    exact ⟨ha, ha.position.trans String.length_toList⟩
  refine ⟨fun before after c hc hsplit => ?_, fun before after s hr hsplit ht => ?_,
    fun text c h => ?_⟩
  · cases hs : Scan.run (capabilityMeaning classify) {} before.toList with
    | error fault =>
      rw [String.append_assoc, verdict_append_of_fault hs, verdict_append_of_fault hs]
    | ok s =>
      obtain ⟨ha, hp⟩ := haccounts hs
      obtain ⟨hu, hi⟩ := ha.inert_blank hc
      exact verdict_insert hs hu hi (hp ▸ hsplit)
  · obtain ⟨ha, hp⟩ := haccounts hr.run
    obtain ⟨u, hu, hi⟩ := ha.inert_mark (fun _ => rfl) ht
    rw [show "?" = String.singleton '?' from rfl]
    exact verdict_insert hr.run hu hi (hp ▸ hsplit)
  · rw [resolve_outcome_eq_ok_iff_derives] at h ⊢
    rw [String.toList_append]
    exact h.append_trail (.singleton (.inr rfl))

/-- Within an enclosed span, where a keyword is read as a part of the leaf, in an expression that is
malformed further on. -/
theorem verdict_of_gap_in_span :
    (resolve (fun _ => .comparable) ("[Foo<Ar" ++ String.singleton ' ' ++ "ray<A>>: B, C]")).verdict =
        (resolve (fun _ => .comparable) ("[Foo<Ar" ++ "ray<A>>: B, C]")).verdict ∧
      (resolve (fun _ => .comparable) ("[Foo<Ar" ++ "?" ++ "ray<A>>: B, C]")).verdict =
        (resolve (fun _ => .comparable) ("[Foo<Ar" ++ "ray<A>>: B, C]")).verdict ∧
      (resolve (fun _ => .comparable) ("[A: B] " ++ "?")).outcome = .ok .equatable := by
  have hsplit : ¬ SplitsOpener (capabilityMeaning fun _ => .comparable)
      ("[Foo<Ar" ++ "ray<A>>: B, C]").toList "[Foo<Ar".length := by
    decide
  have h := resolve_inert fun _ => .comparable
  exact ⟨h.1 "[Foo<Ar" "ray<A>>: B, C]" ' ' rfl hsplit,
    h.2.1 "[Foo<Ar" "ray<A>>: B, C]" _ ⟨by decide, rfl⟩ hsplit (.inl (by decide)),
    h.2.2 "[A: B] " .equatable rfl⟩

end Comparability.TypeExpr
