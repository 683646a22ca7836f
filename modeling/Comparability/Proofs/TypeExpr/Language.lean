import Mathlib.Data.List.Induction
import Comparability.Proofs.TypeExpr.Account
import Comparability.TypeExpr.Resolution

/-!
# The language of the scan

A text resolves to a capability exactly when the grammar derives that value for it.

* From a scan to a derivation: a state accounts for its text (`accounts_of_run`), and at the end its
  operand is all there is (`conclude_eq_ok_iff`).
* From a derivation to a scan: wherever a type may begin, reading a derivation of `v` puts an
  operand of value `v` on the stack that was there (`readsAs_of_derives`, in terms of `Holds`).
-/

namespace Comparability.TypeExpr

open Text (Span isBlank)

variable {α : Type} {m : Meaning α}

namespace Scan

variable {s : Scan α} {c : Char}

/-! ## The end of a scan -/

/-- A scan succeeds with the operand that it would give to a closer, when nothing lies under it. -/
theorem conclude_eq_ok_iff {v : α} :
    s.conclude m = .ok v ↔
      s.depth = 0 ∧ ∃ span, s.operand? m = some ⟨v, span⟩ ∧ s.below = [] := by
  rw [conclude]
  by_cases hd : s.depth = 0
  swap
  · simp [hd]
  rw [if_neg (not_ne_iff.mpr hd)]
  constructor
  · intro h
    refine ⟨hd, ?_⟩
    split at h
    · cases h
    split_ifs at h with hl he
    · split at h
      · cases h
      · next o hr =>
        have hs : s.stack = [.operand o] := by simpa using congrArg List.reverse hr
        obtain rfl := Except.ok.inj h
        exact ⟨o.span, by rw [operand?, if_pos hl, hs], by rw [below, if_pos hl, hs]⟩
      · cases h
      · cases h
    · obtain rfl := Except.ok.inj h
      refine ⟨s.leafSpan, operand?_of_leaf hl, ?_⟩
      rw [below_of_leaf hl]
      exact List.isEmpty_iff.mp he
  · rintro ⟨-, span, ho, hb⟩
    rcases operand?_eq_some_iff.mp ho with ⟨hl, hv, hs⟩ | ⟨hl, hs⟩
    · rw [hb] at hs
      simp [innermost?, ← hs, hl, hv]
    · rw [hb] at hs
      simp [innermost?, hs, hl, Frame.opened?]

/-! ## An operand on a stack -/

/-- What was read last is an operand of value `v`, on top of the stack `rest`. -/
structure Holds (m : Meaning α) (s : Scan α) (v : α) (rest : List (Frame α)) : Prop where
  depth : s.depth = 0
  operand : ∃ span, s.operand? m = some ⟨v, span⟩
  below : s.below = rest

variable {v : α} {rest : List (Frame α)}

theorem Ready.holds (h : s.Ready) {span : Span} (hs : s.stack = .operand ⟨v, span⟩ :: rest) :
    s.Holds m v rest := by
  refine ⟨h.depth, ⟨span, ?_⟩, ?_⟩
  · rw [operand?, if_pos h.leaf, hs]
  · rw [Scan.below, if_pos h.leaf, hs]

theorem Holds.stack_of_ready (h : s.Holds m v rest) (hr : s.Ready) :
    ∃ span, s.stack = .operand ⟨v, span⟩ :: rest := by
  obtain ⟨span, ho⟩ := h.operand
  rcases operand?_eq_some_iff.mp ho with ⟨hl, -, -⟩ | ⟨-, hs⟩
  · exact absurd hr.leaf hl
  · exact ⟨span, by rw [hs, h.below]⟩

theorem Pending.holds (hm : ∀ v, m.optional v = v) {raw : List Char} (h : s.Pending raw)
    (hd : s.depth = 0) : s.Holds m (m.leaf (leafText raw)) s.stack := by
  refine ⟨hd, ⟨s.leafSpan, ?_⟩, below_of_leaf h.leaf_ne⟩
  rw [operand?_of_leaf h.leaf_ne, leafOperand, hm, ite_self, h.leaf]

/-! ## Reading what stands around types -/

theorem run_blanks {blanks : List Char} (h : Blanks blanks) :
    s.run m blanks = .ok { s with position := s.position + blanks.length } := by
  induction blanks generalizing s with
  | nil => rfl
  | cons c cs ih =>
    have hs : s.Reads m c s := .skip (.inl (h c List.mem_cons_self))
    rw [hs.run_cons]
    refine (ih fun d hd => h d (List.mem_cons_of_mem c hd)).trans ?_
    rw [List.length_cons, Nat.add_right_comm, Nat.add_assoc]

theorem Holds.trail (hm : ∀ v, m.optional v = v) (h : s.Holds m v rest) {after : List Char}
    (ha : Trail after) :
    ∃ t, s.run m after = .ok t ∧ t.Holds m v rest ∧ (s.Ready → t.Ready) := by
  induction after generalizing s with
  | nil => exact ⟨s, rfl, h, id⟩
  | cons c cs ih =>
    have hc : ∃ u, s.Reads m c u ∧ (s.next u).Holds m v rest ∧ (s.Ready → (s.next u).Ready) := by
      rcases ha c List.mem_cons_self with hb | rfl
      · exact ⟨s, .skip (.inl hb), ⟨h.depth, h.operand, h.below⟩,
          fun hr => hr.next s⟩
      · obtain ⟨span, ho⟩ := h.operand
        rcases operand?_eq_some_iff.mp ho with ⟨hl, hv, hb⟩ | ⟨hl, hs⟩
        · refine ⟨_, .markLeaf h.depth hl, ⟨h.depth, ⟨s.leafSpan, ?_⟩, ?_⟩,
            fun hr => absurd hr.leaf hl⟩
          · obtain rfl : m.leaf s.leaf = v := by
              simpa [leafOperand, hm] using congrArg Operand.value hv
            rw [operand?, if_neg hl, leafOperand, if_pos rfl, hm]
          · rw [← h.below, hb]
            exact below_of_leaf hl
        · refine ⟨_, .markOperand h.depth hl hs, ⟨h.depth, ⟨span.cover s.here, ?_⟩, ?_⟩,
            fun hr => (hr.withStack _).next s⟩
          · rw [operand?, if_pos hl, hm]
          · rw [Scan.below, if_pos hl, ← h.below]
    obtain ⟨u, hu, hh, hr⟩ := hc
    obtain ⟨t, ht, hht, hrt⟩ := ih hh fun d hd => ha d (List.mem_cons_of_mem c hd)
    exact ⟨t, (hu.run_cons cs).trans ht, hht, hrt ∘ hr⟩

/-! ## Reading leaves and openers -/

theorem mem_keywords_of_opener {opener : Opener} (ho : opener ∈ Opener.all) {raw : List Char}
    (ht : opener.text.toList = raw ++ ['<']) : raw ++ ['<'] ∈ keywords := by
  rw [← ht]
  rcases Opener.mem_all.mp ho with rfl | rfl | rfl | rfl
  · decide
  · decide
  · decide
  · exact absurd (congrArg List.getLast? ht) (by simp [Opener.bracket])

theorem Pending.reads {raw : List Char} (h : s.Pending raw) {depth : Nat}
    (hp : LeafPrefix depth (raw ++ [c])) :
    ∃ u, s.Reads m c u ∧ (s.next u).Pending (raw ++ [c]) ∧ u.depth = depth ∧
      u.stack = s.stack := by
  have hn : nest s.depth c = some depth := by
    obtain ⟨d, hd, hn⟩ := hp.of_snoc h.leafPrefix.ne_nil
    rwa [hd.depth_unique h.leafPrefix] at hn
  by_cases ht : isBlank c = true ∨ c = '?'
  · rw [nest_blank ht, Option.some_inj] at hn
    by_cases hs : isBlank c = true ∨ c = '?' ∧ s.depth ≠ 0
    · exact ⟨s, .skip hs, h.snoc_trail ht s.marked, hn, rfl⟩
    · rw [not_or, not_and, not_ne_iff] at hs
      obtain rfl := ht.resolve_left hs.1
      exact ⟨_, .markLeaf (hs.2 rfl) h.leaf_ne, h.snoc_trail ht true, hn, rfl⟩
  · rw [not_or, Bool.not_eq_true] at ht
    have ha : s.depth = 0 → c = '<' → s.leaf ≠ "" ∧ s.keyword? = none := by
      rintro - rfl
      refine ⟨h.leaf_ne, ?_⟩
      by_contra hk
      obtain ⟨opener, hk⟩ := Option.ne_none_iff_exists'.mp hk
      obtain ⟨ho, htext⟩ := h.keyword?_eq_some hk
      exact hp.no_keyword _ (mem_keywords_of_opener ho htext) List.prefix_rfl
    exact ⟨_, .extend ht.1 ht.2 hn ha, h.snoc ht.1 ht.2 hn ha, rfl, rfl⟩

theorem Ready.run_leaf (h : s.Ready) {depth : Nat} {raw : List Char}
    (hp : LeafPrefix depth raw) :
    ∃ t, s.run m raw = .ok t ∧ t.Pending raw ∧ t.depth = depth ∧ t.stack = s.stack := by
  induction raw using List.reverseRecOn generalizing depth with
  | nil => exact absurd rfl hp.ne_nil
  | append_singleton raw c ih =>
    by_cases hr : raw = []
    · subst hr
      obtain ⟨⟨d, ds, he, hd, hn⟩, -⟩ := hp
      obtain ⟨rfl, rfl⟩ := List.cons.inj he
      obtain rfl := Option.some.inj hn
      have hc : c ≠ '?' ∧ c ≠ '<' := by
        refine ⟨?_, ?_⟩ <;> rintro rfl <;> exact absurd hd.2 (by decide)
      have hu : s.Reads m c { s.extendLeaf c with depth := 0 } :=
        .extend hd.1 hc.1 (h.depth ▸ hd.nest) fun _ hl => absurd hl hc.2
      exact ⟨_, hu.run_snoc run_nil, h.extend hd, rfl, rfl⟩
    · obtain ⟨d, hd, -⟩ := hp.of_snoc hr
      obtain ⟨t, ht, hpt, -, hst⟩ := ih hd
      obtain ⟨u, hu, hpu, hdu, hsu⟩ := hpt.reads hp
      exact ⟨t.next u, hu.run_snoc ht, hpu, hdu, hsu.trans hst⟩

theorem opener_eq_of_text :
    ∀ a ∈ Opener.all, ∀ b ∈ Opener.all, a.text = b.text → a = b := by
  decide

theorem Ready.run_opener (h : s.Ready) {opener : Opener} (ho : opener ∈ Opener.all) :
    ∃ t, s.run m opener.text.toList = .ok t ∧ t.Ready ∧
      t.stack =
        .opened (.ofOpener opener (Span.ofLength s.position opener.text.length)) :: s.stack := by
  by_cases hb : opener = .bracket
  · subst hb
    refine ⟨_, (Reads.openBracket h.depth h.atTypeStart).run_snoc run_nil, .startType h.depth, ?_⟩
    have hspan : s.here.cover s.here = Span.ofLength s.position 1 :=
      Span.ext (Nat.min_self _) (Nat.max_self _)
    exact congrArg (fun span => .opened (.ofOpener .bracket span) :: s.stack) hspan
  · have hk : ∃ raw, opener.text.toList = raw ++ ['<'] ∧ LeafPrefix 0 raw := by
      rcases Opener.mem_all.mp ho with rfl | rfl | rfl | rfl
      · exact ⟨"Array".toList, rfl, ⟨'A', "rray".toList, rfl, by decide, rfl⟩, by decide⟩
      · exact ⟨"Set".toList, rfl, ⟨'S', "et".toList, rfl, by decide, rfl⟩, by decide⟩
      · exact ⟨"Dictionary".toList, rfl, ⟨'D', "ictionary".toList, rfl, by decide, rfl⟩,
          by decide⟩
      · exact absurd rfl hb
    obtain ⟨raw, ht, hp⟩ := hk
    obtain ⟨t, hrun, hpt, hdt, hst⟩ := h.run_leaf (m := m) hp
    obtain ⟨other, hkey⟩ : ∃ other, t.keyword? = some other :=
      Option.ne_none_iff_exists'.mp (hpt.keyword?_of_mem (mem_keywords_of_opener ho ht)).2
    obtain ⟨hother, hto⟩ := hpt.keyword?_eq_some hkey
    obtain rfl : other = opener :=
      opener_eq_of_text other hother opener ho (String.toList_injective (hto.trans ht.symm))
    have hspan : t.leafSpan.cover t.here = Span.ofLength s.position other.text.length := by
      have hlength : other.text.length = raw.length + 1 := by
        rw [← String.length_toList, ht, List.length_append, List.length_singleton]
      have hpos := position_of_run hrun
      have hadd := hpt.start_add
      have hle := hpt.stop_le
      apply Span.ext
      all_goals
        simp only [here, Span.start_cover, Span.stop_cover, Span.start_ofLength,
          Span.stop_ofLength, hlength]
        omega
    rw [ht, ← hst, ← hspan]
    exact ⟨_, (Reads.openKeyword hdt hpt.leaf_ne hkey).run_snoc hrun, .startType hdt, rfl⟩

/-! ## Reading what stands in containers -/

theorem closer_of_opener {opener : Opener} (ho : opener ∈ Opener.all) :
    ∃ c ∈ closers, opener.closer = String.singleton c := by
  rcases Opener.mem_all.mp ho with rfl | rfl | rfl | rfl
  · exact ⟨'>', by decide, rfl⟩
  · exact ⟨'>', by decide, rfl⟩
  · exact ⟨'>', by decide, rfl⟩
  · exact ⟨']', by decide, rfl⟩

theorem Holds.separate {opener : Opener} {span : Span} (ho : opener ∈ Opener.all)
    (hs : String.singleton c ∈ opener.separators)
    (h : s.Holds m v (.opened (.ofOpener opener span) :: rest)) :
    ∃ t k, s.run m [c] = .ok t ∧ t.Ready ∧ k.value = v ∧
      t.stack = .key k :: .opened (OpenContainer.ofOpener opener span).separated :: rest := by
  have hc : c ∈ separators :=
    mem_separators.mpr ((Opener.eq_of_separator ho hs).elim And.right fun h => .inr h.2)
  obtain ⟨kspan, hk⟩ := h.operand
  have ha : (OpenContainer.ofOpener opener span).accepts (String.singleton c) = true := by
    simpa [OpenContainer.accepts, OpenContainer.ofOpener] using hs
  exact ⟨_, _, (Reads.separate h.depth hc hk h.below ha).run_snoc run_nil, .startType h.depth,
    rfl, rfl⟩

theorem Holds.closeSequence {opener : Opener} {span : Span} (ho : opener ∈ Opener.all)
    (hq : opener.kind.isSequence = true)
    (h : s.Holds m v (.opened (.ofOpener opener span) :: rest)) :
    ∃ t, s.run m opener.closer.toList = .ok t ∧ t.Holds m (m.sequence v) rest ∧ t.Ready := by
  obtain ⟨c, hc, he⟩ := closer_of_opener ho
  obtain ⟨ospan, ho⟩ := h.operand
  have hr : (s.next (s.startType (.operand ⟨m.sequence v, span.cover s.here⟩ :: rest))).Ready :=
    .startType h.depth
  rw [he, String.toList_singleton]
  exact ⟨_, (Reads.closeSequence h.depth hc ho h.below he hq).run_snoc run_nil, hr.holds rfl, hr⟩

theorem Holds.closeDictionary {opener : Opener} {span : Span} (ho : opener ∈ Opener.all)
    {k : Operand α} (h : s.Holds m v
      (.key k :: .opened (OpenContainer.ofOpener opener span).separated :: rest)) :
    ∃ t, s.run m opener.closer.toList = .ok t ∧ t.Holds m (m.dictionary k.value v) rest ∧
      t.Ready := by
  obtain ⟨c, hc, he⟩ := closer_of_opener ho
  obtain ⟨ospan, ho⟩ := h.operand
  have hf := (OpenContainer.closer_separated (.ofOpener opener span)).trans he
  have hu := Reads.closeDictionary h.depth hc ho h.below hf
  have hr : (s.next (s.startType (.operand ⟨m.dictionary k.value v,
      (OpenContainer.ofOpener opener span).separated.span.cover s.here⟩ :: rest))).Ready :=
    .startType h.depth
  rw [he, String.toList_singleton]
  exact ⟨_, hu.run_snoc run_nil, hr.holds rfl, hr⟩

/-- Wherever a type may begin, the text is read as an operand of value `v`; after a container, the
next type may begin. -/
def ReadsAs (m : Meaning α) (part : Part) (text : List Char) (v : α) : Prop :=
  ∀ s : Scan α, s.Ready →
    ∃ t, s.run m text = .ok t ∧ t.Holds m v s.stack ∧ (part = .container → t.Ready)

theorem ReadsAs.sequence {opener : Opener} (ho : opener ∈ Opener.all)
    (hq : opener.kind.isSequence = true) {text : List Char} (h : ReadsAs m .expression text v) :
    ReadsAs m .container (opener.text.toList ++ text ++ opener.closer.toList) (m.sequence v) := by
  intro s hr
  obtain ⟨t, ht, hrt, hst⟩ := hr.run_opener ho
  obtain ⟨u, hu, hhu, -⟩ := h t hrt
  rw [hst] at hhu
  obtain ⟨w, hw, hhw, hrw⟩ := hhu.closeSequence ho hq
  refine ⟨w, ?_, hhw, fun _ => hrw⟩
  rw [List.append_assoc, run_append_of_eq ht, run_append_of_eq hu, hw]

theorem ReadsAs.dictionary {opener : Opener} (ho : opener ∈ Opener.all)
    (hs : String.singleton c ∈ opener.separators) {key value : List Char} {k : α}
    (hk : ReadsAs m .expression key k) (hv : ReadsAs m .expression value v) :
    ReadsAs m .container (opener.text.toList ++ key ++ [c] ++ value ++ opener.closer.toList)
      (m.dictionary k v) := by
  intro s hr
  obtain ⟨t, ht, hrt, hst⟩ := hr.run_opener ho
  obtain ⟨u, hu, hhu, -⟩ := hk t hrt
  rw [hst] at hhu
  obtain ⟨w, o, hw, hrw, rfl, hsw⟩ := hhu.separate ho hs
  obtain ⟨x, hx, hhx, -⟩ := hv w hrw
  rw [hsw] at hhx
  obtain ⟨y, hy, hhy, hry⟩ := hhx.closeDictionary ho
  refine ⟨y, ?_, hhy, fun _ => hry⟩
  rw [List.append_assoc, List.append_assoc, List.append_assoc, run_append_of_eq ht,
    run_append_of_eq hu, run_append_of_eq hw, run_append_of_eq hx, hy]

theorem ReadsAs.padded (hm : ∀ v, m.optional v = v) {part : Part}
    {before text after : List Char} (hb : Blanks before) (h : ReadsAs m part text v)
    (ha : Trail after) : ReadsAs m .expression (before ++ text ++ after) v := by
  intro s hr
  obtain ⟨t, ht, hht, -⟩ := h { s with position := s.position + before.length }
    ⟨hr.1, hr.2, hr.3, hr.4⟩
  obtain ⟨u, hu, hhu, -⟩ := hht.trail hm ha
  refine ⟨u, ?_, hhu, fun h => by cases h⟩
  rw [List.append_assoc, run_append_of_eq (run_blanks hb), run_append_of_eq ht, hu]

/-- **A derivation is read as its value.** -/
theorem readsAs_of_derives (hm : ∀ v, m.optional v = v) {part : Part} {text : List Char}
    (h : Derives m part text v) : ReadsAs m part text v := by
  induction h with
  | leaf h =>
    intro s hr
    obtain ⟨t, ht, hp, hd, hs⟩ := hr.run_leaf (isLeaf_iff.mp h)
    exact ⟨t, ht, hs ▸ hp.holds hm hd, fun h => by cases h⟩
  | array h ih =>
    have ho : Opener.array ∈ Opener.all := by decide
    exact .sequence ho rfl ih
  | set h ih =>
    have ho : Opener.set ∈ Opener.all := by decide
    exact .sequence ho rfl ih
  | bracket h ih =>
    have ho : Opener.bracket ∈ Opener.all := by decide
    exact .sequence ho rfl ih
  | bracketPair hk hv ihk ihv =>
    have ho : Opener.bracket ∈ Opener.all := by decide
    have hs : String.singleton ':' ∈ Opener.bracket.separators := by decide
    exact .dictionary ho hs ihk ihv
  | dictionary hs hk hv ihk ihv =>
    have ho : Opener.dictionary ∈ Opener.all := by decide
    refine .dictionary ho ?_ ihk ihv
    rcases hs with rfl | rfl <;> decide
  | padded hp hb h ha ih => exact ih.padded hm hb ha

end Scan

/-! ## Scans and derivations -/

theorem scan_eq_ok_iff {text : String} {v : α} {stack : List (Frame α)} :
    scan m text = .ok (v, stack) ↔
      ∃ s, Scan.run m {} text.toList = .ok s ∧ s.conclude m = .ok v ∧ s.stack = stack := by
  unfold scan
  cases hs : Scan.run m {} text.toList with
  | error fault => simp [bind, Except.bind]
  | ok s => cases hv : s.conclude m <;> simp [bind, Except.bind, pure, Except.pure, hv]

/-- A text is read as a value exactly when the grammar derives it. -/
theorem scan_eq_ok_iff_derives (hm : ∀ v, m.optional v = v) {text : String} {v : α} :
    (∃ stack, scan m text = .ok (v, stack)) ↔ Derives m .expression text.toList v := by
  constructor
  · rintro ⟨stack, h⟩
    obtain ⟨s, hs, hv, -⟩ := scan_eq_ok_iff.mp h
    obtain ⟨hd, span, ho, hb⟩ := Scan.conclude_eq_ok_iff.mp hv
    obtain ⟨done, body, ht, hst, hbody, -, -, -⟩ := (Scan.accounts_of_run hm hs).operand hm hd ho
    rw [hb] at hst
    cases hst
    rw [ht, List.nil_append]
    exact hbody
  · intro h
    obtain ⟨s, hs, hh, -⟩ := Scan.readsAs_of_derives hm h {} ⟨rfl, rfl, rfl, rfl⟩
    obtain ⟨span, ho⟩ := hh.operand
    have hv : s.conclude m = .ok v := Scan.conclude_eq_ok_iff.mpr ⟨hh.depth, span, ho, hh.below⟩
    exact ⟨s.stack, scan_eq_ok_iff.mpr ⟨s, hs, hv, rfl⟩⟩

theorem resolve_outcome_eq_ok_iff {classify : Classifier} {text : String} {c : Capability} :
    (resolve classify text).outcome = .ok c ↔
      ∃ stack, scan (capabilityMeaning classify) text = .ok (c, stack) := by
  unfold resolve
  cases hs : scan (capabilityMeaning classify) text with
  | error fault => simp
  | ok result => obtain ⟨d, stack⟩ := result; simp [eq_comm]

theorem resolve_outcome_eq_ok_iff_derives {classify : Classifier} {text : String}
    {c : Capability} :
    (resolve classify text).outcome = .ok c ↔
      Derives (capabilityMeaning classify) .expression text.toList c :=
  resolve_outcome_eq_ok_iff.trans (scan_eq_ok_iff_derives fun _ => rfl)

/-- **The language of the scan.** A text resolves to a capability exactly when the grammar derives
the capability for it, and it derives no other. -/
theorem resolve_eq_ok_iff_derives (classify : Classifier) (text : String) :
    (∀ c, (resolve classify text).outcome = .ok c ↔
      Derives (capabilityMeaning classify) .expression text.toList c) ∧
    ∀ c d, Derives (capabilityMeaning classify) .expression text.toList c →
      Derives (capabilityMeaning classify) .expression text.toList d → c = d := by
  refine ⟨fun c => resolve_outcome_eq_ok_iff_derives, fun c d hc hd => ?_⟩
  rw [← resolve_outcome_eq_ok_iff_derives] at hc hd
  exact Except.ok.inj (hc.symm.trans hd)

/-- Only one capability is derived for a container within a key, with a leaf that encloses a span. -/
theorem derives_only_equatable :
    Derives (capabilityMeaning fun _ => .comparable) .expression
        "[Set<A?>: Foo<B, [C]> ]".toList .equatable ∧
      ∀ c, Derives (capabilityMeaning fun _ => .comparable) .expression
        "[Set<A?>: Foo<B, [C]> ]".toList c → c = .equatable := by
  have h := resolve_eq_ok_iff_derives (fun _ => .comparable) "[Set<A?>: Foo<B, [C]> ]"
  have hd := (h.1 .equatable).mp rfl
  exact ⟨hd, fun c hc => h.2 c .equatable hc hd⟩

end Comparability.TypeExpr
