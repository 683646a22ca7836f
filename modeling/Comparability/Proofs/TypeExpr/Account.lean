import Comparability.Proofs.TypeExpr.Grammar

/-!
# The text behind the state of a scan

A state accounts for the text that was read: the text is the pieces from which the frames of the
stack were read, then blanks, then the pending leaf, and every span says where its piece stands.

* `Stacked m text stack` : the frames were read from the text, a container's opener from the
  characters that its span covers, an operand from a derivation of its value;
* `Ready`, `Pending raw` : no leaf is pending, or one that was read from the characters `raw`;
* `Accounts m text` : the state accounts for the text.

`Accounts.read` is the step and `accounts_of_run` the run. Optional marks are left out of the
grammar's values, so the meaning must not change what it marks.
-/

namespace Comparability.TypeExpr

open Text (Span isBlank)

variable {α : Type}

/-! ## Stacks -/

@[simp] theorem OpenContainer.closer_separated (frame : OpenContainer) :
    frame.separated.closer = frame.closer := by
  unfold separated asDictionary
  split_ifs <;> rfl

@[simp] theorem OpenContainer.span_separated (frame : OpenContainer) :
    frame.separated.span = frame.span := by
  unfold separated asDictionary
  split_ifs <;> rfl

/-- The stack, its latest frame first, was read from the text. -/
inductive Stacked (m : Meaning α) : List Char → List (Frame α) → Prop
  | nil : Stacked m [] []
  | opened {done blanks : List Char} {opener : Opener} {span : Span} {rest : List (Frame α)}
      (h : Stacked m done rest) (hb : Blanks blanks) (ho : opener ∈ Opener.all)
      (hs : span.start = (done ++ blanks).length)
      (he : span.stop = (done ++ blanks ++ opener.text.toList).length) :
      Stacked m (done ++ blanks ++ opener.text.toList) (.opened (.ofOpener opener span) :: rest)
  | operand {done blanks text after : List Char} {o : Operand α} {rest : List (Frame α)}
      (h : Stacked m done rest) (hb : Blanks blanks) (ho : Derives m .container text o.value)
      (ha : Trail after) (hs : o.span.start = (done ++ blanks).length)
      (he : o.span.stop = (done ++ blanks ++ text ++ after).length) :
      Stacked m (done ++ blanks ++ text ++ after) (.operand o :: rest)
  | key {done text : List Char} {separator : Char} {k : Operand α} {frame : OpenContainer}
      {rest : List (Frame α)} (h : Stacked m done (.opened frame :: rest))
      (hk : Derives m .expression text k.value)
      (ha : frame.accepts (String.singleton separator) = true) (hs : done.length ≤ k.span.start)
      (hl : k.span.start < k.span.stop) (he : k.span.stop ≤ (done ++ text).length) :
      Stacked m (done ++ text ++ [separator]) (.key k :: .opened frame.separated :: rest)

theorem Stacked.close {m : Meaning α} {done inner : List Char} {frame : OpenContainer}
    {rest : List (Frame α)} (h : Stacked m done (.opened frame :: rest)) {c : Char}
    (hf : frame.closer = String.singleton c) {v : α}
    (hv : ∀ opener ∈ Opener.all, ∀ span, frame = .ofOpener opener span →
      Derives m .container (opener.text.toList ++ inner ++ opener.closer.toList) v)
    {position : Nat} (hp : position = (done ++ inner).length) :
    Stacked m (done ++ inner ++ [c])
      (.operand ⟨v, frame.span.cover (.ofLength position 1)⟩ :: rest) := by
  cases h with
  | @opened done blanks opener span rest h hb ho hs he =>
    have hc : opener.closer.toList = [c] := by
      rw [show opener.closer = String.singleton c from hf, String.toList_singleton]
    have hd := hv opener ho span rfl
    rw [hc] at hd
    rw [show done ++ blanks ++ opener.text.toList ++ inner ++ [c]
      = done ++ blanks ++ (opener.text.toList ++ inner ++ [c]) ++ [] by simp]
    refine .operand h hb hd Blanks.nil.trail ?_ ?_
    all_goals
      simp only [OpenContainer.ofOpener, Span.start_cover, Span.stop_cover, Span.start_ofLength,
        Span.stop_ofLength, List.length_append, List.length_singleton, List.length_nil]
        at hs he hp ⊢
      omega

/-! ## States -/

namespace Scan

/-- A type may begin: no leaf is pending, and nothing of one is left. -/
structure Ready (s : Scan α) : Prop where
  leaf : s.leaf = ""
  depth : s.depth = 0
  marked : s.marked = false
  atTypeStart : s.atTypeStart = true

/-- The pending leaf was read from the last characters, which are `raw`. -/
structure Pending (s : Scan α) (raw : List Char) : Prop where
  leafPrefix : LeafPrefix s.depth raw
  leaf : s.leaf = leafText raw
  atTypeStart : s.atTypeStart = false
  start_add : s.leafSpan.start + raw.length = s.position
  start_lt : s.leafSpan.start < s.leafSpan.stop
  stop_le : s.leafSpan.stop ≤ s.position

/-- The state accounts for the text read so far. -/
structure Accounts (m : Meaning α) (s : Scan α) (text : List Char) : Prop where
  position : s.position = text.length
  pieces : ∃ done blanks raw, text = done ++ blanks ++ raw ∧ Stacked m done s.stack ∧
    Blanks blanks ∧ (raw = [] ∧ s.Ready ∨ s.Pending raw)

variable {m : Meaning α} {s : Scan α} {c : Char} {raw : List Char}

theorem Pending.leaf_ne (h : s.Pending raw) : s.leaf ≠ "" := by
  rw [h.leaf]
  exact h.leafPrefix.leafText_ne_empty

theorem Ready.startType {stack : List (Frame α)} (hd : s.depth = 0) :
    (s.next (s.startType stack)).Ready :=
  ⟨rfl, hd, rfl, rfl⟩

theorem Ready.next {u : Scan α} (h : u.Ready) (s : Scan α) : (s.next u).Ready :=
  ⟨h.leaf, h.depth, h.marked, h.atTypeStart⟩

theorem Ready.withStack (h : s.Ready) (stack : List (Frame α)) :
    ({ s with stack } : Scan α).Ready :=
  ⟨h.leaf, h.depth, h.marked, h.atTypeStart⟩

/-! ## The pending leaf -/

theorem last_of_mem_keywords (h : raw ++ [c] ∈ keywords) : c = '<' := by
  have hl : (raw ++ [c]).getLast? = some '<' := by
    rcases mem_keywords.mp h with h | h | h <;> rw [h] <;> rfl
  simpa using hl

/-- Blanks and marks are read into the pending leaf without a trace in its text. -/
theorem Pending.snoc_trail (h : s.Pending raw) (hc : isBlank c = true ∨ c = '?') (marked : Bool) :
    (s.next { s with marked := marked }).Pending (raw ++ [c]) := by
  have hk : raw ++ [c] ∉ keywords := by
    intro hk
    obtain rfl := last_of_mem_keywords hk
    exact absurd hc (by decide)
  refine ⟨h.leafPrefix.snoc (nest_blank hc _) hk, ?_, h.atTypeStart, ?_, h.start_lt, ?_⟩
  · rw [leafText_snoc_of_trail raw hc]
    exact h.leaf
  · have := h.start_add
    simp only [List.length_append, List.length_singleton]
    omega
  · have := h.stop_le
    show s.leafSpan.stop ≤ s.position + 1
    omega

/-- The keyword that a `<` ends is all of the pending leaf, written without a gap. -/
theorem Pending.keyword?_eq_some (h : s.Pending raw) {opener : Opener}
    (hk : s.keyword? = some opener) :
    opener ∈ Opener.all ∧ opener.text.toList = raw ++ ['<'] := by
  unfold keyword? at hk
  split_ifs at hk with hp
  have ht : opener.text = s.leaf.push '<' := by simpa using List.find?_some hk
  refine ⟨List.mem_of_find?_eq_some hk, ?_⟩
  have hl : (raw.filter fun c => !isBlank c && c != '?').length = raw.length := by
    have hlen : s.leaf.length = (raw.filter fun c => !isBlank c && c != '?').length := by
      rw [h.leaf, ← String.length_toList]
      simp [leafText]
    have := h.start_add
    omega
  rw [ht, String.toList_push, h.leaf, leafText, String.toList_ofList,
    List.filter_eq_self.mpr (List.length_filter_eq_length_iff.mp hl)]

theorem keyword_spelling {k : List Char} (hk : k ∈ keywords) :
    leafText k.dropLast = String.ofList k.dropLast ∧
      k.dropLast.tail.foldlM nest 0 = some 0 ∧
        ∃ opener ∈ Opener.all, opener.text = String.ofList k := by
  rcases mem_keywords.mp hk with rfl | rfl | rfl
  · exact ⟨rfl, rfl, .array, by decide, rfl⟩
  · exact ⟨rfl, rfl, .set, by decide, rfl⟩
  · exact ⟨rfl, rfl, .dictionary, by decide, rfl⟩

theorem Pending.keyword?_of_mem (h : s.Pending raw) (hk : raw ++ ['<'] ∈ keywords) :
    s.depth = 0 ∧ s.keyword? ≠ none := by
  obtain ⟨ht, hn, opener, ho, hot⟩ := keyword_spelling hk
  rw [List.dropLast_concat] at ht hn
  constructor
  · obtain ⟨c, cs, rfl, -, hd⟩ := h.leafPrefix.starts
    exact Option.some.inj (hd.symm.trans hn)
  · have hleaf : s.leaf = String.ofList raw := h.leaf.trans ht
    have hp : s.leafSpan.start + s.leaf.length = s.position := by
      rw [hleaf, String.length_ofList]
      exact h.start_add
    have ho' : opener.text = s.leaf.push '<' := by
      rw [hot, hleaf]
      apply String.toList_injective
      simp
    rw [keyword?, if_pos hp]
    intro hnone
    exact List.find?_eq_none.mp hnone opener ho (by simpa using ho')

/-- Other characters are read into the pending leaf, unless they end a keyword. -/
theorem Pending.snoc (h : s.Pending raw) {depth : Nat} (hb : isBlank c = false) (hq : c ≠ '?')
    (hn : nest s.depth c = some depth)
    (ha : s.depth = 0 → c = '<' → s.leaf ≠ "" ∧ s.keyword? = none) :
    (s.next { s.extendLeaf c with depth := depth }).Pending (raw ++ [c]) := by
  have hk : raw ++ [c] ∉ keywords := by
    intro hk
    obtain rfl := last_of_mem_keywords hk
    obtain ⟨hd, hne⟩ := h.keyword?_of_mem hk
    exact hne (ha hd rfl).2
  have hadd := h.start_add
  have hlt := h.start_lt
  have hle := h.stop_le
  have hspan : (s.extendLeaf c).leafSpan = s.leafSpan.cover s.here := if_neg h.leaf_ne
  refine ⟨h.leafPrefix.snoc hn hk, ?_, rfl, ?_, ?_, ?_⟩
  · rw [leafText_snoc raw hb hq, ← h.leaf]
    rfl
  all_goals
    simp only [hspan, here, Span.start_cover, Span.stop_cover, Span.start_ofLength,
      Span.stop_ofLength, List.length_append, List.length_singleton]
    omega

theorem Ready.startsLeaf (h : s.Ready) {depth : Nat} (hb : isBlank c = false) (hq : c ≠ '?')
    (hn : nest s.depth c = some depth)
    (ha : s.depth = 0 → c = '<' → s.leaf ≠ "" ∧ s.keyword? = none) :
    StartsLeaf c ∧ depth = 0 := by
  have hl : c ≠ '<' := fun hl => (ha h.depth hl).1 h.leaf
  unfold nest at hn
  rw [if_neg hl, if_pos h.depth] at hn
  split_ifs at hn with hm
  refine ⟨⟨hb, ?_⟩, (Option.some.inj hn).symm⟩
  simp only [List.mem_cons, not_or] at hm ⊢
  exact ⟨hq, hl, hm⟩

theorem Ready.extend (h : s.Ready) (hc : StartsLeaf c) :
    (s.next { s.extendLeaf c with depth := 0 }).Pending [c] := by
  have hspan : (s.extendLeaf c).leafSpan = s.here := if_pos h.leaf
  refine ⟨.singleton hc, ?_, rfl, ?_, ?_, ?_⟩
  · show s.leaf.push c = leafText [c]
    rw [leafText_cons hc, h.leaf]
    rfl
  all_goals simp [hspan, here]

/-! ## What has been read -/

variable {text : List Char}

/-- The operand that a closer or a separator takes was read from a derivation, after the text of
the stack that it leaves: it is the pending leaf with the blanks before it, or the operand on top of
the stack with the blanks after it. -/
theorem Accounts.operand (hm : ∀ v, m.optional v = v) (h : s.Accounts m text) (hd : s.depth = 0)
    {o : Operand α} (ho : s.operand? m = some o) :
    ∃ done body, text = done ++ body ∧ Stacked m done s.below ∧
      Derives m .expression body o.value ∧ done.length ≤ o.span.start ∧
      o.span.start < o.span.stop ∧ o.span.stop ≤ text.length := by
  obtain ⟨hp, done, blanks, raw, rfl, hs, hb, hr⟩ := h
  rcases operand?_eq_some_iff.mp ho with ⟨hl, rfl, hbelow⟩ | ⟨hl, hstack⟩
  · rcases hr with ⟨-, hr⟩ | hr
    · exact absurd hr.leaf hl
    have hleaf : Derives m .leaf raw (s.leafOperand m).value := by
      have hv : (s.leafOperand m).value = m.leaf (leafText raw) := by
        simp only [leafOperand, hm, ite_self, hr.leaf]
      rw [hv]
      exact .leaf (isLeaf_iff.mpr (hd ▸ hr.leafPrefix))
    have hstart : s.leafSpan.start = (done ++ blanks).length := by
      have := hr.start_add
      simp only [List.length_append] at hp ⊢
      omega
    refine ⟨done, blanks ++ raw ++ [], by simp, hbelow ▸ hs,
      .padded (.inr rfl) hb hleaf Blanks.nil.trail, ?_, hr.start_lt, hp ▸ hr.stop_le⟩
    rw [leafOperand, hstart, List.length_append]
    omega
  · rcases hr with ⟨rfl, -⟩ | hr
    swap
    · exact absurd hl hr.leaf_ne
    rw [hstack] at hs
    cases hs with
    | @operand done before inner after _ _ h hbefore ho ha hstart hstop =>
      have hne := List.length_pos_iff.mpr ho.ne_nil_of_container
      refine ⟨done, before ++ inner ++ (after ++ blanks), by simp, h,
        .padded (.inl rfl) hbefore ho (ha.append hb.trail), ?_, ?_, ?_⟩
      all_goals
        simp only [List.length_append, List.length_nil] at hstart hstop ⊢
        omega

theorem Accounts.of_ready (h : s.Accounts m text) (hl : s.leaf = "") :
    s.Ready ∧ ∃ done blanks, text = done ++ blanks ∧ Stacked m done s.stack ∧ Blanks blanks := by
  obtain ⟨-, done, blanks, raw, rfl, hs, hb, ⟨rfl, hr⟩ | hr⟩ := h
  · exact ⟨hr, done, blanks, by simp, hs, hb⟩
  · exact absurd hl hr.leaf_ne

theorem Accounts.of_pending (h : s.Accounts m text) (hl : s.leaf ≠ "") :
    ∃ done blanks raw, text = done ++ blanks ++ raw ∧ Stacked m done s.stack ∧ Blanks blanks ∧
      s.Pending raw := by
  obtain ⟨-, done, blanks, raw, rfl, hs, hb, ⟨-, hr⟩ | hr⟩ := h
  · exact absurd hr.leaf hl
  · exact ⟨done, blanks, raw, rfl, hs, hb, hr⟩

theorem Accounts.ready_of_atTypeStart (h : s.Accounts m text) (ht : s.atTypeStart = true) :
    s.Ready := by
  obtain ⟨-, _, _, _, -, -, -, ⟨-, hr⟩ | hr⟩ := h
  · exact hr
  · rw [hr.atTypeStart] at ht
    cases ht

theorem Accounts.startType (h : s.Accounts m text) (hd : s.depth = 0) {stack : List (Frame α)}
    (hs : Stacked m (text ++ [c]) stack) : (s.next (s.startType stack)).Accounts m (text ++ [c]) := by
  refine ⟨?_, text ++ [c], [], [], by simp, hs, .nil, .inl ⟨rfl, .startType hd⟩⟩
  rw [List.length_append, List.length_singleton, ← h.position]

theorem Accounts.openKeyword (h : s.Accounts m text) (hd : s.depth = 0) (hl : s.leaf ≠ "")
    {opener : Opener} (hk : s.keyword? = some opener) :
    (s.next (s.openContainer opener s.leafSpan)).Accounts m (text ++ ['<']) := by
  apply h.startType hd
  have hp := h.position
  obtain ⟨done, blanks, raw, rfl, hs, hb, hr⟩ := h.of_pending hl
  obtain ⟨ho, ht⟩ := hr.keyword?_eq_some hk
  have hstart := hr.start_add
  have hle := hr.stop_le
  rw [show done ++ blanks ++ raw ++ ['<'] = done ++ blanks ++ opener.text.toList by
    rw [ht, List.append_assoc (done ++ blanks)]]
  refine .opened hs hb ho ?_ ?_
  all_goals
    simp only [here, Span.start_cover, Span.stop_cover, Span.start_ofLength, Span.stop_ofLength,
      ht, List.length_append, List.length_singleton] at hp ⊢
    omega

theorem Accounts.openBracket (h : s.Accounts m text) (ht : s.atTypeStart = true) :
    (s.next (s.openContainer .bracket s.here)).Accounts m (text ++ ['[']) := by
  have hr := h.ready_of_atTypeStart ht
  apply h.startType hr.depth
  have hp := h.position
  obtain ⟨-, done, blanks, rfl, hs, hb⟩ := h.of_ready hr.leaf
  have ho : Opener.bracket ∈ Opener.all := by decide
  refine .opened hs hb ho ?_ ?_
  · simp [here, hp]
  · simp [here, hp, Opener.bracket, Nat.add_assoc]

theorem Accounts.separate (hm : ∀ v, m.optional v = v) (h : s.Accounts m text)
    (hd : s.depth = 0) {o : Operand α} {frame : OpenContainer} {rest : List (Frame α)}
    (ho : s.operand? m = some o) (hs : s.below = .opened frame :: rest)
    (ha : frame.accepts (String.singleton c) = true) :
    (s.next (s.startType (.key o :: .opened frame.separated :: rest))).Accounts m
      (text ++ [c]) := by
  apply h.startType hd
  obtain ⟨done, body, rfl, hst, hbody, hle, hlt, hstop⟩ := h.operand hm hd ho
  rw [hs] at hst
  exact .key hst hbody ha hle hlt hstop

theorem Accounts.closeSequence (hm : ∀ v, m.optional v = v) (h : s.Accounts m text)
    (hd : s.depth = 0) {o : Operand α} {frame : OpenContainer} {rest : List (Frame α)}
    (ho : s.operand? m = some o) (hs : s.below = .opened frame :: rest)
    (hf : frame.closer = String.singleton c) (hq : frame.isSequence = true) :
    (s.next (s.startType
      (.operand ⟨m.sequence o.value, frame.span.cover s.here⟩ :: rest))).Accounts m
        (text ++ [c]) := by
  apply h.startType hd
  have hp := h.position
  obtain ⟨done, body, rfl, hst, hbody, -, -, -⟩ := h.operand hm hd ho
  rw [hs] at hst
  refine hst.close hf (fun opener hopener span he => ?_) hp
  subst he
  exact .of_sequence_opener hopener hq hbody

theorem Accounts.closeDictionary (hm : ∀ v, m.optional v = v) (h : s.Accounts m text)
    (hd : s.depth = 0) {o k : Operand α} {frame : OpenContainer} {rest : List (Frame α)}
    (ho : s.operand? m = some o) (hs : s.below = .key k :: .opened frame :: rest)
    (hf : frame.closer = String.singleton c) :
    (s.next (s.startType
      (.operand ⟨m.dictionary k.value o.value, frame.span.cover s.here⟩ :: rest))).Accounts m
        (text ++ [c]) := by
  apply h.startType hd
  have hp := h.position
  obtain ⟨done, body, rfl, hst, hbody, -, -, -⟩ := h.operand hm hd ho
  rw [hs] at hst
  cases hst with
  | @key done key separator _ opened _ hst hk ha =>
    rw [OpenContainer.closer_separated] at hf
    rw [OpenContainer.span_separated]
    rw [show done ++ key ++ [separator] ++ body = done ++ (key ++ [separator] ++ body) by simp]
      at hp ⊢
    refine hst.close hf (fun opener hopener span he => ?_) hp
    subst he
    have hsep : String.singleton separator ∈ opener.separators := by
      simpa [OpenContainer.accepts, OpenContainer.ofOpener] using ha
    simpa using Derives.of_dictionary_opener hopener hsep hk hbody

/-- A state that accounts for its text goes on to account for the next character. -/
theorem Accounts.read (hm : ∀ v, m.optional v = v) (h : s.Accounts m text) {u : Scan α}
    (hu : s.Reads m c u) : (s.next u).Accounts m (text ++ [c]) := by
  have hpos : s.position + 1 = (text ++ [c]).length := by
    rw [List.length_append, List.length_singleton, ← h.position]
  cases hu with
  | skip hc =>
    refine ⟨hpos, ?_⟩
    obtain ⟨done, blanks, raw, rfl, hs, hb, ⟨rfl, hr⟩ | hr⟩ := h.pieces
    · have hc : isBlank c = true := hc.resolve_right fun hq => hq.2 hr.depth
      exact ⟨done, blanks ++ [c], [], by simp, hs, hb.append (.singleton hc),
        .inl ⟨rfl, hr.next s⟩⟩
    · exact ⟨done, blanks, raw ++ [c], by simp, hs, hb,
        .inr (hr.snoc_trail (hc.imp_right And.left) s.marked)⟩
  | extend hb' hq hn ha =>
    refine ⟨hpos, ?_⟩
    obtain ⟨done, blanks, raw, rfl, hs, hb, ⟨rfl, hr⟩ | hr⟩ := h.pieces
    · obtain ⟨hc, rfl⟩ := hr.startsLeaf hb' hq hn ha
      exact ⟨done, blanks, [c], by simp, hs, hb, .inr (hr.extend hc)⟩
    · exact ⟨done, blanks, raw ++ [c], by simp, hs, hb, .inr (hr.snoc hb' hq hn ha)⟩
  | openKeyword hd hl hk => exact h.openKeyword hd hl hk
  | openBracket hd ht => exact h.openBracket ht
  | separate hd hc ho hs ha => exact h.separate hm hd ho hs ha
  | closeSequence hd hc ho hs hf hq => exact h.closeSequence hm hd ho hs hf hq
  | closeDictionary hd hc ho hs hf => exact h.closeDictionary hm hd ho hs hf
  | @markOperand o rest hd hl hs =>
    refine ⟨hpos, ?_⟩
    have hp := h.position
    obtain ⟨hr, done, blanks, rfl, hst, hb⟩ := h.of_ready hl
    rw [hs] at hst
    cases hst with
    | @operand done before inner after _ _ hst hbefore ho ha hstart hstop =>
      refine ⟨done ++ before ++ inner ++ (after ++ blanks ++ ['?']), [], [], by simp,
        .operand hst hbefore ?_ ((ha.append hb.trail).append (.singleton (.inr rfl))) ?_ ?_, .nil,
        .inl ⟨rfl, (hr.withStack _).next s⟩⟩
      · rw [hm]
        exact ho
      all_goals
        simp only [here, Span.start_cover, Span.stop_cover, Span.start_ofLength,
          Span.stop_ofLength, List.length_append, List.length_cons, List.length_nil]
          at hstart hstop hp ⊢
        omega
  | markLeaf hd hl =>
    refine ⟨hpos, ?_⟩
    obtain ⟨done, blanks, raw, rfl, hs, hb, hr⟩ := h.of_pending hl
    exact ⟨done, blanks, raw ++ ['?'], by simp, hs, hb, .inr (hr.snoc_trail (.inr rfl) true)⟩

theorem accounts_start : ({} : Scan α).Accounts m [] :=
  ⟨rfl, [], [], [], rfl, .nil, .nil, .inl ⟨rfl, rfl, rfl, rfl, rfl⟩⟩

/-- Every state that a scan reaches accounts for the text that it read. -/
theorem accounts_of_run (hm : ∀ v, m.optional v = v) {t : Scan α} (h : run m {} text = .ok t) :
    t.Accounts m text :=
  run_induction (P := fun text s => s.Accounts m text) (fun hs hu => hs.read hm hu)
    accounts_start h

end Scan

end Comparability.TypeExpr
