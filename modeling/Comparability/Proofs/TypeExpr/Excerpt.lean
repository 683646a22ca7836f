import Comparability.Proofs.TypeExpr.Failing
import Comparability.Proofs.TypeExpr.Invariant
import Comparability.Proofs.TypeExpr.Opening

/-!
# The text that an error points at

* `Cuts text span before excerpt after` : the span cuts the text into three parts;
* `Reason.Fits` : what the parts are like when the excerpt is given for a reason;
* `Points text fault` : the span of the fault cuts the text into parts that fit its reason.

`Fails.points` and `FailsAtEnd.points` go through the faults one by one. Where a span was stored
many characters before, in a frame or with the pending leaf, `Accounts` says what stands between it
and the position; `malformed_excerpt` puts them together for `resolve`.
-/

namespace Comparability.TypeExpr

open Text (Span isBlank)

variable {α : Type} {m : Meaning α}

/-! ## What an excerpt is like -/

def EndsContainer (text : List Char) : Prop :=
  ∃ before c blanks, text = before ++ [c] ++ blanks ∧ (c ∈ closers ∨ c = '?') ∧ Blanks blanks

def StartsType (text : List Char) : Prop :=
  ∃ c rest, text = c :: rest ∧ isBlank c = false

def IsOneOf (cs text : List Char) : Prop :=
  ∃ c ∈ cs, text = [c]

/-- What an excerpt is like that is given for the reason, with what stands before and after it. A
separator is missing at another separator, or at the second of two types in a row. -/
def Reason.Fits (before excerpt after : List Char) : Reason → Prop
  | .emptyExpression => before = [] ∧ Blanks excerpt ∧ after = []
  | .unexpectedCharacter => IsOneOf ['[', '<'] excerpt
  | .separatorWithoutType | .separatorNotAllowed | .extraSeparator => IsOneOf separators excerpt
  | .unbalancedCloser | .missingDictionaryValue => IsOneOf closers excerpt
  | .optionalWithoutType => IsOneOf ['?'] excerpt
  | .emptyContainer => ∃ opener ∈ Opener.all, ∃ blanks c,
      excerpt = opener.text.toList ++ blanks ++ [c] ∧ Blanks blanks ∧ c ∈ closers
  | .mismatchedCloser => ∃ opener ∈ Opener.all, ∃ inner c,
      excerpt = opener.text.toList ++ inner ++ [c] ∧ c ∈ closers ∧
        opener.closer ≠ String.singleton c
  | .unclosedContainer => (∃ opener ∈ Opener.all, opener.text.toList <+: excerpt) ∧ after = []
  | .unbalancedGeneric => excerpt.count '>' < excerpt.count '<' ∧ after = []
  | .trailingText => EndsContainer before ∧ StartsType excerpt ∧ Trail after
  | .missingSeparator => IsOneOf separators excerpt ∨ EndsContainer before ∧ StartsType excerpt

theorem IsOneOf.ne_nil {cs text : List Char} (h : IsOneOf cs text) : text ≠ [] := by
  obtain ⟨c, -, rfl⟩ := h
  exact List.cons_ne_nil c []

theorem StartsType.ne_nil {text : List Char} (h : StartsType text) : text ≠ [] := by
  obtain ⟨c, rest, rfl, -⟩ := h
  exact List.cons_ne_nil c rest

/-- Only the excerpt of an empty expression can be empty. -/
theorem Reason.Fits.ne_nil {reason : Reason} {before excerpt after : List Char}
    (h : reason.Fits before excerpt after) (hr : reason ≠ .emptyExpression) : excerpt ≠ [] := by
  cases reason with
  | emptyExpression => exact absurd rfl hr
  | unexpectedCharacter => exact IsOneOf.ne_nil h
  | separatorWithoutType => exact IsOneOf.ne_nil h
  | separatorNotAllowed => exact IsOneOf.ne_nil h
  | extraSeparator => exact IsOneOf.ne_nil h
  | unbalancedCloser => exact IsOneOf.ne_nil h
  | missingDictionaryValue => exact IsOneOf.ne_nil h
  | optionalWithoutType => exact IsOneOf.ne_nil h
  | emptyContainer =>
    obtain ⟨_, -, _, _, rfl, -, -⟩ := h
    simp
  | mismatchedCloser =>
    obtain ⟨_, -, _, _, rfl, -, -⟩ := h
    simp
  | unclosedContainer =>
    obtain ⟨⟨opener, ho, hp⟩, -⟩ := h
    exact List.ne_nil_of_length_pos (Nat.lt_of_lt_of_le (text_ne_of_opener opener ho) hp.length_le)
  | unbalancedGeneric =>
    rintro rfl
    exact absurd h.1 (by simp)
  | trailingText => exact h.2.1.ne_nil
  | missingSeparator => exact h.elim IsOneOf.ne_nil fun h => h.2.ne_nil

theorem Reason.Fits.excerpt_ne_nil {reason : Reason} {before excerpt after : List Char}
    (h : reason.Fits before excerpt after) (hne : before ++ excerpt ++ after ≠ []) :
    excerpt ≠ [] := by
  by_cases hr : reason = .emptyExpression
  · subst hr
    obtain ⟨rfl, -, rfl⟩ := h
    simpa using hne
  · exact h.ne_nil hr

/-- The span cuts the text into what stands before it, what it covers and what stands after it. -/
structure Cuts (text : List Char) (span : Span) (before excerpt after : List Char) : Prop where
  text : text = before ++ excerpt ++ after
  start : span.start = before.length
  stop : span.stop = (before ++ excerpt).length

/-- The fault's span cuts the text into parts that fit its reason. -/
def Points (text : List Char) (f : Fault) : Prop :=
  ∃ before excerpt after, Cuts text f.span before excerpt after ∧
    f.reason.Fits before excerpt after

section Cutting

variable {text before excerpt after : List Char} {span : Span}

theorem Cuts.append (h : Cuts text span before excerpt after) (more : List Char) :
    Cuts (text ++ more) span before excerpt (after ++ more) :=
  ⟨by rw [h.text, List.append_assoc], h.start, h.stop⟩

theorem Cuts.within (h : Cuts text span before excerpt after) (front back : List Char) :
    Cuts (front ++ text ++ back) (span.shift front.length) (front ++ before) excerpt
      (after ++ back) where
  text := by simp [h.text]
  start := by rw [Span.start_shift, h.start, List.length_append, Nat.add_comm]
  stop := by
    rw [Span.stop_shift, h.stop, List.append_assoc, @List.length_append _ front, Nat.add_comm]

theorem Cuts.before_eq (h : Cuts text span before excerpt after) :
    before = text.take span.start := by
  rw [h.start, h.text, List.append_assoc, List.take_left]

theorem Cuts.after_eq (h : Cuts text span before excerpt after) : after = text.drop span.stop := by
  rw [h.stop, h.text, List.drop_left]

theorem Cuts.stop_le (h : Cuts text span before excerpt after) : span.stop ≤ text.length := by
  rw [h.stop, h.text]
  exact (List.prefix_append _ _).length_le

theorem Cuts.length_excerpt (h : Cuts text span before excerpt after) :
    excerpt.length = span.stop - span.start := by
  rw [h.start, h.stop, List.length_append, Nat.add_sub_cancel_left]

theorem Cuts.excerpt_eq (h : Cuts text span before excerpt after) :
    excerpt = (text.drop span.start).take span.length := by
  rw [Span.length, ← h.length_excerpt, h.start, h.text, List.append_assoc, List.drop_left,
    List.take_left]

/-- A span that was stored earlier, up to the position or the character there. -/
theorem Cuts.cover {position length : Nat} (ht : text = before ++ excerpt ++ after)
    (hs : span.start = before.length) (hle : span.stop ≤ position)
    (he : position + length = (before ++ excerpt).length) :
    Cuts text (span.cover (.ofLength position length)) before excerpt after := by
  have := span.start_le_stop
  refine ⟨ht, ?_, ?_⟩
  · rw [Span.start_cover, Span.start_ofLength]
    omega
  · rw [Span.stop_cover, Span.stop_ofLength]
    omega

end Cutting

/-! ## Types that follow a container -/

theorem EndsContainer.append_trail {text after : List Char} (h : EndsContainer text)
    (ha : Trail after) : EndsContainer (text ++ after) := by
  induction after generalizing text with
  | nil => simpa using h
  | cons c cs ih =>
    rw [List.append_cons]
    refine ih ?_ fun d hd => ha d (List.mem_cons_of_mem c hd)
    rcases ha c List.mem_cons_self with hc | hc
    · obtain ⟨before, d, blanks, rfl, hd, hb⟩ := h
      exact ⟨before, d, blanks ++ [c], by simp, hd, hb.append (.singleton hc)⟩
    · exact ⟨text, c, [], by simp, .inr hc, .nil⟩

theorem Derives.container_ends {text : List Char} {v : α} (h : Derives m .container text v) :
    StartsType text ∧ ∃ before, ∃ c ∈ closers, text = before ++ [c] := by
  cases h with
  | @array inner _ _ => exact ⟨⟨'A', _, rfl, rfl⟩, "Array<".toList ++ inner, '>', by decide, rfl⟩
  | @set inner _ _ => exact ⟨⟨'S', _, rfl, rfl⟩, "Set<".toList ++ inner, '>', by decide, rfl⟩
  | @bracket inner _ _ => exact ⟨⟨'[', _, rfl, rfl⟩, ['['] ++ inner, ']', by decide, rfl⟩
  | @bracketPair key value _ _ _ _ =>
    exact ⟨⟨'[', _, rfl, rfl⟩, ['['] ++ key ++ [':'] ++ value, ']', by decide, rfl⟩
  | @dictionary key value _ _ separator _ _ _ =>
    exact ⟨⟨'D', _, rfl, rfl⟩, "Dictionary<".toList ++ key ++ [separator] ++ value, '>',
      by decide, rfl⟩

def FollowsContainer (text : List Char) (span : Span) : Prop :=
  ∃ before excerpt after, Cuts text span before excerpt after ∧ EndsContainer before ∧
    StartsType excerpt

theorem FollowsContainer.append {text : List Char} {span : Span} (h : FollowsContainer text span)
    (more : List Char) : FollowsContainer (text ++ more) span := by
  obtain ⟨before, excerpt, after, hc, hb, he⟩ := h
  exact ⟨before, excerpt, after ++ more, hc.append more, hb, he⟩

theorem Stacked.endsContainer {text : List Char} {o : Operand α} {rest : List (Frame α)}
    (h : Stacked m text (.operand o :: rest)) : EndsContainer text := by
  cases h with
  | @operand done blanks inner after _ _ _ _ ho ha _ _ =>
    obtain ⟨-, before, c, hc, rfl⟩ := ho.container_ends
    refine EndsContainer.append_trail ?_ ha
    exact ⟨done ++ blanks ++ before, c, [], by simp, .inl hc, .nil⟩

theorem Stacked.of_append {text : List Char} {o : Operand α} {above rest : List (Frame α)}
    (h : Stacked m text (above ++ .operand o :: rest)) :
    ∃ done more, text = done ++ more ∧ Stacked m done (.operand o :: rest) := by
  generalize hs : above ++ .operand o :: rest = stack at h
  induction h generalizing above with
  | nil => simp at hs
  | @opened done blanks opener _ _ _ _ _ _ _ ih =>
    cases above with
    | nil => cases hs
    | cons f above =>
      obtain ⟨d, more, rfl, hd⟩ := ih (List.cons.inj hs).2
      exact ⟨d, more ++ blanks ++ opener.text.toList, by simp, hd⟩
  | @operand done blanks text after _ _ h hb ho ha hstart hstop ih =>
    cases above with
    | nil =>
      obtain ⟨he, rfl⟩ := List.cons.inj hs
      obtain rfl := Frame.operand.inj he
      exact ⟨_, [], (List.append_nil _).symm, .operand h hb ho ha hstart hstop⟩
    | cons f above =>
      obtain ⟨d, more, rfl, hd⟩ := ih (List.cons.inj hs).2
      exact ⟨d, more ++ blanks ++ text ++ after, by simp, hd⟩
  | @key done text separator _ frame _ _ _ _ _ _ _ ih =>
    match above with
    | [] => cases hs
    | [_] => cases (List.cons.inj (List.cons.inj hs).2).1
    | _ :: _ :: above =>
      have hr := (List.cons.inj (List.cons.inj hs).2).2
      obtain ⟨d, more, rfl, hd⟩ := @ih (.opened frame :: above) (by rw [← hr]; rfl)
      exact ⟨d, more ++ text ++ [separator], by simp, hd⟩

theorem Stacked.followsContainer {text : List Char} {o p : Operand α} {rest : List (Frame α)}
    (h : Stacked m text (.operand o :: .operand p :: rest)) : FollowsContainer text o.span := by
  cases h with
  | @operand done blanks inner after _ _ h hb ho ha hs he =>
    obtain ⟨⟨c, cs, rfl, hc⟩, -⟩ := ho.container_ends
    refine ⟨done ++ blanks, c :: cs ++ after, [], ⟨by simp, hs, by simpa using he⟩, ?_, ?_⟩
    · exact h.endsContainer.append_trail hb.trail
    · exact ⟨c, cs ++ after, rfl, hc⟩

namespace Scan

variable {s t : Scan α} {c : Char} {f : Fault} {text done : List Char}

theorem Accounts.cuts_leaf (h : s.Accounts m text) (hl : s.leaf ≠ "") :
    ∃ before excerpt after, Cuts text s.leafSpan before excerpt after ∧ StartsType excerpt ∧
      ∃ done blanks, before = done ++ blanks ∧ Stacked m done s.stack ∧ Blanks blanks := by
  have hp := h.position
  obtain ⟨done, blanks, raw, rfl, hs, hb, hr⟩ := h.of_pending hl
  have hadd := hr.start_add
  have hlt := hr.start_lt
  have hle := hr.stop_le
  obtain ⟨c, cs, rfl, hc, -⟩ := hr.leafPrefix.starts
  obtain ⟨n, hn⟩ : ∃ n, s.leafSpan.length = n + 1 :=
    Nat.exists_eq_add_one.mpr (Nat.sub_pos_of_lt hlt)
  simp only [List.length_append, List.length_cons] at hp hadd
  rw [Span.length] at hn
  refine ⟨done ++ blanks, c :: cs.take n, cs.drop n, ⟨by simp, ?_, ?_⟩, ⟨c, _, rfl, hc.1⟩, done,
    blanks, rfl, hs, hb⟩
  · rw [List.length_append]
    omega
  · rw [List.length_append, List.length_append, List.length_cons, List.length_take]
    omega

theorem Accounts.followsContainer_leaf (h : s.Accounts m text) (hl : s.leaf ≠ "")
    {o : Operand α} {rest : List (Frame α)} (hs : s.stack = .operand o :: rest) :
    FollowsContainer text s.leafSpan := by
  obtain ⟨_, excerpt, after, hc, he, done, blanks, rfl, hst, hb⟩ := h.cuts_leaf hl
  rw [hs] at hst
  exact ⟨_, excerpt, after, hc, hst.endsContainer.append_trail hb.trail, he⟩

theorem Accounts.followsContainer (h : s.Accounts m text) {o p : Operand α}
    {rest : List (Frame α)} (ho : s.operand? m = some o) (hb : s.below = .operand p :: rest) :
    FollowsContainer text o.span := by
  rcases operand?_eq_some_iff.mp ho with ⟨hl, rfl, hbelow⟩ | ⟨hl, hstack⟩
  · exact h.followsContainer_leaf hl (hbelow ▸ hb)
  · obtain ⟨-, done, blanks, rfl, hs, -⟩ := h.of_ready hl
    rw [hstack, hb] at hs
    exact hs.followsContainer.append blanks

/-! ## Faults at a character -/

theorem points_here {reason : Reason} {rest : List Char} (hp : s.position = done.length)
    (h : reason.Fits done [c] rest) : Points (done ++ [c] ++ rest) ⟨reason, s.here⟩ :=
  ⟨done, [c], rest, ⟨rfl, hp, by simp [here, hp]⟩, h⟩

/-- **A fault at a character points at its text**: most often at the character, else at the
container or the operand that it was to end. -/
theorem Fails.points (h : s.Fails m c f) (ha : s.Accounts m done) (rest : List Char) :
    Points (done ++ [c] ++ rest) f := by
  have hp := ha.position
  cases h with
  | angle _ _ => exact points_here hp ⟨'<', by decide, rfl⟩
  | bracket _ _ => exact points_here hp ⟨'[', by decide, rfl⟩
  | mark _ _ _ => exact points_here hp ⟨'?', by decide, rfl⟩
  | extraSeparator _ hc _ => exact points_here hp ⟨c, hc, rfl⟩
  | separatorWithoutType _ hc _ _ => exact points_here hp ⟨c, hc, rfl⟩
  | separatorOfTwo _ hc _ _ => exact points_here hp (.inl ⟨c, hc, rfl⟩)
  | separatorNotAllowed _ hc _ _ => exact points_here hp ⟨c, hc, rfl⟩
  | closerAfterKey _ hc _ _ => exact points_here hp ⟨c, hc, rfl⟩
  | closerOfOne _ hc _ _ _ _ => exact points_here hp ⟨c, hc, rfl⟩
  | unbalancedCloser _ hc _ => exact points_here hp ⟨c, hc, rfl⟩
  | closerOfTwo _ _ ho hb =>
    rw [List.append_assoc]
    obtain ⟨before, excerpt, after, hcut, hends, hstarts⟩ :=
      (ha.followsContainer ho hb).append ([c] ++ rest)
    exact ⟨before, excerpt, after, hcut, .inr ⟨hends, hstarts⟩⟩
  | @emptyContainer _ frame below _ hc ho hs =>
    obtain ⟨-, done, blanks, rfl, hst, hb⟩ := ha.of_ready (operand?_eq_none_iff.mp ho).1
    rw [hs] at hst
    cases hst with
    | @opened done blanks' opener span _ hst hb' hmem hstart hstop =>
      refine ⟨done ++ blanks', opener.text.toList ++ blanks ++ [c], rest,
        .cover (by simp) hstart ?_ ?_, opener, hmem, blanks, c, rfl, hb, hc⟩
      all_goals
        simp only [OpenContainer.ofOpener, List.length_append, List.length_singleton] at hp hstop ⊢
        omega
  | @mismatchedCloser _ o frame below _ hc _ hb hf =>
    have hmem : .opened frame ∈ s.stack := by
      apply s.below_suffix.subset
      rcases hb with hb | ⟨k, hb⟩ <;> simp [hb]
    obtain ⟨opener, hsp, hcloser⟩ := ha.spells_opened hmem
    have hbehind := ha.spansInOrder.frames.behind _ (List.mem_map_of_mem hmem)
    obtain ⟨before, inner, rfl, hstart⟩ := hsp.text
    refine ⟨before, opener.text.toList ++ inner ++ [c], rest,
      .cover (by simp) hstart hbehind ?_, opener, hsp.mem, inner, c, rfl, hc, hcloser ▸ hf⟩
    simp only [List.length_append, List.length_singleton] at hp ⊢
    omega

/-! ## Faults at the end -/

theorem foldlM_nest_count {cs : List Char} {depth final : Nat}
    (h : cs.foldlM nest depth = some final) : cs.count '<' + depth = cs.count '>' + final := by
  induction cs generalizing depth with
  | nil =>
    obtain rfl := Option.some.inj h
    rfl
  | cons c cs ih =>
    rw [List.foldlM_cons, Option.bind_eq_bind, Option.bind_eq_some_iff] at h
    obtain ⟨next, hn, h⟩ := h
    have hcount := ih h
    unfold nest at hn
    split_ifs at hn with hl hd hm hg <;> obtain rfl := Option.some.inj hn
    · subst hl
      rw [List.count_cons_self, List.count_cons_of_ne (by decide)]
      omega
    · rw [List.count_cons_of_ne hl, List.count_cons_of_ne (List.ne_of_not_mem_cons hm)]
      omega
    · subst hg
      rw [List.count_cons_self, List.count_cons_of_ne (by decide)]
      omega
    · rw [List.count_cons_of_ne hl, List.count_cons_of_ne hg]
      omega

theorem count_of_leafPrefix {depth : Nat} (h : LeafPrefix depth text) :
    text.count '<' = text.count '>' + depth := by
  obtain ⟨c, cs, rfl, hc, hn⟩ := h.starts
  have hne := hc.2
  simp only [List.mem_cons, not_or] at hne
  rw [List.count_cons_of_ne hne.2.1, List.count_cons_of_ne hne.2.2.1]
  exact foldlM_nest_count hn

/-- Only blanks and marks stand after the span of a pending leaf. -/
theorem trail_of_run (hm : ∀ v, m.optional v = v) (h : run m {} text = .ok s)
    (hl : s.leaf ≠ "") : Trail (text.drop s.leafSpan.stop) := by
  refine run_start_induction
    (P := fun text s => s.leaf ≠ "" → Trail (text.drop s.leafSpan.stop))
    (fun hne => absurd rfl hne) ?_ h hl
  intro text s c u hrun ht hu
  have ha := accounts_of_run hm hrun
  have hmore : s.leaf ≠ "" → (isBlank c = true ∨ c = '?') →
      Trail ((text ++ [c]).drop s.leafSpan.stop) := by
    intro hl hc
    have hle : s.leafSpan.stop ≤ text.length :=
      ha.position ▸ (ha.spansInOrder.leaf hl).behind _ List.mem_cons_self
    rw [List.drop_append_of_le_length hle]
    exact (ht hl).append (.singleton hc)
  cases hu with
  | skip hc => exact fun hl => hmore hl (hc.imp_right And.left)
  | markLeaf _ hl => exact fun _ => hmore hl (.inr rfl)
  | extend _ _ _ _ =>
    intro _
    rw [List.drop_eq_nil_of_le]
    · exact Blanks.nil.trail
    · have hp := ha.position
      simp only [extendLeaf, List.length_append, List.length_singleton]
      split_ifs <;> simp [here] <;> omega
  | openKeyword _ _ _ => exact fun hl => absurd rfl hl
  | openBracket _ _ => exact fun hl => absurd rfl hl
  | separate _ _ _ _ _ => exact fun hl => absurd rfl hl
  | closeSequence _ _ _ _ _ _ => exact fun hl => absurd rfl hl
  | closeDictionary _ _ _ _ _ => exact fun hl => absurd rfl hl
  | markOperand _ hl _ => exact fun hne => absurd hl hne

/-- **A fault at the end points at its text**: at what was not closed, or at a second type. -/
theorem FailsAtEnd.points (hm : ∀ v, m.optional v = v) (h : s.FailsAtEnd f)
    (hr : run m {} text = .ok s) : Points text f := by
  have ha := accounts_of_run hm hr
  have hs := sound_of_run hm hr
  have hp := ha.position
  cases h with
  | unbalancedGeneric hd =>
    obtain ⟨done, blanks, raw, rfl, -, -, hraw⟩ := ha.of_pending (hs.flags.depth hd)
    have hadd := hraw.start_add
    have hcount := count_of_leafPrefix hraw.leafPrefix
    refine ⟨done ++ blanks, raw, [], .cover (by simp) ?_ hraw.stop_le ?_, ?_, rfl⟩
    all_goals
      simp only [List.length_append] at hp ⊢
      omega
  | @unclosedContainer frame _ hi =>
    obtain ⟨g, hmem, hg⟩ := List.exists_of_findSome?_eq_some hi
    obtain rfl := Frame.opened?_eq_some_iff.mp hg
    obtain ⟨opener, hsp, -⟩ := ha.spells_opened hmem
    have hbehind := ha.spansInOrder.frames.behind _ (List.mem_map_of_mem hmem)
    obtain ⟨before, inner, ht, hstart⟩ := hsp.text
    rw [List.append_assoc] at ht
    refine ⟨before, opener.text.toList ++ inner, [], .cover (by simp [ht]) hstart hbehind ?_,
      ⟨opener, hsp.mem, List.prefix_append _ _⟩, rfl⟩
    rw [hp, ← ht, Nat.add_zero]
  | emptyExpression _ hl hstack =>
    obtain ⟨-, done, blanks, rfl, hst, hb⟩ := ha.of_ready hl
    rw [hstack] at hst
    cases hst
    exact ⟨[], blanks, [], ⟨by simp, rfl, by simpa using hp⟩, rfl, hb, rfl⟩
  | @loneFrame frame _ hi hstack hf =>
    obtain ⟨o, rfl⟩ := hs.operand_of_innermost hi (by rw [hstack]; exact List.mem_singleton_self _)
    exact absurd rfl (hf o)
  | @missingSeparator first second above _ hi hl hstack =>
    obtain ⟨o, rfl⟩ := hs.operand_of_innermost hi (by simp [hstack] : second ∈ s.stack)
    obtain ⟨p, rfl⟩ := hs.operand_of_innermost hi (by simp [hstack] : first ∈ s.stack)
    obtain ⟨-, done, blanks, rfl, hst, -⟩ := ha.of_ready hl
    rw [hstack] at hst
    obtain ⟨under, more, rfl, hunder⟩ := hst.of_append
    obtain ⟨before, excerpt, after, hcut, hends, hstarts⟩ :=
      (hunder.followsContainer.append more).append blanks
    exact ⟨before, excerpt, after, hcut, .inr ⟨hends, hstarts⟩⟩
  | trailingText _ hi hl hne =>
    obtain ⟨g, rest, hstack⟩ := List.exists_cons_of_ne_nil hne
    obtain ⟨o, rfl⟩ := hs.operand_of_innermost hi (by simp [hstack] : g ∈ s.stack)
    obtain ⟨before, excerpt, after, hcut, hends, hstarts⟩ := ha.followsContainer_leaf hl hstack
    exact ⟨before, excerpt, after, hcut, hends, hstarts, hcut.after_eq ▸ trail_of_run hm hr hl⟩

end Scan

/-! ## Malformed expressions -/

/-- **Every fault points at its text.** -/
theorem points_of_scan (hm : ∀ v, m.optional v = v) {text : String} {f : Fault}
    (h : scan m text = .error f) : Points text.toList f := by
  rcases scan_eq_error_iff.mp h with h | ⟨s, hr, hc⟩
  · obtain ⟨done, c, rest, s, ht, hs, hf⟩ := Scan.exists_fails_of_run h
    rw [ht, List.append_cons]
    exact hf.points (Scan.accounts_of_run hm hs) rest
  · exact (Scan.FailsAtEnd.of_conclude hc).points hm hr

theorem scan_of_blanks {text : String} (h : Blanks text.toList) :
    scan m text = .error ⟨.emptyExpression, .ofLength 0 text.length⟩ := by
  have hr : Scan.run m {} text.toList = .ok { position := 0 + text.toList.length } :=
    Scan.run_blanks h
  refine scan_eq_error_iff.mpr (.inr ⟨_, hr, ?_⟩)
  rw [String.length_toList, Nat.zero_add]
  rfl

theorem resolve_outcome_eq_error_iff {classify : Classifier} {text : String} {e : Malformed} :
    (resolve classify text).outcome = .error e ↔
      scan (capabilityMeaning classify) text = .error ⟨e.reason, e.span⟩ ∧
        e.expression = text := by
  unfold resolve
  obtain ⟨expression, reason, span⟩ := e
  cases hs : scan (capabilityMeaning classify) text with
  | ok result => simp
  | error f =>
    obtain ⟨r, sp⟩ := f
    simp only [Except.error.injEq, Malformed.mk.injEq, Fault.mk.injEq]
    constructor
    · rintro ⟨rfl, rfl, rfl⟩
      exact ⟨⟨rfl, rfl⟩, rfl⟩
    · rintro ⟨⟨rfl, rfl⟩, rfl⟩
      exact ⟨rfl, rfl, rfl⟩

theorem cuts_of_resolve {classify : Classifier} {text : String} {e : Malformed}
    (h : (resolve classify text).outcome = .error e) :
    e.expression = text ∧ ∃ before after, Cuts text.toList e.span before e.excerpt.toList after ∧
      e.reason.Fits before e.excerpt.toList after := by
  obtain ⟨hscan, rfl⟩ := resolve_outcome_eq_error_iff.mp h
  obtain ⟨before, excerpt, after, hcut, hfits⟩ := points_of_scan (fun _ => rfl) hscan
  have hexcerpt : e.excerpt.toList = excerpt := by
    rw [Malformed.excerpt, Span.toList_slice]
    exact hcut.excerpt_eq.symm
  exact ⟨rfl, before, after, hexcerpt ▸ hcut, hexcerpt ▸ hfits⟩

/-- **The error of a malformed expression points at the text that its reason names.** Its span lies
in the expression and is not empty unless the expression is; the excerpt is as long as the span, and
stands among the rest of the expression as the reason says. Only an expression of blanks is
empty. -/
theorem malformed_excerpt (classify : Classifier) (text : String) :
    (∀ e, (resolve classify text).outcome = .error e →
      e.expression = text ∧ e.span.start ≤ e.span.stop ∧ e.span.stop ≤ text.length ∧
      (text ≠ "" → e.span.start < e.span.stop) ∧
      e.excerpt.length = e.span.stop - e.span.start ∧
      e.reason.Fits (text.toList.take e.span.start) e.excerpt.toList
        (text.toList.drop e.span.stop)) ∧
    ((∃ e, (resolve classify text).outcome = .error e ∧ e.reason = .emptyExpression) ↔
      Blanks text.toList) := by
  refine ⟨fun e he => ?_, ?_, fun h => ?_⟩
  · obtain ⟨rfl, before, after, hcut, hfits⟩ := cuts_of_resolve he
    have hlength := hcut.length_excerpt
    refine ⟨rfl, e.span.start_le_stop, ?_, fun hne => ?_, ?_, ?_⟩
    · exact String.length_toList ▸ hcut.stop_le
    · have hexcerpt : e.excerpt.toList ≠ [] := by
        apply hfits.excerpt_ne_nil
        rw [← hcut.text]
        exact fun h => hne (String.toList_eq_nil_iff.mp h)
      have := List.length_pos_iff.mpr hexcerpt
      omega
    · rw [← String.length_toList, hlength]
    · rw [← hcut.before_eq, ← hcut.after_eq]
      exact hfits
  · rintro ⟨e, he, hr⟩
    obtain ⟨-, before, after, hcut, hfits⟩ := cuts_of_resolve he
    rw [hr] at hfits
    obtain ⟨rfl, hb, rfl⟩ := hfits
    rw [hcut.text]
    simpa using hb
  · exact ⟨⟨text, .emptyExpression, .ofLength 0 text.length⟩,
      resolve_outcome_eq_error_iff.mpr ⟨scan_of_blanks h, rfl⟩, rfl⟩

/-- After a container that is closed, at the closer of one whose opener stands far before, and in
blanks. -/
theorem malformed_excerpt_of_stored_span :
    (∃ e, (resolve (fun _ => .comparable) "[Int] ?Foo<A> ?").outcome = .error e ∧
      e.excerpt = "Foo<A>" ∧ e.reason.Fits "[Int] ?".toList e.excerpt.toList " ?".toList) ∧
    (∃ e, (resolve (fun _ => .comparable) "Set<[A: Array<B> ?>").outcome = .error e ∧
      e.excerpt = "[A: Array<B> ?>" ∧ e.reason.Fits "Set<".toList e.excerpt.toList []) ∧
    ∃ e, (resolve (fun _ => .comparable) " \t").outcome = .error e ∧
      e.reason = .emptyExpression := by
  have h := malformed_excerpt fun _ => .comparable
  refine ⟨⟨_, rfl, rfl, ?_⟩, ⟨_, rfl, rfl, ?_⟩, ?_⟩
  · exact ((h "[Int] ?Foo<A> ?").1 _ rfl).2.2.2.2.2
  · exact ((h "Set<[A: Array<B> ?>").1 _ rfl).2.2.2.2.2
  · exact (h " \t").2.mpr (Blanks.append (.singleton rfl) (.singleton rfl))

end Comparability.TypeExpr
