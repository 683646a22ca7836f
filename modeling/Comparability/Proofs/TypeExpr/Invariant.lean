import Comparability.Proofs.TypeExpr.Account
import Comparability.TypeExpr.Resolution

/-!
# The invariant of the scan

What holds of every state that a scan reaches, for every text and every classifier:

* `Flags` : a type may begin exactly where no leaf is pending, and only a pending leaf has enclosed
  spans or a mark;
* `KeysPlaced` : each key lies on the dictionary that it belongs to, and a bracket has become a
  dictionary exactly when its key lies on it;
* `SpansInOrder` : the spans of the frames are not empty and follow one another, then comes the
  pending leaf, then the position.

From it: no closer finds a key without its container, the scan does not end on a lone key or opener
without saying so, and each span that is built passes the checks of `Span.ofSizes?` and its kin
(`SpansPass`).
-/

namespace Comparability.TypeExpr

open Text (Span)

variable {α : Type}

/-! ## Keys -/

/-- Where the keys of a stack lie; the latest frame comes first. -/
structure KeysPlaced (stack : List (Frame α)) : Prop where
  /-- a key lies on an open dictionary -/
  key : ∀ above k below, stack = above ++ .key k :: below →
    ∃ frame rest, below = .opened frame :: rest ∧ frame.kind = .dictionary
  /-- on a bracket that has become a dictionary lies a key, and only one -/
  promoted : ∀ above frame below, stack = above ++ .opened frame :: below →
    frame.kind = .dictionary → frame.closer = "]" →
      ∃ between k, above = between ++ [.key k] ∧ ∀ j, between.getLast? ≠ some (.key j)
  /-- on a bracket that has not, an array or a set lies none -/
  sequence : ∀ above f frame below, stack = above ++ f :: .opened frame :: below →
    frame.kind = .undetermined ∨ frame.kind = .array ∨ frame.kind = .set → ∀ k, f ≠ .key k

theorem KeysPlaced.cons {stack : List (Frame α)} (h : KeysPlaced stack) {f : Frame α}
    (hk : ∀ k, f ≠ .key k)
    (hf : ∀ frame, f = .opened frame → ¬ (frame.kind = .dictionary ∧ frame.closer = "]")) :
    KeysPlaced (f :: stack) := by
  constructor
  · intro above k below he
    cases above with
    | nil => exact absurd (List.cons.inj he).1 (hk k)
    | cons g above => exact h.key above k below (List.cons.inj he).2
  · intro above frame below he hd hc
    cases above with
    | nil => exact absurd ⟨hd, hc⟩ (hf frame (List.cons.inj he).1)
    | cons g above =>
      obtain ⟨rfl, ht⟩ := List.cons.inj he
      obtain ⟨between, k, rfl, ho⟩ := h.promoted above frame below ht hd hc
      refine ⟨f :: between, k, rfl, fun j hj => ?_⟩
      cases between with
      | nil => exact hk j (by simpa using hj)
      | cons g between => exact ho j (by simpa using hj)
  · intro above g frame below he hs
    cases above with
    | nil =>
      obtain ⟨rfl, -⟩ := List.cons.inj he
      exact hk
    | cons _ above => exact h.sequence above g frame below (List.cons.inj he).2 hs

theorem KeysPlaced.cons_key {stack : List (Frame α)} (h : KeysPlaced stack)
    {frame : OpenContainer} (hd : frame.kind = .dictionary) (k : Operand α) :
    KeysPlaced (.key k :: .opened frame :: stack) := by
  constructor
  · intro above j below he
    match above with
    | [] => exact ⟨frame, stack, (List.cons.inj he).2.symm, hd⟩
    | [f] => cases (List.cons.inj (List.cons.inj he).2).1
    | f :: g :: above => exact h.key above j below (List.cons.inj (List.cons.inj he).2).2
  · intro above g below he hg hc
    match above with
    | [] => cases (List.cons.inj he).1
    | [f] =>
      obtain ⟨rfl, -⟩ := List.cons.inj he
      exact ⟨[], k, rfl, fun j hj => by cases hj⟩
    | e :: f :: above =>
      obtain ⟨rfl, ht⟩ := List.cons.inj he
      obtain ⟨rfl, hb⟩ := List.cons.inj ht
      obtain ⟨between, i, rfl, ho⟩ := h.promoted above g below hb hg hc
      refine ⟨.key k :: .opened frame :: between, i, rfl, fun j hj => ?_⟩
      cases between with
      | nil => simp at hj
      | cons f between => exact ho j (by simpa using hj)
  · intro above f g below he hs
    match above with
    | [] =>
      obtain ⟨-, ht⟩ := List.cons.inj he
      obtain rfl := Frame.opened.inj (List.cons.inj ht).1
      rw [hd] at hs
      simp at hs
    | [e] =>
      obtain ⟨rfl, -⟩ := List.cons.inj (List.cons.inj he).2
      exact fun k => by simp
    | d :: e :: above =>
      exact h.sequence above f g below (List.cons.inj (List.cons.inj he).2).2 hs

theorem KeysPlaced.of_cons_opened {stack : List (Frame α)} {frame : OpenContainer}
    (h : KeysPlaced (.opened frame :: stack)) : KeysPlaced stack := by
  constructor
  · intro above k below he
    exact h.key (.opened frame :: above) k below (by rw [he, List.cons_append])
  · intro above g below he hg hc
    obtain ⟨between, k, ho, hl⟩ :=
      h.promoted (.opened frame :: above) g below (by rw [he, List.cons_append]) hg hc
    cases between with
    | nil => cases (List.cons.inj ho).1
    | cons f between =>
      refine ⟨between, k, (List.cons.inj ho).2, fun j hj => ?_⟩
      cases between with
      | nil => cases hj
      | cons g between => exact hl j (by simpa using hj)
  · intro above f g below he hs
    exact h.sequence (.opened frame :: above) f g below (by rw [he, List.cons_append]) hs

theorem not_promoted_of_opener :
    ∀ opener ∈ Opener.all, ¬ (opener.kind = .dictionary ∧ opener.closer = "]") := by
  decide

theorem kind_separated {opener : Opener} (ho : opener ∈ Opener.all) {span : Span}
    {text : String} (ha : (OpenContainer.ofOpener opener span).accepts text = true) :
    (OpenContainer.ofOpener opener span).separated.kind = .dictionary := by
  rcases Opener.mem_all.mp ho with rfl | rfl | rfl | rfl
  · exact absurd ha (by simp [OpenContainer.accepts, OpenContainer.ofOpener, Opener.array])
  · exact absurd ha (by simp [OpenContainer.accepts, OpenContainer.ofOpener, Opener.set])
  · rfl
  · rfl

theorem Stacked.keysPlaced {m : Meaning α} {text : List Char} {stack : List (Frame α)}
    (h : Stacked m text stack) : KeysPlaced stack := by
  induction h with
  | nil => exact ⟨by simp, by simp, by simp⟩
  | @opened _ _ opener span _ _ _ ho _ _ ih =>
    refine ih.cons (by simp) fun frame he => ?_
    obtain rfl := Frame.opened.inj he
    exact not_promoted_of_opener opener ho
  | operand _ _ _ _ _ _ ih => exact ih.cons (by simp) (by simp)
  | @key _ _ _ k _ _ h _ ha _ _ _ ih =>
    cases h with
    | opened h hb ho => exact ih.of_cons_opened.cons_key (kind_separated ho ha) k

/-! ## Spans -/

/-- Spans, the last one first, of which none is empty and each ends before the next begins, all of
them up to a position. -/
structure InOrder (spans : List Span) (position : Nat) : Prop where
  nonempty : ∀ span ∈ spans, span.start < span.stop
  apart : spans.Pairwise fun later earlier => earlier.stop ≤ later.start
  behind : ∀ span ∈ spans, span.stop ≤ position

theorem InOrder.cons {spans : List Span} {middle position : Nat} (h : InOrder spans middle)
    {span : Span} (hs : middle ≤ span.start) (hl : span.start < span.stop)
    (he : span.stop ≤ position) : InOrder (span :: spans) position := by
  refine ⟨fun other ho => ?_, .cons (fun other ho => Nat.le_trans (h.behind other ho) hs) h.apart,
    fun other ho => ?_⟩
  · rcases List.mem_cons.mp ho with rfl | ho
    · exact hl
    · exact h.nonempty other ho
  · rcases List.mem_cons.mp ho with rfl | ho
    · exact he
    · have := h.behind other ho
      omega

theorem text_ne_of_opener : ∀ opener ∈ Opener.all, 0 < opener.text.toList.length := by
  decide

theorem Stacked.inOrder {m : Meaning α} {text : List Char} {stack : List (Frame α)}
    (h : Stacked m text stack) : InOrder (stack.map Frame.span) text.length := by
  induction h with
  | nil => exact ⟨by simp, .nil, by simp⟩
  | @opened done blanks opener span rest _ _ ho hs he ih =>
    have hlen := text_ne_of_opener opener ho
    simp only [List.length_append] at hs he ⊢
    apply ih.cons <;> simp only [Frame.span, OpenContainer.ofOpener] <;> omega
  | @operand done blanks text after o rest _ _ ho _ hs he ih =>
    have hlen := List.length_pos_iff.mpr ho.ne_nil_of_container
    simp only [List.length_append] at hs he ⊢
    apply ih.cons <;> simp only [Frame.span] <;> omega
  | @key done text separator k frame rest _ _ _ hs hl he ih =>
    have hmap : (Frame.opened frame.separated :: rest).map Frame.span =
        (Frame.opened frame :: rest : List (Frame α)).map Frame.span := by
      simp [Frame.span]
    rw [List.map_cons, hmap]
    simp only [List.length_append] at he ⊢
    exact ih.cons hs hl (by simp only [Frame.span]; omega)

namespace Scan

variable {m : Meaning α} {s : Scan α} {text : List Char}

/-! ## The invariant -/

structure Flags (s : Scan α) : Prop where
  atTypeStart : s.atTypeStart = true ↔ s.leaf = ""
  depth : s.depth ≠ 0 → s.leaf ≠ ""
  marked : s.marked = true → s.leaf ≠ ""

/-- The frames of a scan, its pending leaf and its position stand in this order in the text. -/
structure SpansInOrder (s : Scan α) : Prop where
  frames : InOrder (s.stack.map Frame.span) s.position
  leaf : s.leaf ≠ "" → InOrder (s.leafSpan :: s.stack.map Frame.span) s.position

structure Sound (s : Scan α) : Prop where
  flags : s.Flags
  keys : KeysPlaced s.stack
  spans : s.SpansInOrder

theorem Accounts.flags (h : s.Accounts m text) : s.Flags := by
  obtain ⟨-, _, _, _, -, -, -, ⟨-, hr⟩ | hr⟩ := h
  · exact ⟨by simp [hr.leaf, hr.atTypeStart], fun h => absurd hr.depth h,
      fun h => by simp [hr.marked] at h⟩
  · exact ⟨by simp [hr.leaf_ne, hr.atTypeStart], fun _ => hr.leaf_ne, fun _ => hr.leaf_ne⟩

theorem Accounts.spansInOrder (h : s.Accounts m text) : s.SpansInOrder := by
  obtain ⟨hp, done, blanks, raw, rfl, hs, -, hr⟩ := h
  have hlen : done.length ≤ s.position := by
    rw [hp]
    simp only [List.length_append]
    omega
  have hf := hs.inOrder
  refine ⟨⟨hf.nonempty, hf.apart, fun span h => Nat.le_trans (hf.behind span h) hlen⟩, fun hl => ?_⟩
  rcases hr with ⟨-, hr⟩ | hr
  · exact absurd hr.leaf hl
  · refine hf.cons ?_ hr.start_lt hr.stop_le
    have := hr.start_add
    simp only [List.length_append] at hp
    omega

/-- Every state that a scan reaches is sound. -/
theorem sound_of_run (hm : ∀ v, m.optional v = v) (h : run m {} text = .ok s) : s.Sound := by
  have ha := accounts_of_run hm h
  obtain ⟨-, done, blanks, raw, -, hs, -, -⟩ := id ha
  exact ⟨ha.flags, hs.keysPlaced, ha.spansInOrder⟩

/-! ## What the invariant rules out -/

/-- Each span that is built from a state without a check passes the check. -/
structure SpansPass (s : Scan α) : Prop where
  /-- the character that is read next -/
  here : Span.ofLength? s.position 1 = .ok s.here
  /-- a bracket that opens a container -/
  bracket : Span.ofSizes? s.position (s.position + 1) = .ok (s.here.cover s.here)
  /-- a finished leaf, a keyword that opens a container, a leaf with an open span -/
  leaf : s.leaf ≠ "" → Span.ofSizes? s.leafSpan.start s.leafSpan.stop = .ok s.leafSpan ∧
    Span.ofSizes? s.leafSpan.start (s.position + 1) = .ok (s.leafSpan.cover s.here) ∧
    Span.ofSizes? s.leafSpan.start s.position = .ok (s.leafSpan.cover s.endSpan)
  /-- a frame up to the next character, and up to the end -/
  frame : ∀ f ∈ s.stack,
    Span.ofOffsets? f.span.start (s.position + 1) = .ok (f.span.cover s.here) ∧
    Span.ofSizes? f.span.start s.position = .ok (f.span.cover s.endSpan)
  /-- all that has been read -/
  whole : Span.ofSizes? 0 s.position = .ok (.ofLength 0 s.position)

theorem ofBounds?_cover {span : Span} {position : Nat} (h : span.stop ≤ position)
    (length : Nat) :
    Span.ofBounds? span.start (position + length) =
      .ok (span.cover (.ofLength position length)) := by
  have := span.start_le_stop
  apply Span.ofBounds?_eq_ok
  · rw [Span.start_cover, Span.start_ofLength]
    omega
  · rw [Span.stop_cover, Span.stop_ofLength]
    omega

theorem SpansInOrder.pass (h : s.SpansInOrder) : s.SpansPass := by
  refine ⟨Span.ofLength?_natCast s.position 1, ?_, fun hl => ?_, fun f hf => ?_, ?_⟩
  · rw [← Int.natCast_succ, Span.ofSizes?_natCast]
    apply Span.ofBounds?_eq_ok <;> simp [here]
  · have hle := (h.leaf hl).behind _ List.mem_cons_self
    refine ⟨?_, ?_, ?_⟩
    · rw [Span.ofSizes?_natCast]
      exact Span.ofBounds?_eq_ok rfl rfl
    · rw [← Int.natCast_succ, Span.ofSizes?_natCast]
      exact ofBounds?_cover hle 1
    · rw [Span.ofSizes?_natCast]
      exact ofBounds?_cover hle 0
  · have hle := h.frames.behind _ (List.mem_map_of_mem hf)
    refine ⟨?_, ?_⟩
    · rw [← Int.natCast_succ, Span.ofOffsets?_natCast]
      exact ofBounds?_cover hle 1
    · rw [Span.ofSizes?_natCast]
      exact ofBounds?_cover hle 0
  · show Span.ofSizes? (0 : Nat) s.position = _
    rw [Span.ofSizes?_natCast]
    exact Span.ofBounds?_eq_ok rfl (Nat.zero_add _)

/-- What a closer finds on a key is the container of the key. -/
theorem Sound.opened_of_key (h : s.Sound) {k : Operand α} {rest : List (Frame α)}
    (hb : s.below = .key k :: rest) : ∃ frame below, rest = .opened frame :: below := by
  obtain ⟨above, hs⟩ := s.below_suffix
  obtain ⟨frame, below, rfl, -⟩ := h.keys.key above k rest (by rw [← hs, hb])
  exact ⟨frame, below, rfl⟩

theorem Sound.operand_of_innermost (h : s.Sound) (hi : s.innermost? = none) {f : Frame α}
    (hf : f ∈ s.stack) : ∃ o, f = .operand o := by
  have hopen : ∀ frame, .opened frame ∉ s.stack := fun frame hm => by
    have := List.findSome?_eq_none_iff.mp hi _ hm
    cases this
  cases f with
  | opened frame => exact absurd hf (hopen frame)
  | operand o => exact ⟨o, rfl⟩
  | key k =>
    obtain ⟨above, below, hs⟩ := List.append_of_mem hf
    obtain ⟨frame, rest, rfl, -⟩ := h.keys.key above k below hs
    exact absurd (by rw [hs]; simp) (hopen frame)

theorem closeFrame_ne_unbalancedCloser {c : Char} {span : Span} {frame : OpenContainer}
    {value : Except Reason α} (rest : List (Frame α)) (hv : value ≠ .error .unbalancedCloser) :
    s.closeFrame c frame value rest ≠ .error ⟨.unbalancedCloser, span⟩ := by
  intro he
  unfold closeFrame failHere at he
  split_ifs at he
  · cases value with
    | error reason =>
      apply hv
      simp only [Except.error.injEq, Fault.mk.injEq] at he
      rw [he.1]
    | ok v => cases he
  · simp at he

theorem Sound.below_of_unbalancedCloser (h : s.Sound) {c : Char} {span : Span}
    (hc : s.readCloser m c = .error ⟨.unbalancedCloser, span⟩) : s.below = [] := by
  cases hb : s.below with
  | nil => rfl
  | cons f rest =>
    exfalso
    rw [readCloser, hb] at hc
    cases f with
    | opened frame =>
      cases ho : s.operand? m with
      | none => simp [ho] at hc
      | some o =>
        rw [ho] at hc
        refine closeFrame_ne_unbalancedCloser rest ?_ hc
        split_ifs <;> simp
    | operand o => cases ho : s.operand? m <;> simp [ho] at hc
    | key k =>
      obtain ⟨frame, below, rfl⟩ := h.opened_of_key hb
      cases ho : s.operand? m with
      | none => simp [ho, failHere] at hc
      | some o =>
        rw [ho] at hc
        exact closeFrame_ne_unbalancedCloser below (by simp) hc

theorem Sound.innermost_of_unclosedContainer (h : s.Sound) {span : Span}
    (hc : s.conclude m = .error ⟨.unclosedContainer, span⟩) : s.innermost? ≠ none := by
  intro hi
  simp only [conclude, hi] at hc
  split_ifs at hc with hd hl he
  · simp at hc
  · split at hc
    · simp at hc
    · simp at hc
    · next f hne hr =>
      have hf : f ∈ s.stack := by
        rw [← List.mem_reverse, hr]
        exact List.mem_singleton_self f
      obtain ⟨o, rfl⟩ := h.operand_of_innermost hi hf
      exact hne o rfl
    · simp at hc
  · simp at hc

end Scan

/-- **The invariant of the scan**, in every state on the way through a text, and what it rules out:
a key without its container, an end on anything but an operand, a span that its check refuses, and
an answer that is neither a capability nor an error, or both. -/
theorem scan_invariant (classify : Classifier) (text : String) :
    (∀ done rest s, text.toList = done ++ rest →
      Scan.run (capabilityMeaning classify) {} done = .ok s →
        s.Sound ∧ s.SpansPass ∧
        (∀ k below, s.below = .key k :: below → ∃ frame rest, below = .opened frame :: rest) ∧
        (s.innermost? = none → ∀ f ∈ s.stack, ∃ o, f = .operand o) ∧
        (∀ c span, s.readCloser (capabilityMeaning classify) c = .error ⟨.unbalancedCloser, span⟩ →
          s.below = []) ∧
        (∀ span, s.conclude (capabilityMeaning classify) = .error ⟨.unclosedContainer, span⟩ →
          s.innermost? ≠ none)) ∧
    Resolution.ofParts? text (resolve classify text).capability? (resolve classify text).error? =
      .ok (resolve classify text) := by
  refine ⟨fun done rest s _ h => ?_, ?_⟩
  · have hs : s.Sound := Scan.sound_of_run (fun _ => rfl) h
    exact ⟨hs, hs.spans.pass, fun _ _ hb => hs.opened_of_key hb,
      fun hi _ hf => hs.operand_of_innermost hi hf, fun _ _ hc => hs.below_of_unbalancedCloser hc,
      fun _ hc => hs.innermost_of_unclosedContainer hc⟩
  · unfold resolve
    cases scan (capabilityMeaning classify) text <;> rfl

/-- Within a leaf, in the value of a dictionary. -/
theorem scan_invariant_in_value :
    ∃ s, Scan.run (capabilityMeaning fun _ => .comparable) {} "[Int: Foo<A".toList = .ok s ∧
      s.Sound ∧ s.SpansPass := by
  refine ⟨_, rfl, ?_⟩
  have h := (scan_invariant (fun _ => .comparable) "[Int: Foo<A> ]").1 "[Int: Foo<A".toList
    "> ]".toList _ rfl rfl
  exact ⟨h.1, h.2.1⟩

end Comparability.TypeExpr
