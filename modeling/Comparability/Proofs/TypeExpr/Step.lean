import Mathlib.Tactic.Common
import Comparability.TypeExpr.Scan

/-!
# What one character does to a scan

`Scan.read` decides by the depth, the character and the stack. `Reads m s c t` lists what it can
do, one constructor for each way in which a character is read, with all that the way depends on;
`read_eq_ok_iff` says that these are all of them. What later modules say about every scan is said
once for each constructor.

* `nest` : the spans that are open in a leaf after one more of its characters;
* `operand?_eq_some_iff` : the operand that a closer or a separator takes, with the stack under it;
* `run_append`, `run_cons` : a run over a text is a run over its parts.
-/

namespace Comparability.TypeExpr

open Text (Span isBlank)

variable {α : Type}

/-- How many enclosed spans are open after one more character of a leaf, if a leaf can have that
character where `depth` of them are open. -/
def nest (depth : Nat) (c : Char) : Option Nat :=
  if c = '<' then some (depth + 1)
  else if depth = 0 then if c ∈ ['>', '[', ']', ',', ':'] then none else some 0
  else if c = '>' then some (depth - 1)
  else some depth

theorem nest_blank {c : Char} (h : isBlank c = true ∨ c = '?') (depth : Nat) :
    nest depth c = some depth := by
  have hc : c ≠ '<' ∧ c ∉ ['>', '[', ']', ',', ':'] := by
    constructor
    · rintro rfl
      exact absurd h (by decide)
    · intro hm
      simp only [List.mem_cons, List.not_mem_nil, or_false] at hm
      rcases hm with rfl | rfl | rfl | rfl | rfl <;> exact absurd h (by decide)
  have hne : c ≠ '>' := fun he => hc.2 (by simp [he])
  unfold nest
  rw [if_neg hc.1, if_neg hc.2, if_neg hne]
  split_ifs with hd
  · rw [hd]
  · rfl

namespace Scan

variable {m : Meaning α} {s t : Scan α} {c : Char}

/-! ## The operand and what lies under it -/

theorem below_of_leaf (h : s.leaf ≠ "") : s.below = s.stack := by
  rw [below, if_neg h]

theorem below_suffix (s : Scan α) : s.below <:+ s.stack := by
  unfold below
  split_ifs
  · split
    · next o rest hs => exact ⟨[.operand o], hs.symm⟩
    · exact List.suffix_rfl
  · exact List.suffix_rfl

theorem operand?_of_leaf (h : s.leaf ≠ "") : s.operand? m = some (s.leafOperand m) := by
  rw [operand?, if_neg h]

theorem operand?_eq_some_iff {o : Operand α} :
    s.operand? m = some o ↔
      s.leaf ≠ "" ∧ s.leafOperand m = o ∧ s.below = s.stack ∨
        s.leaf = "" ∧ s.stack = .operand o :: s.below := by
  by_cases h : s.leaf = ""
  · rw [operand?, below, if_pos h, if_pos h]
    cases hs : s.stack with
    | nil => simp [h]
    | cons f rest => cases f <;> simp [h]
  · rw [operand?_of_leaf h, below_of_leaf h]
    simp [h]

/-! ## The ways to read a character -/

/-- The state after a character is read, at the position of the character. -/
inductive Reads (m : Meaning α) (s : Scan α) : Char → Scan α → Prop
  /-- a blank, or a mark inside an enclosed span -/
  | skip {c : Char} (h : isBlank c = true ∨ c = '?' ∧ s.depth ≠ 0) : Reads m s c s
  /-- a further character of the pending leaf, or the first of a new one -/
  | extend {c : Char} {depth : Nat} (hb : isBlank c = false) (hq : c ≠ '?')
      (hn : nest s.depth c = some depth)
      (ha : s.depth = 0 → c = '<' → s.leaf ≠ "" ∧ s.keyword? = none) :
      Reads m s c { s.extendLeaf c with depth := depth }
  /-- the end of a keyword -/
  | openKeyword {opener : Opener} (hd : s.depth = 0) (hl : s.leaf ≠ "")
      (hk : s.keyword? = some opener) : Reads m s '<' (s.openContainer opener s.leafSpan)
  | openBracket (hd : s.depth = 0) (ht : s.atTypeStart = true) :
      Reads m s '[' (s.openContainer .bracket s.here)
  | separate {c : Char} {o : Operand α} {frame : OpenContainer} {rest : List (Frame α)}
      (hd : s.depth = 0) (hc : c ∈ separators) (ho : s.operand? m = some o)
      (hs : s.below = .opened frame :: rest) (ha : frame.accepts (String.singleton c) = true) :
      Reads m s c (s.startType (.key o :: .opened frame.separated :: rest))
  | closeSequence {c : Char} {o : Operand α} {frame : OpenContainer} {rest : List (Frame α)}
      (hd : s.depth = 0) (hc : c ∈ closers) (ho : s.operand? m = some o)
      (hs : s.below = .opened frame :: rest) (hf : frame.closer = String.singleton c)
      (hq : frame.isSequence = true) :
      Reads m s c
        (s.startType (.operand ⟨m.sequence o.value, frame.span.cover s.here⟩ :: rest))
  | closeDictionary {c : Char} {o k : Operand α} {frame : OpenContainer} {rest : List (Frame α)}
      (hd : s.depth = 0) (hc : c ∈ closers) (ho : s.operand? m = some o)
      (hs : s.below = .key k :: .opened frame :: rest)
      (hf : frame.closer = String.singleton c) :
      Reads m s c
        (s.startType
          (.operand ⟨m.dictionary k.value o.value, frame.span.cover s.here⟩ :: rest))
  | markOperand {o : Operand α} {rest : List (Frame α)} (hd : s.depth = 0) (hl : s.leaf = "")
      (hs : s.stack = .operand o :: rest) :
      Reads m s '?'
        { s with stack := .operand ⟨m.optional o.value, o.span.cover s.here⟩ :: rest }
  | markLeaf (hd : s.depth = 0) (hl : s.leaf ≠ "") : Reads m s '?' { s with marked := true }

theorem readSeparator_eq_ok_iff :
    s.readSeparator m c = .ok t ↔
      ∃ o frame rest, s.operand? m = some o ∧ s.below = .opened frame :: rest ∧
        frame.accepts (String.singleton c) = true ∧
        s.startType (.key o :: .opened frame.separated :: rest) = t := by
  unfold readSeparator failHere
  split
  · next ho _ => simp [ho]
  · next ho _ => simp [ho]
  · next hs => simp [hs]
  · next hs => simp [hs]
  · next hs => simp [hs]
  · next o frame rest ho hs =>
    split_ifs with ha <;> simp [ho, hs, ha]

theorem closeFrame_eq_ok_iff {frame : OpenContainer} {value : Except Reason α}
    {rest : List (Frame α)} :
    s.closeFrame c frame value rest = .ok t ↔
      frame.closer = String.singleton c ∧ ∃ v, value = .ok v ∧
        s.startType (.operand ⟨v, frame.span.cover s.here⟩ :: rest) = t := by
  unfold closeFrame failHere
  split_ifs with h
  · cases value <;> simp [h]
  · simp [h]

theorem readCloser_eq_ok_iff :
    s.readCloser m c = .ok t ↔
      (∃ o frame rest, s.operand? m = some o ∧ s.below = .opened frame :: rest ∧
        frame.closer = String.singleton c ∧ frame.isSequence = true ∧
        s.startType (.operand ⟨m.sequence o.value, frame.span.cover s.here⟩ :: rest) = t) ∨
      ∃ o k frame rest, s.operand? m = some o ∧ s.below = .key k :: .opened frame :: rest ∧
        frame.closer = String.singleton c ∧
        s.startType (.operand ⟨m.dictionary k.value o.value, frame.span.cover s.here⟩ :: rest) =
          t := by
  unfold readCloser
  split
  · next ho _ => simp [failHere, ho]
  · next ho _ => simp [ho]
  · next hs => simp [hs]
  · next o k frame rest ho hs =>
    rw [closeFrame_eq_ok_iff]
    simp [ho, hs]
  · next o frame rest ho hs =>
    rw [closeFrame_eq_ok_iff]
    cases hq : frame.isSequence <;> simp [ho, hs, hq]
  · next h₁ h₂ h₃ h₄ h₅ =>
    simp only [failHere, reduceCtorEq, false_iff, not_or, not_exists, not_and]
    exact ⟨fun o frame rest ho hs => absurd hs (h₅ o frame rest ho),
      fun o k frame rest ho hs => absurd hs (h₄ o k frame rest ho)⟩

theorem not_special_of_isBlank (h : isBlank c = true) :
    c ∉ closers ∧ c ∉ separators ∧ c ≠ '?' := by
  refine ⟨?_, ?_, ?_⟩
  · intro hc
    rcases mem_closers.mp hc with rfl | rfl <;> exact absurd h (by decide)
  · intro hc
    rcases mem_separators.mp hc with rfl | rfl <;> exact absurd h (by decide)
  · rintro rfl
    exact absurd h (by decide)

theorem Reads.of_enclosed (hd : s.depth ≠ 0) : s.Reads m c (s.readEnclosed c) := by
  unfold readEnclosed
  split_ifs with hb hl hg
  · simp only [Bool.or_eq_true, decide_eq_true_eq] at hb
    exact .skip (hb.imp_right fun hq => ⟨hq, hd⟩)
  all_goals simp only [Bool.or_eq_true, decide_eq_true_eq, not_or, Bool.not_eq_true] at hb
  · subst hl
    exact .extend hb.1 hb.2 rfl fun h => absurd h hd
  · exact .extend hb.1 hb.2 (by rw [nest, if_neg hl, if_neg hd, if_pos hg])
      fun h => absurd h hd
  · exact .extend hb.1 hb.2 (by rw [nest, if_neg hl, if_neg hd, if_neg hg])
      fun h => absurd h hd

theorem Reads.of_read (h : s.read m c = .ok t) : s.Reads m c t := by
  unfold read at h
  split_ifs at h with hd hc hs hq hb ha hk
  · obtain rfl := Except.ok.inj h
    exact .of_enclosed hd
  · have hd : s.depth = 0 := not_ne_iff.mp hd
    rw [List.contains_iff_mem] at hc
    rcases readCloser_eq_ok_iff.mp h with
      ⟨o, frame, rest, ho, hs, hf, hq, rfl⟩ | ⟨o, k, frame, rest, ho, hs, hf, rfl⟩
    · exact .closeSequence hd hc ho hs hf hq
    · exact .closeDictionary hd hc ho hs hf
  · have hd : s.depth = 0 := not_ne_iff.mp hd
    obtain ⟨o, frame, rest, ho, hb, ha, rfl⟩ := readSeparator_eq_ok_iff.mp h
    exact .separate hd (List.contains_iff_mem.mp hs) ho hb ha
  · have hd : s.depth = 0 := not_ne_iff.mp hd
    subst hq
    unfold readMark failHere at h
    split_ifs at h with hl
    · split at h
      · next o rest hs =>
        obtain rfl := Except.ok.inj h
        exact .markOperand hd hl hs
      · simp at h
    · obtain rfl := Except.ok.inj h
      exact .markLeaf hd hl
  · obtain rfl := Except.ok.inj h
    exact .skip (.inl hb)
  · have hd : s.depth = 0 := not_ne_iff.mp hd
    subst ha
    unfold readAngle failHere at h
    split_ifs at h with hl
    split at h
    · next opener hk =>
      obtain rfl := Except.ok.inj h
      exact .openKeyword hd hl hk
    · next hk =>
      obtain rfl := Except.ok.inj h
      exact .extend (by decide) (by decide) (by rw [hd]; rfl) fun _ _ => ⟨hl, hk⟩
  · have hd : s.depth = 0 := not_ne_iff.mp hd
    subst hk
    unfold readBracket failHere at h
    split_ifs at h with ht
    obtain rfl := Except.ok.inj h
    exact .openBracket hd ht
  · have hd : s.depth = 0 := not_ne_iff.mp hd
    obtain rfl := Except.ok.inj h
    have hn : nest s.depth c = some s.depth := by
      have hm : c ∉ ['>', '[', ']', ',', ':'] := by
        simp only [closers, separators, List.contains_cons, List.contains_nil, Bool.or_false,
          Bool.or_eq_true, beq_iff_eq, not_or] at hc hs
        simp [hc, hs, hk]
      rw [nest, if_neg ha, if_pos hd, if_neg hm, hd]
    exact .extend (Bool.not_eq_true _ ▸ hb) hq hn fun _ h => absurd h ha

/-- Outside enclosed spans and their brackets, a leaf's character is read last of all. -/
theorem read_plain (hd : s.depth = 0) (hb : isBlank c = false) (hq : c ≠ '?')
    (hc : c ∉ ['<', '>', '[', ']', ',', ':']) : s.read m c = .ok (s.extendLeaf c) := by
  simp only [List.mem_cons, List.not_mem_nil, or_false, not_or] at hc
  simp [read, hd, hb, hq, hc, closers, separators]

theorem Reads.read_eq (h : s.Reads m c t) : s.read m c = .ok t := by
  cases h with
  | skip h =>
    rcases h with hb | ⟨rfl, hd⟩
    · obtain ⟨hc, hs, hq⟩ := not_special_of_isBlank hb
      simp [read, readEnclosed, hb, hc, hs, hq]
    · simp [read, readEnclosed, hd]
  | extend hb hq hn ha =>
    unfold nest at hn
    split_ifs at hn with hl hd hm hg
    · subst hl
      obtain rfl := Option.some.inj hn
      by_cases hd : s.depth = 0
      · obtain ⟨hl, hk⟩ := ha hd rfl
        simp [read, readAngle, hd, hl, hk, closers, separators, isBlank]
      · simp [read, readEnclosed, hd, hb]
    · obtain rfl := Option.some.inj hn
      rw [read_plain hd hb hq (List.not_mem_cons_of_ne_of_not_mem hl hm), extendLeaf, ← hd]
    · obtain rfl := Option.some.inj hn
      subst hg
      simp [read, readEnclosed, hd, hb]
    · obtain rfl := Option.some.inj hn
      simp [read, readEnclosed, extendLeaf, hd, hb, hq, hl, hg]
  | openKeyword hd hl hk => simp [read, readAngle, hd, hl, hk, closers, separators, isBlank]
  | openBracket hd ht => simp [read, readBracket, hd, ht, closers, separators, isBlank]
  | separate hd hc ho hs ha =>
    have hn : ¬ closers.contains c := by
      rcases mem_separators.mp hc with rfl | rfl <;> decide
    rw [read, if_neg (not_ne_iff.mpr hd), if_neg hn, if_pos (List.contains_iff_mem.mpr hc)]
    exact readSeparator_eq_ok_iff.mpr ⟨_, _, _, ho, hs, ha, rfl⟩
  | closeSequence hd hc ho hs hf hq =>
    rw [read, if_neg (not_ne_iff.mpr hd), if_pos (List.contains_iff_mem.mpr hc)]
    exact readCloser_eq_ok_iff.mpr (.inl ⟨_, _, _, ho, hs, hf, hq, rfl⟩)
  | closeDictionary hd hc ho hs hf =>
    rw [read, if_neg (not_ne_iff.mpr hd), if_pos (List.contains_iff_mem.mpr hc)]
    exact readCloser_eq_ok_iff.mpr (.inr ⟨_, _, _, _, ho, hs, hf, rfl⟩)
  | markOperand hd hl hs => simp [read, readMark, hd, hl, hs, closers, separators]
  | markLeaf hd hl => simp [read, readMark, hd, hl, closers, separators]

/-- The constructors of `Reads` are the ways to read a character. -/
theorem read_eq_ok_iff : s.read m c = .ok t ↔ s.Reads m c t :=
  ⟨.of_read, Reads.read_eq⟩

/-! ## Steps and runs -/

/-- The state after the next character, when reading it gave `u`. -/
abbrev next (s u : Scan α) : Scan α :=
  { u with position := s.position + 1 }

theorem step_eq_ok_iff : s.step m c = .ok t ↔ ∃ u, s.Reads m c u ∧ s.next u = t := by
  unfold step
  constructor
  · intro h
    split at h
    · next u hu => exact ⟨u, .of_read hu, Except.ok.inj h⟩
    · simp at h
  · rintro ⟨u, hu, rfl⟩
    rw [hu.read_eq]

@[simp] theorem run_nil : s.run m [] = .ok s := rfl

theorem run_cons (cs : List Char) : s.run m (c :: cs) = s.step m c >>= fun t => t.run m cs := by
  rw [run, List.foldlM_cons]
  rfl

theorem Reads.run_cons {u : Scan α} (h : s.Reads m c u) (cs : List Char) :
    s.run m (c :: cs) = (s.next u).run m cs := by
  rw [Scan.run_cons, step_eq_ok_iff.mpr ⟨u, h, rfl⟩]
  rfl

theorem run_append (cs ds : List Char) :
    s.run m (cs ++ ds) = s.run m cs >>= fun t => t.run m ds := by
  rw [run, List.foldlM_append]
  rfl

theorem run_append_of_eq {cs : List Char} (h : s.run m cs = .ok t) (ds : List Char) :
    s.run m (cs ++ ds) = t.run m ds := by
  rw [run_append, h]
  rfl

theorem Reads.run_snoc {u : Scan α} (h : t.Reads m c u) {cs : List Char} (ht : s.run m cs = .ok t) :
    s.run m (cs ++ [c]) = .ok (t.next u) := by
  rw [run_append_of_eq ht, h.run_cons]
  rfl

/-- What the start has and every character keeps, every state of a run has. The property may speak
of the text read so far. -/
theorem run_induction {P : List Char → Scan α → Prop}
    (hstep : ∀ {text s c u}, P text s → s.Reads m c u → P (text ++ [c]) (s.next u))
    {text cs : List Char} (hs : P text s) (h : s.run m cs = .ok t) : P (text ++ cs) t := by
  induction cs generalizing s text with
  | nil =>
    obtain rfl := Except.ok.inj h
    simpa using hs
  | cons c cs ih =>
    rw [run_cons] at h
    cases hu : s.step m c with
    | error fault => rw [hu] at h; cases h
    | ok u =>
      rw [hu] at h
      obtain ⟨v, hv, rfl⟩ := step_eq_ok_iff.mp hu
      simpa using ih (hstep hs hv) h

/-- The same from the start of a scan, where a step may use the run that leads to its state. -/
theorem run_start_induction {P : List Char → Scan α → Prop} (hstart : P [] {})
    (hstep : ∀ {text s c u}, run m {} text = .ok s → P text s → s.Reads m c u →
      P (text ++ [c]) (s.next u))
    {text : List Char} (h : run m {} text = .ok t) : P text t := by
  have hrun : run m {} text = .ok t ∧ P text t :=
    run_induction (P := fun text s => run m {} text = .ok s ∧ P text s)
      (fun hs hu => ⟨hu.run_snoc hs.1, hstep hs.1 hs.2 hu⟩) ⟨run_nil, hstart⟩ h
  exact hrun.2

theorem position_of_run {cs : List Char} (h : s.run m cs = .ok t) :
    t.position = s.position + cs.length := by
  have hstart : s.position = s.position + ([] : List Char).length := rfl
  refine run_induction (P := fun text t => t.position = s.position + text.length) ?_ hstart h
  intro text t c u ht _
  show t.position + 1 = _
  rw [ht, List.length_append, List.length_singleton, Nat.add_assoc]

theorem run_preserves {P : Scan α → Prop} (hstep : ∀ {s c u}, P s → s.Reads m c u → P (s.next u))
    {cs : List Char} (hs : P s) (h : s.run m cs = .ok t) : P t :=
  @run_induction α m s t (fun _ s => P s) (fun hs hr => hstep hs hr) [] cs hs h

end Scan

end Comparability.TypeExpr
