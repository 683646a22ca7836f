import Comparability.Proofs.TypeExpr.Substitution

/-!
# What may follow a container

After a finished container, blanks and marks can be read and nothing else, or the text is malformed.
The scan does not say so at once: it opens further containers and begins further leaves on top of
the finished one, and may find the fault much later. But nothing that it reads takes the operand at
the bottom of the stack again.

* `Alone` : one finished operand is all that has been read;
* `Overlaid` : something was read on top of the finished operand at the bottom of the stack;
* `Alone.of_run` : what follows a finished operand is blanks and marks, or leaves it overlaid.
-/

namespace Comparability.TypeExpr

open Text (isBlank)

variable {α : Type} {m : Meaning α}

instance (text : List Char) : Decidable (Trail text) :=
  List.decidableBAll (fun c => isBlank c = true ∨ c = '?') text

namespace Scan

variable {s t u : Scan α} {c : Char}

structure Alone (s : Scan α) : Prop where
  ready : s.Ready
  stack : ∃ o, s.stack = [.operand o]

/-- A finished operand lies at the bottom of the stack, and a frame or a pending leaf on it. -/
structure Overlaid (s : Scan α) : Prop where
  bottom : ∃ o, s.stack.getLast? = some (.operand o)
  above : s.leaf ≠ "" ∨ 2 ≤ s.stack.length

/-! ## On top of a finished operand -/

/-- A closer or a separator takes an open container, with its key or without, from above the operand
at the bottom. -/
theorem Overlaid.bottom_rest (h : s.Overlaid) (frames : List (Frame α)) {rest : List (Frame α)}
    (hb : s.below = frames ++ rest) (hf : ∀ f ∈ frames, ∀ o, f ≠ .operand o)
    (hne : frames ≠ []) : ∃ o, rest.getLast? = some (.operand o) := by
  obtain ⟨o, ho⟩ := h.bottom
  obtain ⟨above, hs⟩ := s.below_suffix
  have hlast : (frames ++ rest).getLast? = some (.operand o) := by
    have hcons := List.append_ne_nil_of_left_ne_nil hne rest
    rw [← ho, ← hs, hb, List.getLast?_append_of_ne_nil _ hcons]
  cases rest with
  | nil =>
    rw [List.append_nil] at hlast
    exact absurd rfl (hf _ (List.mem_of_getLast? hlast) o)
  | cons f rest =>
    rw [List.getLast?_append_of_ne_nil _ (List.cons_ne_nil f rest)] at hlast
    exact ⟨o, hlast⟩

theorem Overlaid.of_append (frames : List (Frame α)) {rest : List (Frame α)}
    (hs : s.stack = frames ++ rest) (hne : frames ≠ [])
    (h : ∃ o, rest.getLast? = some (.operand o)) : s.Overlaid := by
  obtain ⟨o, ho⟩ := h
  have hrest : rest ≠ [] := by
    rintro rfl
    cases ho
  refine ⟨⟨o, by rw [hs, List.getLast?_append_of_ne_nil _ hrest, ho]⟩, .inr ?_⟩
  have hf := List.length_pos_iff.mpr hne
  have hr := List.length_pos_iff.mpr hrest
  rw [hs, List.length_append]
  omega

/-- No character takes away what lies on the operand. -/
theorem Overlaid.read (h : s.Overlaid) (hu : s.Reads m c u) : (s.next u).Overlaid := by
  cases hu with
  | skip _ => exact ⟨h.bottom, h.above⟩
  | extend _ _ _ _ => exact ⟨h.bottom, .inl (by simp [extendLeaf])⟩
  | markLeaf _ hl => exact ⟨h.bottom, .inl hl⟩
  | openKeyword _ _ _ => exact .of_append [_] rfl (List.cons_ne_nil _ _) h.bottom
  | openBracket _ _ => exact .of_append [_] rfl (List.cons_ne_nil _ _) h.bottom
  | @separate _ o frame rest _ _ _ hb _ =>
    have hrest := h.bottom_rest [.opened frame] hb (by simp) (by simp)
    exact .of_append [.key o, .opened frame.separated] rfl (by simp) hrest
  | @closeSequence _ o frame rest _ _ _ hb _ _ =>
    have hrest := h.bottom_rest [.opened frame] hb (by simp) (by simp)
    exact .of_append [_] rfl (List.cons_ne_nil _ _) hrest
  | @closeDictionary _ o k frame rest _ _ _ hb _ =>
    have hrest := h.bottom_rest [.key k, .opened frame] hb (by simp) (by simp)
    exact .of_append [_] rfl (List.cons_ne_nil _ _) hrest
  | @markOperand p rest _ hl hs =>
    have hlength := h.above.resolve_left (not_ne_iff.mpr hl)
    obtain ⟨o, ho⟩ := h.bottom
    rw [hs] at ho hlength
    cases rest with
    | nil => simp at hlength
    | cons f rest =>
      rw [List.getLast?_cons_cons] at ho
      exact .of_append [_] rfl (List.cons_ne_nil _ _) ⟨o, ho⟩

theorem Overlaid.conclude_ne_ok (h : s.Overlaid) (v : α) : s.conclude m ≠ .ok v := by
  intro hv
  obtain ⟨-, span, ho, hb⟩ := conclude_eq_ok_iff.mp hv
  rcases operand?_eq_some_iff.mp ho with ⟨-, -, hstack⟩ | ⟨hl, hstack⟩
  · obtain ⟨o, hbottom⟩ := h.bottom
    rw [← hstack, hb] at hbottom
    cases hbottom
  · have hlength := h.above.resolve_left (not_ne_iff.mpr hl)
    rw [hstack, hb] at hlength
    simp at hlength

/-! ## After a finished operand -/

/-- The next character is a blank or a mark, or something is read on top of the operand. -/
theorem Alone.read (h : s.Alone) (hu : s.Reads m c u) :
    (isBlank c = true ∨ c = '?') ∧ (s.next u).Alone ∨ (s.next u).Overlaid := by
  obtain ⟨o, hs⟩ := h.stack
  have hbottom : ∃ o, s.stack.getLast? = some (.operand o) :=
    ⟨o, by rw [hs, List.getLast?_singleton]⟩
  have hbelow : s.below = [] := by rw [below, if_pos h.ready.leaf, hs]
  cases hu with
  | skip hc => exact .inl ⟨hc.imp_right And.left, h.ready.next s, o, hs⟩
  | extend _ _ _ _ => exact .inr ⟨hbottom, .inl (by simp [extendLeaf])⟩
  | markLeaf _ hl => exact absurd h.ready.leaf hl
  | openKeyword _ hl _ => exact absurd h.ready.leaf hl
  | openBracket _ _ =>
    exact .inr (.of_append [_] rfl (List.cons_ne_nil _ _) hbottom)
  | separate _ _ _ hb _ => rw [hbelow] at hb; cases hb
  | closeSequence _ _ _ hb _ _ => rw [hbelow] at hb; cases hb
  | closeDictionary _ _ _ hb _ => rw [hbelow] at hb; cases hb
  | markOperand _ _ hstack =>
    obtain ⟨-, rfl⟩ := List.cons.inj (hs.symm.trans hstack)
    exact .inl ⟨.inr rfl, (h.ready.withStack _).next s, _, rfl⟩

/-- **What follows a finished operand** is blanks and marks, or leaves it overlaid. -/
theorem Alone.of_run (h : s.Alone) {cs : List Char} (ht : s.run m cs = .ok t) :
    Trail cs ∧ t.Alone ∨ t.Overlaid := by
  have hstart : Trail [] ∧ s.Alone ∨ s.Overlaid := .inl ⟨Blanks.nil.trail, h⟩
  refine run_induction (P := fun text t => Trail text ∧ t.Alone ∨ t.Overlaid) ?_ hstart ht
  rintro text s c u (⟨htrail, hs⟩ | hs) hu
  · exact (hs.read hu).imp_left fun ⟨hc, hs⟩ => ⟨htrail.append (.singleton hc), hs⟩
  · exact .inr (hs.read hu)

end Scan

variable {classify : Classifier} {text : String} {c : Capability}

theorem IsContainer.trail_of_scan (h : IsContainer classify text c) {rest : String}
    {d : Capability} {stack : List (Frame Capability)}
    (hd : scan (capabilityMeaning classify) (text ++ rest) = .ok (d, stack)) :
    Trail rest.toList ∧ stack ≠ [] := by
  obtain ⟨-, below, hscan, hne⟩ := h
  obtain ⟨s, span, hs, hready, hstack⟩ :=
    Scan.Ready.run_container (s := {}) (fun _ => rfl) ⟨rfl, rfl, rfl, rfl⟩ hscan hne
  obtain ⟨t, ht, hend, rfl⟩ := scan_eq_ok_iff.mp hd
  rw [String.toList_append, Scan.run_append_of_eq hs] at ht
  have halone : s.Alone := ⟨hready, _, hstack⟩
  rcases halone.of_run ht with ⟨htrail, ht⟩ | hover
  · obtain ⟨o, ho⟩ := ht.stack
    exact ⟨htrail, ho ▸ List.cons_ne_nil _ _⟩
  · exact absurd hend (hover.conclude_ne_ok d)

theorem IsContainer.append_trail (h : IsContainer classify text c) {rest : String}
    (hr : Trail rest.toList) : IsContainer classify (text ++ rest) c := by
  have hc : (resolve classify (text ++ rest)).outcome = .ok c := by
    rw [resolve_outcome_eq_ok_iff_derives, String.toList_append]
    exact (resolve_outcome_eq_ok_iff_derives.mp h.1).append_trail hr
  obtain ⟨stack, hscan⟩ := resolve_outcome_eq_ok_iff.mp hc
  exact ⟨hc, stack, hscan, (h.trail_of_scan hscan).2⟩

/-- **A finished container can only be followed by blanks and marks.** A text that goes on after a
container is well-formed exactly when nothing else follows, and is then a container of the same
capability. -/
theorem resolve_append_container (classify : Classifier) (text : String) (c : Capability)
    (h : IsContainer classify text c) (rest : String) :
    ((∃ d, (resolve classify (text ++ rest)).outcome = .ok d) ↔ Trail rest.toList) ∧
    (Trail rest.toList → IsContainer classify (text ++ rest) c) ∧
    (¬ Trail rest.toList → (resolve classify (text ++ rest)).isOk = false) := by
  have htrail : ∀ d, (resolve classify (text ++ rest)).outcome = .ok d → Trail rest.toList := by
    intro d hd
    obtain ⟨stack, hscan⟩ := resolve_outcome_eq_ok_iff.mp hd
    exact (h.trail_of_scan hscan).1
  refine ⟨⟨fun ⟨d, hd⟩ => htrail d hd, fun hr => ⟨c, (h.append_trail hr).1⟩⟩,
    fun hr => h.append_trail hr, fun hr => ?_⟩
  cases hd : (resolve classify (text ++ rest)).outcome with
  | error e => rw [Resolution.isOk, hd]
  | ok d => exact absurd (htrail d hd) hr

/-- Marks and blanks after a set, and a container of its own, whose fault is found in the end. -/
theorem resolve_after_set :
    IsContainer (fun _ => .comparable) " Set<A?>" .equatable ∧
      (resolve (fun _ => .comparable) (" Set<A?>" ++ " ? \t")).outcome = .ok .equatable ∧
      (resolve (fun _ => .comparable) (" Set<A?>" ++ "? [B: Array<C>]?")).isOk = false := by
  have hset : IsContainer (fun _ => .comparable) " Set<A?>" .equatable :=
    ⟨rfl, _, rfl, List.cons_ne_nil _ _⟩
  have h := resolve_append_container (fun _ => .comparable) " Set<A?>" .equatable hset
  have htrail : Trail " ? \t".toList := by decide
  have hnot : ¬ Trail "? [B: Array<C>]?".toList := by decide
  exact ⟨hset, ((h " ? \t").2.1 htrail).1, (h "? [B: Array<C>]?").2.2 hnot⟩

end Comparability.TypeExpr
