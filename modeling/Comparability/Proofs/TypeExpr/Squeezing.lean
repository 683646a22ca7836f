import Comparability.Names.Table
import Comparability.Proofs.Text.Blank
import Comparability.Proofs.TypeExpr.Inertness
import Comparability.Proofs.TypeExpr.Invariant

/-!
# Type expressions without their blanks

A text and the text without its blanks are read to one verdict, unless a blank tears an opener: the
scan of the text without blanks reads an opener where the text itself has a blank within it. The two
are read side by side, from one state as long as their characters are the same (`verdict_squeezed`).

What is torn is a keyword, and a keyword with a blank in it is the beginning of a leaf
(`TornKeyword.isLeaf`). So `Array <Int>` is a leaf with a name of its own and no array.
-/

namespace Comparability.TypeExpr

open Text (isBlank squeeze squeezeChars squeezeChars_append squeezeChars_eq_self
  squeezeChars_cons_of_isBlank squeezeChars_cons_of_not_isBlank toList_squeeze)

variable {α : Type} {m : Meaning α}

/-! ## Openers with a blank in them -/

/-- A blank of the text stands within the characters that are read as one opener when the blanks are
gone. -/
def TearsOpener (m : Meaning α) (text : List Char) : Prop :=
  ∃ i : Fin text.length, isBlank text[i] = true ∧
    SplitsOpener m (squeezeChars text) (squeezeChars (text.take i)).length

instance (text : List Char) : Decidable (TearsOpener m text) :=
  inferInstanceAs (Decidable (∃ _i : Fin text.length, _ ∧ _))

/-- On the way through the text a container with the span is open where the span ends. -/
def OpenedAtStop (m : Meaning α) (text : List Char) (span : Text.Span) : Prop :=
  ∃ done s, Reaches m text done s ∧ done.length = span.stop ∧
    ∃ frame, .opened frame ∈ s.stack ∧ frame.span = span

theorem OpenedAtStop.append {text : List Char} {span : Text.Span} (h : OpenedAtStop m text span)
    (rest : List Char) : OpenedAtStop m (text ++ rest) span := by
  obtain ⟨done, s, hs, hlength, hframe⟩ := h
  exact ⟨done, s, hs.append rest, hlength, hframe⟩

namespace Scan

variable {s u : Scan α} {c : Char} {text rest : List Char}

/-- An open container was there before, or its opener ends with the character. -/
theorem Reads.opened_of_mem (h : s.Reads m c u) (hs : s.SpansInOrder) {frame : OpenContainer}
    (hf : .opened frame ∈ u.stack) :
    (∃ g, .opened g ∈ s.stack ∧ g.span = frame.span) ∨ frame.span.stop = s.position + 1 := by
  have hbelow : ∀ {g}, .opened g ∈ s.below → .opened g ∈ s.stack :=
    fun hg => s.below_suffix.subset hg
  cases h with
  | skip _ => exact .inl ⟨frame, hf, rfl⟩
  | extend _ _ _ _ => exact .inl ⟨frame, hf, rfl⟩
  | markLeaf _ _ => exact .inl ⟨frame, hf, rfl⟩
  | openKeyword _ hl _ =>
    rcases List.mem_cons.mp hf with hf | hf
    · obtain rfl := Frame.opened.inj hf
      have hle := (hs.leaf hl).behind _ List.mem_cons_self
      exact .inr (Nat.max_eq_right (Nat.le_succ_of_le hle))
    · exact .inl ⟨frame, hf, rfl⟩
  | openBracket _ _ =>
    rcases List.mem_cons.mp hf with hf | hf
    · obtain rfl := Frame.opened.inj hf
      exact .inr (Nat.max_self _)
    · exact .inl ⟨frame, hf, rfl⟩
  | @separate _ _ g rest _ _ _ hb _ =>
    rcases List.mem_cons.mp ((List.mem_cons.mp hf).resolve_left (by simp)) with hf | hf
    · obtain rfl := Frame.opened.inj hf
      exact .inl ⟨g, hbelow (hb ▸ List.mem_cons_self), (OpenContainer.span_separated g).symm⟩
    · exact .inl ⟨frame, hbelow (hb ▸ List.mem_cons_of_mem _ hf), rfl⟩
  | closeSequence _ _ _ hb _ _ =>
    have hf := (List.mem_cons.mp hf).resolve_left (by simp)
    exact .inl ⟨frame, hbelow (hb ▸ List.mem_cons_of_mem _ hf), rfl⟩
  | closeDictionary _ _ _ hb _ =>
    have hf := (List.mem_cons.mp hf).resolve_left (by simp)
    exact .inl ⟨frame, hbelow (hb ▸ List.mem_cons_of_mem _ (List.mem_cons_of_mem _ hf)), rfl⟩
  | markOperand _ _ hb =>
    have hf := (List.mem_cons.mp hf).resolve_left (by simp)
    exact .inl ⟨frame, hb ▸ List.mem_cons_of_mem _ hf, rfl⟩

/-- A container has been open from the end of its opener on. -/
theorem openedAtStop_of_run (hm : ∀ v, m.optional v = v) (h : run m {} text = .ok s)
    {frame : OpenContainer} (hf : .opened frame ∈ s.stack) : OpenedAtStop m text frame.span := by
  refine run_start_induction
    (P := fun text s => ∀ frame, .opened frame ∈ s.stack → OpenedAtStop m text frame.span)
    (fun _ hf => absurd hf List.not_mem_nil) ?_ h frame hf
  intro text s c u hrun hs hu frame hf
  have ha := accounts_of_run hm hrun
  rcases hu.opened_of_mem ha.spansInOrder hf with ⟨g, hg, hspan⟩ | hstop
  · exact hspan ▸ (hs g hg).append [c]
  · refine ⟨text ++ [c], _, ⟨List.prefix_rfl, hu.run_snoc hrun⟩, ?_, frame, hf, rfl⟩
    rw [hstop, ha.position, List.length_append, List.length_singleton]

end Scan

theorem isBlank_of_mem_opener {opener : Opener} (ho : opener ∈ Opener.all) :
    ∀ c ∈ opener.text.toList, isBlank c = false := by
  have hall : ∀ opener ∈ Opener.all, (opener.text.toList.all fun c => !isBlank c) = true := by
    decide
  simpa using hall opener ho

/-- An opener that goes on after a position ends before the next blank, and whether it does so does
not depend on the blanks behind it. -/
theorem SplitsOpener.squeeze_rest (hm : ∀ v, m.optional v = v) {done rest : List Char}
    (h : SplitsOpener m (done ++ rest) done.length) :
    SplitsOpener m (done ++ squeezeChars rest) done.length := by
  obtain ⟨read, s, hr, frame, hf, hlt, hgt⟩ := h
  obtain ⟨upto, t, ht, hlen, g, hg, hspan⟩ := Scan.openedAtStop_of_run hm hr.run hf
  obtain ⟨opener, hsp, -⟩ := (Scan.accounts_of_run hm ht.run).spells_opened hg
  obtain ⟨before, after, hupto, hstart⟩ := hsp.text
  have hstop := hsp.stop
  rw [hspan] at hstart hstop
  obtain ⟨more, rfl⟩ : done <+: upto := by
    have hdone : done <+: done ++ rest := List.prefix_append _ _
    exact List.prefix_of_prefix_length_le hdone (ht.isPrefix.trans hr.isPrefix) (by omega)
  have hmore : more <:+ opener.text.toList := by
    have hlength := congrArg List.length hupto
    simp only [List.length_append] at hlength hlen
    obtain rfl : after = [] := List.length_eq_zero_iff.mp (by omega)
    rw [List.append_nil] at hupto
    have hopener : opener.text.toList <:+ done ++ more := ⟨before, hupto.symm⟩
    exact List.suffix_of_suffix_length_le (List.suffix_append _ _) hopener (by omega)
  obtain ⟨behind, rfl⟩ : more <+: rest :=
    (List.prefix_append_right_inj done).mp (ht.isPrefix.trans hr.isPrefix)
  have hsqueeze : squeezeChars (more ++ behind) = more ++ squeezeChars behind := by
    rw [squeezeChars_append,
      squeezeChars_eq_self fun c hc => isBlank_of_mem_opener hsp.mem c (hmore.subset hc)]
  refine ⟨done ++ more, t, ⟨?_, ht.run⟩, g, hg, hspan ▸ hlt, hspan ▸ hgt⟩
  rw [hsqueeze, ← List.append_assoc]
  exact List.prefix_append _ _

/-! ## With and without blanks -/

namespace Scan

variable {s : Scan α} {done : List Char}

theorem verdict_blank_cons (hm : ∀ v, m.optional v = v) {c : Char} {rest : List Char}
    (hs : run m {} done = .ok s) (hc : isBlank c = true)
    (hsplit : ¬ SplitsOpener m (done ++ rest) done.length) :
    (s.run m (c :: rest) >>= Scan.conclude m).mapError Fault.reason =
      (s.run m rest >>= Scan.conclude m).mapError Fault.reason := by
  have ha := accounts_of_run hm hs
  obtain ⟨hu, hi⟩ := ha.inert_blank hc
  rw [hu.run_cons]
  rcases hi with hi | hi
  · refine (hi.verdict hm fun read v hp hv frame hf hlt hgt => hsplit ?_).symm
    have hrun := (run_append_of_eq hs read).trans hv
    rw [← ha.position]
    exact ⟨_, v, ⟨(List.prefix_append_right_inj _).mpr hp, hrun⟩, frame, hf, hlt, hgt⟩
  · exact (hi.verdict rest).symm

/-- From one state, what comes next leads to the same verdict without its blanks. -/
theorem verdict_squeezed (hm : ∀ v, m.optional v = v) {rest : List Char}
    (hs : run m {} done = .ok s)
    (htorn : ∀ before c after, rest = before ++ c :: after → isBlank c = true →
      ¬ SplitsOpener m (done ++ squeezeChars rest) (done ++ squeezeChars before).length) :
    (s.run m rest >>= Scan.conclude m).mapError Fault.reason =
      (s.run m (squeezeChars rest) >>= Scan.conclude m).mapError Fault.reason := by
  induction rest generalizing done s with
  | nil => rfl
  | cons c rest ih =>
    cases hc : isBlank c with
    | true =>
      have hsqueeze := squeezeChars_cons_of_isBlank hc rest
      rw [hsqueeze] at htorn ⊢
      have hsplit : ¬ SplitsOpener m (done ++ rest) done.length := by
        intro h
        refine htorn [] c rest rfl hc ?_
        simpa [squeezeChars] using h.squeeze_rest hm
      rw [verdict_blank_cons hm hs hc hsplit]
      refine ih hs fun before d after he hd => ?_
      have h := htorn (c :: before) d after (by rw [he]; rfl) hd
      rwa [squeezeChars_cons_of_isBlank hc] at h
    | false =>
      have hsqueeze := squeezeChars_cons_of_not_isBlank hc rest
      rw [hsqueeze, run_cons, run_cons]
      cases hu : s.step m c with
      | error fault => rfl
      | ok u =>
        obtain ⟨v, hv, rfl⟩ := step_eq_ok_iff.mp hu
        refine ih (hv.run_snoc hs) fun before d after he hd => ?_
        have h := htorn (c :: before) d after (by rw [he]; rfl) hd
        rw [hsqueeze, squeezeChars_cons_of_not_isBlank hc] at h
        simpa using h

end Scan

/-! ## Torn keywords -/

/-- A keyword with blanks between its characters. -/
structure TornKeyword (raw : List Char) : Prop where
  starts : ∃ c cs, raw = c :: cs ∧ isBlank c = false
  squeezed : squeezeChars raw ∈ keywords
  torn : ∀ k ∈ keywords, ¬ k <+: raw

theorem foldlM_nest_squeezeChars (cs : List Char) (depth : Nat) :
    (squeezeChars cs).foldlM nest depth = cs.foldlM nest depth := by
  induction cs generalizing depth with
  | nil => rfl
  | cons c cs ih =>
    cases hc : isBlank c with
    | true =>
      rw [squeezeChars_cons_of_isBlank hc, List.foldlM_cons, nest_blank (.inl hc), ih]
      rfl
    | false =>
      rw [squeezeChars_cons_of_not_isBlank hc, List.foldlM_cons, List.foldlM_cons]
      exact congrArg _ (funext ih)

theorem keyword_nests :
    ∀ k ∈ keywords, ∃ c cs, k = c :: cs ∧ StartsLeaf c ∧ cs.foldlM nest 0 = some 1 := by
  intro k hk
  rcases mem_keywords.mp hk with rfl | rfl | rfl
  · exact ⟨'A', "rray<".toList, rfl, by decide, rfl⟩
  · exact ⟨'S', "et<".toList, rfl, by decide, rfl⟩
  · exact ⟨'D', "ictionary<".toList, rfl, by decide, rfl⟩

theorem isBlank_of_mem_keyword {k : List Char} (hk : k ∈ keywords) :
    ∀ c ∈ k, isBlank c = false := by
  obtain ⟨-, -, opener, ho, htext⟩ := Scan.keyword_spelling hk
  obtain rfl : opener.text.toList = k := by rw [htext, String.toList_ofList]
  exact isBlank_of_mem_opener ho

/-- What begins with a torn keyword is a leaf, not a container: a keyword that goes beyond the torn
one would have no blanks in it. -/
theorem TornKeyword.isLeaf {raw inner : List Char} (h : TornKeyword raw) (hi : Enclosed inner) :
    IsLeaf (raw ++ inner ++ ['>']) := by
  obtain ⟨c, cs, rfl, hc⟩ := h.starts
  obtain ⟨d, ds, hd, hstart, hnest⟩ := keyword_nests _ h.squeezed
  obtain ⟨rfl, rfl⟩ : c = d ∧ squeezeChars cs = ds := by
    rw [squeezeChars_cons_of_not_isBlank hc] at hd
    exact List.cons.inj hd
  rw [foldlM_nest_squeezeChars] at hnest
  refine isLeaf_iff.mpr ⟨⟨c, cs ++ inner ++ ['>'], by simp, hstart, ?_⟩, fun k hk hp => ?_⟩
  · rw [List.append_assoc, List.foldlM_append, hnest, Option.bind_eq_bind, Option.bind_some,
      List.foldlM_append, hi.foldlM_nest 0]
    rfl
  · rw [List.append_assoc] at hp
    rcases List.prefix_or_prefix_of_prefix hp (List.prefix_append _ _) with hp | hp
    · exact h.torn k hk hp
    · have hself : squeezeChars (c :: cs) = c :: cs :=
        squeezeChars_eq_self fun d hd => isBlank_of_mem_keyword hk d (hp.subset hd)
      exact h.torn _ h.squeezed (by rw [hself])

theorem Resolution.verdict_eq_ok_iff {r : Resolution} {c : Capability} :
    r.verdict = .ok c ↔ r.outcome = .ok c := by
  rw [verdict]
  cases r.outcome <;> simp [Except.mapError]

/-- **Blanks do not matter, but within an opener.** A text and the text without its blanks have one
verdict, and so one capability, unless a blank tears an opener. What begins with a torn keyword is
a leaf: it has the capability of its name. -/
theorem resolve_squeeze (classify : Classifier) :
    (∀ text, ¬ TearsOpener (capabilityMeaning classify) text.toList →
      (resolve classify (squeeze text)).verdict = (resolve classify text).verdict) ∧
    (∀ text c, ¬ TearsOpener (capabilityMeaning classify) text.toList →
      (resolve classify text).outcome = .ok c →
      (resolve classify (squeeze text)).outcome = .ok c) ∧
    (∀ raw inner, TornKeyword raw → Enclosed inner →
      (resolve classify (String.ofList (raw ++ inner ++ ['>']))).outcome =
        .ok (classify (leafText (raw ++ inner ++ ['>'])))) := by
  have hverdict : ∀ text : String, ¬ TearsOpener (capabilityMeaning classify) text.toList →
      (resolve classify (squeeze text)).verdict = (resolve classify text).verdict := by
    intro text htorn
    rw [verdict_resolve, verdict_resolve, toList_squeeze]
    refine (Scan.verdict_squeezed (fun _ => rfl) Scan.run_nil ?_).symm
    intro before c after he hc hsplit
    refine htorn ⟨⟨before.length, by simp [he]⟩, by simp [he, hc], ?_⟩
    simpa [he] using hsplit
  refine ⟨hverdict, fun text c htorn h => ?_, fun raw inner hraw hi => ?_⟩
  · rw [← Resolution.verdict_eq_ok_iff] at h ⊢
    exact (hverdict text htorn).trans h
  · rw [resolve_outcome_eq_ok_iff_derives, String.toList_ofList]
    have hleaf : Derives (capabilityMeaning classify) .leaf (raw ++ inner ++ ['>'])
        (classify (leafText (raw ++ inner ++ ['>']))) := .leaf (hraw.isLeaf hi)
    simpa using Derives.padded (.inr rfl) Blanks.nil hleaf Blanks.nil.trail

/-- Blanks within a leaf, around delimiters and after a keyword, and a keyword torn twice. -/
theorem resolve_squeeze_of_dictionary :
    (resolve (fun _ => .comparable) (squeeze " [Str ing :\tSet< A > ]")).outcome = .ok .equatable ∧
      (resolve (fun _ => .comparable) (squeeze " [Str ing :\tSet< A ]")).verdict =
        .error .mismatchedCloser ∧
      (resolve (fun name => if name = "Array<A>" then .comparable else .neither)
        (String.ofList ("Arr ay <".toList ++ "A".toList ++ ['>']))).outcome = .ok .comparable := by
  have h := resolve_squeeze fun _ => .comparable
  have htorn : TornKeyword "Arr ay <".toList :=
    ⟨⟨'A', "rr ay <".toList, rfl, by decide⟩, by decide, by decide⟩
  have hinner : Enclosed "A".toList := .char (by decide) (by decide) .nil
  exact ⟨h.2.1 " [Str ing :\tSet< A > ]" .equatable (by decide) rfl,
    h.1 " [Str ing :\tSet< A ]" (by decide),
    (resolve_squeeze fun name => if name = "Array<A>" then .comparable else .neither).2.2
      "Arr ay <".toList "A".toList htorn hinner⟩

/-- A blank before the `<` hides an array from the classifier, and a set that must not hold two
types. -/
theorem array_hidden_by_blank :
    (resolve (Names.Table.build {}).classify "Array <Int>").outcome = .ok .neither ∧
      (resolve (Names.Table.build {}).classify (squeeze "Array <Int>")).outcome = .ok .equatable ∧
      (resolve (Names.Table.build {}).classify "Set <A, B>").outcome = .ok .neither ∧
      (resolve (Names.Table.build {}).classify (squeeze "Set <A, B>")).verdict =
        .error .separatorNotAllowed := by
  refine ⟨?_, ?_, ?_, ?_⟩ <;> decide +kernel

end Comparability.TypeExpr
