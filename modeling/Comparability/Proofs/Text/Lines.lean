import Mathlib.Tactic.Common
import Comparability.Text.Lines

/-!
# Lines and what ends them

* `terminators` : the eleven texts that end a line, the line breaks and the carriage return with the
  line feed (`mem_terminators_iff`);
* `filter_linesOfChars` : the lines of a text are its pieces between line breaks, but for empty ones;
* `filter_lines_append` : the lines of two texts with a terminator between them are those of each;
* `OneLine` : a text without line breaks is its only line (`filter_lines_of_oneLine`);
* `line_induction` : every text is one line, or one line before a line break and another text.

A carriage return that ends a line and a line feed that ends the next one are read together if
that next line is empty. This is why lines are compared without the empty ones.
-/

namespace Comparability.Text

def terminators : List String :=
  ["\n", "\r", "\r\n", "\x0b", "\x0c", "\x1c", "\x1d", "\x1e", "\u0085", "\u2028", "\u2029"]

def OneLine (s : String) : Prop :=
  ∀ c ∈ s.toList, isLineBreak c = false

instance (s : String) : Decidable (OneLine s) :=
  List.decidableBAll (isLineBreak · = false) s.toList

@[simp] theorem oneLine_append {s t : String} : OneLine (s ++ t) ↔ OneLine s ∧ OneLine t := by
  simp only [OneLine, String.toList_append, List.forall_mem_append]

variable {t : String} {c : Char} {cs : List Char}

theorem singleton_mem_terminators (h : isLineBreak c = true) :
    String.singleton c ∈ terminators := by
  have hcode : c.toNat ∈ [0x0A, 0x0B, 0x0C, 0x0D, 0x1C, 0x1D, 0x1E, 0x85, 0x2028, 0x2029] := by
    simp only [isLineBreak, Bool.or_eq_true, Bool.and_eq_true, decide_eq_true_eq, beq_iff_eq] at h
    simp only [List.mem_cons, List.not_mem_nil, or_false]
    omega
  have hall : ∀ n ∈ [0x0A, 0x0B, 0x0C, 0x0D, 0x1C, 0x1D, 0x1E, 0x85, 0x2028, 0x2029],
      String.singleton (Char.ofNat n) ∈ terminators := by
    decide
  have hc := hall _ hcode
  rwa [Char.ofNat_toNat] at hc

theorem mem_terminators_iff :
    t ∈ terminators ↔ t = "\r\n" ∨ ∃ c, isLineBreak c = true ∧ t = String.singleton c := by
  constructor
  · have hall : ∀ t ∈ terminators, t = "\r\n" ∨
        isLineBreak (t.toList.headD ' ') = true ∧ t = String.singleton (t.toList.headD ' ') := by
      decide
    intro h
    exact (hall t h).imp_right fun hc => ⟨_, hc⟩
  · rintro (rfl | ⟨c, hc, rfl⟩)
    · decide
    · exact singleton_mem_terminators hc

theorem line_induction {motive : String → Prop} (last : ∀ s, OneLine s → motive s)
    (line : ∀ s c rest, OneLine s → isLineBreak c = true → motive rest →
      motive (s ++ String.singleton c ++ rest)) (s : String) : motive s := by
  have hpassed : ∀ cs passed, OneLine (String.ofList passed) →
      motive (String.ofList (passed ++ cs)) := by
    intro cs
    induction cs with
    | nil =>
      intro passed h
      rw [List.append_nil]
      exact last _ h
    | cons c cs ih =>
      intro passed h
      cases hc : isLineBreak c with
      | true =>
        have hrest := line _ c _ h hc (ih [] (by decide))
        have heq : String.ofList passed ++ String.singleton c ++ String.ofList ([] ++ cs) =
            String.ofList (passed ++ c :: cs) := by
          apply String.toList_injective
          simp
        rwa [heq] at hrest
      | false =>
        rw [List.append_cons]
        refine ih (passed ++ [c]) fun d hd => ?_
        rw [String.toList_ofList, List.mem_append, List.mem_singleton] at hd
        rcases hd with hd | rfl
        · exact h d (by rwa [String.toList_ofList])
        · exact hc
  have hs := hpassed s.toList [] (by decide)
  rwa [List.nil_append, String.ofList_toList] at hs

/-! ## Lines without the empty ones -/

section Filter

variable {p : List Char → Bool}

theorem linesOfChars_cons_of_not (hc : isLineBreak c = false) (cs : List Char) :
    linesOfChars (c :: cs) = (c :: (linesOfChars cs).headD []) :: (linesOfChars cs).tail := by
  have hcr : ∀ rest, c = '\r' → cs = '\n' :: rest → False := by
    rintro rest rfl
    cases hc
  rw [linesOfChars, if_neg (by simp [hc])]
  · cases linesOfChars cs <;> rfl
  · exact hcr

theorem splitOnP_cons_of_not (hc : isLineBreak c = false) {piece : List Char}
    {pieces : List (List Char)} (h : cs.splitOnP isLineBreak = piece :: pieces) :
    (c :: cs).splitOnP isLineBreak = (c :: piece) :: pieces := by
  rw [List.splitOnP_cons_eq_if_modifyHead, if_neg (by simp [hc]), h, List.modifyHead_cons]

theorem splitOnP_cons_of_isLineBreak (hc : isLineBreak c = true) (cs : List Char) :
    (c :: cs).splitOnP isLineBreak = [] :: cs.splitOnP isLineBreak := by
  rw [List.splitOnP_cons_eq_if_modifyHead, if_pos hc]

/-- Lines and pieces that begin alike, of which those that follow are alike but for empty ones. -/
def SameLines (p : List Char → Bool) (lines pieces : List (List Char)) : Prop :=
  ∃ others, pieces = lines.headD [] :: others ∧ others.filter p = lines.tail.filter p

namespace SameLines

variable {lines pieces : List (List Char)}

theorem filter_eq (hp : p [] = false) (h : SameLines p lines pieces) :
    pieces.filter p = lines.filter p := by
  obtain ⟨others, rfl, hothers⟩ := h
  cases lines with
  | nil => rw [List.headD_nil, List.filter_cons_of_neg (by simp [hp]), hothers, List.tail_nil]
  | cons line lines =>
    rw [List.headD_cons, List.filter_cons, List.filter_cons, hothers, List.tail_cons]

theorem plain (hc : isLineBreak c = false)
    (h : SameLines p (linesOfChars cs) (cs.splitOnP isLineBreak)) :
    SameLines p (linesOfChars (c :: cs)) ((c :: cs).splitOnP isLineBreak) := by
  obtain ⟨others, hsplit, hothers⟩ := h
  rw [linesOfChars_cons_of_not hc]
  exact ⟨others, splitOnP_cons_of_not hc hsplit, hothers⟩

end SameLines

theorem sameLines_splitOnP (hp : p [] = false) (cs : List Char) :
    SameLines p (linesOfChars cs) (cs.splitOnP isLineBreak) := by
  induction cs using linesOfChars.induct with
  | case1 => exact ⟨[], rfl, rfl⟩
  | case2 rest ih =>
    rw [splitOnP_cons_of_isLineBreak rfl, splitOnP_cons_of_isLineBreak rfl, linesOfChars]
    refine ⟨[] :: rest.splitOnP isLineBreak, rfl, ?_⟩
    rw [List.filter_cons_of_neg (by simp [hp]), ih.filter_eq hp, List.tail_cons]
  | case3 c rest hcrlf hc ih =>
    rw [splitOnP_cons_of_isLineBreak hc, linesOfChars, if_pos hc]
    · exact ⟨rest.splitOnP isLineBreak, rfl, ih.filter_eq hp⟩
    · exact hcrlf
  | case4 c rest _ hc _ ih => exact ih.plain (Bool.eq_false_iff.mpr hc)
  | case5 c rest _ hc _ _ _ ih => exact ih.plain (Bool.eq_false_iff.mpr hc)

/-- But for empty ones, the lines of a text are its pieces between line breaks. -/
theorem filter_linesOfChars (hp : p [] = false) (cs : List Char) :
    (linesOfChars cs).filter p = (cs.splitOnP isLineBreak).filter p :=
  ((sameLines_splitOnP hp cs).filter_eq hp).symm

theorem filter_linesOfChars_append (hp : p [] = false) (hc : isLineBreak c = true)
    (before after : List Char) :
    (linesOfChars (before ++ c :: after)).filter p =
      (linesOfChars before).filter p ++ (linesOfChars after).filter p := by
  simp only [filter_linesOfChars hp, List.splitOnP_append_cons before after hc, List.filter_append]

end Filter

section Texts

variable {p : String → Bool}

theorem filter_lines (p : String → Bool) (s : String) :
    (lines s).filter p = ((linesOfChars s.toList).filter (p ∘ String.ofList)).map String.ofList :=
  List.filter_map

/-- The lines of two texts with a terminator between them are those of each, but for empty ones.
What stands within a carriage return and a line feed is one more empty line. -/
theorem filter_lines_append (hp : p "" = false) (ht : t ∈ terminators) (before after : String) :
    (lines (before ++ t ++ after)).filter p =
      (lines before).filter p ++ (lines after).filter p := by
  simp only [filter_lines, String.toList_append, List.append_assoc, ← List.map_append]
  rcases mem_terminators_iff.mp ht with rfl | ⟨c, hc, rfl⟩
  · have hcrlf : "\r\n".toList ++ after.toList = '\r' :: ([] ++ '\n' :: after.toList) := rfl
    rw [hcrlf, filter_linesOfChars_append hp rfl, filter_linesOfChars_append hp rfl]
    rfl
  · rw [String.toList_singleton, List.singleton_append, filter_linesOfChars_append hp hc]

theorem filter_lines_of_oneLine (hp : p "" = false) {s : String} (h : OneLine s) :
    (lines s).filter p = [s].filter p := by
  have hp' : (p ∘ String.ofList) [] = false := hp
  rw [filter_lines, filter_linesOfChars hp', List.splitOnP_eq_singleton h, ← List.filter_map,
    List.map_singleton, String.ofList_toList]

end Texts

end Comparability.Text
