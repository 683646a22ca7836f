import Comparability.CommandLine.Report
import Comparability.Proofs.Text.Blank
import Comparability.Proofs.Text.Lines

/-!
# Files of expressions

* `IsExpression` : what can be read as an expression of a file;
* `Row` : a line that holds an expression, blanks alone, or a comment;
* `ExpressionFile` : rows, each with what ends it, and a last one that nothing ends;
* `exists_padding` : a line is what is left of it, between blanks;
* `readExpressions_append` : a terminator separates what is read before it and after it;
* `ExpressionFile.readExpressions_text` : from a file its expressions are read, and nothing else;
* `ExpressionFile.exists_text_eq` : every text is that of a file.
-/

namespace Comparability.CommandLine

open Text (trim isBlank isLineBreak OneLine terminators)

/-! ## What a text gives -/

structure IsExpression (e : String) : Prop where
  ne_empty : e ≠ ""
  trimmed : trim e = e
  oneLine : OneLine e
  noComment : e.toList.head? ≠ some '#'

def IsPadding (s : String) : Prop :=
  ∀ c ∈ s.toList, isBlank c = true ∧ isLineBreak c = false

instance (s : String) : Decidable (IsPadding s) :=
  List.decidableBAll (fun c => isBlank c = true ∧ isLineBreak c = false) s.toList

instance (e : String) : Decidable (IsExpression e) :=
  decidable_of_iff (e ≠ "" ∧ trim e = e ∧ OneLine e ∧ e.toList.head? ≠ some '#')
    ⟨fun ⟨hne, htrim, hline, hnote⟩ => ⟨hne, htrim, hline, hnote⟩,
      fun h => ⟨h.ne_empty, h.trimmed, h.oneLine, h.noComment⟩⟩

theorem IsPadding.oneLine {s : String} (h : IsPadding s) : OneLine s :=
  fun c hc => (h c hc).2

variable {s t e : String} {es : List String}

theorem exists_padding (h : OneLine s) :
    ∃ before after, IsPadding before ∧ IsPadding after ∧ before ++ trim s ++ after = s := by
  obtain ⟨before, after, hs, hbefore, hafter⟩ := Text.exists_blanks_around s.toList
  have htext : String.ofList before ++ trim s ++ String.ofList after = s := by
    apply String.toList_injective
    rw [String.toList_append, String.toList_append, String.toList_ofList, String.toList_ofList,
      Text.toList_trim, ← hs]
  have hline := h
  rw [← htext, Text.oneLine_append, Text.oneLine_append] at hline
  obtain ⟨⟨hlbefore, -⟩, hlafter⟩ := hline
  refine ⟨_, _, fun c hc => ⟨?_, hlbefore c hc⟩, fun c hc => ⟨?_, hlafter c hc⟩, htext⟩
  · exact hbefore c (by rwa [String.toList_ofList] at hc)
  · exact hafter c (by rwa [String.toList_ofList] at hc)

theorem holdsExpression_eq (s : String) :
    holdsExpression s = (trim s).toList.head?.any (· ≠ '#') := by
  rw [Text.toList_trim, Text.head?_trimChars, holdsExpression]
  cases s.toList.dropWhile isBlank <;> rfl

theorem holdsExpression_empty : holdsExpression "" = false :=
  rfl

theorem readExpressions_append (ht : t ∈ terminators) (before after : String) :
    readExpressions (before ++ t ++ after) = readExpressions before ++ readExpressions after := by
  rw [readExpressions, Text.filter_lines_append holdsExpression_empty ht, List.map_append]
  rfl

theorem readExpressions_of_oneLine (h : OneLine s) :
    readExpressions s = if (trim s).toList.head?.any (· ≠ '#') then [trim s] else [] := by
  rw [readExpressions, Text.filter_lines_of_oneLine holdsExpression_empty h, List.filter_singleton,
    holdsExpression_eq]
  cases (trim s).toList.head?.any (· ≠ '#') <;> rfl

theorem IsExpression.head?_any (h : IsExpression e) : e.toList.head?.any (· ≠ '#') = true := by
  cases hc : e.toList with
  | nil => exact absurd (String.toList_eq_nil_iff.mp hc) h.ne_empty
  | cons c rest =>
    have hne : c ≠ '#' := by
      rintro rfl
      exact h.noComment (hc ▸ rfl)
    simpa using hne

theorem IsExpression.readExpressions (h : IsExpression e) : readExpressions e = [e] := by
  rw [readExpressions_of_oneLine h.oneLine, h.trimmed, if_pos h.head?_any]

theorem readExpressions_intercalate (ht : t ∈ terminators) (h : ∀ e ∈ es, IsExpression e) :
    readExpressions (t.intercalate es) = es := by
  induction es with
  | nil => rfl
  | cons e es ih =>
    obtain ⟨he, hes⟩ := List.forall_mem_cons.mp h
    cases es with
    | nil => rw [String.intercalate_singleton, he.readExpressions]
    | cons f es =>
      rw [String.intercalate_cons_cons, readExpressions_append ht, he.readExpressions, ih hes]
      rfl

/-! ## Rows -/

inductive Row where
  | expression (before e after : String) (hbefore : IsPadding before) (he : IsExpression e)
    (hafter : IsPadding after)
  | blank (padding : String) (hpadding : IsPadding padding)
  | comment (before note : String) (hbefore : IsPadding before) (hnote : OneLine note)

namespace Row

def text : Row → String
  | expression before e after _ _ _ => before ++ e ++ after
  | blank padding _ => padding
  | comment before note _ _ => before ++ "#" ++ note

def expressions : Row → List String
  | expression _ e _ _ _ _ => [e]
  | blank _ _ => []
  | comment _ _ _ _ => []

theorem isExpression_of_mem {row : Row} (h : e ∈ row.expressions) : IsExpression e := by
  cases row with
  | expression before f after _ he _ =>
    obtain rfl := List.mem_singleton.mp h
    exact he
  | blank padding _ => cases h
  | comment before note _ _ => cases h

theorem oneLine_text (row : Row) : OneLine row.text := by
  cases row with
  | expression before e after hbefore he hafter =>
    simp only [text, Text.oneLine_append]
    exact ⟨⟨hbefore.oneLine, he.oneLine⟩, hafter.oneLine⟩
  | blank padding hpadding => exact hpadding.oneLine
  | comment before note hbefore hnote =>
    simp only [text, Text.oneLine_append]
    exact ⟨⟨hbefore.oneLine, by decide⟩, hnote⟩

theorem readExpressions_text (row : Row) : readExpressions row.text = row.expressions := by
  rw [readExpressions_of_oneLine row.oneLine_text]
  cases row with
  | expression before e after hbefore he hafter =>
    have htrim : trim (before ++ e ++ after) = e := by
      apply String.toList_injective
      rw [Text.toList_trim, String.toList_append, String.toList_append,
        Text.trimChars_append_blanks fun c hc => (hafter c hc).1,
        Text.trimChars_blanks_append fun c hc => (hbefore c hc).1, ← Text.toList_trim, he.trimmed]
    rw [text, htrim, if_pos he.head?_any]
    rfl
  | blank padding hpadding =>
    have htrim : trim padding = "" := by
      rw [Text.trim_eq_empty_iff, Text.isBlankText, List.all_eq_true]
      exact fun c hc => (hpadding c hc).1
    rw [text, htrim]
    rfl
  | comment before note hbefore hnote =>
    have hhead : (trim (before ++ "#" ++ note)).toList.head? = some '#' := by
      rw [Text.toList_trim, String.toList_append, String.toList_append, List.append_assoc,
        Text.trimChars_blanks_append fun c hc => (hbefore c hc).1, Text.head?_trimChars]
      rfl
    rw [text, hhead]
    rfl

theorem exists_text_eq (h : OneLine s) : ∃ row : Row, row.text = s := by
  obtain ⟨before, after, hbefore, hafter, hs⟩ := exists_padding h
  have hline : OneLine (trim s) ∧ OneLine after := by
    rw [← hs, Text.oneLine_append, Text.oneLine_append] at h
    exact ⟨h.1.2, h.2⟩
  cases hleft : (trim s).toList with
  | nil =>
    have hblank := Text.trim_eq_empty_iff.mp (String.toList_eq_nil_iff.mp hleft)
    rw [Text.isBlankText, List.all_eq_true] at hblank
    exact ⟨blank s fun c hc => ⟨hblank c hc, h c hc⟩, rfl⟩
  | cons c rest =>
    by_cases hc : c = '#'
    · have hnote : trim s = "#" ++ String.ofList rest := by
        apply String.toList_injective
        simp [hleft, hc]
      rw [hnote] at hs hline
      refine ⟨comment before (String.ofList rest ++ after) hbefore ?_, ?_⟩
      · exact Text.oneLine_append.mpr ⟨(Text.oneLine_append.mp hline.1).2, hline.2⟩
      · rw [text, ← hs, String.append_assoc, String.append_assoc, String.append_assoc]
    · have he : IsExpression (trim s) := by
        refine ⟨?_, Text.trim_trim s, hline.1, ?_⟩
        · rw [ne_eq, ← String.toList_eq_nil_iff, hleft]
          exact List.cons_ne_nil c rest
        · simpa [hleft] using hc
      exact ⟨expression before (trim s) after hbefore he hafter, hs⟩

end Row

/-! ## Files -/

/-- Lines with what ends each, and a last one that nothing ends. -/
structure ExpressionFile where
  rows : List (Row × { t : String // t ∈ terminators })
  last : Row

namespace ExpressionFile

def text (file : ExpressionFile) : String :=
  file.rows.foldr (fun line rest => line.1.text ++ line.2 ++ rest) file.last.text

def expressions (file : ExpressionFile) : List String :=
  file.rows.flatMap (fun line => line.1.expressions) ++ file.last.expressions

variable {rows : List (Row × { t : String // t ∈ terminators })} {last row : Row}
  {ending : { t : String // t ∈ terminators }}

theorem text_cons :
    text ⟨(row, ending) :: rows, last⟩ = row.text ++ ending ++ text ⟨rows, last⟩ :=
  rfl

theorem expressions_cons :
    expressions ⟨(row, ending) :: rows, last⟩ = row.expressions ++ expressions ⟨rows, last⟩ := by
  rw [expressions, List.flatMap_cons, List.append_assoc, expressions]

theorem readExpressions_text (file : ExpressionFile) :
    readExpressions file.text = file.expressions := by
  obtain ⟨rows, last⟩ := file
  induction rows with
  | nil => exact last.readExpressions_text
  | cons line rows ih =>
    obtain ⟨row, ending⟩ := line
    rw [text_cons, expressions_cons, readExpressions_append ending.2, row.readExpressions_text, ih]

theorem isExpression_of_mem {file : ExpressionFile} (h : e ∈ file.expressions) :
    IsExpression e := by
  rcases List.mem_append.mp h with h | h
  · obtain ⟨line, -, h⟩ := List.mem_flatMap.mp h
    exact Row.isExpression_of_mem h
  · exact Row.isExpression_of_mem h

theorem exists_text_eq (s : String) : ∃ file : ExpressionFile, file.text = s := by
  induction s using Text.line_induction with
  | last s h =>
    obtain ⟨row, hrow⟩ := Row.exists_text_eq h
    exact ⟨⟨[], row⟩, hrow⟩
  | line s c rest h hc ih =>
    obtain ⟨row, rfl⟩ := Row.exists_text_eq h
    obtain ⟨⟨rows, last⟩, rfl⟩ := ih
    exact ⟨⟨(row, ⟨_, Text.singleton_mem_terminators hc⟩) :: rows, last⟩, text_cons⟩

end ExpressionFile

/-- **Reading the expressions of a file loses and invents nothing.** What is read is never empty,
has no blanks around it and no line break in it, and begins no comment. From lines that hold an
expression between blanks, blanks alone, or a comment, whatever ends them, exactly these expressions
are read, in order; every text is made of such lines. Expressions that were read are read again from
a text that has them on its lines. -/
theorem readExpressions_lossless :
    (∀ s, ∀ e ∈ readExpressions s, IsExpression e) ∧
    (∀ file : ExpressionFile, readExpressions file.text = file.expressions) ∧
    (∀ s, ∃ file : ExpressionFile, file.text = s) ∧
    ∀ s, readExpressions ("\n".intercalate (readExpressions s)) = readExpressions s := by
  have hread : ∀ s, ∀ e ∈ readExpressions s, IsExpression e := by
    intro s e he
    obtain ⟨file, rfl⟩ := ExpressionFile.exists_text_eq s
    rw [file.readExpressions_text] at he
    exact ExpressionFile.isExpression_of_mem he
  refine ⟨hread, ExpressionFile.readExpressions_text, ExpressionFile.exists_text_eq, fun s => ?_⟩
  exact readExpressions_intercalate (by decide) (hread s)

/-- A comment, an empty line between a carriage return and a line feed, and a last line that nothing
ends. -/
theorem readExpressions_of_mixed_rows :
    ∃ file : ExpressionFile, file = ⟨[
        (.comment " " " [Int" (by decide) (by decide), ⟨"\r\n", by decide⟩),
        (.expression "\t" "[Int ]?" " " (by decide) (by decide) (by decide), ⟨"\r", by decide⟩),
        (.blank "" (by decide), ⟨"\n", by decide⟩)],
        .expression "" "Set<A>" "" (by decide) (by decide) (by decide)⟩ ∧
      file.text = " # [Int\r\n\t[Int ]? \r\nSet<A>" ∧
      readExpressions file.text = ["[Int ]?", "Set<A>"] ∧
      "[Int ]?" ∈ readExpressions file.text ∧ IsExpression "[Int ]?" := by
  obtain ⟨hread, hfile, -, -⟩ := readExpressions_lossless
  have hmem : ∀ {file : ExpressionFile} {e}, e ∈ file.expressions →
      e ∈ readExpressions file.text ∧ IsExpression e := by
    intro file e he
    rw [← hfile] at he
    exact ⟨he, hread _ e he⟩
  exact ⟨_, rfl, by decide +kernel, hfile _, hmem List.mem_cons_self⟩

end Comparability.CommandLine
