import Mathlib.Tactic.Common
import Comparability.Text.Pieces
import Comparability.Proofs.Text.Blank

/-!
# Cutting texts and joining them

A text is cut at every separator (`piecesOfChars_eq_splitOn`), so that

* the pieces of texts that were joined are the pieces of each (`pieces_intercalate`);
* a piece has no other piece than itself (`pieces_of_mem_pieces`);
* blanks around a text are blanks around its first and its last piece (`map_trim_pieces_append`).
-/

namespace Comparability.Text

variable {sep : Char}

theorem piecesOfChars_eq_splitOn (cs : List Char) : piecesOfChars sep cs = cs.splitOn sep := by
  induction cs with
  | nil => rfl
  | cons c cs ih =>
    rw [piecesOfChars, List.splitOn_cons_eq_if_modifyHead, ih]
    simp only [beq_iff_eq]
    split_ifs with hc
    · rfl
    · cases h : cs.splitOn sep with
      | nil => exact absurd h (List.splitOn_ne_nil sep cs)
      | cons piece pieces => rfl

theorem sep_notMem_of_mem_piecesOfChars {cs piece : List Char} (h : piece ∈ piecesOfChars sep cs) :
    sep ∉ piece := by
  induction cs generalizing piece with
  | nil =>
    obtain rfl := List.mem_singleton.mp h
    exact List.not_mem_nil
  | cons c cs ih =>
    rw [piecesOfChars] at h
    split_ifs at h with hc
    · rcases List.mem_cons.mp h with rfl | h
      · exact List.not_mem_nil
      · exact ih h
    · cases hp : piecesOfChars sep cs with
      | nil => exact absurd hp (piecesOfChars_ne_nil sep cs)
      | cons first others =>
        rw [hp] at h ih
        rcases List.mem_cons.mp h with rfl | h
        · exact List.not_mem_cons_of_ne_of_not_mem (Ne.symm hc) (ih List.mem_cons_self)
        · exact ih (List.mem_cons_of_mem first h)

/-- Between two texts that a separator joins, none of their pieces goes on. -/
theorem pieces_append_sep (a b : String) :
    pieces sep (a ++ String.singleton sep ++ b) = pieces sep a ++ pieces sep b := by
  simp only [pieces, String.toList_append, String.toList_singleton, List.append_assoc,
    List.singleton_append, piecesOfChars_eq_splitOn, List.splitOn_append_cons_self,
    List.map_append]

theorem pieces_intercalate {texts : List String} (h : texts ≠ []) :
    pieces sep ((String.singleton sep).intercalate texts) = texts.flatMap (pieces sep) := by
  induction texts with
  | nil => exact absurd rfl h
  | cons s texts ih =>
    cases texts with
    | nil => rw [String.intercalate_singleton, List.flatMap_singleton]
    | cons t texts =>
      rw [String.intercalate_cons_cons, pieces_append_sep, ih (List.cons_ne_nil t texts)]
      rfl

theorem pieces_of_mem_pieces {s piece : String} (h : piece ∈ pieces sep s) :
    pieces sep piece = [piece] := by
  obtain ⟨cs, hcs, rfl⟩ := List.mem_map.mp h
  rw [pieces, String.toList_ofList, piecesOfChars_eq_splitOn,
    List.splitOn_eq_singleton (sep_notMem_of_mem_piecesOfChars hcs), List.map_singleton]

/-! ## Blanks around the pieces -/

theorem piecesOfChars_append_left {before : List Char} (h : sep ∉ before) (cs : List Char) :
    ∃ first others, piecesOfChars sep cs = first :: others ∧
      piecesOfChars sep (before ++ cs) = (before ++ first) :: others := by
  induction before with
  | nil =>
    obtain ⟨first, others, hp⟩ := List.exists_cons_of_ne_nil (piecesOfChars_ne_nil sep cs)
    exact ⟨first, others, hp, hp⟩
  | cons c before ih =>
    obtain ⟨first, others, hp, hpieces⟩ := ih (List.not_mem_of_not_mem_cons h)
    refine ⟨first, others, hp, ?_⟩
    rw [List.cons_append, piecesOfChars, if_neg (List.ne_of_not_mem_cons h).symm, hpieces]
    rfl

theorem piecesOfChars_append_right {after : List Char} (h : sep ∉ after) (cs : List Char) :
    ∃ others last, piecesOfChars sep cs = others ++ [last] ∧
      piecesOfChars sep (cs ++ after) = others ++ [last ++ after] := by
  induction cs with
  | nil =>
    refine ⟨[], [], rfl, ?_⟩
    rw [List.nil_append, piecesOfChars_eq_splitOn, List.splitOn_eq_singleton h]
    rfl
  | cons c cs ih =>
    obtain ⟨others, last, hp, hpieces⟩ := ih
    rw [List.cons_append, piecesOfChars, piecesOfChars, hp, hpieces]
    split_ifs
    · exact ⟨[] :: others, last, rfl, rfl⟩
    · cases others with
      | nil => exact ⟨[], c :: last, rfl, rfl⟩
      | cons first others => exact ⟨(c :: first) :: others, last, rfl, rfl⟩

/-- The pieces of a text with blanks around it are its pieces, up to the blanks around them. -/
theorem map_trim_pieces_append (hsep : isBlank sep = false) {b a : String}
    (hb : isBlankText b = true) (ha : isBlankText a = true) (s : String) :
    (pieces sep (b ++ s ++ a)).map trim = (pieces sep s).map trim := by
  rw [isBlankText, List.all_eq_true] at hb ha
  have hnot : ∀ {cs : List Char}, (∀ c ∈ cs, isBlank c = true) → sep ∉ cs := by
    intro cs hcs hmem
    rw [hcs sep hmem] at hsep
    cases hsep
  have hmap : ∀ cs : List Char, ((piecesOfChars sep cs).map String.ofList).map trim =
      ((piecesOfChars sep cs).map trimChars).map String.ofList := by
    intro cs
    simp only [List.map_map, List.map_inj_left, Function.comp_apply, trim, String.toList_ofList,
      implies_true]
  obtain ⟨first, others, hs, hbs⟩ := piecesOfChars_append_left (hnot hb) s.toList
  obtain ⟨init, last, hinit, hbsa⟩ := piecesOfChars_append_right (hnot ha) (b.toList ++ s.toList)
  rw [pieces, pieces, hmap, hmap, String.toList_append, String.toList_append, hbsa]
  congr 1
  calc (init ++ [last ++ a.toList]).map trimChars
      = (init ++ [last]).map trimChars := by
        simp only [List.map_append, List.map_singleton, trimChars_append_blanks ha]
    _ = (piecesOfChars sep s.toList).map trimChars := by
        rw [← hinit, hbs, hs, List.map_cons, List.map_cons, trimChars_blanks_append hb]

end Comparability.Text
