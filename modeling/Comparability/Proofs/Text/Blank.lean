import Mathlib.Data.List.DropRight
import Comparability.Text.Blank

/-!
# Texts without their blanks

* `trimRight_concat` : nothing is taken from a text that ends in another character than a blank;
* `trimChars_eq` : what stands between blanks is left, if its first and last characters are none;
* `trimChars_blanks_append`, `trimChars_append_blanks` : further blanks do not matter;
* `trim_trim`, `trim_eq_empty_iff` : nothing more is taken a second time, and everything only from a
  text of blanks;
* `exists_blanks_around`, `head?_trimChars` : what is taken are blanks, and what is left begins with
  the first other character;
* `squeeze` : a text without any of its blanks.
-/

namespace Comparability.Text

variable {before text after : List Char}

/-! ## Blanks at the ends -/

theorem trimRight_append (h : ∀ c ∈ after, isBlank c = true) (text : List Char) :
    trimRight (text ++ after) = trimRight text := by
  rw [trimRight, List.reverse_append, List.dropWhile_append_of_pos, trimRight]
  exact fun c hc => h c (List.mem_reverse.mp hc)

theorem trimRight_concat {c : Char} (h : isBlank c = false) (text : List Char) :
    trimRight (text ++ [c]) = text ++ [c] := by
  rw [trimRight, List.reverse_append, List.reverse_singleton, List.singleton_append,
    List.dropWhile_cons_of_neg (by simp [h]), List.reverse_cons, List.reverse_reverse]

/-- A text that neither begins nor ends with a blank is what is left of it between blanks. -/
theorem trimChars_eq (hb : ∀ c ∈ before, isBlank c = true) (ha : ∀ c ∈ after, isBlank c = true)
    (hfirst : ∃ c rest, text = c :: rest ∧ isBlank c = false)
    (hlast : ∃ inner c, text = inner ++ [c] ∧ isBlank c = false) :
    trimChars (before ++ text ++ after) = text := by
  obtain ⟨c, rest, hc, hcb⟩ := hfirst
  obtain ⟨inner, d, hd, hdb⟩ := hlast
  have hdrop : (text ++ after).dropWhile isBlank = text ++ after := by
    rw [hc, List.cons_append, List.dropWhile_cons_of_neg (by simp [hcb])]
  rw [trimChars, List.append_assoc, List.dropWhile_append_of_pos hb, hdrop, trimRight_append ha, hd,
    trimRight_concat hdb]

theorem trimChars_blanks_append (h : ∀ c ∈ before, isBlank c = true) (text : List Char) :
    trimChars (before ++ text) = trimChars text := by
  rw [trimChars, List.dropWhile_append_of_pos h, trimChars]

theorem trimChars_append_blanks (h : ∀ c ∈ after, isBlank c = true) (text : List Char) :
    trimChars (text ++ after) = trimChars text := by
  rw [trimChars, trimChars, List.dropWhile_append]
  split
  · next hd =>
    rw [List.isEmpty_iff.mp hd, List.dropWhile_eq_nil_iff.mpr h]
  · exact trimRight_append h _

theorem trimRight_prefix (cs : List Char) : trimRight cs <+: cs :=
  List.rdropWhile_prefix isBlank cs

theorem trimRight_trimRight (cs : List Char) : trimRight (trimRight cs) = trimRight cs :=
  List.rdropWhile_idempotent isBlank cs

theorem isBlank_of_dropWhile_eq {cs rest : List Char} {c : Char}
    (h : cs.dropWhile isBlank = c :: rest) : isBlank c = false := by
  have hne : cs.dropWhile isBlank ≠ [] := h ▸ List.cons_ne_nil c rest
  have hhead := List.head_dropWhile_not isBlank hne
  simp only [h] at hhead
  exact hhead

theorem dropWhile_trimChars (cs : List Char) :
    (trimChars cs).dropWhile isBlank = trimChars cs := by
  cases hc : trimChars cs with
  | nil => rfl
  | cons c rest =>
    have hpre : c :: rest <+: cs.dropWhile isBlank := hc ▸ trimRight_prefix _
    obtain ⟨more, hmore⟩ := hpre
    have hc : isBlank c = false := isBlank_of_dropWhile_eq hmore.symm
    exact List.dropWhile_cons_of_neg (Bool.eq_false_iff.mp hc)

@[simp] theorem trim_trim (s : String) : trim (trim s) = trim s := by
  apply String.toList_injective
  rw [toList_trim, toList_trim, trimChars, dropWhile_trimChars, trimChars, trimRight_trimRight]

theorem trim_eq_empty_iff {s : String} : trim s = "" ↔ isBlankText s = true := by
  have hdrop : ∀ cs : List Char, (∀ c ∈ cs.dropWhile isBlank, isBlank c = true) →
      ∀ c ∈ cs, isBlank c = true := by
    intro cs h c hc
    rw [← List.takeWhile_append_dropWhile (p := isBlank) (l := cs)] at hc
    rcases List.mem_append.mp hc with hc | hc
    · exact List.mem_takeWhile_imp hc
    · exact h c hc
  rw [← String.toList_eq_nil_iff, toList_trim, trimChars, isBlankText, List.all_eq_true]
  constructor
  · exact fun h => hdrop _ (List.rdropWhile_eq_nil_iff.mp h)
  · intro h
    rw [List.dropWhile_eq_nil_iff.mpr h]
    rfl

theorem exists_blanks_around (cs : List Char) :
    ∃ before after, cs = before ++ trimChars cs ++ after ∧
      (∀ c ∈ before, isBlank c = true) ∧ ∀ c ∈ after, isBlank c = true := by
  refine ⟨cs.takeWhile isBlank, (cs.dropWhile isBlank).rtakeWhile isBlank, ?_,
    fun c => List.mem_takeWhile_imp, fun c => List.mem_rtakeWhile_imp⟩
  have hright : trimChars cs ++ (cs.dropWhile isBlank).rtakeWhile isBlank = cs.dropWhile isBlank :=
    List.rdropWhile_append_rtakeWhile
  rw [List.append_assoc, hright, List.takeWhile_append_dropWhile]

theorem head?_trimChars (cs : List Char) :
    (trimChars cs).head? = (cs.dropWhile isBlank).head? := by
  cases hd : cs.dropWhile isBlank with
  | nil => rw [trimChars, hd]; rfl
  | cons c rest =>
    cases ht : trimChars cs with
    | nil =>
      rw [trimChars, hd] at ht
      have hblank := List.rdropWhile_eq_nil_iff.mp ht c List.mem_cons_self
      rw [isBlank_of_dropWhile_eq hd] at hblank
      cases hblank
    | cons d left =>
      have hpre : d :: left <+: c :: rest := ht ▸ hd ▸ trimRight_prefix _
      rw [List.head?_cons, List.head?_cons, (List.cons_prefix_cons.mp hpre).1]

/-! ## All blanks -/

def squeezeChars (cs : List Char) : List Char :=
  cs.filter fun c => !isBlank c

/-- A text without any of its blanks. -/
def squeeze (s : String) : String :=
  String.ofList (squeezeChars s.toList)

@[simp] theorem toList_squeeze (s : String) : (squeeze s).toList = squeezeChars s.toList := by
  simp [squeeze]

@[simp] theorem squeezeChars_append (xs ys : List Char) :
    squeezeChars (xs ++ ys) = squeezeChars xs ++ squeezeChars ys :=
  List.filter_append xs ys

theorem squeezeChars_cons_of_isBlank {c : Char} (h : isBlank c = true) (cs : List Char) :
    squeezeChars (c :: cs) = squeezeChars cs :=
  List.filter_cons_of_neg (by simp [h])

theorem squeezeChars_cons_of_not_isBlank {c : Char} (h : isBlank c = false) (cs : List Char) :
    squeezeChars (c :: cs) = c :: squeezeChars cs :=
  List.filter_cons_of_pos (by simp [h])

theorem squeezeChars_eq_self (h : ∀ c ∈ text, isBlank c = false) : squeezeChars text = text :=
  List.filter_eq_self.mpr fun c hc => by simp [h c hc]

end Comparability.Text
