import Comparability.Proofs.TypeExpr.Step

/-!
# The grammar of type expressions

Texts are lists of characters. `Derives m part text v` says that the text is a derivation of the
given part of the grammar and stands for `v`:

* `Blanks`, `Trail` : what may stand before and after a type;
* `Enclosed`, `LeafTail`, `IsLeaf` : leaves, whose enclosed spans are balanced;
* `leafText` : a leaf as the classifier is asked for it.

`isLeaf_iff` reads a leaf from the left: `LeafPrefix n text` says that the text may begin a leaf and
that `n` enclosed spans are open at its end, and a leaf is such a text with none open.
-/

namespace Comparability.TypeExpr

open Text (isBlank)

def Blanks (text : List Char) : Prop :=
  ∀ c ∈ text, isBlank c = true

/-- Blanks and optional marks. -/
def Trail (text : List Char) : Prop :=
  ∀ c ∈ text, isBlank c = true ∨ c = '?'

/-- What may stand between the angle brackets of an enclosed span. -/
inductive Enclosed : List Char → Prop
  | nil : Enclosed []
  | char {c : Char} {cs : List Char} (hl : c ≠ '<') (hg : c ≠ '>') (h : Enclosed cs) :
      Enclosed (c :: cs)
  | span {inner cs : List Char} (hi : Enclosed inner) (h : Enclosed cs) :
      Enclosed ('<' :: (inner ++ '>' :: cs))

/-- What may follow the first character of a leaf. -/
inductive LeafTail : List Char → Prop
  | nil : LeafTail []
  | char {c : Char} {cs : List Char} (hc : c ∉ ['<', '>', '[', ']', ',', ':'])
      (h : LeafTail cs) : LeafTail (c :: cs)
  | span {inner cs : List Char} (hi : Enclosed inner) (h : LeafTail cs) :
      LeafTail ('<' :: (inner ++ '>' :: cs))

def keywords : List (List Char) :=
  ["Array<".toList, "Set<".toList, "Dictionary<".toList]

theorem mem_keywords {k : List Char} :
    k ∈ keywords ↔ k = "Array<".toList ∨ k = "Set<".toList ∨ k = "Dictionary<".toList := by
  simp [keywords]

def StartsLeaf (c : Char) : Prop :=
  isBlank c = false ∧ c ∉ ['?', '<', '>', '[', ']', ',', ':']

instance (c : Char) : Decidable (StartsLeaf c) :=
  inferInstanceAs (Decidable (isBlank c = false ∧ c ∉ ['?', '<', '>', '[', ']', ',', ':']))

inductive IsLeaf : List Char → Prop
  | intro {c : Char} {cs : List Char} (hc : StartsLeaf c)
      (hk : ∀ k ∈ keywords, ¬ k <+: c :: cs) (h : LeafTail cs) : IsLeaf (c :: cs)

/-- A leaf without its blanks and optional marks. -/
def leafText (text : List Char) : String :=
  String.ofList (text.filter fun c => !isBlank c && c != '?')

inductive Part where
  | expression
  | container
  | leaf
  deriving DecidableEq, Repr

/-- The texts of each part of the grammar, and what they stand for. -/
inductive Derives {α : Type} (m : Meaning α) : Part → List Char → α → Prop
  | leaf {text : List Char} (h : IsLeaf text) : Derives m .leaf text (m.leaf (leafText text))
  | array {text : List Char} {v : α} (h : Derives m .expression text v) :
      Derives m .container ("Array<".toList ++ text ++ ['>']) (m.sequence v)
  | set {text : List Char} {v : α} (h : Derives m .expression text v) :
      Derives m .container ("Set<".toList ++ text ++ ['>']) (m.sequence v)
  | bracket {text : List Char} {v : α} (h : Derives m .expression text v) :
      Derives m .container (['['] ++ text ++ [']']) (m.sequence v)
  | bracketPair {key value : List Char} {k v : α} (hk : Derives m .expression key k)
      (hv : Derives m .expression value v) :
      Derives m .container (['['] ++ key ++ [':'] ++ value ++ [']']) (m.dictionary k v)
  | dictionary {key value : List Char} {k v : α} {separator : Char}
      (hs : separator = ',' ∨ separator = ':') (hk : Derives m .expression key k)
      (hv : Derives m .expression value v) :
      Derives m .container ("Dictionary<".toList ++ key ++ [separator] ++ value ++ ['>'])
        (m.dictionary k v)
  | padded {part : Part} {before text after : List Char} {v : α}
      (hp : part = .container ∨ part = .leaf) (hb : Blanks before) (h : Derives m part text v)
      (ha : Trail after) : Derives m .expression (before ++ text ++ after) v

section Containers

variable {α : Type} {m : Meaning α} {opener : Opener}

theorem Derives.of_sequence_opener (ho : opener ∈ Opener.all) (hk : opener.kind.isSequence = true)
    {text : List Char} {v : α} (h : Derives m .expression text v) :
    Derives m .container (opener.text.toList ++ text ++ opener.closer.toList) (m.sequence v) := by
  rcases Opener.mem_all.mp ho with rfl | rfl | rfl | rfl
  · exact .array h
  · exact .set h
  · exact absurd hk (by decide)
  · exact .bracket h

theorem Derives.of_dictionary_opener (ho : opener ∈ Opener.all) {separator : Char}
    (hs : String.singleton separator ∈ opener.separators) {key value : List Char} {k v : α}
    (hk : Derives m .expression key k) (hv : Derives m .expression value v) :
    Derives m .container
      (opener.text.toList ++ key ++ [separator] ++ value ++ opener.closer.toList)
      (m.dictionary k v) := by
  rcases Opener.eq_of_separator ho hs with ⟨rfl, hc⟩ | ⟨rfl, rfl⟩
  · exact .dictionary hc hk hv
  · exact .bracketPair hk hv

theorem Derives.ne_nil_of_container {text : List Char} {v : α}
    (h : Derives m .container text v) : text ≠ [] := by
  cases h <;> simp

end Containers

/-! ## Blanks and trails -/

theorem Blanks.nil : Blanks [] := fun _ h => absurd h List.not_mem_nil

theorem Blanks.append {xs ys : List Char} (hx : Blanks xs) (hy : Blanks ys) :
    Blanks (xs ++ ys) :=
  fun c h => (List.mem_append.mp h).elim (hx c) (hy c)

theorem Blanks.trail {xs : List Char} (h : Blanks xs) : Trail xs :=
  fun c hc => .inl (h c hc)

theorem Blanks.singleton {c : Char} (h : isBlank c = true) : Blanks [c] :=
  fun _ hd => List.mem_singleton.mp hd ▸ h

theorem Trail.append {xs ys : List Char} (hx : Trail xs) (hy : Trail ys) : Trail (xs ++ ys) :=
  fun c h => (List.mem_append.mp h).elim (hx c) (hy c)

theorem Trail.singleton {c : Char} (h : isBlank c = true ∨ c = '?') : Trail [c] :=
  fun _ hd => List.mem_singleton.mp hd ▸ h

theorem Derives.blanks_append {α : Type} {m : Meaning α} {before text : List Char} {v : α} (hb : Blanks before)
    (h : Derives m .expression text v) : Derives m .expression (before ++ text) v := by
  cases h with
  | @padded part before' inner after _ hp hb' h ha =>
    rw [← List.append_assoc, ← List.append_assoc]
    exact .padded hp (hb.append hb') h ha

theorem Derives.append_trail {α : Type} {m : Meaning α} {text after : List Char} {v : α}
    (h : Derives m .expression text v) (ha : Trail after) :
    Derives m .expression (text ++ after) v := by
  cases h with
  | @padded part before inner after' _ hp hb h ha' =>
    rw [List.append_assoc]
    exact .padded hp hb h (ha'.append ha)

/-! ## Leaves, read from the left -/

/-- Balanced text leaves the number of open spans as it was. -/
theorem Enclosed.foldlM_nest {cs : List Char} (h : Enclosed cs) (depth : Nat) :
    cs.foldlM nest (depth + 1) = some (depth + 1) := by
  induction h generalizing depth with
  | nil => rfl
  | @char c cs hl hg _ ih =>
    have hn : nest (depth + 1) c = some (depth + 1) := by
      rw [nest, if_neg hl, if_neg (Nat.succ_ne_zero _), if_neg hg]
    rw [List.foldlM_cons, hn]
    exact ih depth
  | @span inner cs _ _ ihi ih =>
    have hl : nest (depth + 1) '<' = some (depth + 1 + 1) := rfl
    have hg : nest (depth + 1 + 1) '>' = some (depth + 1) := rfl
    rw [List.foldlM_cons, hl, Option.bind_eq_bind, Option.bind_some, List.foldlM_append,
      ihi (depth + 1), Option.bind_eq_bind, Option.bind_some, List.foldlM_cons, hg]
    exact ih depth

/-- The rest of a leaf in which `depth` enclosed spans are open. -/
def LeafRest : Nat → List Char → Prop
  | 0, cs => LeafTail cs
  | depth + 1, cs => ∃ inner rest, cs = inner ++ '>' :: rest ∧ Enclosed inner ∧ LeafRest depth rest

/-- A span that opens belongs, up to its end, to what is open around it. -/
theorem leafRest_of_foldlM_nest {cs : List Char} {depth : Nat}
    (h : cs.foldlM nest depth = some 0) : LeafRest depth cs := by
  induction cs generalizing depth with
  | nil =>
    obtain rfl := Option.some.inj h
    exact .nil
  | cons c cs ih =>
    rw [List.foldlM_cons, Option.bind_eq_bind, Option.bind_eq_some_iff] at h
    obtain ⟨next, hn, h⟩ := h
    have hr := ih h
    unfold nest at hn
    split_ifs at hn with hl hd hm hg <;> obtain rfl := Option.some.inj hn
    · subst hl
      obtain ⟨inner, rest, rfl, hi, hr⟩ := hr
      cases depth with
      | zero => exact .span hi hr
      | succ depth =>
        obtain ⟨outer, rest, rfl, ho, hr⟩ := hr
        exact ⟨'<' :: (inner ++ '>' :: outer), rest, by simp, .span hi ho, hr⟩
    · subst hd
      exact .char (List.not_mem_cons_of_ne_of_not_mem hl hm) hr
    · subst hg
      cases depth with
      | zero => exact absurd rfl hd
      | succ depth => exact ⟨[], cs, rfl, .nil, hr⟩
    · cases depth with
      | zero => exact absurd rfl hd
      | succ depth =>
        obtain ⟨inner, rest, rfl, hi, hr⟩ := hr
        exact ⟨c :: inner, rest, rfl, .char hl hg hi, hr⟩

theorem leafTail_iff {cs : List Char} : LeafTail cs ↔ cs.foldlM nest 0 = some 0 := by
  refine ⟨fun h => ?_, fun h => leafRest_of_foldlM_nest h⟩
  induction h with
  | nil => rfl
  | @char c cs hc _ ih =>
    have hn : nest 0 c = some 0 := by
      rw [nest, if_neg (List.ne_of_not_mem_cons hc), if_pos rfl,
        if_neg (List.not_mem_of_not_mem_cons hc)]
    rw [List.foldlM_cons, hn]
    exact ih
  | @span inner cs hi _ ih =>
    have hl : nest 0 '<' = some (0 + 1) := rfl
    have hg : nest (0 + 1) '>' = some 0 := rfl
    rw [List.foldlM_cons, hl, Option.bind_eq_bind, Option.bind_some, List.foldlM_append,
      hi.foldlM_nest 0, Option.bind_eq_bind, Option.bind_some, List.foldlM_cons, hg]
    exact ih

theorem StartsLeaf.nest {c : Char} (h : StartsLeaf c) : nest 0 c = some 0 := by
  have hc := List.not_mem_of_not_mem_cons h.2
  rw [TypeExpr.nest, if_neg (List.ne_of_not_mem_cons hc), if_pos rfl,
    if_neg (List.not_mem_of_not_mem_cons hc)]

/-- The text may begin a leaf, and `depth` enclosed spans are open at its end. -/
structure LeafPrefix (depth : Nat) (text : List Char) : Prop where
  starts : ∃ c cs, text = c :: cs ∧ StartsLeaf c ∧ cs.foldlM nest 0 = some depth
  no_keyword : ∀ k ∈ keywords, ¬ k <+: text

theorem isLeaf_iff {text : List Char} : IsLeaf text ↔ LeafPrefix 0 text := by
  constructor
  · rintro ⟨hc, hk, h⟩
    exact ⟨⟨_, _, rfl, hc, leafTail_iff.mp h⟩, hk⟩
  · rintro ⟨⟨c, cs, rfl, hc, h⟩, hk⟩
    exact .intro hc hk (leafTail_iff.mpr h)

namespace LeafPrefix

variable {depth : Nat} {text : List Char}

theorem ne_nil (h : LeafPrefix depth text) : text ≠ [] := by
  obtain ⟨c, cs, rfl, -, -⟩ := h.starts
  exact List.cons_ne_nil c cs

theorem depth_unique {other : Nat} (h : LeafPrefix depth text) (h' : LeafPrefix other text) :
    depth = other := by
  obtain ⟨c, cs, rfl, -, hd⟩ := h.starts
  obtain ⟨d, ds, he, -, hd'⟩ := h'.starts
  obtain ⟨rfl, rfl⟩ := List.cons.inj he
  exact Option.some.inj (hd.symm.trans hd')

theorem singleton {c : Char} (h : StartsLeaf c) : LeafPrefix 0 [c] := by
  refine ⟨⟨c, [], rfl, h, rfl⟩, fun k hk hp => ?_⟩
  have hl : k.length ≤ 1 := hp.length_le
  rcases mem_keywords.mp hk with rfl | rfl | rfl <;> exact absurd hl (by decide)

/-- One more character, unless it ends a keyword. -/
theorem snoc (h : LeafPrefix depth text) {c : Char} {next : Nat} (hn : nest depth c = some next)
    (hk : text ++ [c] ∉ keywords) : LeafPrefix next (text ++ [c]) := by
  obtain ⟨⟨d, ds, rfl, hd, hf⟩, hp⟩ := h
  refine ⟨⟨d, ds ++ [c], rfl, hd, ?_⟩, fun k hm hpre => ?_⟩
  · rw [List.foldlM_append, hf, Option.bind_eq_bind, Option.bind_some, List.foldlM_cons, hn]
    rfl
  · rcases List.prefix_concat_iff.mp hpre with rfl | hpre
    · exact hk hm
    · exact hp k hm hpre

theorem of_snoc {c : Char} {next : Nat} (h : LeafPrefix next (text ++ [c])) (ht : text ≠ []) :
    ∃ depth, LeafPrefix depth text ∧ nest depth c = some next := by
  obtain ⟨⟨d, ds, he, hd, hf⟩, hp⟩ := h
  obtain ⟨e, es, rfl⟩ := List.exists_cons_of_ne_nil ht
  rw [List.cons_append] at he
  obtain ⟨rfl, rfl⟩ := List.cons.inj he
  rw [List.foldlM_append, Option.bind_eq_bind, Option.bind_eq_some_iff] at hf
  obtain ⟨depth, hf, hn⟩ := hf
  refine ⟨depth, ⟨⟨e, es, rfl, hd, hf⟩, fun k hm hpre => ?_⟩, by simpa using hn⟩
  exact hp k hm (hpre.trans (List.prefix_append _ _))

end LeafPrefix

theorem leafText_cons {c : Char} (h : StartsLeaf c) (cs : List Char) :
    leafText (c :: cs) = String.ofList (c :: cs.filter fun c => !isBlank c && c != '?') := by
  rw [leafText, List.filter_cons_of_pos]
  simp [h.1, List.ne_of_not_mem_cons h.2]

theorem LeafPrefix.leafText_ne_empty {depth : Nat} {text : List Char} (h : LeafPrefix depth text) :
    leafText text ≠ "" := by
  obtain ⟨c, cs, rfl, hc, -⟩ := h.starts
  rw [leafText_cons hc]
  simp

theorem leafText_snoc (text : List Char) {c : Char} (hb : isBlank c = false) (hq : c ≠ '?') :
    leafText (text ++ [c]) = (leafText text).push c := by
  rw [leafText, List.filter_append, List.filter_cons_of_pos (by simp [hb, hq])]
  apply String.toList_injective
  simp [leafText]

theorem leafText_snoc_of_trail (text : List Char) {c : Char} (h : isBlank c = true ∨ c = '?') :
    leafText (text ++ [c]) = leafText text := by
  rw [leafText, List.filter_append, List.filter_cons_of_neg]
  · simp [leafText]
  · rcases h with h | rfl
    · simp [h]
    · simp

end Comparability.TypeExpr
