import Comparability.Proofs.TypeExpr.Language
import Comparability.Proofs.TypeExpr.Tree

/-!
# The names that a scan asks for

A leaf's name is looked up when the leaf is taken as an operand: at a closer, at a separator, and
where the text ends. That it is taken does not mean that it fits: names are also looked up in
expressions that turn out to be malformed.

* `Scan.lookups m s cs` : the names that are looked up when `cs` is read from the state `s` on;
* `lookups classify text` : those of a whole scan, from left to right;
* `Scan.names` : the names in the trees on a stack, from left to right.

The names looked up do not depend on the meaning (`Scan.Alike.lookups`), those of a well-formed
expression are the leaves of its tree (`lookups_eq_leaves`), and the answer depends on no other
(`resolve_congr`).
-/

namespace Comparability.TypeExpr

open Text (isBlank)

variable {α β : Type} {m : Meaning α} {n : Meaning β}

namespace Scan

def pendingNames (s : Scan α) : List String :=
  if s.leaf = "" then [] else [s.leaf]

/-- The names that are looked up to read the character. -/
def asked (s : Scan α) (c : Char) : List String :=
  if s.depth = 0 ∧ (c ∈ closers ∨ c ∈ separators) then s.pendingNames else []

def askedAtEnd (s : Scan α) : List String :=
  if s.depth = 0 then s.pendingNames else []

/-- The names that are looked up to read the characters, up to the first fault. -/
def lookups (m : Meaning α) (s : Scan α) : List Char → List String
  | [] => s.askedAtEnd
  | c :: cs => s.asked c ++
    match s.step m c with
    | .ok t => t.lookups m cs
    | .error _ => []

end Scan

def lookups (classify : Classifier) (text : String) : List String :=
  Scan.lookups (capabilityMeaning classify) {} text.toList

/-! ## Every meaning looks up the same names -/

namespace Scan

variable {R : α → β → Prop} {P : Nat → Nat → Prop} {s : Scan α} {t : Scan β}

theorem Alike.asked (h : s.Alike R P t) (c : Char) : s.asked c = t.asked c := by
  rw [Scan.asked, Scan.asked, pendingNames, pendingNames, h.leaf, h.depth]

theorem Alike.askedAtEnd (h : s.Alike R P t) : s.askedAtEnd = t.askedAtEnd := by
  rw [Scan.askedAtEnd, Scan.askedAtEnd, pendingNames, pendingNames, h.leaf, h.depth]

theorem Alike.lookups (hm : m.Alike R n) (hP : Tracks P) (h : s.Alike R P t) (cs : List Char) :
    s.lookups m cs = t.lookups n cs := by
  induction cs generalizing s t with
  | nil => exact h.askedAtEnd
  | cons c cs ih =>
    have hstep := h.step hm hP c
    rw [Scan.lookups, Scan.lookups, h.asked c]
    generalize s.step m c = x, t.step n c = y at hstep
    cases hstep with
    | error _ _ => rfl
    | ok hnext => exact congrArg (t.asked c ++ ·) (ih hnext)

theorem asked_eq_nil {c : Char} (hc : c ∉ closers) (hs : c ∉ separators) : s.asked c = [] :=
  if_neg fun h => h.2.elim hc hs

theorem asked_of_depth (hd : s.depth ≠ 0) (c : Char) : s.asked c = [] :=
  if_neg fun h => hd h.1

theorem asked_of_skip {c : Char} (h : isBlank c = true ∨ c = '?' ∧ s.depth ≠ 0) :
    s.asked c = [] := by
  rcases h with hb | ⟨-, hd⟩
  · obtain ⟨hc, hs, -⟩ := not_special_of_isBlank hb
    exact asked_eq_nil hc hs
  · exact asked_of_depth hd c

theorem asked_of_nest {c : Char} {depth : Nat} (hn : nest s.depth c = some depth) : s.asked c = [] := by
  by_cases hd : s.depth = 0
  · have hc : c ∉ closers ∧ c ∉ separators := by
      rw [mem_closers, mem_separators]
      constructor <;> (rintro (rfl | rfl) <;> rw [hd] at hn <;> cases hn)
    exact asked_eq_nil hc.1 hc.2
  · exact asked_of_depth hd c

theorem asked_eq_pendingNames (hd : s.depth = 0) {c : Char} (hc : c ∈ closers ∨ c ∈ separators) :
    s.asked c = s.pendingNames :=
  if_pos ⟨hd, hc⟩

end Scan

/-! ## The names in the trees -/

def Frame.names : Frame Tree → List String
  | .opened _ => []
  | .operand o => o.value.leaves
  | .key k => k.value.leaves

def stackNames (stack : List (Frame Tree)) : List String :=
  stack.reverse.flatMap Frame.names

@[simp] theorem stackNames_nil : stackNames [] = [] := rfl

@[simp] theorem stackNames_cons (f : Frame Tree) (rest : List (Frame Tree)) :
    stackNames (f :: rest) = stackNames rest ++ f.names := by
  simp [stackNames]

namespace Scan

variable {s u : Scan Tree} {c : Char}

theorem names_of_operand {o : Operand Tree} (ho : s.operand? Tree.meaning = some o) :
    stackNames s.stack ++ s.pendingNames = stackNames s.below ++ o.value.leaves := by
  rcases operand?_eq_some_iff.mp ho with ⟨hl, rfl, hb⟩ | ⟨hl, hs⟩
  · have hleaves : (s.leafOperand Tree.meaning).value.leaves = [s.leaf] := by
      unfold leafOperand
      split_ifs <;> rfl
    rw [pendingNames, if_neg hl, hleaves, hb]
  · rw [pendingNames, if_pos hl, List.append_nil, hs, stackNames_cons]
    rfl

/-- The names looked up to read a character are those that come into the trees. -/
theorem Reads.names (h : s.Reads Tree.meaning c u) :
    stackNames u.stack = stackNames s.stack ++ s.asked c := by
  cases h with
  | skip hc => rw [asked_of_skip hc, List.append_nil]
  | extend _ _ hn _ =>
    rw [asked_of_nest hn, List.append_nil]
    rfl
  | openKeyword _ _ _ =>
    rw [asked_eq_nil (by decide) (by decide)]
    simp [openContainer, startType, Frame.names]
  | openBracket _ _ =>
    rw [asked_eq_nil (by decide) (by decide)]
    simp [openContainer, startType, Frame.names]
  | separate hd hc ho hb _ =>
    rw [asked_eq_pendingNames hd (.inr hc), names_of_operand ho, hb]
    simp [startType, Frame.names]
  | closeSequence hd hc ho hb _ _ =>
    rw [asked_eq_pendingNames hd (.inl hc), names_of_operand ho, hb]
    simp [startType, Frame.names, Tree.meaning, Tree.leaves]
  | closeDictionary hd hc ho hb _ =>
    rw [asked_eq_pendingNames hd (.inl hc), names_of_operand ho, hb]
    simp [startType, Frame.names, Tree.meaning, Tree.leaves]
  | markOperand _ _ hs =>
    rw [asked_eq_nil (by decide) (by decide), hs]
    simp [Frame.names, Tree.meaning, Tree.leaves]
  | markLeaf _ _ => rw [asked_eq_nil (by decide) (by decide), List.append_nil]

/-- The names in the trees together with those still to be looked up are the leaves of the whole
tree. -/
theorem names_append_lookups {t : Scan Tree} {tree : Tree} {cs : List Char}
    (h : s.run Tree.meaning cs = .ok t) (ht : t.conclude Tree.meaning = .ok tree) :
    stackNames s.stack ++ s.lookups Tree.meaning cs = tree.leaves := by
  induction cs generalizing s with
  | nil =>
    obtain rfl := Except.ok.inj h
    obtain ⟨hd, span, ho, hb⟩ := conclude_eq_ok_iff.mp ht
    rw [lookups, askedAtEnd, if_pos hd, names_of_operand ho, hb]
    rfl
  | cons c cs ih =>
    rw [run_cons] at h
    cases hu : s.step Tree.meaning c with
    | error fault => rw [hu] at h; cases h
    | ok u =>
      rw [hu] at h
      obtain ⟨v, hv, rfl⟩ := step_eq_ok_iff.mp hu
      rw [lookups, hu, ← List.append_assoc, ← hv.names]
      exact ih h

end Scan

variable {classify : Classifier} {text : String}

theorem lookups_eq (classify : Classifier) (text : String) :
    lookups classify text = Scan.lookups Tree.meaning {} text.toList := by
  have hm := Tree.meaning_alike (capabilityMeaning classify)
  exact ((Scan.alike_start tracks_eq).lookups hm tracks_eq text.toList).symm

/-- **The names looked up in a well-formed expression are the leaves of its tree**, each as often and
in the place where it stands. -/
theorem lookups_eq_leaves {tree : Tree} (h : parse text = .ok tree) :
    lookups classify text = tree.leaves := by
  obtain ⟨stack, hscan⟩ := parse_eq_ok_iff.mp h
  obtain ⟨t, ht, hend, -⟩ := scan_eq_ok_iff.mp hscan
  rw [lookups_eq]
  exact Scan.names_append_lookups ht hend

/-- **No other name matters**: classifiers that agree on the names looked up give one answer. -/
theorem resolve_congr {f g : Classifier} (h : ∀ name ∈ lookups f text, f name = g name) :
    resolve f text = resolve g text := by
  rw [resolve_eq_parse f, resolve_eq_parse g]
  cases hparse : parse text with
  | error fault => rfl
  | ok tree =>
    rw [lookups_eq_leaves hparse] at h
    exact congrArg (fun c => Resolution.mk text (.ok c)) (Tree.eval_congr h)

end Comparability.TypeExpr
