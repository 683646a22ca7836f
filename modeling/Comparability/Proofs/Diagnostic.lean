import Mathlib.Data.Prod.Lex
import Mathlib.Data.String.Basic
import Comparability.Diagnostic

/-!
# Diagnostics in order

* `Diagnostic.key` : what diagnostics are ordered by;
* `pairwise_sort`, `sort_perm` : sorting puts a list in order and keeps its members;
* `ties d xs`, `ties_sort` : the members of a list with one key, which sorting leaves in order;
* `sort_eq_iff` : there is one list in order with given ties;
* `sort_map_moved` : sorting before a source is moved, or after;
* `OfKind`, `Known` : a known diagnostic is all but its message and its span of one of the kinds.

Sorting is stable, so that in general what it gives depends on the order of the list, though only
in the order of ties (`TiesPermuted`). The code of a known diagnostic gives its kind, so its key says
all about it, and the order of known diagnostics does not matter (`sort_eq_of_perm`).
-/

namespace Comparability

structure Diagnostic.OfKind (kind : DiagnosticKind) (d : Diagnostic) : Prop where
  code : d.code = kind.code
  severity : d.severity = kind.severity
  hint : d.hint = kind.hint
  category : d.category = kind.category

def Diagnostic.Known (d : Diagnostic) : Prop :=
  ∃ kind ∈ DiagnosticKind.all, d.OfKind kind

namespace DiagnosticKind

theorem ofKind_report (kind : DiagnosticKind) (detail : String) (span : Text.Span) :
    (kind.report detail span).OfKind kind :=
  ⟨rfl, rfl, rfl, rfl⟩

theorem eq_of_code : ∀ kind ∈ all, ∀ other ∈ all, kind.code = other.code → kind = other := by
  decide

end DiagnosticKind

namespace Diagnostic

variable {a b : Diagnostic} {xs ys : List Diagnostic}

/-- What diagnostics are ordered by: start, stop, code and message. -/
def key (d : Diagnostic) : Lex (Nat × Lex (Nat × Lex (String × String))) :=
  toLex (d.span.start, toLex (d.span.stop, toLex (d.code, d.message)))

theorem le_iff : a.le b = true ↔ a.key ≤ b.key := by
  simp only [le, key, Prod.Lex.toLex_le_toLex, decide_eq_true_eq]

theorem le_trans (a b c : Diagnostic) (hab : a.le b = true) (hbc : b.le c = true) :
    a.le c = true := by
  rw [le_iff] at hab hbc ⊢
  exact hab.trans hbc

theorem le_total (a b : Diagnostic) : (a.le b || b.le a) = true := by
  rw [Bool.or_eq_true, le_iff, le_iff]
  exact Std.le_total

theorem sort_perm (xs : List Diagnostic) : (sort xs).Perm xs :=
  List.mergeSort_perm xs le

theorem pairwise_sort (xs : List Diagnostic) : (sort xs).Pairwise fun a b => a.key ≤ b.key := by
  have hsorted : (sort xs).Pairwise fun a b => a.le b = true :=
    List.pairwise_mergeSort le_trans le_total xs
  exact hsorted.imp le_iff.mp

theorem Known.eq_of_key (ha : a.Known) (hb : b.Known) (h : a.key = b.key) : a = b := by
  obtain ⟨kind, hkind, ha⟩ := ha
  obtain ⟨other, hother, hb⟩ := hb
  simp only [key, toLex_inj, Prod.mk.injEq] at h
  obtain ⟨hstart, hstop, hcode, hmessage⟩ := h
  obtain rfl : kind = other :=
    DiagnosticKind.eq_of_code kind hkind other hother (by rw [← ha.code, ← hb.code, hcode])
  ext1
  · exact hcode
  · exact hmessage
  · exact Text.Span.ext hstart hstop
  · rw [ha.severity, hb.severity]
  · rw [ha.hint, hb.hint]
  · rw [ha.category, hb.category]

theorem sort_eq_of_perm (h : ∀ d ∈ xs, d.Known) (hp : xs.Perm ys) : sort xs = sort ys := by
  have hsort : (sort xs).Perm (sort ys) := (sort_perm xs).trans (hp.trans (sort_perm ys).symm)
  refine List.Perm.eq_of_pairwise ?_ (pairwise_sort xs) (pairwise_sort ys) hsort
  intro a b ha hb hab hba
  refine Known.eq_of_key (h a ?_) (h b ?_) (le_antisymm hab hba)
  · exact (sort_perm xs).subset ha
  · exact ((sort_perm ys).trans hp.symm).subset hb

/-! ## Ties -/

/-- The members of a list that have the key of a given diagnostic, in the order of the list. -/
def ties (d : Diagnostic) (xs : List Diagnostic) : List Diagnostic :=
  xs.filter fun a => a.key = d.key

variable {d : Diagnostic}

theorem mem_ties : a ∈ ties d xs ↔ a ∈ xs ∧ a.key = d.key := by
  rw [ties, List.mem_filter, decide_eq_true_eq]

theorem ties_cons_of_eq (h : a.key = d.key) : ties d (a :: xs) = a :: ties d xs :=
  List.filter_cons_of_pos (decide_eq_true h)

theorem ties_cons_of_ne (h : a.key ≠ d.key) : ties d (a :: xs) = ties d xs :=
  List.filter_cons_of_neg (by simpa using h)

theorem ties_flatten (groups : List (List Diagnostic)) :
    ties d groups.flatten = (groups.map (ties d)).flatten :=
  List.filter_flatten

/-- Sorting is stable. -/
@[simp] theorem ties_sort (d : Diagnostic) (xs : List Diagnostic) :
    ties d (sort xs) = ties d xs := by
  have hpairwise : (ties d xs).Pairwise fun a b => a.le b = true := by
    refine List.pairwise_of_forall_mem_list fun a ha b hb => ?_
    rw [le_iff, (mem_ties.mp ha).2, (mem_ties.mp hb).2]
  have hsub : (ties d xs).Sublist (sort xs) :=
    List.sublist_mergeSort le_trans le_total hpairwise List.filter_sublist
  have hties : (ties d xs).Sublist (ties d (sort xs)) := by
    have hfilter := hsub.filter fun a => a.key = d.key
    rwa [List.filter_eq_self.mpr fun a ha => decide_eq_true (mem_ties.mp ha).2] at hfilter
  have hlength : (ties d xs).length = (ties d (sort xs)).length :=
    ((sort_perm xs).filter _).length_eq.symm
  exact (hties.eq_of_length hlength).symm

/-- The first key of a list in order is no greater than one that is found in the list. -/
theorem key_le_of_ties (hy : (b :: ys).Pairwise fun a b => a.key ≤ b.key)
    (h : ties a (a :: xs) = ties a (b :: ys)) : b.key ≤ a.key := by
  have ha : a ∈ ties a (b :: ys) := h ▸ mem_ties.mpr ⟨List.mem_cons_self, rfl⟩
  rcases List.mem_cons.mp (mem_ties.mp ha).1 with rfl | ha
  · exact le_rfl
  · exact List.rel_of_pairwise_cons hy ha

/-- Lists in order that have the same ties are equal. -/
theorem eq_of_ties (hx : xs.Pairwise fun a b => a.key ≤ b.key)
    (hy : ys.Pairwise fun a b => a.key ≤ b.key) (h : ∀ d, ties d xs = ties d ys) : xs = ys := by
  induction xs generalizing ys with
  | nil =>
    cases ys with
    | nil => rfl
    | cons b ys =>
      have hb := h b
      rw [ties_cons_of_eq rfl] at hb
      cases hb
  | cons a xs ih =>
    cases ys with
    | nil =>
      have ha := h a
      rw [ties_cons_of_eq rfl] at ha
      cases ha
    | cons b ys =>
      have hkey : b.key = a.key :=
        le_antisymm (key_le_of_ties hy (h a)) (key_le_of_ties hx (h b).symm)
      have hhead := h a
      rw [ties_cons_of_eq rfl, ties_cons_of_eq hkey] at hhead
      obtain rfl := (List.cons.inj hhead).1
      refine congrArg (a :: ·) (ih hx.of_cons hy.of_cons fun d => ?_)
      have hd := h d
      by_cases had : a.key = d.key
      · rw [ties_cons_of_eq had, ties_cons_of_eq had] at hd
        exact (List.cons.inj hd).2
      · rwa [ties_cons_of_ne had, ties_cons_of_ne had] at hd

/-- Sorting gives the one list in order that has the ties of what is sorted. -/
theorem sort_eq_iff :
    sort xs = ys ↔ (ys.Pairwise fun a b => a.key ≤ b.key) ∧ ∀ d, ties d ys = ties d xs := by
  constructor
  · rintro rfl
    exact ⟨pairwise_sort xs, fun d => ties_sort d xs⟩
  · rintro ⟨hy, h⟩
    exact eq_of_ties (pairwise_sort xs) hy fun d => (ties_sort d xs).trans (h d).symm

@[simp] theorem sort_sort (xs : List Diagnostic) : sort (sort xs) = sort xs :=
  sort_eq_iff.mpr ⟨pairwise_sort xs, fun _ => rfl⟩

/-! ## Moving -/

theorem le_moved (a b : Diagnostic) (delta : Nat) : (a.moved delta).le (b.moved delta) = a.le b := by
  simp only [le, moved, Text.Span.start_shift, Text.Span.stop_shift, Nat.add_lt_add_iff_right,
    Nat.add_right_cancel_iff]

theorem sort_map_moved (xs : List Diagnostic) (delta : Nat) :
    sort (xs.map fun d => d.moved delta) = (sort xs).map fun d => d.moved delta :=
  (List.map_mergeSort fun a _ b _ => (le_moved a b delta).symm).symm

/-! ## Groups -/

/-- Two lists differ in nothing but the order of ties. -/
structure TiesPermuted (xs ys : List Diagnostic) : Prop where
  keys : xs.map key = ys.map key
  ties : ∀ d, (ties d xs).Perm (ties d ys)

theorem tiesPermuted_sort (h : xs.Perm ys) : TiesPermuted (sort xs) (sort ys) where
  keys := by
    have hkeys : ((sort xs).map key).Perm ((sort ys).map key) :=
      ((sort_perm xs).trans (h.trans (sort_perm ys).symm)).map key
    refine List.Perm.eq_of_pairwise (fun a b _ _ => le_antisymm) ?_ ?_ hkeys
    · exact List.pairwise_map.mpr (pairwise_sort xs)
    · exact List.pairwise_map.mpr (pairwise_sort ys)
  ties d := by
    rw [ties_sort, ties_sort]
    exact h.filter _

theorem sort_collect_map_sort (groups : List (List Diagnostic)) :
    sort (collect (groups.map sort)) = sort (collect groups) := by
  refine sort_eq_iff.mpr ⟨pairwise_sort _, fun d => ?_⟩
  have hties : (ties d ∘ sort) = ties d := funext (ties_sort d)
  rw [ties_sort, collect, collect, ties_flatten, ties_flatten, List.map_map, hties]

/-- **Sorting is stable, and depends on grouping in ties alone.** A sorted list holds what the list
held, by start, stop, code and message, with ties in the order in which they came. Sorting it again
changes nothing, and it does not matter whether the source is moved before or after. However a list
is cut into groups, sorted themselves or not, it is sorted to the same list and has an error or not;
groups in another order have an error when these have one, and are sorted to the same list but for
the order of ties. -/
theorem sort_stable (xs : List Diagnostic) :
    (sort xs).Perm xs ∧
    (sort xs).Pairwise (fun a b => a.key ≤ b.key) ∧
    (∀ d, ties d (sort xs) = ties d xs) ∧
    (∀ delta, sort (xs.map fun d => d.moved delta) = (sort xs).map fun d => d.moved delta) ∧
    sort (sort xs) = sort xs ∧
    ∀ groups, groups.flatten = xs →
      sort (collect groups) = sort xs ∧
      sort (collect (groups.map sort)) = sort xs ∧
      anyError (collect groups) = anyError xs ∧
      ∀ other, other.Perm groups →
        anyError (collect other) = anyError xs ∧
        TiesPermuted (sort (collect other)) (sort xs) := by
  refine ⟨sort_perm xs, pairwise_sort xs, fun d => ties_sort d xs, sort_map_moved xs, sort_sort xs,
    ?_⟩
  rintro groups rfl
  refine ⟨rfl, sort_collect_map_sort groups, rfl, fun other h => ?_⟩
  exact ⟨h.flatten.any_eq, tiesPermuted_sort h.flatten⟩

/-- An error and a warning with one key, in two groups that come in either order. -/
theorem sort_stable_of_tied_groups :
    ∃ a b c : Diagnostic, a = ⟨"B", "text", ⟨2, 3, by decide⟩, .error, none, none⟩ ∧
      b = ⟨"B", "text", ⟨2, 3, by decide⟩, .warning, some "hint", none⟩ ∧
      c = ⟨"A", "text", ⟨2, 3, by decide⟩, .warning, none, none⟩ ∧
      ties a (sort [a, b, c]) = [a, b] ∧ ties a (sort [b, c, a]) = [b, a] ∧
      [[a], [b, c]].flatten = [a, b, c] ∧
      sort (collect [[a], [b, c]]) = sort [a, b, c] ∧
      [[b, c], [a]].Perm [[a], [b, c]] ∧
      TiesPermuted (sort (collect [[b, c], [a]])) (sort [a, b, c]) := by
  have hlaws : ∀ a b c : Diagnostic, a.key = b.key → a.key ≠ c.key →
      ties a (sort [a, b, c]) = [a, b] ∧ ties a (sort [b, c, a]) = [b, a] ∧
      [[a], [b, c]].flatten = [a, b, c] ∧
      sort (collect [[a], [b, c]]) = sort [a, b, c] ∧
      [[b, c], [a]].Perm [[a], [b, c]] ∧
      TiesPermuted (sort (collect [[b, c], [a]])) (sort [a, b, c]) := by
    intro a b c hb hc
    obtain ⟨-, -, hties, -, -, hgroups⟩ := sort_stable [a, b, c]
    obtain ⟨-, -, hswapped, -⟩ := sort_stable [b, c, a]
    obtain ⟨hcollect, -, -, horder⟩ := hgroups [[a], [b, c]] rfl
    have hperm : [[b, c], [a]].Perm [[a], [b, c]] := List.Perm.swap _ _ []
    refine ⟨?_, ?_, rfl, hcollect, hperm, (horder _ hperm).2⟩
    · rw [hties]
      simp [ties, hb.symm, hc.symm]
    · rw [hswapped]
      simp [ties, hb.symm, hc.symm]
  exact ⟨_, _, _, rfl, rfl, rfl, hlaws _ _ _ rfl (by decide)⟩

end Diagnostic

end Comparability
