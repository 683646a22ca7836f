import Comparability.Proofs.TypeExpr.Lookup
import Comparability.Proofs.TypeExpr.Opening

/-!
# The capability of a container in closed form

However deep its containers are nested, an expression that has one is never ordered, and it is
equatable when all of the names in it are. An expression without containers is a single name.

* `Tree.hasContainer` : the tree is more than a leaf with optional marks;
* `Tree.eval_of_hasContainer`, `Tree.eval_of_leaf` : the two closed forms;
* `HoldsContainers` : the operands on a stack are trees of containers, which every character keeps, so
  that the tree of an expression has a container when its scan opens one.
-/

namespace Comparability

namespace Capability

theorem equatable_le_iff {a : Capability} : .equatable ≤ a ↔ a.isEquatable = true :=
  isEquatable_iff.symm

@[simp] theorem isEquatable_sequence (a : Capability) : a.sequence.isEquatable = a.isEquatable := by
  cases a <;> rfl

@[simp] theorem isEquatable_dictionary (a b : Capability) :
    (a.dictionary b).isEquatable = (a.isEquatable && b.isEquatable) := by
  cases a <;> cases b <;> rfl

theorem sequence_ne_comparable (a : Capability) : a.sequence ≠ .comparable := by
  cases a <;> decide

theorem dictionary_ne_comparable (a b : Capability) : a.dictionary b ≠ .comparable := by
  cases a <;> cases b <;> decide

theorem eq_equatable_iff {a : Capability} (h : a ≠ .comparable) :
    a = .equatable ↔ a.isEquatable = true := by
  cases a with
  | neither => decide
  | equatable => decide
  | comparable => exact absurd rfl h

theorem eq_neither_iff {a : Capability} : a = .neither ↔ ¬ a.isEquatable = true := by
  cases a <;> decide

end Capability

namespace TypeExpr

namespace Tree

def hasContainer : Tree → Bool
  | leaf _ => false
  | sequence _ => true
  | dictionary _ _ => true
  | optional inner => inner.hasContainer

variable {classify : Classifier} {tree : Tree}

/-- A tree is equatable exactly when all of its names are. -/
theorem isEquatable_eval :
    (tree.eval (capabilityMeaning classify)).isEquatable = true ↔
      ∀ name ∈ tree.leaves, (classify name).isEquatable = true := by
  induction tree with
  | leaf name => simp [eval, leaves, capabilityMeaning]
  | sequence element ih =>
    show (Capability.sequence _).isEquatable = true ↔ _
    rw [Capability.isEquatable_sequence]
    exact ih
  | dictionary key value ihk ihv =>
    show (Capability.dictionary _ _).isEquatable = true ↔ _
    rw [Capability.isEquatable_dictionary, Bool.and_eq_true, ihk, ihv]
    exact List.forall_mem_append.symm
  | optional inner ih => exact ih

theorem eval_ne_comparable (h : tree.hasContainer = true) :
    tree.eval (capabilityMeaning classify) ≠ .comparable := by
  induction tree with
  | leaf name => cases h
  | sequence element => exact Capability.sequence_ne_comparable _
  | dictionary key value => exact Capability.dictionary_ne_comparable _ _
  | optional inner ih => exact ih h

theorem eval_of_hasContainer (h : tree.hasContainer = true) :
    tree.eval (capabilityMeaning classify) =
      if ∀ name ∈ tree.leaves, .equatable ≤ classify name then .equatable else .neither := by
  have hall : (∀ name ∈ tree.leaves, .equatable ≤ classify name) ↔
      (tree.eval (capabilityMeaning classify)).isEquatable = true := by
    simp only [Capability.equatable_le_iff, isEquatable_eval]
  split_ifs with hl
  · exact (Capability.eq_equatable_iff (eval_ne_comparable h)).mpr (hall.mp hl)
  · exact Capability.eq_neither_iff.mpr fun he => hl (hall.mpr he)

theorem eval_of_leaf (h : tree.hasContainer = false) :
    ∃ name, tree.leaves = [name] ∧ tree.eval (capabilityMeaning classify) = classify name := by
  induction tree with
  | leaf name => exact ⟨name, rfl, rfl⟩
  | sequence element => cases h
  | dictionary key value => cases h
  | optional inner ih => exact ih h

end Tree

/-! ## The trees on a stack -/

def HoldsContainers (stack : List (Frame Tree)) : Prop :=
  ∀ o, .operand o ∈ stack → o.value.hasContainer = true

namespace HoldsContainers

variable {stack : List (Frame Tree)}

theorem operand (h : HoldsContainers stack) {o : Operand Tree} (ho : o.value.hasContainer = true) :
    HoldsContainers (.operand o :: stack) := by
  intro p hp
  rcases List.mem_cons.mp hp with hp | hp
  · obtain rfl := Frame.operand.inj hp
    exact ho
  · exact h p hp

theorem cons (h : HoldsContainers stack) {f : Frame Tree} (hf : ∀ o, f ≠ .operand o) :
    HoldsContainers (f :: stack) :=
  fun p hp => h p ((List.mem_cons.mp hp).resolve_left fun he => hf p he.symm)

theorem suffix (h : HoldsContainers stack) {rest : List (Frame Tree)} (hs : rest <:+ stack) :
    HoldsContainers rest :=
  fun o ho => h o (hs.subset ho)

end HoldsContainers

namespace Scan

variable {s u t : Scan Tree} {c : Char}

theorem Reads.holdsContainers (h : s.Reads Tree.meaning c u) (hs : HoldsContainers s.stack) :
    HoldsContainers u.stack := by
  have hbelow : HoldsContainers s.below := hs.suffix s.below_suffix
  cases h with
  | skip _ => exact hs
  | extend _ _ _ _ => exact hs
  | markLeaf _ _ => exact hs
  | openKeyword _ _ _ => exact hs.cons (by simp)
  | openBracket _ _ => exact hs.cons (by simp)
  | @separate _ o frame rest _ _ _ hb _ =>
    rw [hb] at hbelow
    have hrest : HoldsContainers rest := hbelow.suffix (List.suffix_cons _ _)
    exact (hrest.cons (by simp)).cons (by simp)
  | @closeSequence _ o frame rest _ _ _ hb _ _ =>
    rw [hb] at hbelow
    have hrest : HoldsContainers rest := hbelow.suffix (List.suffix_cons _ _)
    exact hrest.operand rfl
  | @closeDictionary _ o k frame rest _ _ _ hb _ =>
    rw [hb] at hbelow
    have hrest : HoldsContainers rest := hbelow.suffix (List.suffix_append [_, _] _)
    exact hrest.operand rfl
  | @markOperand o rest _ _ hb =>
    rw [hb] at hs
    have hrest : HoldsContainers rest := hs.suffix (List.suffix_cons _ _)
    exact hrest.operand (hs o List.mem_cons_self)

/-- The tree of a whole text has a container exactly when a frame is left on the stack. -/
theorem hasContainer_iff {text : List Char} {tree : Tree} (h : run Tree.meaning {} text = .ok t)
    (ht : t.conclude Tree.meaning = .ok tree) : tree.hasContainer = true ↔ t.stack ≠ [] := by
  have hc : HoldsContainers t.stack :=
    run_preserves (P := fun s => HoldsContainers s.stack) (fun hs hr => hr.holdsContainers hs)
      (fun _ ho => absurd ho List.not_mem_nil) h
  obtain ⟨-, span, ho, hb⟩ := conclude_eq_ok_iff.mp ht
  rcases operand?_eq_some_iff.mp ho with ⟨-, hv, hs⟩ | ⟨-, hs⟩
  · have hleaf : tree.hasContainer = false := by
      obtain rfl : (t.leafOperand Tree.meaning).value = tree := congrArg Operand.value hv
      unfold leafOperand
      split_ifs <;> rfl
    rw [← hs, hb, hleaf]
    simp
  · rw [hs] at hc
    have hcontainer : tree.hasContainer = true := hc ⟨tree, span⟩ List.mem_cons_self
    rw [hs, hcontainer]
    simp

end Scan

/-! ## Expressions -/

variable {classify : Classifier} {text : String} {c : Capability}

theorem exists_tree_of_resolve (h : (resolve classify text).outcome = .ok c) :
    ∃ tree, parse text = .ok tree ∧ tree.eval (capabilityMeaning classify) = c ∧
      (tree.hasContainer = true ↔ OpensContainer (capabilityMeaning classify) text.toList) := by
  obtain ⟨stack, hscan⟩ := resolve_outcome_eq_ok_iff.mp h
  obtain ⟨s, hs, hend, -⟩ := scan_eq_ok_iff.mp hscan
  have hm := Tree.meaning_alike (capabilityMeaning classify)
  obtain ⟨t, ht, halike⟩ := ((Scan.alike_start tracks_eq).run hm tracks_eq text.toList).exists_ok hs
  obtain ⟨tree, htree, hv⟩ := (halike.conclude hm tracks_eq).exists_ok hend
  have hstacks : t.stack ≠ [] ↔ s.stack ≠ [] := by
    have hlen := halike.stack.length_eq
    rw [← List.length_pos_iff, ← List.length_pos_iff, hlen]
  refine ⟨tree, parse_eq_ok_iff.mpr ⟨t.stack, scan_eq_ok_iff.mpr ⟨t, ht, htree, rfl⟩⟩, hv, ?_⟩
  rw [Scan.hasContainer_iff ht htree, hstacks, opensContainer_iff hs]

/-- **Containers in closed form.** A well-formed expression in which a container opens is never
ordered; it is equatable if all of the names that its scan looks up are, and neither otherwise. One
in which no container opens has the capability of the single name that is looked up. -/
theorem resolve_closed_form (classify : Classifier) (text : String) (c : Capability)
    (h : (resolve classify text).outcome = .ok c) :
    (OpensContainer (capabilityMeaning classify) text.toList →
      c ≠ .comparable ∧
      c = if ∀ name ∈ lookups classify text, .equatable ≤ classify name then .equatable
        else .neither) ∧
    (¬ OpensContainer (capabilityMeaning classify) text.toList →
      ∃ name, lookups classify text = [name] ∧ c = classify name) := by
  obtain ⟨tree, hparse, rfl, hopens⟩ := exists_tree_of_resolve h
  rw [lookups_eq_leaves hparse, ← hopens]
  refine ⟨fun hc => ⟨Tree.eval_ne_comparable hc, Tree.eval_of_hasContainer hc⟩, fun hc => ?_⟩
  exact Tree.eval_of_leaf (Bool.not_eq_true _ ▸ hc)

/-- One name that is not equatable, within a set that is the value of a dictionary, and a name alone. -/
theorem closed_form_of_dictionary :
    (resolve (fun name => if name = "Int" then .comparable else .neither)
        "[Int: Set<Foo<A, B?>> ?]").outcome = .ok .neither ∧
      lookups (fun name => if name = "Int" then .comparable else .neither)
        "[Int: Set<Foo<A, B?>> ?]" = ["Int", "Foo<A,B>"] ∧
      Capability.neither ≠ .comparable ∧
      Capability.neither =
        (if ∀ name ∈ lookups (fun name => if name = "Int" then .comparable else .neither)
            "[Int: Set<Foo<A, B?>> ?]",
          .equatable ≤ if name = "Int" then Capability.comparable else .neither
        then .equatable else .neither) ∧
      ∃ name, lookups (fun name => if name = "Int" then .comparable else .neither) " Int ?" =
        [name] ∧ Capability.comparable = if name = "Int" then .comparable else .neither := by
  have h := resolve_closed_form fun name => if name = "Int" then .comparable else .neither
  obtain ⟨hne, heq⟩ := (h "[Int: Set<Foo<A, B?>> ?]" .neither rfl).1
    ⟨"[".toList, _, ⟨by decide, rfl⟩, by decide⟩
  exact ⟨rfl, rfl, hne, heq,
    (h " Int ?" .comparable rfl).2 fun ho => (opensContainer_iff rfl).mp ho rfl⟩

end TypeExpr

end Comparability
