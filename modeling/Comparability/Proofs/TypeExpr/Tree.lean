import Comparability.Proofs.TypeExpr.Correspondence
import Comparability.TypeExpr.Resolution

/-!
# Syntax trees

A scan whose parts stand for themselves gives the syntax tree of a type expression. Every other
meaning of the expression is an evaluation of that tree, so whether and where an expression is at
fault does not depend on the meaning, and its capability depends on the classifier through the
names at the leaves alone.

* `Tree.eval`, `Tree.leaves` : what a tree stands for, and the leaf names in it;
* `leafNames text` : the leaf names of a well-formed expression;
* `scan_eq_eval` : a scan is the scan for the tree, evaluated.
-/

namespace Comparability.TypeExpr

/-- The parts of a type expression, in their nesting. -/
inductive Tree where
  | leaf (name : String)
  | sequence (element : Tree)
  | dictionary (key value : Tree)
  | optional (inner : Tree)
  deriving DecidableEq, Repr

namespace Tree

variable {α : Type}

/-- The meaning in which parts stand for themselves. -/
def meaning : Meaning Tree :=
  ⟨leaf, sequence, dictionary, optional⟩

def eval (m : Meaning α) : Tree → α
  | leaf name => m.leaf name
  | sequence element => m.sequence (element.eval m)
  | dictionary key value => m.dictionary (key.eval m) (value.eval m)
  | optional inner => m.optional (inner.eval m)

def leaves : Tree → List String
  | leaf name => [name]
  | sequence element => element.leaves
  | dictionary key value => key.leaves ++ value.leaves
  | optional inner => inner.leaves

theorem meaning_alike (m : Meaning α) : meaning.Alike (fun tree v => tree.eval m = v) m where
  leaf _ := rfl
  sequence h := congrArg m.sequence h
  dictionary hk hv := congrArg₂ m.dictionary hk hv
  optional h := congrArg m.optional h

theorem eval_mono {f g : Classifier} {tree : Tree} (h : ∀ name ∈ tree.leaves, f name ≤ g name) :
    tree.eval (capabilityMeaning f) ≤ tree.eval (capabilityMeaning g) := by
  induction tree with
  | leaf name => exact h name (List.mem_singleton.mpr rfl)
  | sequence element ih => exact Capability.sequence_mono (ih h)
  | dictionary key value ihk ihv =>
    have hk := ihk fun name hn => h name (List.mem_append_left _ hn)
    have hv := ihv fun name hn => h name (List.mem_append_right _ hn)
    exact Capability.dictionary_mono hk hv
  | optional inner ih => exact ih h

theorem eval_congr {f g : Classifier} {tree : Tree} (h : ∀ name ∈ tree.leaves, f name = g name) :
    tree.eval (capabilityMeaning f) = tree.eval (capabilityMeaning g) := by
  induction tree with
  | leaf name => exact h name (List.mem_singleton.mpr rfl)
  | sequence element ih => exact congrArg Capability.sequence (ih h)
  | dictionary key value ihk ihv =>
    have hk := ihk fun name hn => h name (List.mem_append_left _ hn)
    have hv := ihv fun name hn => h name (List.mem_append_right _ hn)
    exact congrArg₂ Capability.dictionary hk hv
  | optional inner ih => exact ih h

end Tree

/-! ## Scans for the tree -/

def parse (text : String) : Except Fault Tree :=
  (scan Tree.meaning text).map Prod.fst

theorem parse_eq_ok_iff {text : String} {tree : Tree} :
    parse text = .ok tree ↔ ∃ stack, scan Tree.meaning text = .ok (tree, stack) := by
  unfold parse
  cases scan Tree.meaning text with
  | error fault => simp [Except.map]
  | ok result => simp [Except.map, Prod.ext_iff]

/-- The names that the classifier is asked for, from left to right. -/
def leafNames (text : String) : List String :=
  match parse text with
  | .ok tree => tree.leaves
  | .error _ => []

/-- **A scan is the scan for the tree, evaluated.** -/
theorem scan_eq_eval {α : Type} (m : Meaning α) (text : String) :
    (scan m text).map Prod.fst = (parse text).map (Tree.eval m) := by
  have h := scan_alike (Tree.meaning_alike m) text
  unfold parse
  generalize scan Tree.meaning text = x, scan m text = y at h
  cases h with
  | ok hv => exact congrArg Except.ok hv.symm
  | error hreason hspan =>
    exact congrArg Except.error (Fault.ext hreason.symm hspan.eq.symm)

theorem resolve_eq_parse (classify : Classifier) (text : String) :
    resolve classify text = ⟨text,
      match parse text with
      | .ok tree => .ok (tree.eval (capabilityMeaning classify))
      | .error fault => .error ⟨text, fault.reason, fault.span⟩⟩ := by
  have h := scan_eq_eval (capabilityMeaning classify) text
  unfold resolve
  generalize scan (capabilityMeaning classify) text = x at h
  generalize parse text = y at h
  cases x with
  | error fault =>
    cases y with
    | error _ => obtain rfl := Except.error.inj h; rfl
    | ok _ => cases h
  | ok result =>
    cases y with
    | error _ => cases h
    | ok tree =>
      have hv : result.1 = tree.eval (capabilityMeaning classify) := Except.ok.inj h
      show Resolution.mk text (.ok result.1) = ⟨text, .ok (tree.eval (capabilityMeaning classify))⟩
      rw [hv]

/-- Whether an expression is well-formed does not depend on the classifier. -/
theorem isOk_resolve (f g : Classifier) (text : String) :
    (resolve f text).isOk = (resolve g text).isOk := by
  rw [resolve_eq_parse f, resolve_eq_parse g]
  cases parse text <;> rfl

theorem resolve_mono {f g : Classifier} (h : ∀ name, f name ≤ g name) {text : String}
    {a b : Capability} (ha : (resolve f text).outcome = .ok a)
    (hb : (resolve g text).outcome = .ok b) : a ≤ b := by
  rw [resolve_eq_parse f] at ha
  rw [resolve_eq_parse g] at hb
  cases hparse : parse text with
  | error fault =>
    rw [hparse] at ha
    cases ha
  | ok tree =>
    rw [hparse] at ha hb
    obtain rfl := Except.ok.inj ha
    obtain rfl := Except.ok.inj hb
    exact Tree.eval_mono fun name _ => h name

/-- **Classifiers decide the capability alone.** Whether, why and where an expression is malformed
is the same under all of them, and what is well-formed has a weaker capability under a weaker one,
of which only the leaf names of the expression matter. -/
theorem resolve_parametric (f g : Classifier) (text : String) :
    (resolve f text).isOk = (resolve g text).isOk ∧
    (resolve f text).error? = (resolve g text).error? ∧
    ∀ a b, (resolve f text).outcome = .ok a → (resolve g text).outcome = .ok b →
      ((∀ name ∈ leafNames text, f name ≤ g name) → a ≤ b) ∧
      ((∀ name ∈ leafNames text, f name = g name) → a = b) := by
  rw [resolve_eq_parse f, resolve_eq_parse g]
  unfold leafNames
  cases parse text with
  | error fault => exact ⟨rfl, rfl, fun a b ha _ => by cases ha⟩
  | ok tree =>
    refine ⟨rfl, rfl, fun a b ha hb => ?_⟩
    obtain rfl := Except.ok.inj ha
    obtain rfl := Except.ok.inj hb
    exact ⟨Tree.eval_mono, Tree.eval_congr⟩

/-- A classifier that does not know the enclosing leaf makes the dictionary weaker. -/
theorem dictionary_weaker_of_leaf :
    (resolve (fun name => if name = "Int" then .comparable else .neither)
        "[Int: Foo<A?> ]").outcome = .ok .neither ∧
      (resolve (fun _ => .comparable) "[Int: Foo<A?> ]").outcome = .ok .equatable ∧
      Capability.neither ≤ Capability.equatable := by
  have h := resolve_parametric (fun name => if name = "Int" then .comparable else .neither)
    (fun _ => .comparable) "[Int: Foo<A?> ]"
  have hle := (h.2.2 .neither .equatable rfl rfl).1 (by decide)
  exact ⟨rfl, rfl, hle⟩

end Comparability.TypeExpr
