import Comparability.Names.Constraint
import Comparability.Proofs.Capability
import Comparability.Proofs.Text.Pieces

/-!
# What constraint clauses promise together

* `constraints clauses` : all the constraints that the clauses compose;
* `AssociatedType.capability_le_iff` : a declaration promises the least capability that agrees with
  its constraints, so that it is the constraints alone that count (`capability_le_of_constraints`);
* `mem_constraints_joined`, `constraints_pieces`, `constraints_padded` : clauses joined, taken apart
  and set between blanks have the constraints that they had.
-/

namespace Comparability.Names

open Text (pieces trim isBlankText)

variable {clause part : String} {clauses others : List String} {c : Capability}

def constraints (clauses : List String) : List String :=
  clauses.flatMap components

def Padded (text padded : String) : Prop :=
  ∃ before after, isBlankText before = true ∧ isBlankText after = true ∧
    before ++ text ++ after = padded

theorem constraints_eq_map (clauses : List String) :
    constraints clauses = (clauses.flatMap (pieces '&')).map trim := by
  rw [List.map_flatMap]
  rfl

theorem mem_constraints_iff :
    part ∈ constraints clauses ↔
      ∃ clause ∈ clauses, ∃ piece ∈ pieces '&' clause, trim piece = part := by
  simp only [constraints, components, List.mem_flatMap, List.mem_map]

/-! ## Other ways to write the same constraints -/

/-- A composition has the constraints of what it composes, and none if it composes nothing. -/
theorem mem_constraints_joined (hpart : part ≠ "") (groups : List (List String)) :
    part ∈ constraints (groups.map "&".intercalate) ↔ part ∈ constraints groups.flatten := by
  have hgroup : ∀ group, part ∈ components ("&".intercalate group) ↔ part ∈ constraints group := by
    intro group
    by_cases hne : group = []
    · subst hne
      exact ⟨fun h => absurd (List.mem_singleton.mp h) hpart, fun h => absurd h List.not_mem_nil⟩
    · have hpieces : pieces '&' ("&".intercalate group) = group.flatMap (pieces '&') :=
        Text.pieces_intercalate hne
      rw [components, hpieces, constraints_eq_map]
  rw [← List.flatMap_id]
  simp only [constraints, List.flatMap_map, List.flatMap_assoc, List.mem_flatMap] at hgroup ⊢
  exact exists_congr fun group => and_congr_right fun _ => hgroup group

theorem constraints_pieces (clauses : List String) :
    constraints (clauses.flatMap (pieces '&')) = constraints clauses := by
  have hpieces : ∀ piece ∈ clauses.flatMap (pieces '&'), components piece = [trim piece] := by
    intro piece hp
    obtain ⟨clause, -, hp⟩ := List.mem_flatMap.mp hp
    rw [components, Text.pieces_of_mem_pieces hp, List.map_singleton]
  rw [constraints_eq_map clauses, constraints, List.flatMap_congr hpieces, List.map_eq_flatMap]

theorem constraints_padded (h : List.Forall₂ Padded clauses others) :
    constraints others = constraints clauses := by
  induction h with
  | nil => rfl
  | cons hpad _ ih =>
    obtain ⟨before, after, hb, ha, rfl⟩ := hpad
    rw [constraints, constraints, List.flatMap_cons, List.flatMap_cons, components,
      Text.map_trim_pieces_append rfl hb ha, ← components, ← constraints, ← constraints, ih]

/-! ## What the constraints promise -/

theorem clauseCapability_le_iff :
    clauseCapability clause ≤ c ↔
      ("Comparable" ∈ components clause → .comparable ≤ c) ∧
        ("Equatable" ∈ components clause → .equatable ≤ c) := by
  unfold clauseCapability
  simp only [List.contains_iff_mem]
  exact Capability.choose_le_iff

namespace AssociatedType

variable {d e : AssociatedType}

/-- A declaration promises the least capability that agrees with its constraints. -/
theorem capability_le_iff :
    d.capability ≤ c ↔
      ("Comparable" ∈ constraints d.inherited → .comparable ≤ c) ∧
        ("Equatable" ∈ constraints d.inherited → .equatable ≤ c) := by
  simp only [capability, Capability.strongest_le_iff, List.forall_mem_map, clauseCapability_le_iff,
    constraints, List.mem_flatMap]
  constructor
  · intro h
    exact ⟨fun ⟨clause, hm, hc⟩ => (h clause hm).1 hc, fun ⟨clause, hm, hc⟩ => (h clause hm).2 hc⟩
  · intro h clause hm
    exact ⟨fun hc => h.1 ⟨clause, hm, hc⟩, fun hc => h.2 ⟨clause, hm, hc⟩⟩

theorem capability_le_of_constraints
    (h : ∀ part ∈ constraints d.inherited, part ≠ "" → part ∈ constraints e.inherited) :
    d.capability ≤ e.capability := by
  have he := capability_le_iff.mp (Capability.le_refl e.capability)
  exact capability_le_iff.mpr
    ⟨fun hc => he.1 (h _ hc (by decide)), fun hc => he.2 (h _ hc (by decide))⟩

theorem capability_congr
    (h : ∀ part, part ≠ "" → (part ∈ constraints d.inherited ↔ part ∈ constraints e.inherited)) :
    d.capability = e.capability :=
  Capability.le_antisymm
    (capability_le_of_constraints fun part hp hne => (h part hne).mp hp)
    (capability_le_of_constraints fun part hp hne => (h part hne).mpr hp)

theorem capability_singleton (name clause : String) :
    capability ⟨name, [clause]⟩ = clauseCapability clause := by
  apply Capability.eq_of_forall_le_iff
  intro c
  rw [capability, List.map_singleton, Capability.strongest_le_iff, List.forall_mem_singleton]

/-- A declaration has the capability of the strongest constraint that it has. -/
theorem capability_eq (d : AssociatedType) :
    d.capability =
      if "Comparable" ∈ constraints d.inherited then .comparable
      else if "Equatable" ∈ constraints d.inherited then .equatable
      else .neither := by
  apply Capability.eq_of_forall_le_iff
  intro c
  rw [capability_le_iff, Capability.choose_le_iff]

theorem capability_eq_comparable_iff :
    d.capability = .comparable ↔ "Comparable" ∈ constraints d.inherited := by
  rw [capability_eq]
  split_ifs with hc he <;> simp [hc]

theorem equatable_le_capability_iff :
    .equatable ≤ d.capability ↔
      "Comparable" ∈ constraints d.inherited ∨ "Equatable" ∈ constraints d.inherited := by
  rw [capability_eq]
  split_ifs with hc he
  · exact iff_of_true (by decide) (.inl hc)
  · exact iff_of_true (by decide) (.inr he)
  · exact iff_of_false (by decide) (not_or.mpr ⟨hc, he⟩)

/-- **A composed constraint is the list of its constraints.** Clauses joined by `&` promise what a
declaration with these clauses promises, which is the least that is above what each of them
promises. It depends on the constraints in the clauses alone: not on their order and repetition, on
how they are grouped into clauses, or on the blanks around them. A further clause takes nothing
away, and the two capabilities come from just two constraints. -/
theorem capability_of_clauses (name : String) (clauses : List String) :
    clauseCapability ("&".intercalate clauses) = capability ⟨name, clauses⟩ ∧
    (∀ c, capability ⟨name, clauses⟩ ≤ c ↔ ∀ clause ∈ clauses, clauseCapability clause ≤ c) ∧
    (∀ others, (∀ part, part ≠ "" → (part ∈ constraints clauses ↔ part ∈ constraints others)) →
      capability ⟨name, others⟩ = capability ⟨name, clauses⟩) ∧
    (∀ others,
      (∀ piece, piece ∈ clauses.flatMap (pieces '&') ↔ piece ∈ others.flatMap (pieces '&')) →
      capability ⟨name, others⟩ = capability ⟨name, clauses⟩) ∧
    (∀ groups : List (List String), groups.flatten = clauses →
      capability ⟨name, groups.map "&".intercalate⟩ = capability ⟨name, clauses⟩) ∧
    (∀ groups : List (List String),
      List.Forall₂ Padded (clauses.flatMap (pieces '&')) groups.flatten →
      capability ⟨name, groups.map "&".intercalate⟩ = capability ⟨name, clauses⟩) ∧
    (∀ clause, capability ⟨name, clauses⟩ ≤ capability ⟨name, clauses ++ [clause]⟩) ∧
    (capability ⟨name, clauses⟩ = .comparable ↔
      ∃ clause ∈ clauses, ∃ piece ∈ pieces '&' clause, trim piece = "Comparable") ∧
    (.equatable ≤ capability ⟨name, clauses⟩ ↔
      ∃ clause ∈ clauses, ∃ piece ∈ pieces '&' clause,
        trim piece = "Comparable" ∨ trim piece = "Equatable") := by
  have hgroups : ∀ groups : List (List String),
      constraints groups.flatten = constraints clauses →
      capability ⟨name, groups.map "&".intercalate⟩ = capability ⟨name, clauses⟩ := by
    intro groups h
    exact capability_congr fun part hne => by rw [mem_constraints_joined hne, h]
  refine ⟨?_, fun c => ?_, fun others h => ?_, fun others h => ?_, fun groups h => ?_,
    fun groups h => ?_, fun clause => ?_, ?_, ?_⟩
  · rw [← capability_singleton name, ← hgroups [clauses] (by simp), List.map_singleton]
  · rw [capability, Capability.strongest_le_iff, List.forall_mem_map]
  · exact capability_congr fun part hne => (h part hne).symm
  · refine capability_congr fun part _ => ?_
    rw [constraints_eq_map, constraints_eq_map, List.mem_map, List.mem_map]
    simp only [h]
  · exact hgroups groups (by rw [h])
  · exact hgroups groups ((constraints_padded h).trans (constraints_pieces clauses))
  · refine capability_le_of_constraints fun part hp _ => ?_
    rw [constraints, List.flatMap_append]
    exact List.mem_append_left _ hp
  · rw [capability_eq_comparable_iff, mem_constraints_iff]
  · rw [equatable_le_capability_iff, mem_constraints_iff, mem_constraints_iff]
    simp only [and_or_left, exists_or]

/-- Constraints in another order, written once more, in other clauses and between blanks. -/
theorem capability_of_rearranged_clauses :
    capability ⟨"Key", ["Hashable& Equatable", "Codable", "Codable"]⟩ =
        capability ⟨"Key", ["Codable& Equatable", "Hashable"]⟩ ∧
      capability ⟨"Key", ["", "Codable& Equatable&Hashable"]⟩ =
        capability ⟨"Key", ["Codable& Equatable", "Hashable"]⟩ ∧
      capability ⟨"Key", ["Codable ", " Equatable&\tHashable"]⟩ =
        capability ⟨"Key", ["Codable& Equatable", "Hashable"]⟩ ∧
      capability ⟨"Key", ["Equatable & Codable", "Hashable", ""]⟩ =
        capability ⟨"Key", ["Codable& Equatable", "Hashable"]⟩ := by
  obtain ⟨-, -, hsame, hpieces, hgroups, hpadded, -⟩ :=
    capability_of_clauses "Key" ["Codable& Equatable", "Hashable"]
  refine ⟨hpieces _ ?_, hgroups [[], ["Codable& Equatable", "Hashable"]] rfl,
    hpadded [["Codable "], [" Equatable", "\tHashable"]] ?_, hsame _ ?_⟩
  · intro piece
    have hleft : ["Codable& Equatable", "Hashable"].flatMap (pieces '&') =
        ["Codable", " Equatable", "Hashable"] := rfl
    have hright : ["Hashable& Equatable", "Codable", "Codable"].flatMap (pieces '&') =
        ["Hashable", " Equatable", "Codable", "Codable"] := rfl
    simp only [hleft, hright, List.mem_cons, List.not_mem_nil, or_false]
    tauto
  · exact .cons ⟨"", " ", rfl, rfl, rfl⟩
      (.cons ⟨"", "", rfl, rfl, rfl⟩ (.cons ⟨"\t", "", rfl, rfl, rfl⟩ .nil))
  · intro part hne
    have hleft : constraints ["Codable& Equatable", "Hashable"] =
        ["Codable", "Equatable", "Hashable"] := rfl
    have hright : constraints ["Equatable & Codable", "Hashable", ""] =
        ["Equatable", "Codable", "Hashable", ""] := rfl
    simp only [hleft, hright, List.mem_cons, List.not_mem_nil, or_false, hne]
    tauto

end AssociatedType

end Comparability.Names
