import Mathlib.Tactic.Common
import Comparability.Capability

/-!
# The join of capabilities

Capabilities form a chain. `join` is the least upper bound of two of them and `strongest` that of a
list, so that a capability is known by what lies above it (`eq_of_forall_le_iff`), and the strongest
of a list depends on the members of the list alone.
-/

namespace Comparability.Capability

variable {a b c : Capability} {cs ds : List Capability}

theorem le_refl (a : Capability) : a ≤ a :=
  Nat.le_refl a.rank

theorem le_trans (hab : a ≤ b) (hbc : b ≤ c) : a ≤ c :=
  Nat.le_trans hab hbc

theorem le_antisymm (hab : a ≤ b) (hba : b ≤ a) : a = b := by
  revert hab hba
  cases a <;> cases b <;> decide

/-- A capability is known by what lies above it. -/
theorem eq_of_forall_le_iff (h : ∀ c, a ≤ c ↔ b ≤ c) : a = b :=
  le_antisymm ((h b).mpr (le_refl b)) ((h a).mp (le_refl a))

theorem join_le_iff : a.join b ≤ c ↔ a ≤ c ∧ b ≤ c := by
  cases a <;> cases b <;> cases c <;> decide

theorem strongest_le_iff : strongest cs ≤ c ↔ ∀ x ∈ cs, x ≤ c := by
  induction cs with
  | nil => exact iff_of_true (neither_le c) fun x hx => absurd hx List.not_mem_nil
  | cons x cs ih =>
    rw [strongest, List.foldr_cons, join_le_iff, List.forall_mem_cons]
    exact and_congr_right' ih

theorem choose_le_iff {p q : Prop} [Decidable p] [Decidable q] :
    (if p then comparable else if q then equatable else neither) ≤ c ↔
      (p → comparable ≤ c) ∧ (q → equatable ≤ c) := by
  have hle : equatable ≤ comparable := by decide
  split_ifs with hp hq
  · exact ⟨fun h => ⟨fun _ => h, fun _ => le_trans hle h⟩, fun h => h.1 hp⟩
  · exact ⟨fun h => ⟨fun hn => absurd hn hp, fun _ => h⟩, fun h => h.2 hq⟩
  · exact ⟨fun _ => ⟨fun hn => absurd hn hp, fun hn => absurd hn hq⟩, fun _ => neither_le c⟩

end Comparability.Capability
