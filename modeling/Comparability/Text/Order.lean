/-!
# Sets of texts in order

Texts are ordered by code points. `sortedSet` lists each text once, from the least to the greatest;
it holds what the list holds (`mem_sortedSet`).
-/

namespace Comparability.Text

/-- The members of a list, each once, from the least to the greatest. -/
def sortedSet (texts : List String) : List String :=
  texts.eraseDups.mergeSort fun a b => decide (a ≤ b)

@[simp] theorem mem_sortedSet {text : String} {texts : List String} :
    text ∈ sortedSet texts ↔ text ∈ texts := by
  simp [sortedSet]

end Comparability.Text
