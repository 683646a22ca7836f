/-!
# Pieces between separators

`pieces sep s` cuts a text at every `sep`: there is one piece more than there are separators, and a
piece may be empty.
-/

namespace Comparability.Text

/-- The stretches of characters between the separators. -/
def piecesOfChars (sep : Char) : List Char → List (List Char)
  | [] => [[]]
  | c :: rest =>
    if c = sep then [] :: piecesOfChars sep rest
    else match piecesOfChars sep rest with
      | [] => [[c]]
      | piece :: pieces => (c :: piece) :: pieces

def pieces (sep : Char) (s : String) : List String :=
  (piecesOfChars sep s.toList).map String.ofList

theorem piecesOfChars_ne_nil (sep : Char) (cs : List Char) : piecesOfChars sep cs ≠ [] := by
  cases cs with
  | nil => simp [piecesOfChars]
  | cons c rest =>
    rw [piecesOfChars]
    split
    · simp
    · split <;> simp

end Comparability.Text
