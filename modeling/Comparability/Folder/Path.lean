import Comparability.Text.Pieces

/-!
# Paths

A path is written without empty and single-dot parts. It keeps its root: one slash, or two where
exactly two were written. A path of which nothing remains is the current folder.
-/

namespace Comparability.Folder

structure Path where
  root : String
  parts : List String
  deriving DecidableEq, Repr

namespace Path

def rootOf (text : String) : String :=
  match (text.toList.takeWhile (· = '/')).length with
  | 0 => ""
  | 2 => "//"
  | _ => "/"

/-- The path that a text writes. -/
def ofText (text : String) : Path where
  root := rootOf text
  parts := (Text.pieces '/' text).filter fun part => part ≠ "" && part ≠ "."

def toText (path : Path) : String :=
  let text := path.root ++ "/".intercalate path.parts
  if text = "" then "." else text

end Path

end Comparability.Folder
