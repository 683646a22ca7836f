import Comparability.Folder.Path

/-!
# Folders of text files

`ReadFault` says why a path gives no text. A `Folder` is a current folder that holds some files and
nothing else; `Folder.read` looks a path up in it.
-/

namespace Comparability

/-- Why a path gives no text. -/
inductive ReadFault where
  | notFound
  | isFolder
  | notAFolder
  | nullCharacter
  | tooLong
  | notText
  | unreadable
  deriving DecidableEq, Repr

/-- A current folder with files, by name. -/
structure Folder where
  files : List (String × String)
  deriving DecidableEq, Repr

namespace Folder

def maxPartBytes : Nat :=
  255

def maxPathBytes : Nat :=
  4095

/-- The text of the file that parts name, from the current folder. The parts are looked up one after
the other, and the first one that leads nowhere is at fault. -/
def readParts (folder : Folder) : List String → Except ReadFault String
  | [] => .error .isFolder
  | first :: rest =>
    if first.utf8ByteSize > maxPartBytes then .error .tooLong
    else match folder.files.lookup first with
      | none => .error .notFound
      | some content => if rest.isEmpty then .ok content else .error .notAFolder

/-- The text of the file that a path names. No file is known outside the current folder, but the
folders above it exist. -/
def read (folder : Folder) (text : String) : Except ReadFault String :=
  let path := Path.ofText text
  if text.contains '\x00' then .error .nullCharacter
  else if path.toText.utf8ByteSize > maxPathBytes then .error .tooLong
  else if path.root = "" && path.parts.head? ≠ some ".." then folder.readParts path.parts
  else readParts ⟨[]⟩ (path.parts.dropWhile (· = ".."))

end Folder

end Comparability
