import Comparability.Config.Options
import Comparability.Folder.Basic
import Comparability.Toml.Document

/-!
# Loading options

Options are read from a document: from its table `tool.typeconform` when it has a table `tool`, and
from its top level otherwise. What reads the file is a parameter.
-/

namespace Comparability.Config

open Folder (Path)

/-- Why no options were loaded. -/
inductive LoadFault where
  | unread (fault : ReadFault)
  | document (fault : Toml.Fault)
  | notATable (path : Path)
  | options (fault : OptionsFault)
  deriving DecidableEq, Repr

def toolKey : String :=
  "tool"

/-- The key of this tool's table among them. -/
def toolTableKey : String :=
  "typeconform"

/-- The wording of a fault of the document's content. A file that cannot be read and a document that
breaks the rules of its form have none. -/
def LoadFault.message? : LoadFault → Option String
  | unread _ => none
  | document fault => fault.message?
  | notATable path =>
    some ("`" ++ toolKey ++ "." ++ toolTableKey ++ "` in " ++ path.toText ++ " must be a table")
  | options fault => some fault.message

/-- The value of a document that holds the options. -/
def optionsValue (document : Entries) : Value :=
  match document.lookup toolKey with
  | some (.table tools) => (tools.lookup toolTableKey).getD (.table [])
  | _ => .table document

namespace Options

def ofDocument? (path : Path) (document : Entries) : Except LoadFault Options :=
  match optionsValue document with
  | .table entries => (ofEntries? entries).mapError .options
  | _ => .error (.notATable path)

def ofText? (path : Path) (text : String) : Except LoadFault Options :=
  match Toml.parse text with
  | .ok document => ofDocument? path document
  | .error fault => .error (.document fault)

def load [Monad m] (read : String → m (Except ReadFault String)) (path : String) :
    m (Except LoadFault Options) := do
  match ← read path with
  | .ok text => return ofText? (Path.ofText path) text
  | .error fault => return .error (.unread fault)

end Options

end Comparability.Config
