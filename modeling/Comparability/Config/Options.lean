import Comparability.Config.Value
import Comparability.Text.Blank
import Comparability.Text.Order

/-!
# Classifier options

The type names that a user adds to the built-in ones. `Options.ofEntries?` accepts entries when
every key is known, every value is a list, and every item of it is a text that is not blank; the
texts lose the blanks around them. `merge` puts two sets of options one after the other.
-/

namespace Comparability.Config

/-- The two lists of names that can be configured. -/
inductive OptionKey where
  | comparableTypes
  | equatableTypes
  deriving DecidableEq, Repr

namespace OptionKey

def all : List OptionKey :=
  [comparableTypes, equatableTypes]

def name : OptionKey → String
  | comparableTypes => "additional_comparable_types"
  | equatableTypes => "additional_equatable_types"

def ofName? (text : String) : Option OptionKey :=
  all.find? fun key => key.name = text

def names : List String :=
  Text.sortedSet (all.map name)

end OptionKey

/-- Why entries are no options. -/
inductive OptionsFault where
  | unknownKeys (keys : List String)
  | notAList (key : OptionKey)
  | notAText (key : OptionKey) (kind : String)
  | blankEntry (key : OptionKey)
  deriving DecidableEq, Repr

def OptionsFault.message : OptionsFault → String
  | unknownKeys keys =>
    "Unknown classifier option(s): " ++ ", ".intercalate keys ++ ". Valid options are: " ++
      ", ".intercalate OptionKey.names
  | notAList key => "`" ++ key.name ++ "` must be a list of type names"
  | notAText key kind => "`" ++ key.name ++ "` entries must be strings, got " ++ kind
  | blankEntry key => "`" ++ key.name ++ "` entries must not be empty"

/-- The type names that a user adds to the built-in ones. -/
structure Options where
  comparableTypes : List String := []
  equatableTypes : List String := []
  deriving DecidableEq, Repr

def typeName? (key : OptionKey) : Value → Except OptionsFault String
  | .text s =>
    let name := Text.trim s
    if name = "" then .error (.blankEntry key) else .ok name
  | value => .error (.notAText key value.kind)

/-- The type names that the value of a key gives. -/
def typeNames? (key : OptionKey) : Option Value → Except OptionsFault (List String)
  | none => .ok []
  | some (.list items) => items.mapM (typeName? key)
  | some _ => .error (.notAList key)

namespace Options

/-- The keys that are no options, in order. -/
def unknownKeys (entries : Entries) : List String :=
  Text.sortedSet ((entries.map Prod.fst).filter fun key => (OptionKey.ofName? key).isNone)

def ofEntries? (entries : Entries) : Except OptionsFault Options :=
  match unknownKeys entries with
  | [] => do
    let comparableTypes ← typeNames? .comparableTypes (entries.lookup OptionKey.comparableTypes.name)
    let equatableTypes ← typeNames? .equatableTypes (entries.lookup OptionKey.equatableTypes.name)
    return { comparableTypes, equatableTypes }
  | keys => .error (.unknownKeys keys)

def merge (a b : Options) : Options where
  comparableTypes := a.comparableTypes ++ b.comparableTypes
  equatableTypes := a.equatableTypes ++ b.equatableTypes

end Options

end Comparability.Config
