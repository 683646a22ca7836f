/-!
# Configuration values

The values that a configuration may hold, and the name of the kind of each.
-/

namespace Comparability.Config

structure Date where
  year : Nat
  month : Nat
  day : Nat
  deriving DecidableEq, Repr

/-- A time of day, to the microsecond. -/
structure Time where
  hour : Nat
  minute : Nat
  second : Nat
  microsecond : Nat
  deriving DecidableEq, Repr

/-- A day and a time, with the distance from universal time in minutes where it is known. -/
structure DateTime where
  date : Date
  time : Time
  offset : Option Int
  deriving DecidableEq, Repr

/-- A configuration value. A fraction is kept as it was written. -/
inductive Value where
  | text (s : String)
  | integer (n : Int)
  | fraction (written : String)
  | boolean (b : Bool)
  | null
  | list (items : List Value)
  | table (entries : List (String × Value))
  | date (d : Date)
  | time (t : Time)
  | dateTime (t : DateTime)
  deriving Repr, Inhabited

def Value.kind : Value → String
  | text _ => "str"
  | integer _ => "int"
  | fraction _ => "float"
  | boolean _ => "bool"
  | null => "NoneType"
  | list _ => "list"
  | table _ => "dict"
  | date _ => "date"
  | time _ => "time"
  | dateTime _ => "datetime"

/-- The entries of a table, each key once. -/
abbrev Entries := List (String × Value)

end Comparability.Config
