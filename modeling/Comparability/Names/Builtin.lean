/-!
# Built-in names

The type names whose capability is known without being told.
-/

namespace Comparability.Names

/-- Types whose values are ordered. -/
def builtinComparable : List String :=
  ["String", "Int", "Int8", "Int16", "Int32", "Int64", "UInt", "UInt8", "UInt16", "UInt32", "UInt64",
    "Float", "Double", "Character", "Date"]

/-- Types whose values can only be tested for equality. -/
def builtinEquatable : List String :=
  ["Bool", "UUID", "URL", "Data", "URLComponents", "CGPoint", "CGSize", "CGRect", "CGVector"]

end Comparability.Names
