import Comparability.Config.Value

/-!
# Nested tables

A path names a value in nested tables. `changeAt?` changes the table at a path and makes the
tables on the way that do not exist; it has no answer when something else stands on the way. An
array of tables on the way stands for its last table, where that is allowed.
-/

namespace Comparability.Toml

open Config (Value Entries)

/-- The keys that lead to a value. -/
abbrev Path := List String

def replaceEntry (entries : Entries) (key : String) (value : Value) : Entries :=
  entries.map fun entry => if entry.1 = key then (key, value) else entry

def changeAt? (throughLists : Bool) (change : Entries → Option Entries) :
    Path → Entries → Option Entries
  | [], entries => change entries
  | key :: path, entries =>
    match entries.lookup key with
    | none => do
      let table ← changeAt? throughLists change path []
      return entries ++ [(key, .table table)]
    | some (.table table) => do
      let table ← changeAt? throughLists change path table
      return replaceEntry entries key (.table table)
    | some (.list items) =>
      match throughLists, items.getLast? with
      | true, some (.table table) => do
        let table ← changeAt? throughLists change path table
        return replaceEntry entries key (.list (items.dropLast ++ [.table table]))
      | _, _ => none
    | some _ => none

/-- Add an entry whose key must be new. -/
def addNew? (key : String) (value : Value) (entries : Entries) : Option Entries :=
  if (entries.lookup key).isSome then none else some (entries ++ [(key, value)])

/-- Add an empty table to the array of tables with a key. -/
def addTable? (key : String) (entries : Entries) : Option Entries :=
  match entries.lookup key with
  | none => some (entries ++ [(key, .list [.table []])])
  | some (.list items) => some (replaceEntry entries key (.list (items ++ [.table []])))
  | some _ => none

/-- Add a value at a path that must be new. -/
def insertAt? (throughLists : Bool) (path : Path) (value : Value) (entries : Entries) :
    Option Entries :=
  match path.getLast? with
  | some key => changeAt? throughLists (addNew? key value) path.dropLast entries
  | none => none

def appendTableAt? (path : Path) (entries : Entries) : Option Entries :=
  match path.getLast? with
  | some key => changeAt? true (addTable? key) path.dropLast entries
  | none => none

/-- A table or a list, which nothing may be added to later when it was written as a value. -/
def isClosed : Value → Bool
  | .table _ => true
  | .list _ => true
  | _ => false

/-- The path leads to one of the given places, or on from one. -/
def leadsInto (places : List Path) (path : Path) : Bool :=
  places.any fun place => place.isPrefixOf path

end Comparability.Toml
