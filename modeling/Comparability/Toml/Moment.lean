import Comparability.Config.Value
import Comparability.Toml.Reader

/-!
# Dates and times

A date is `YYYY-MM-DD`, a time `hh:mm:ss` with an optional fraction, and a date and a time stand
together with a `T`, a `t` or a space between them and an optional distance from universal time
after them. The parts are read by their ranges; a day that its month does not have is a fault.
-/

namespace Comparability.Toml

open Config (Value Date Time DateTime)

/-- A number of exactly so many decimal digits, within bounds, that begins a text. -/
def readFixed? (count low high : Nat) (cs : List Char) : Option (Nat × List Char) :=
  let digits := cs.take count
  let n := numeral 10 digits
  if digits.length = count ∧ digits.all (isDigit 10) ∧ low ≤ n ∧ n ≤ high then
    some (n, cs.drop count)
  else none

/-- What is left after a character that must come next. -/
def readMark? (mark : Char) : List Char → Option (List Char)
  | c :: rest => if c = mark then some rest else none
  | [] => none

def isLeapYear (year : Nat) : Bool :=
  year % 4 = 0 && (year % 100 ≠ 0 || year % 400 = 0)

def daysInMonth (year month : Nat) : Nat :=
  if month = 2 then if isLeapYear year then 29 else 28
  else if month = 4 || month = 6 || month = 9 || month = 11 then 30
  else 31

/-- The calendar has this day. There is no year zero. -/
def isCalendarDate (d : Date) : Bool :=
  1 ≤ d.year && 1 ≤ d.month && d.month ≤ 12 && 1 ≤ d.day && d.day ≤ daysInMonth d.year d.month

def readDate? (cs : List Char) : Option (Date × List Char) := do
  let (year, cs) ← readFixed? 4 0 9999 cs
  let cs ← readMark? '-' cs
  let (month, cs) ← readFixed? 2 1 12 cs
  let cs ← readMark? '-' cs
  let (day, cs) ← readFixed? 2 1 31 cs
  return (⟨year, month, day⟩, cs)

/-- The microseconds that the digits after the point of a second give. -/
def microseconds (digits : List Char) : Nat :=
  numeral 10 ((digits ++ List.replicate 6 '0').take 6)

/-- The fraction of a second that begins a text. -/
def readSecondFraction : List Char → Nat × List Char
  | '.' :: rest =>
    match rest.takeWhile (isDigit 10) with
    | [] => (0, '.' :: rest)
    | digits => (microseconds digits, rest.dropWhile (isDigit 10))
  | cs => (0, cs)

def readTime? (cs : List Char) : Option (Time × List Char) := do
  let (hour, cs) ← readFixed? 2 0 23 cs
  let cs ← readMark? ':' cs
  let (minute, cs) ← readFixed? 2 0 59 cs
  let cs ← readMark? ':' cs
  let (second, cs) ← readFixed? 2 0 59 cs
  let (microsecond, cs) := readSecondFraction cs
  return (⟨hour, minute, second, microsecond⟩, cs)

/-- Hours and minutes that begin a text, in minutes. -/
def readDistance? (cs : List Char) : Option (Nat × List Char) := do
  let (hours, cs) ← readFixed? 2 0 23 cs
  let cs ← readMark? ':' cs
  let (minutes, cs) ← readFixed? 2 0 59 cs
  return (60 * hours + minutes, cs)

/-- The distance from universal time that begins a text. -/
def readOffset : List Char → Option Int × List Char
  | [] => (none, [])
  | c :: rest =>
    if c = 'Z' || c = 'z' then (some 0, rest)
    else if c = '+' || c = '-' then
      match readDistance? rest with
      | some (minutes, left) => (some (if c = '-' then -(minutes : Int) else minutes), left)
      | none => (none, c :: rest)
    else (none, c :: rest)

/-- The time after a date. -/
def readTimeAfterDate? : List Char → Option (Time × List Char)
  | c :: rest => if c = 'T' || c = 't' || c = ' ' then readTime? rest else none
  | [] => none

/-- The date or time that begins a text. -/
def readMoment? (cs : List Char) : Option (Except Fault Value × List Char) :=
  match readDate? cs with
  | none => (readTime? cs).map fun (time, left) => (.ok (.time time), left)
  | some (date, left) =>
    let (value, left) := match readTimeAfterDate? left with
      | none => (Value.date date, left)
      | some (time, left) =>
        let (offset, left) := readOffset left
        (Value.dateTime ⟨date, time, offset⟩, left)
    some (if isCalendarDate date then .ok value else .error .malformed, left)

end Comparability.Toml
