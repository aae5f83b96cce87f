/-
# Dates and times of TOML

A date, a time of day, or both; a date with a time may name its offset. Each part
has a fixed number of digits and its own range, and the day must exist in its
month. A moment is kept as spelled.

Key definitions: `Toml.startsDate`, `Toml.startsTime`, `Toml.moment?`.
-/
import TaintGraph.Toml.Blank

namespace TaintGraph
namespace Toml

/-- Whether a text begins as a date does: four digits and a dash. -/
def startsDate : List Char → Bool
  | a :: b :: c :: d :: '-' :: _ => a.isDigit && b.isDigit && c.isDigit && d.isDigit
  | _ => false

/-- Whether a text begins as a time does: two digits and a colon. -/
def startsTime : List Char → Bool
  | a :: b :: ':' :: _ => a.isDigit && b.isDigit
  | _ => false

/-- The value of a decimal digit. -/
def digit? (c : Char) : Option Nat :=
  if c.isDigit then some (c.toNat - '0'.toNat) else none

/-- Read a number of two digits within a range. -/
def twoDigits? (lo hi : Nat) : Reader Nat
  | a :: b :: rest => do
    let n := 10 * (← digit? a) + (← digit? b)
    if lo ≤ n ∧ n ≤ hi then some (n, rest) else none
  | _ => none

/-- Read a number of four digits. -/
def fourDigits? : Reader Nat
  | a :: b :: c :: d :: rest => do
    some (((10 * (← digit? a) + (← digit? b)) * 10 + (← digit? c)) * 10 + (← digit? d), rest)
  | _ => none

/-- Pass over one given character. -/
def only? (c : Char) : List Char → Option (List Char)
  | d :: rest => if d = c then some rest else none
  | [] => none

/-- Whether the year has a 29th of February. -/
def isLeap (year : Nat) : Bool :=
  year % 4 = 0 && (year % 100 ≠ 0 || year % 400 = 0)

/-- How many days the month has. -/
def daysIn (year month : Nat) : Nat :=
  if month = 2 then (if isLeap year then 29 else 28)
  else if month = 4 ∨ month = 6 ∨ month = 9 ∨ month = 11 then 30
  else 31

/-- Pass over a date. -/
def skipDate? (text : List Char) : Option (List Char) := do
  let (year, rest) ← fourDigits? text
  let (month, rest) ← twoDigits? 1 12 (← only? '-' rest)
  let (_, rest) ← twoDigits? 1 (daysIn year month) (← only? '-' rest)
  return rest

/-- Pass over the fraction of a second, if there is one. -/
def skipFraction? : List Char → Option (List Char)
  | '.' :: c :: rest => if c.isDigit then some (rest.dropWhile Char.isDigit) else none
  | '.' :: [] => none
  | text => some text

/-- Pass over a time. A minute may have a leap second. -/
def skipTime? (text : List Char) : Option (List Char) := do
  let (_, rest) ← twoDigits? 0 23 text
  let (_, rest) ← twoDigits? 0 59 (← only? ':' rest)
  let (_, rest) ← twoDigits? 0 60 (← only? ':' rest)
  skipFraction? rest

/-- Pass over the offset of a time, if there is one. -/
def skipOffset? : List Char → Option (List Char)
  | 'Z' :: rest | 'z' :: rest => some rest
  | '+' :: rest | '-' :: rest => do
    let (_, rest) ← twoDigits? 0 23 rest
    let (_, rest) ← twoDigits? 0 59 (← only? ':' rest)
    return rest
  | text => some text

/-- Pass over the time behind a date, if there is one. A blank divides the two
only when a time follows it. -/
def skipTimeOfDate? : List Char → Option (List Char)
  | c :: rest =>
    if (c = 'T' ∨ c = 't' ∨ c = ' ') ∧ startsTime rest then skipTime? rest >>= skipOffset?
    else some (c :: rest)
  | [] => some []

/-- Read a text that begins as a date or a time does. -/
def moment? : Reader (List Char) := fun text => do
  let rest ← if startsDate text then skipDate? text >>= skipTimeOfDate? else skipTime? text
  return (text.take (text.length - rest.length), rest)

end Toml
end TaintGraph
