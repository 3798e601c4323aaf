/-
Points in time: a date, or a date and a time of day.

A date is a year of four digits, a month and a day.  Behind a `T`, a time
of day has a zone; behind spaces it has none.
-/
import Narrowing.Text.Numeral

namespace Narrowing.Text

def daysIn (year month : Nat) : Nat :=
  if month = 2 then
    if year % 4 = 0 && (year % 100 ≠ 0 || year % 400 = 0) then 29 else 28
  else if month ∈ [4, 6, 9, 11] then 30
  else 31

/-- A number of one digit or two, and the rest. -/
def shortNumber? (cs : List Char) : Option (Nat × List Char) :=
  let digits := (cs.take 2).takeWhile Char.isDigit
  (natural? digits).map fun n => (n, cs.drop digits.length)

/-- The text behind a character that must come first. -/
def behind? (c : Char) (cs : List Char) : Option (List Char) :=
  if cs.head? = some c then some cs.tail else none

def behindDate? (cs : List Char) : Option (List Char) := do
  let digits := cs.takeWhile Char.isDigit
  if digits.length ≠ 4 then none
  let year ← natural? digits
  let (month, cs) ← shortNumber? (← behind? '-' (cs.drop 4))
  let (day, cs) ← shortNumber? (← behind? '-' cs)
  if 1 ≤ month && month ≤ 12 && 1 ≤ day && day ≤ daysIn year month then some cs else none

/-- The text behind the fraction of a second, if there is one. -/
def behindFraction : List Char → List Char
  | c :: d :: cs =>
    if (c == '.' || c == ',') && d.isDigit then cs.dropWhile Char.isDigit else c :: d :: cs
  | cs => cs

/-- The text behind a time of day. -/
def behindTime? (cs : List Char) : Option (List Char) := do
  let (hour, cs) ← shortNumber? cs
  let (minute, cs) ← shortNumber? (← behind? ':' cs)
  let (second, cs) ← shortNumber? (← behind? ':' cs)
  if hour < 24 && minute < 60 && second < 60 then some (behindFraction cs) else none

/-- Whether a text is a zone: a `Z`, or hours and minutes of two digits each behind a sign. -/
def isZone : List Char → Bool
  | ['Z'] => true
  | [sign, a, b, ':', c, d] =>
    (sign == '+' || sign == '-') && (natIn? 10 [a, b]).any (· ≤ 24) &&
      (natIn? 10 [c, d]).any (· ≤ 60)
  | _ => false

def isTimestamp (cs : List Char) : Bool :=
  match behindDate? cs with
  | none => false
  | some [] => true
  | some (c :: rest) =>
    if c == 'T' || c == 't' then (behindTime? rest).any isZone
    else c == ' ' && behindTime? (rest.dropWhile (· == ' ')) == some []

end Narrowing.Text
