/-
Numerals: reading numbers from their digits.
-/
namespace Narrowing.Text

def hexValue? (c : Char) : Option Nat :=
  if '0' ≤ c && c ≤ '9' then some (c.toNat - '0'.toNat)
  else if 'a' ≤ c && c ≤ 'f' then some (c.toNat - 'a'.toNat + 10)
  else if 'A' ≤ c && c ≤ 'F' then some (c.toNat - 'A'.toNat + 10)
  else none

/-- The value of a digit in some base up to sixteen. -/
def digitValue? (base : Nat) (c : Char) : Option Nat :=
  (hexValue? c).filter (· < base)

/-- The number that digits stand for in a base up to sixteen; no digits stand for 0. -/
def natIn? (base : Nat) (cs : List Char) : Option Nat :=
  (cs.mapM (digitValue? base)).map fun ds => ds.foldl (fun n d => n * base + d) 0

/-- The number of at least one decimal digit. -/
def natural? (cs : List Char) : Option Nat :=
  if cs.isEmpty then none else natIn? 10 cs

/-- A sign, if there is one, and the rest; `true` is a minus sign. -/
def splitSign : List Char → Option Bool × List Char
  | '-' :: cs => (some true, cs)
  | '+' :: cs => (some false, cs)
  | cs => (none, cs)

/-- The number of at least one decimal digit, with a sign in front or not. -/
def integer? (cs : List Char) : Option Int :=
  (natural? (splitSign cs).2).map fun n => if (splitSign cs).1 = some true then -n else n

/-- The bytes written with two hexadecimal digits each. -/
def bytes? : List Char → Option (List UInt8)
  | [] => some []
  | a :: b :: rest => do
    let n ← natIn? 16 [a, b]
    return UInt8.ofNat n :: (← bytes? rest)
  | [_] => none

end Narrowing.Text
