/-
The shortest decimal of a binary floating-point number.

A finite number is `m * 2^q`.  The reals that round to it form an interval
around it, whose ends belong to it exactly when `m` is even.  The number is
written with the fewest digits that still name a real of that interval: the
coarsest decimal grid with a point inside is found, and of the two grid
points beside the number the nearer one is taken, the even one in a tie.
-/
namespace Narrowing.Decimal

/-- A decimal numeral, for the number `digits * 10^exponent`. -/
structure Numeral where
  digits : Nat
  exponent : Int
deriving DecidableEq

/-- A positive binary number `mantissa * 2^exponent`.  `edge` says that the next smaller
number is only half a step away. -/
structure Binary where
  mantissa : Nat
  exponent : Int
  edge : Bool
deriving DecidableEq

namespace Binary

/-- How far the interval reaches below and above the number, in quarter steps. -/
def reach (b : Binary) : Nat × Nat := (if b.edge then 1 else 2, 2)

/-- The number of units `10^g` in a count of quarter steps, as a fraction. -/
def onGrid (b : Binary) (g : Int) (quarters : Nat) : Nat × Nat :=
  let q := b.exponent - 2
  (quarters * Nat.pow 2 q.toNat * Nat.pow 10 (-g).toNat, Nat.pow 10 g.toNat * Nat.pow 2 (-q).toNat)

/-- Whether `c * 10^g` lies in the interval of the number. -/
def holds (b : Binary) (g : Int) (c : Nat) : Bool :=
  let (below, above) := b.reach
  let (low, unit) := b.onGrid g (4 * b.mantissa - below)
  let (high, _) := b.onGrid g (4 * b.mantissa + above)
  if b.mantissa % 2 = 0 then low ≤ c * unit && c * unit ≤ high
  else low < c * unit && c * unit < high

/-- The best point of the grid `10^g` inside the interval, if there is one. -/
def nearest? (b : Binary) (g : Int) : Option Nat :=
  let (value, unit) := b.onGrid g (4 * b.mantissa)
  let c := value / unit
  match b.holds g c, b.holds g (c + 1) with
  | false, false => none
  | true, false => some c
  | false, true => some (c + 1)
  | true, true =>
    let rest := 2 * (value - c * unit)
    if rest < unit || (rest = unit && c % 2 = 0) then some c else some (c + 1)

/-- Search the grids from `10^g` downward. -/
def search (b : Binary) : (steps : Nat) → (g : Int) → Numeral
  | 0, g => ⟨(b.nearest? g).getD 0, g⟩
  | steps + 1, g =>
    match b.nearest? g with
    | some c => ⟨c, g⟩
    | none => b.search steps (g - 1)

/-- The shortest decimal that reads back as the number.  The search starts at a power of
ten above the number; a grid with a point inside comes within a few digits of the
seventeen that always suffice. -/
def shortest (b : Binary) : Numeral :=
  let size : Int := b.mantissa.log2 + 1 + b.exponent
  b.search 40 (size * 30103 / 100000 + 1)

end Binary

def zeros (n : Nat) : List Char := List.replicate n '0'

/-- Digits with a decimal point after the first `point` of them. -/
def positional (digits : List Char) (point : Int) : List Char :=
  if point ≤ 0 then '0' :: '.' :: zeros (-point).toNat ++ digits
  else if digits.length ≤ point then digits ++ zeros (point.toNat - digits.length)
  else digits.take point.toNat ++ '.' :: digits.drop point.toNat

/-- Digits in scientific form, the exponent with a sign and at least two digits. -/
def scientific (digits : List Char) (exponent : Int) : List Char :=
  let mantissa := match digits with
    | d :: [] => [d]
    | d :: rest => d :: '.' :: rest
    | [] => []
  let size := (Nat.toDigits 10 exponent.natAbs)
  mantissa ++ 'e' :: (if exponent < 0 then '-' else '+') ::
    (if size.length < 2 then '0' :: size else size)

/-- The written form: positional for decimal exponents from -4 to 5, else scientific. -/
def Numeral.text (d : Numeral) : List Char :=
  let digits := Nat.toDigits 10 d.digits
  let exponent := digits.length + d.exponent - 1
  if exponent < -4 || 6 ≤ exponent then scientific digits exponent
  else positional digits (exponent + 1)

/-- The layout of a binary floating-point format: the bits of the fraction and of the exponent. -/
structure Format where
  fraction : Nat
  exponent : Nat

def single : Format := ⟨23, 8⟩

def double : Format := ⟨52, 11⟩

def Format.text (f : Format) (bits : Nat) : String :=
  let fraction := bits % Nat.pow 2 f.fraction
  let exponent := bits / Nat.pow 2 f.fraction % Nat.pow 2 f.exponent
  let negative := bits / Nat.pow 2 (f.fraction + f.exponent) % 2 = 1
  let last := Nat.pow 2 f.exponent - 1
  let shift : Int := (Nat.pow 2 (f.exponent - 1) - 1 : Nat) + f.fraction
  if exponent = last then
    if fraction ≠ 0 then "NaN" else if negative then "-Inf" else "+Inf"
  else
    let size :=
      if exponent = 0 then
        if fraction = 0 then ['0'] else (Binary.shortest ⟨fraction, 1 - shift, false⟩).text
      else
        (Binary.shortest ⟨fraction + Nat.pow 2 f.fraction, exponent - shift,
          fraction = 0 && 1 < exponent⟩).text
    String.ofList (if negative then '-' :: size else size)

end Narrowing.Decimal
