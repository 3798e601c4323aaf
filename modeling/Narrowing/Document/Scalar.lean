/-
What a scalar of a document stands for.

A scalar that is not plain is a text.  A plain one is nothing, a truth
value, a whole number, a number with a fraction, or else a text.  A tag
may say which of these it must be, and any other tag makes it a text.
Where a whole number is wanted, a fraction is dropped.
-/
import Narrowing.Text.Base64
import Narrowing.Text.Numeral
import Narrowing.Text.Timestamp

namespace Narrowing.Document

open Text (natIn? splitSign)

/-- The meaning of a scalar.  A number with a fraction is first rounded to the nearest
double; only its whole part is kept. -/
inductive Scalar where
  | null
  | truth (b : Bool)
  | whole (n : Int)
  | fraction (wholePart : Int)
  | infinite (negative : Bool)
  | notANumber
  | text (s : String)
deriving DecidableEq

/-! ## Numbers -/

/-- A number whose base is told by its start: `0x`, `0o`, `0b`, or `0` for eight. -/
def natOfStart? : List Char → Option Nat
  | [] => none
  | '0' :: c :: d :: cs =>
    if c == 'x' || c == 'X' then natIn? 16 (d :: cs)
    else if c == 'o' || c == 'O' then natIn? 8 (d :: cs)
    else if c == 'b' || c == 'B' then natIn? 2 (d :: cs)
    else natIn? 8 (c :: d :: cs)
  | '0' :: cs => natIn? 8 cs
  | cs => natIn? 10 cs

/-- A number with a sign or without, if it fits in sixty-four bits; from 2^63 on only
without a sign. -/
def signed? (sign : Option Bool) (n : Nat) : Option Int :=
  match sign with
  | some true => if Int64.minValue.toInt ≤ -n then some (-n) else none
  | some false => if n ≤ Int64.maxValue.toInt then some n else none
  | none => if n < UInt64.size then some n else none

/-- A whole number of at most sixty-four bits. -/
def whole? (cs : List Char) : Option Int := do
  let (sign, digits) := splitSign cs
  signed? sign (← natOfStart? digits)

/-- A whole number in base two or eight whose sign stands behind `0b` or `0o`. -/
def innerSigned? : List Char → Option Int
  | '0' :: c :: cs => do
    let base ← if c == 'b' then some 2 else if c == 'o' then some 8 else none
    let (sign, digits) := splitSign cs
    if digits.isEmpty then none
    signed? sign (← natIn? base digits)
  | _ => none

/-- A decimal number: its digits as one number, and the power of ten behind them. -/
def decimal? (cs : List Char) : Option (Nat × Int) := do
  let whole := cs.takeWhile Char.isDigit
  let cs := cs.drop whole.length
  let (places, cs) := match cs with
    | '.' :: rest => (rest.takeWhile Char.isDigit, rest.dropWhile Char.isDigit)
    | _ => ([], cs)
  if whole.isEmpty && places.isEmpty then none
  let exponent ← match cs with
    | [] => some 0
    | c :: rest =>
      if c == 'e' || c == 'E' then
        let (sign, digits) := splitSign rest
        if digits.isEmpty then none
        else (natIn? 10 digits).map fun n => if sign == some true then -(n : Int) else n
      else none
  return (← natIn? 10 (whole ++ places), exponent - places.length)

/-- The quotient rounded to the nearest whole number, a half to the even neighbour. -/
def roundDiv (num den : Nat) : Nat :=
  let q := num / den
  let r := 2 * (num % den)
  if r < den || (r == den && q % 2 == 0) then q else q + 1

/-- The whole part of the double nearest to `digits * 10^exponent`; none if there is no such
double. -/
def doublePart? (digits : Nat) (exponent : Int) : Option Nat :=
  let places : Int := (Nat.toDigits 10 digits).length + exponent
  if digits = 0 || places < -30 then some 0
  else if 400 < places then none
  else
    let num := digits * Nat.pow 10 exponent.toNat
    let den := Nat.pow 10 (-exponent).toNat
    let size : Int := (num.log2 : Int) - den.log2 - 53
    let scaled (q : Int) : Nat × Nat := (num * Nat.pow 2 (-q).toNat, den * Nat.pow 2 q.toNat)
    let q := if Nat.pow 2 53 ≤ (scaled size).1 / (scaled size).2 then size + 1 else size
    let m := roundDiv (scaled q).1 (scaled q).2
    let value := m * Nat.pow 2 q.toNat / Nat.pow 2 (-q).toNat
    if value < Nat.pow 2 1024 then some value else none

/-- The whole part of a decimal number with a sign. -/
def fraction? (cs : List Char) : Option Int := do
  let (sign, rest) := splitSign cs
  let (digits, exponent) ← decimal? rest
  let n ← doublePart? digits exponent
  return if sign == some true then -(n : Int) else n

/-- Whether every underscore stands between two digits. -/
def underscoresFit : (behindDigit : Bool) → List Char → Bool
  | _, [] => true
  | behindDigit, c :: cs =>
    (c != '_' || (behindDigit && cs.head?.any Char.isDigit)) && underscoresFit c.isDigit cs

/-- A number.  Underscores are dropped; behind a leading point they must stand between
digits. -/
def number? (cs : List Char) : Option Scalar :=
  let compact := cs.filter (· != '_')
  match cs with
  | [] => none
  | c :: _ =>
    if c == '.' then
      if underscoresFit false cs then (fraction? compact).map .fraction else none
    else if c.isDigit || c == '+' || c == '-' then
      ((whole? compact).map Scalar.whole).or
        (((fraction? compact).map .fraction).or ((innerSigned? compact).map .whole))
    else none

/-! ## Plain scalars -/

/-- The meaning of a plain scalar. -/
def ofPlain (s : String) : Scalar :=
  if s ∈ ["", "~", "null", "Null", "NULL"] then .null
  else if s ∈ ["true", "True", "TRUE"] then .truth true
  else if s ∈ ["false", "False", "FALSE"] then .truth false
  else if s ∈ [".nan", ".NaN", ".NAN"] then .notANumber
  else if s ∈ [".inf", ".Inf", ".INF", "+.inf", "+.Inf", "+.INF"] then .infinite false
  else if s ∈ ["-.inf", "-.Inf", "-.INF"] then .infinite true
  else (number? s.toList).getD (.text s)

/-! ## Tags -/

/-- The tag that a meaning has without being told. -/
def Scalar.tag : Scalar → String
  | null => "!!null"
  | truth _ => "!!bool"
  | whole _ => "!!int"
  | fraction _ | infinite _ | notANumber => "!!float"
  | text _ => "!!str"

/-- The meaning of a plain scalar as a number with a fraction.  A whole number with sign is
one too. -/
def asFraction? : Scalar → Option Scalar
  | .whole n =>
    if n ≤ Int64.maxValue.toInt then (doublePart? n.natAbs 0).map fun k => .fraction (n.sign * k)
    else none
  | m => if m.tag = "!!float" then some m else none

/-- The meaning of a scalar with a tag or without.  A tag for a meaning must fit it; a tag
for anything else makes the scalar a text. -/
def meaning? (plain : Bool) (tag : Option String) (s : String) : Option Scalar :=
  match tag with
  | none => some (if plain then ofPlain s else .text s)
  | some "!!null" | some "!!bool" | some "!!int" =>
    if some (ofPlain s).tag = tag then some (ofPlain s) else none
  | some "!!float" => asFraction? (ofPlain s)
  | some "!!timestamp" => if Text.isTimestamp s.toList then some (.text s) else none
  | some "!!binary" => (Text.base64? s).map .text
  | some _ => some (.text s)

end Narrowing.Document
