/-
Integer end points.

An end point is a signed word.  The least word stands for minus infinity
and the greatest for plus infinity; arithmetic saturates toward them
instead of wrapping.  Where no value can be given (opposite infinities,
a zero divisor, a negative shift) the result is `none`.
-/
namespace Narrowing

/-- An integer end point; the extreme words are the infinities. -/
abbrev Bound := Int64

namespace Bound

def negInf : Bound := Int64.minValue

def posInf : Bound := Int64.maxValue

def isInf (b : Bound) : Bool := b == negInf || b == posInf

def text (b : Bound) : String :=
  if b = negInf then "-∞"
  else if b = posInf then "+∞"
  else b.toInt.repr

/-- The sign of an end point: -1, 0 or 1. -/
def sign (b : Bound) : Int :=
  if b < 0 then -1 else if 0 < b then 1 else 0

/-- The infinity on the side of a sign. -/
def infinity (sign : Int) : Bound :=
  if sign < 0 then negInf else posInf

/-- The opposite end point; the infinities change places. -/
def opposite (b : Bound) : Bound :=
  if b = negInf then posInf
  else if b = posInf then negInf
  else -b

/-- The saturating sum; undefined for opposite infinities. -/
def add? (b o : Bound) : Option Bound :=
  if isInf b && isInf o then if b = o then some b else none
  else if isInf b then some b
  else if isInf o then some o
  else
    let s := b + o
    if (0 < o && s < b) || s == posInf then some posInf
    else if (o < 0 && b < s) || s == negInf then some negInf
    else some s

/-- The saturating difference; undefined for like infinities. -/
def sub? (b o : Bound) : Option Bound := add? b (opposite o)

/-- The saturating product; zero absorbs the infinities. -/
def satMul (b o : Bound) : Bound :=
  if b = 0 || o = 0 then 0
  else
    let inf := infinity (sign b * sign o)
    if isInf b || isInf o then inf
    else
      let p := b * o
      if p / o ≠ b || p == posInf || p == negInf then inf else p

/-- The quotient toward zero; undefined for a zero divisor and for two infinities. -/
def div? (b o : Bound) : Option Bound :=
  if o = 0 then none
  else if isInf b && isInf o then none
  else if isInf o then some 0
  else if isInf b then some (infinity (sign b * sign o))
  else some (b / o)

/-- The shift to the left; undefined for a negative amount. -/
def shl? (b o : Bound) : Option Bound :=
  if o < 0 then none
  else if b = 0 then some 0
  else if isInf b || 63 ≤ o then some (infinity (sign b))
  else some (satMul b (1 <<< o))

/-- The shift to the right that keeps the sign; undefined for a negative amount. -/
def shr? (b o : Bound) : Option Bound :=
  if o < 0 then none
  else if isInf b then some b
  else if 63 ≤ o then some (if b < 0 then -1 else 0)
  else some (b >>> o)

def lesser (a b : Bound) : Bound := if b < a then b else a

def greater (a b : Bound) : Bound := if a < b then b else a

/-- The quotient of two positive finite end points, rounded up. -/
def ceilDiv (a b : Bound) : Bound := (a - 1) / b + 1

end Bound

end Narrowing
