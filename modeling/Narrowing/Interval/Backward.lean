/-
Backward narrowing on intervals.

Given that `r = a op b` holds, `a` and `b` are narrowed: first by the
inverse operator, and then, where the inverse is one-to-many and what
remains is within the choose bound, by having one split chosen.
-/
import Narrowing.Interval.Forward

namespace Narrowing

namespace Interval

/-- Narrow to an interval that may be undefined; then nothing changes. -/
def narrow (v : Interval) : Option Interval → Eval Interval
  | none => pure v
  | some w => (v.intersect w).eval

/-- The gap between two end points when it is defined and within the bound. -/
def gap? (bound : UInt32) (high low : Bound) : Option Bound :=
  (Bound.sub? high low).filter (withinBound bound)

/-- Raise both low ends, by `gap` in all: a part of the gap is chosen for `a`, and `b` takes
the rest. -/
def raiseSum (gap : Option Bound) (a b : Interval) : Eval (Interval × Interval) :=
  match gap with
  | none => pure (a, b)
  | some gap => do
    let i ← chooseBelow (gap + 1)
    return (← meetLow a (a.lo + i), ← meetLow b (b.lo + gap - i))

/-- Lower both high ends, by `gap` in all. -/
def lowerSum (gap : Option Bound) (a b : Interval) : Eval (Interval × Interval) :=
  match gap with
  | none => pure (a, b)
  | some gap => do
    let i ← chooseBelow (gap + 1)
    return (← meetHigh a (a.hi - i), ← meetHigh b (b.hi - gap + i))

/-- From `r = a + b`. -/
def backwardAdd (bound : UInt32) (r a b : Interval) : Eval (Interval × Interval) := do
  let a ← narrow a (sub? r b)
  let b ← narrow b (sub? r a)
  match add? a b with
  | none => return (a, b)
  | some sum =>
    let (a, b) ← raiseSum (gap? bound r.lo sum.lo) a b
    lowerSum (gap? bound sum.hi r.hi) a b

/-- Raise the low end of `a` and lower the high end of `b`, by `gap` in all. -/
def raiseDifference (gap : Option Bound) (a b : Interval) : Eval (Interval × Interval) :=
  match gap with
  | none => pure (a, b)
  | some gap => do
    let i ← chooseBelow (gap + 1)
    return (← meetLow a (a.lo + i), ← meetHigh b (b.hi - gap + i))

/-- Lower the high end of `a` and raise the low end of `b`, by `gap` in all. -/
def lowerDifference (gap : Option Bound) (a b : Interval) : Eval (Interval × Interval) :=
  match gap with
  | none => pure (a, b)
  | some gap => do
    let i ← chooseBelow (gap + 1)
    return (← meetHigh a (a.hi - i), ← meetLow b (b.lo + gap - i))

/-- From `r = a - b`. -/
def backwardSub (bound : UInt32) (r a b : Interval) : Eval (Interval × Interval) := do
  let a ← narrow a (add? r b)
  let b ← narrow b (sub? a r)
  match sub? a b with
  | none => return (a, b)
  | some diff =>
    let (a, b) ← raiseDifference (gap? bound r.lo diff.lo) a b
    lowerDifference (gap? bound diff.hi r.hi) a b

/-- Raise the low ends of two positive operands so that their product reaches `low`: a new
low end is picked for `a`, and that of `b` follows. -/
def raiseProduct (bound : UInt32) (low : Bound) (a b : Interval) :
    Eval (Interval × Interval) := do
  if Bound.satMul a.lo b.lo < low then
    let high := Bound.lesser (Bound.ceilDiv low b.lo) a.hi
    let a ← meetLow a (Bound.ceilDiv low b.hi)
    let n := high - a.lo + 1
    if withinBound bound n then
      let pick := high - (← chooseBelow n)
      return (← meetLow a pick, ← meetLow b (Bound.ceilDiv low pick))
    else return (a, b)
  else return (a, b)

/-- Lower the high ends of two positive operands so that their product stays at most `high`. -/
def lowerProduct (bound : UInt32) (high : Bound) (a b : Interval) :
    Eval (Interval × Interval) := do
  if high < Bound.satMul a.hi b.hi ∧ 0 < high then
    let low := Bound.greater (high / b.hi) a.lo
    let n := a.hi - low + 1
    if withinBound bound n then
      let pick := low + (← chooseBelow n)
      return (← meetHigh a pick, ← meetHigh b (high / pick))
    else return (a, b)
  else return (a, b)

/-- From `r = a * b`, for finite operands. -/
def backwardMul (bound : UInt32) (r a b : Interval) : Eval (Interval × Interval) := do
  if !a.isFinite || !b.isFinite then return (a, b)
  let a ← if b.contains 0 then pure a else narrow a (div? r b)
  let b ← if a.contains 0 then pure b else narrow b (div? r a)
  if a.lo < 1 || b.lo < 1 || !r.isFinite then return (a, b)
  let (a, b) ← raiseProduct bound r.lo a b
  lowerProduct bound r.hi a b

/-- From `r = a / b`, for a finite divisor that excludes zero: the dividend is the quotient
times the divisor, give or take the greatest remainder. -/
def backwardDiv (r a b : Interval) : Eval (Interval × Interval) := do
  if !b.isFinite || b.contains 0 then return (a, b)
  match mul? b r with
  | none => return (a, b)
  | some p =>
    let m := Bound.greater (Bound.opposite b.lo) b.hi - 1
    let a ← (a.intersect ⟨(Bound.sub? p.lo m).getD 0, (Bound.add? p.hi m).getD 0⟩).eval
    return (a, b)

/-- From `a > b`, or `a ≥ b` when not strict.  Where few integers are common to both, a
border between them is chosen. -/
def backwardGreater (bound : UInt32) (strict : Bool) (a b : Interval) :
    Eval (Interval × Interval) := do
  let a ← meetLow a b.lo
  let a ← if strict then (a.exclude b.lo).eval else pure a
  let b ← meetHigh b a.hi
  let b ← if strict then (b.exclude a.hi).eval else pure b
  let overlap := meet a b
  if overlap.isBottom || !withinBound bound overlap.size then return (a, b)
  let n : Int := overlap.size.toInt + if strict then 1 else 0
  let border := overlap.lo + Int64.ofNat (← Eval.choose n)
  return (← meetLow a border, ← meetHigh b (if strict then border - 1 else border))

/-- From `a < b`, or `a ≤ b` when not strict. -/
def backwardLess (bound : UInt32) (strict : Bool) (a b : Interval) :
    Eval (Interval × Interval) := do
  return (← backwardGreater bound strict b a).swap

/-- From `a = b`: both become the intersection, and one point of it where few remain. -/
def backwardEq (bound : UInt32) (a b : Interval) : Eval (Interval × Interval) := do
  let m ← (a.intersect b).eval
  if withinBound bound m.size then
    let p := m.lo + (← chooseBelow m.size)
    return (point p, point p)
  else return (m, m)

/-- From `a ≠ b`: a point is cut off the other's end, else the order of the two is chosen. -/
def backwardNe (bound : UInt32) (a b : Interval) : Eval (Interval × Interval) := do
  if (meet a b).isBottom then return (a, b)
  else if a.isPoint && (a.lo == b.lo || a.lo == b.hi) then
    return (a, ← (b.exclude a.lo).eval)
  else if b.isPoint && (b.lo == a.lo || b.lo == a.hi) then
    return (← (a.exclude b.lo).eval, b)
  else if (← Eval.choose 2) = 0 then backwardGreater bound true a b
  else backwardLess bound true a b

def backwardRelation (bound : UInt32) (rel : Relation) (a b : Interval) :
    Eval (Interval × Interval) :=
  match rel with
  | .eq => backwardEq bound a b
  | .ne => backwardNe bound a b
  | .sgt | .ugt => backwardGreater bound true a b
  | .sge | .uge => backwardGreater bound false a b
  | .slt | .ult => backwardLess bound true a b
  | .sle | .ule => backwardLess bound false a b

def backwardCompare (bound : UInt32) (rel : Relation) (r a b : Interval) :
    Eval (Interval × Interval) := do
  match ← toTristate r with
  | .yes => backwardRelation bound rel a b
  | .no => backwardRelation bound rel.negate a b
  | .maybe | .invalid => return (a, b)

/-- Narrow `a` and `b` given that `r` is the result of an operator on them.  A width change
has one operand, `a`. -/
def backward (bound : UInt32) (tag : Tag) (r a b : Interval) : Eval (Interval × Interval) :=
  match tag with
  | .arith .add => backwardAdd bound r a b
  | .arith .sub => backwardSub bound r a b
  | .arith .mul => backwardMul bound r a b
  | .arith .sdiv | .arith .udiv => backwardDiv r a b
  | .cast .zext | .cast .sext | .cast .trunc | .cast .zfit => do
    return (← (a.intersect r).eval, b)
  | .relation rel => backwardCompare bound rel r a b
  | _ => do
    Eval.imprecise .interval tag
    return (a, b)

end Interval

end Narrowing
