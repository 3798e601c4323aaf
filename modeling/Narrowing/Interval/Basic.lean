/-
Intervals of integers.

An interval is any pair of end points; a pair whose low end lies above its
high end is empty, and there are many such pairs.  `contains` is the
meaning of an interval, and `leq`, `join` and `meet` are the order and the
lattice operations on it.

The domain knows no widths: a cast changes nothing, and an unsigned
operator is read as its signed counterpart.
-/
import Narrowing.Bound
import Narrowing.Tristate

namespace Narrowing

/-- The integers from `lo` to `hi`; empty when `hi < lo`. -/
structure Interval where
  lo : Bound
  hi : Bound
deriving DecidableEq

namespace Interval

def point (x : Bound) : Interval := ⟨x, x⟩

def top : Interval := ⟨Bound.negInf, Bound.posInf⟩

/-- The integers 0 and 1 that a truth value may stand for. -/
def ofTristate : Tristate → Interval
  | .no => point 0
  | .yes => point 1
  | .maybe | .invalid => ⟨0, 1⟩

def isBottom (v : Interval) : Bool := v.hi < v.lo

def isPoint (v : Interval) : Bool := v.lo == v.hi

/-- Whether both ends are infinite, each on its side. -/
def isTop (v : Interval) : Bool := v.lo == Bound.negInf && v.hi == Bound.posInf

def isFinite (v : Interval) : Bool := !v.lo.isInf && !v.hi.isInf

/-- Whether a word lies between the ends. -/
def contains (v : Interval) (x : Bound) : Bool := v.lo ≤ x && x ≤ v.hi

/-- The number of members, at most plus infinity. -/
def size (v : Interval) : Bound :=
  if v.isBottom then 0
  else match Bound.sub? v.hi v.lo with
    | none => Bound.posInf
    | some d => if d = Bound.posInf then Bound.posInf else (Bound.add? d 1).getD 0

def text (v : Interval) : String :=
  if v.isBottom then "⊥"
  else "[" ++ Bound.text v.lo ++ ", " ++ Bound.text v.hi ++ "]"

/-- The order; an empty interval is below every other. -/
def leq (a b : Interval) : Bool :=
  a.isBottom || (b.lo ≤ a.lo && a.hi ≤ b.hi)

/-- The smallest interval over both. -/
def join (a b : Interval) : Interval :=
  if a.isBottom then b
  else if b.isBottom then a
  else ⟨Bound.lesser a.lo b.lo, Bound.greater a.hi b.hi⟩

/-- The intersection, which may be empty. -/
def meet (a b : Interval) : Interval :=
  ⟨Bound.greater a.lo b.lo, Bound.lesser a.hi b.hi⟩

/-- An interval that must not be empty. -/
def make (lo hi : Bound) : Eval Interval :=
  let v : Interval := ⟨lo, hi⟩
  if v.isBottom then Eval.cancel ("interval " ++ v.text) else pure v

/-- The intersection, as it is left in place, with a conflict when it is empty. -/
def intersect (v w : Interval) : Narrowed Interval :=
  let m := v.meet w
  if m.isBottom then .conflicts m "interval intersect" else .fits m

/-- Raise the low end to at least `lo`. -/
def meetLow (v : Interval) (lo : Bound) : Eval Interval :=
  (v.intersect ⟨lo, Bound.posInf⟩).eval

/-- Lower the high end to at most `hi`. -/
def meetHigh (v : Interval) (hi : Bound) : Eval Interval :=
  (v.intersect ⟨Bound.negInf, hi⟩).eval

/-- Remove a finite integer where it is an end point; nothing changes on a conflict. -/
def exclude (v : Interval) (x : Bound) : Narrowed Interval :=
  if x.isInf then .fits v
  else
    let w : Interval :=
      ⟨if v.lo = x then v.lo + 1 else v.lo, if v.hi = x then v.hi - 1 else v.hi⟩
    if w.isBottom then .conflicts v ("interval " ++ w.text) else .fits w

/-- Narrow to a truth value: false is `[0, 0]`, true excludes 0. -/
def assume (v : Interval) : Bool → Narrowed Interval
  | true => v.exclude 0
  | false => v.intersect (point 0)

/-- The truth value: false for `[0, 0]`, true when 0 is no member. -/
def toTristate (v : Interval) : Eval Tristate :=
  if v.isBottom then Eval.cancel "interval bottom"
  else if v.lo = 0 ∧ v.hi = 0 then pure .no
  else if v.contains 0 then pure .maybe
  else pure .yes

/-- Choose an offset below a bound. -/
def chooseBelow (n : Bound) : Eval Bound := do
  return Int64.ofNat (← Eval.choose n.toInt)

/-- Cut an infinite side so that `bound` integers remain beyond the finite end. -/
def window (bound : UInt32) (v : Interval) : Interval :=
  let w : Bound := boundWord bound
  if v.lo = Bound.negInf ∧ v.hi = Bound.posInf then ⟨0, w⟩
  else if v.lo = Bound.negInf then ⟨(Bound.sub? v.hi w).getD 0, v.hi⟩
  else if v.hi = Bound.posInf then ⟨v.lo, (Bound.add? v.lo w).getD 0⟩
  else v

/-- Pick a member: the low end plus a chosen offset. -/
def lower (bound : UInt32) (v : Interval) : Eval Int64 := do
  if v.isBottom then Eval.cancel "interval lower of bottom"
  let w := v.window bound
  let i ← chooseBelow w.size
  return w.lo + i

end Interval

end Narrowing
