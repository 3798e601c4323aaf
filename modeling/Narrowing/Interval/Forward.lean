/-
Forward operators on intervals.

Sums and differences work end by end, the other operators on the four
corners.  A result is undefined where an end point is, or where the
divisor may be zero; the path is then given up.
-/
import Narrowing.Interval.Basic

namespace Narrowing

namespace Interval

/-- The sums of the members. -/
def add? (a b : Interval) : Option Interval := do
  return ⟨← Bound.add? a.lo b.lo, ← Bound.add? a.hi b.hi⟩

/-- The differences of the members. -/
def sub? (a b : Interval) : Option Interval := do
  return ⟨← Bound.sub? a.lo b.hi, ← Bound.sub? a.hi b.lo⟩

/-- The hull of an operator on the four pairs of end points. -/
def corners? (f : Bound → Bound → Option Bound) (a b : Interval) : Option Interval := do
  let ll ← f a.lo b.lo
  let lh ← f a.lo b.hi
  let hl ← f a.hi b.lo
  let hh ← f a.hi b.hi
  return ⟨Bound.lesser (Bound.lesser (Bound.lesser ll lh) hl) hh,
    Bound.greater (Bound.greater (Bound.greater ll lh) hl) hh⟩

/-- The products of the members. -/
def mul? (a b : Interval) : Option Interval :=
  corners? (fun x y => some (Bound.satMul x y)) a b

/-- The quotients of the members, by a divisor that excludes zero. -/
def div? (a b : Interval) : Option Interval :=
  if b.contains 0 then none else corners? Bound.div? a b

/-- The remainders of the members, by a divisor that excludes zero: smaller than the
divisor in magnitude, and on the dividend's side of zero. -/
def rem? (a b : Interval) : Option Interval :=
  if b.contains 0 then none
  else
    let m := Bound.greater (Bound.opposite b.lo) b.hi
    let low := Bound.lesser a.lo 0
    let high := Bound.greater a.hi 0
    if m.isInf then some ⟨low, high⟩
    else
      let below : Bound := if 0 ≤ a.lo then 0 else -(m - 1)
      let above : Bound := if a.hi ≤ 0 then 0 else m - 1
      some ⟨Bound.greater below low, Bound.lesser above high⟩

/-- The result of an arithmetic operator, where it is defined.  Bitwise operators and the
unsigned shift of a negative number give everything. -/
def arith? (op : Arith) (a b : Interval) : Option Interval :=
  match op with
  | .add => add? a b
  | .sub => sub? a b
  | .mul => mul? a b
  | .sdiv | .udiv => div? a b
  | .srem | .urem => rem? a b
  | .shl => corners? Bound.shl? a b
  | .ashr => corners? Bound.shr? a b
  | .lshr => if a.lo < 0 then some top else corners? Bound.shr? a b
  | .and | .or | .xor => some top

def equal (a b : Interval) : Tristate :=
  if a.isPoint && b.isPoint && a.lo == b.lo then .yes
  else if (meet a b).isBottom then .no
  else .maybe

def less (a b : Interval) : Tristate :=
  if a.hi < b.lo then .yes
  else if b.hi ≤ a.lo then .no
  else .maybe

def compare (rel : Relation) (a b : Interval) : Tristate :=
  match rel with
  | .eq => equal a b
  | .ne => (equal a b).not
  | .slt | .ult => less a b
  | .sgt | .ugt => less b a
  | .sle | .ule => (less b a).not
  | .sge | .uge => (less a b).not

def compareTag (tag : Tag) (a b : Interval) : Eval Tristate :=
  match tag with
  | .relation rel => pure (compare rel a b)
  | _ => Eval.unsupported .interval tag

/-- A result that must be defined and not empty. -/
def settle (tag : Tag) : Option Interval → Eval Interval
  | none => Eval.cancel ("interval " ++ tag.name ++ " undefined")
  | some v => make v.lo v.hi

def binary (tag : Tag) (a b : Interval) : Eval Interval :=
  match tag with
  | .join => pure (join a b)
  | .meet => make (meet a b).lo (meet a b).hi
  | .arith op => settle tag (arith? op a b)
  | .relation rel => pure (ofTristate (compare rel a b))
  | _ => Eval.unsupported .interval tag

/-- A cast, which changes nothing. -/
def cast (tag : Tag) (a : Interval) : Eval Interval :=
  match tag with
  | .cast _ => pure a
  | _ => Eval.unsupported .interval tag

end Interval

end Narrowing
