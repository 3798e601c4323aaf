/-
Zero or not.

A zero-ness value is a set: whether a word may be zero and whether it may
be something else.  The four sets form the lattice.  Operators on sets are
given by operators on the two single cases; booleans count as not zero for
true and zero for false.
-/
import Narrowing.Tristate

namespace Narrowing

/-- Whether a word may be zero, and whether it may be nonzero. -/
structure Zero where
  zero : Bool
  nonzero : Bool
deriving DecidableEq

namespace Zero

def isZero : Zero := ⟨true, false⟩
def isNonzero : Zero := ⟨false, true⟩
def unknown : Zero := ⟨true, true⟩
/-- Neither: unreachable. -/
def bottom : Zero := ⟨false, false⟩

/-- The sets in the order of their numbers. -/
def all : List Zero := [isZero, isNonzero, unknown, bottom]

def text : Zero → String
  | ⟨true, false⟩ => "Z"
  | ⟨false, true⟩ => "N"
  | ⟨true, true⟩ => "U"
  | ⟨false, false⟩ => "⊥"

def name : Zero → String
  | ⟨true, false⟩ => "zero"
  | ⟨false, true⟩ => "nonzero"
  | ⟨true, true⟩ => "unknown"
  | ⟨false, false⟩ => "bottom"

def ofName? (name : String) : Option Zero := all.find? fun z => z.name == name

def textOfCode (code : Nat) : String := (all[code]?.map text).getD "invalid"

/-! ## The lattice -/

def join (a b : Zero) : Zero := ⟨a.zero || b.zero, a.nonzero || b.nonzero⟩

def meet (a b : Zero) : Zero := ⟨a.zero && b.zero, a.nonzero && b.nonzero⟩

/-- The cases of `a` that are not in `b`. -/
def diff (a b : Zero) : Zero := ⟨a.zero && !b.zero, a.nonzero && !b.nonzero⟩

def complement (a : Zero) : Zero := ⟨!a.zero, !a.nonzero⟩

def leq (a b : Zero) : Bool := meet a b == a

/-- The set of one case: `true` for a nonzero word. -/
def single : Bool → Zero
  | true => isNonzero
  | false => isZero

def lift (x : Int64) : Zero := single (x != 0)

def contains (v : Zero) (x : Int64) : Bool := leq (lift x) v

def ofTristate : Tristate → Zero
  | .yes => isNonzero
  | .no => isZero
  | .maybe | .invalid => unknown

def anyRange (start stop : Int64) : Eval Zero :=
  if stop < start then Eval.cancel "zero empty range"
  else if start = 0 ∧ stop = 0 then pure isZero
  else if 0 < start ∨ stop < 0 then pure isNonzero
  else pure unknown

/-- A set that must have a case. -/
def nonBottom (what : String) (v : Zero) : Eval Zero :=
  if v = bottom then Eval.cancel ("zero " ++ what) else pure v

/-! ## Operators on single cases, and on sets

A single case is a boolean, `true` for a nonzero word. -/

def members (z : Zero) : List Bool :=
  [false, true].filter fun case => if case then z.nonzero else z.zero

/-- An operator on single cases, carried over to sets. -/
def lift2 (f : Bool → Bool → Zero) (a b : Zero) : Zero :=
  (a.members.flatMap fun x => b.members.map (f x)).foldl join bottom

/-- Sum, difference and exclusive disjunction: nonzero if just one side is. -/
def caseAdd : Bool → Bool → Zero
  | true, true => unknown
  | x, y => single (x || y)

/-- Product and conjunction: zero if one side is. -/
def caseMul : Bool → Bool → Zero
  | true, true => unknown
  | _, _ => isZero

/-- Shifts: zero stays zero, and nothing changes by an amount of zero. -/
def caseShift : Bool → Bool → Zero
  | true, true => unknown
  | x, _ => single x

/-- Disjunction: nonzero if one side is. -/
def caseOr (x y : Bool) : Zero := single (x || y)

/-- Equality: only two nonzero words leave it open. -/
def caseEq : Bool → Bool → Zero
  | true, true => unknown
  | x, y => single (x == y)

/-- Unsigned order `x > y`. -/
def caseAbove : Bool → Bool → Zero
  | true, true => unknown
  | x, _ => single x

/-- Unsigned order `x ≥ y`. -/
def caseAtLeast : Bool → Bool → Zero
  | true, true => unknown
  | _, y => single !y

/-- Signed order; only two zeros decide it. -/
def caseSigned (onZeros : Bool) : Bool → Bool → Zero
  | false, false => single onZeros
  | _, _ => unknown

/-- Division and remainder; a divisor that may be zero is a defect. -/
def divide (op : Arith) (a b : Zero) : Eval Zero :=
  if b ≠ isNonzero then Eval.fault op.name .divisionByZero
  else pure (if a = isZero then isZero else unknown)

def arith (op : Arith) (a b : Zero) : Eval Zero :=
  match op with
  | .add | .sub | .xor => pure (lift2 caseAdd a b)
  | .mul | .and => pure (lift2 caseMul a b)
  | .sdiv | .udiv | .srem | .urem => divide op a b
  | .shl | .lshr | .ashr => pure (lift2 caseShift a b)
  | .or => pure (lift2 caseOr a b)

/-- A relation, as a boolean. -/
def compare (rel : Relation) (a b : Zero) : Zero :=
  match rel with
  | .eq => lift2 caseEq a b
  | .ne => lift2 caseAdd a b
  | .ugt => lift2 caseAbove a b
  | .uge => lift2 caseAtLeast a b
  | .ult => lift2 caseAbove b a
  | .ule => lift2 caseAtLeast b a
  | .sgt => lift2 (caseSigned false) a b
  | .sge => lift2 (caseSigned true) a b
  | .slt => lift2 (caseSigned false) b a
  | .sle => lift2 (caseSigned true) b a

def binary (tag : Tag) (a b : Zero) : Eval Zero :=
  if a = bottom ∨ b = bottom then Eval.cancel "zero bottom operand"
  else match tag with
    | .join => pure (join a b)
    | .meet => nonBottom "meet" (meet a b)
    | .arith op => arith op a b
    | .relation rel => pure (compare rel a b)
    | .float _ => pure unknown
    | _ => Eval.unsupported .zero tag

/-- A change of width; a cut may leave nothing of a nonzero word. -/
def cast (tag : Tag) (a : Zero) : Eval Zero :=
  match tag with
  | .cast .trunc | .cast .zfit => pure (if a = isZero then isZero else unknown)
  | .cast _ => pure a
  | .float _ => pure unknown
  | _ => Eval.unsupported .zero tag

/-- Read through a pointer, which must not be null. -/
def load (p : Zero) : Eval Zero :=
  if p = isNonzero then pure unknown else Eval.fault MemoryOp.load.name .nullDereference

/-- Write through a pointer, which must not be null. -/
def store (p : Zero) : Eval Unit :=
  if p = isNonzero then pure () else Eval.fault MemoryOp.store.name .nullDereference

/-! ## Truth, witnesses and backward narrowing -/

def assume (v : Zero) (expected : Bool) : Narrowed Zero :=
  let m := meet v (single expected)
  if m = bottom then .conflicts v "zero assume" else .fits m

def toTristate : Zero → Eval Tristate
  | ⟨true, false⟩ => pure .no
  | ⟨false, true⟩ => pure .yes
  | ⟨true, true⟩ => pure .maybe
  | ⟨false, false⟩ => Eval.cancel "zero bottom"

/-- Pick 0 or 1. -/
def lower : Zero → Eval Int64
  | ⟨true, false⟩ => pure 0
  | ⟨false, true⟩ => pure 1
  | ⟨true, true⟩ => do return Int64.ofNat (← Eval.choose 2)
  | ⟨false, false⟩ => Eval.cancel "zero lower of bottom"

def backwardEq (a b : Zero) : Eval (Zero × Zero) := do
  let m ← nonBottom "eq" (meet a b)
  return (m, m)

def backwardNe (a b : Zero) : Eval (Zero × Zero) := do
  let b ← if a = isZero then nonBottom "ne" (diff b isZero) else pure b
  let a ← if b = isZero then nonBottom "ne" (diff a isZero) else pure a
  return (a, b)

/-- Narrow `a` and `b` given that `r` is the result of an operator on them; only equality,
strict unsigned order and extensions narrow. -/
def backward (tag : Tag) (r a b : Zero) : Eval (Zero × Zero) := do
  let t ← toTristate r
  match tag with
  | .relation .eq =>
    match t with
    | .yes => backwardEq a b
    | .no => backwardNe a b
    | .maybe | .invalid => return (a, b)
  | .relation .ne =>
    match t with
    | .yes => backwardNe a b
    | .no => backwardEq a b
    | .maybe | .invalid => return (a, b)
  | .relation .ult =>
    -- nothing is below zero
    if t = .yes then return (a, ← nonBottom "ult" (diff b isZero)) else return (a, b)
  | .relation .ugt =>
    if t = .yes then return (← nonBottom "ult" (diff a isZero), b) else return (a, b)
  | .cast .sext | .cast .zext => return (← nonBottom tag.name (meet a r), b)
  | _ =>
    Eval.imprecise .zero tag
    return (a, b)

end Zero

end Narrowing
