/-
Signs of integers.

A sign value is a set of signs: which of negative, zero and positive a
number may be.  The eight sets form the lattice; join, meet, difference
and complement are the set operations.  Arithmetic on sets is given by
arithmetic on single signs, over unbounded integers.
-/
import Narrowing.Tristate

namespace Narrowing

/-- The sign of one number. -/
inductive Sgn where
  | neg | zero | pos
deriving DecidableEq

/-- The signs a number may have. -/
structure Sign where
  neg : Bool
  zero : Bool
  pos : Bool
deriving DecidableEq

namespace Sign

/-- No sign: unreachable. -/
def bot : Sign := ⟨false, false, false⟩
def ltz : Sign := ⟨true, false, false⟩
def gtz : Sign := ⟨false, false, true⟩
def eqz : Sign := ⟨false, true, false⟩
def nez : Sign := ⟨true, false, true⟩
def gez : Sign := ⟨false, true, true⟩
def lez : Sign := ⟨true, true, false⟩
def top : Sign := ⟨true, true, true⟩

/-- The sets in the order of their numbers. -/
def all : List Sign := [bot, ltz, gtz, eqz, nez, gez, lez, top]

def text : Sign → String
  | ⟨false, false, false⟩ => "⊥"
  | ⟨true, false, false⟩ => "<0"
  | ⟨false, false, true⟩ => ">0"
  | ⟨false, true, false⟩ => "=0"
  | ⟨true, false, true⟩ => "≠0"
  | ⟨false, true, true⟩ => "≥0"
  | ⟨true, true, false⟩ => "≤0"
  | ⟨true, true, true⟩ => "⊤"

def name : Sign → String
  | ⟨false, false, false⟩ => "bot"
  | ⟨true, false, false⟩ => "ltz"
  | ⟨false, false, true⟩ => "gtz"
  | ⟨false, true, false⟩ => "eqz"
  | ⟨true, false, true⟩ => "nez"
  | ⟨false, true, true⟩ => "gez"
  | ⟨true, true, false⟩ => "lez"
  | ⟨true, true, true⟩ => "top"

def ofName? (name : String) : Option Sign := all.find? fun s => s.name == name

def textOfCode (code : Nat) : String := (all[code]?.map text).getD "invalid"

/-! ## The lattice -/

def has (s : Sign) : Sgn → Bool
  | .neg => s.neg
  | .zero => s.zero
  | .pos => s.pos

def single : Sgn → Sign
  | .neg => ltz
  | .zero => eqz
  | .pos => gtz

def join (a b : Sign) : Sign := ⟨a.neg || b.neg, a.zero || b.zero, a.pos || b.pos⟩

def meet (a b : Sign) : Sign := ⟨a.neg && b.neg, a.zero && b.zero, a.pos && b.pos⟩

/-- The signs of `a` that are not in `b`. -/
def diff (a b : Sign) : Sign := ⟨a.neg && !b.neg, a.zero && !b.zero, a.pos && !b.pos⟩

def complement (a : Sign) : Sign := ⟨!a.neg, !a.zero, !a.pos⟩

def leq (a b : Sign) : Bool := meet a b == a

def lift (x : Int64) : Sign :=
  if x < 0 then ltz else if 0 < x then gtz else eqz

def contains (v : Sign) (x : Int64) : Bool := leq (lift x) v

/-- The signs of the integers 0 and 1 that a truth value may stand for. -/
def ofTristate : Tristate → Sign
  | .yes => gtz
  | .no => eqz
  | .maybe | .invalid => gez

def anyRange (start stop : Int64) : Eval Sign :=
  if stop < start then Eval.cancel "sign empty range"
  else if start < 0 ∧ 0 < stop then pure top
  else pure (join (lift start) (lift stop))

/-- A set that must have a sign. -/
def nonBottom (what : String) (v : Sign) : Eval Sign :=
  if v = bot then Eval.cancel ("sign " ++ what) else pure v

/-! ## Arithmetic on single signs, and on sets -/

def members (s : Sign) : List Sgn := [.neg, .zero, .pos].filter s.has

/-- An operator on single signs, carried over to sets. -/
def lift2 (f : Sgn → Sgn → Sign) (a b : Sign) : Sign :=
  (a.members.flatMap fun x => b.members.map (f x)).foldl join bot

def sgnAdd : Sgn → Sgn → Sign
  | .zero, y => single y
  | x, .zero => single x
  | .neg, .neg => ltz
  | .pos, .pos => gtz
  | .neg, .pos | .pos, .neg => top

def sgnMul : Sgn → Sgn → Sign
  | .zero, _ | _, .zero => eqz
  | .neg, .neg | .pos, .pos => gtz
  | .neg, .pos | .pos, .neg => ltz

/-- The signs of a quotient toward zero. -/
def sgnDiv : Sgn → Sgn → Sign
  | _, .zero => bot
  | .zero, _ => eqz
  | .neg, .neg | .pos, .pos => gez
  | .neg, .pos | .pos, .neg => lez

/-- The signs of a remainder, which follows the dividend. -/
def sgnRem : Sgn → Sgn → Sign
  | _, .zero => bot
  | .zero, _ => eqz
  | .neg, _ => lez
  | .pos, _ => gez

/-- Whether two numbers are equal, as a boolean 0 or 1. -/
def sgnEq : Sgn → Sgn → Sign
  | .zero, .zero => gtz
  | .neg, .neg | .pos, .pos => gez
  | _, _ => eqz

/-- Whether one number is below another, as a boolean 0 or 1. -/
def sgnLess : Sgn → Sgn → Sign
  | .neg, .neg | .pos, .pos => gez
  | .neg, _ | .zero, .pos => gtz
  | _, _ => eqz

def negate (a : Sign) : Sign := ⟨a.pos, a.zero, a.neg⟩

def notBool (v : Sign) : Sign :=
  if v = gtz then eqz else if v = eqz then gtz else v

def nonNegative (v : Sign) : Bool := leq v gez

/-- Division and remainder.  A divisor that may be zero is a defect; an unsigned operator
is read as signed only on numbers without a negative one. -/
def divide (op : Arith) (f : Sgn → Sgn → Sign) (a b : Sign) : Eval Sign :=
  if b.zero then Eval.fault op.name .divisionByZero
  else if op ≠ op.signed ∧ !(nonNegative a && nonNegative b) then
    pure (if a = eqz then eqz else top)
  else pure (lift2 f a b)

def bitAnd (a b : Sign) : Sign :=
  if a = eqz ∨ b = eqz then eqz
  else if nonNegative a || nonNegative b then gez
  else top

def bitOr (a b : Sign) : Sign :=
  if a = eqz then b
  else if b = eqz then a
  else if a = ltz ∨ b = ltz then ltz
  else if nonNegative a && nonNegative b then
    if a = gtz ∨ b = gtz then gtz else gez
  else top

def bitXor (a b : Sign) : Sign :=
  if a = eqz then b
  else if b = eqz then a
  else if nonNegative a && nonNegative b then gez
  else top

def arith (op : Arith) (a b : Sign) : Eval Sign :=
  match op with
  | .add => pure (lift2 sgnAdd a b)
  | .sub => pure (lift2 sgnAdd a b.negate)
  | .mul => pure (lift2 sgnMul a b)
  | .sdiv | .udiv => divide op sgnDiv a b
  | .srem | .urem => divide op sgnRem a b
  | .and => pure (bitAnd a b)
  | .or => pure (bitOr a b)
  | .xor => pure (bitXor a b)
  | .shl => pure (if a = eqz then eqz else top)
  | .lshr => pure (if a = eqz then eqz else if nonNegative a then gez else top)
  | .ashr => pure (if a.pos then join a eqz else a)

/-- A relation that reads numbers with their sign. -/
def compareSigned (rel : Relation) (a b : Sign) : Sign :=
  match rel with
  | .eq => lift2 sgnEq a b
  | .ne => notBool (lift2 sgnEq a b)
  | .slt | .ult => lift2 sgnLess a b
  | .sgt | .ugt => lift2 sgnLess b a
  | .sle | .ule => notBool (lift2 sgnLess b a)
  | .sge | .uge => notBool (lift2 sgnLess a b)

/-- A relation; an unsigned order is read only on numbers without a negative one. -/
def compare (rel : Relation) (a b : Sign) : Sign :=
  match rel with
  | .ult | .ule | .ugt | .uge =>
    if nonNegative a && nonNegative b then compareSigned rel a b else gez
  | _ => compareSigned rel a b

def binary (tag : Tag) (a b : Sign) : Eval Sign :=
  match tag with
  | .join => pure (join a b)
  | .meet => nonBottom "meet" (meet a b)
  | .arith op => arith op a b
  | .relation rel => pure (compare rel a b)
  | .float _ => pure top
  | _ => Eval.unsupported .sign tag

/-- A change of width.  Without widths, zero extension makes the negative numbers positive
and a cut may give any sign. -/
def cast (tag : Tag) (a : Sign) : Eval Sign :=
  match tag with
  | .cast .sext | .cast .inttoptr | .cast .ptrtoint => pure a
  | .cast .zext => pure (if meet a nez = bot then a else join (meet a eqz) gtz)
  | .cast .trunc | .cast .zfit => pure (if a = eqz then eqz else top)
  | .float _ => pure top
  | _ => Eval.unsupported .sign tag

/-! ## Truth, witnesses and backward narrowing -/

def assume (v : Sign) (expected : Bool) : Narrowed Sign :=
  let m := meet v (if expected then nez else eqz)
  if m = bot then .conflicts v (if expected then "sign assume true" else "sign assume false")
  else .fits m

/-- The truth value: false for zero, true when zero is excluded. -/
def toTristate (v : Sign) : Eval Tristate :=
  if v = bot then Eval.cancel "sign bottom"
  else if v = eqz then pure .no
  else if v.zero then pure .maybe
  else pure .yes

def witness : Sgn → Int64
  | .neg => -1
  | .zero => 0
  | .pos => 1

/-- Pick one of -1, 0 and 1 that has one of the signs. -/
def lower (v : Sign) : Eval Int64 := do
  let ws := v.members.map witness
  if ws.isEmpty then Eval.cancel "sign lower of bottom"
  let i ← Eval.choose ws.length
  return ws.getD i 0

def backwardEq (a b : Sign) : Eval (Sign × Sign) := do
  let m ← nonBottom "eq" (meet a b)
  return (m, m)

def backwardNe (a b : Sign) : Eval (Sign × Sign) := do
  let b ← if a = eqz then nonBottom "ne" (diff b eqz) else pure b
  let a ← if b = eqz then nonBottom "ne" (diff a eqz) else pure a
  return (a, b)

/-- From `x < y`, or `x ≤ y` when not strict: the signs that cannot satisfy the relation,
given the other side, are removed. -/
def backwardLess (strict : Bool) (x y : Sign) : Eval (Sign × Sign) := do
  let x ←
    if leq y ltz || (strict && leq y lez) then nonBottom "order" (diff x gez)
    else if leq y lez then nonBottom "order" (diff x gtz)
    else pure x
  let y ←
    if leq x gtz || (strict && leq x gez) then nonBottom "order" (diff y lez)
    else if leq x gez then nonBottom "order" (diff y ltz)
    else pure y
  return (x, y)

/-- From a relation that holds, where it narrows. -/
def backwardRelation (rel : Relation) (a b : Sign) : Eval (Sign × Sign) :=
  match rel with
  | .eq => backwardEq a b
  | .ne => backwardNe a b
  | .slt => backwardLess true a b
  | .sle => backwardLess false a b
  | .sgt => do return (← backwardLess true b a).swap
  | .sge => do return (← backwardLess false b a).swap
  | .ult | .ule | .ugt | .uge => pure (a, b)

/-- Narrow `a` and `b` given that `r` is the result of an operator on them; only equality,
signed order and sign extension narrow. -/
def backward (tag : Tag) (r a b : Sign) : Eval (Sign × Sign) := do
  match tag with
  | .relation .ult | .relation .ule | .relation .ugt | .relation .uge =>
    Eval.imprecise .sign tag
    return (a, b)
  | .relation rel =>
    match ← toTristate r with
    | .yes => backwardRelation rel a b
    | .no => backwardRelation rel.negate a b
    | .maybe | .invalid => return (a, b)
  | .cast .sext => return (← nonBottom "sext" (meet a r), b)
  | _ =>
    Eval.imprecise .sign tag
    return (a, b)

end Sign

end Narrowing
