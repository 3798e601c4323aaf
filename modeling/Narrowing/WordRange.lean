/-
Unsigned ranges of machine words.

A range never wraps around: an operator that might leave the width gives
the full range instead.
-/
import Narrowing.Constant

namespace Narrowing

/-- The words of a given width from `lo` to `hi`, read without sign. -/
structure WordRange where
  lo : UInt64
  hi : UInt64
  width : UInt8
deriving DecidableEq

namespace WordRange

def top (width : UInt8) : WordRange := ⟨0, Word.mask width, width⟩

def lift (c : Constant) : WordRange := ⟨c.unsigned, c.unsigned, c.width⟩

/-- The range between the low bits of two words. -/
def anyRange (start stop : UInt64) (width : UInt8) : Eval WordRange :=
  let lo := start &&& Word.mask width
  let hi := stop &&& Word.mask width
  if hi < lo then Eval.cancel "bvinterval empty range" else pure ⟨lo, hi, width⟩

/-- The one-bit range of a truth value. -/
def ofTristate : Tristate → WordRange
  | .no => ⟨0, 0, 1⟩
  | .yes => ⟨1, 1, 1⟩
  | .maybe | .invalid => top 1

def isTop (v : WordRange) : Bool := v.lo == 0 && v.hi == Word.mask v.width

def isPoint (v : WordRange) : Bool := v.lo == v.hi

def contains (v : WordRange) (x : UInt64) : Bool := v.lo ≤ x && x ≤ v.hi

def text (v : WordRange) : String :=
  "[" ++ v.lo.toNat.repr ++ ", " ++ v.hi.toNat.repr ++ "]:i" ++ v.width.toNat.repr

/-- Whether every member reads the same with and without sign. -/
def belowSign (v : WordRange) : Bool :=
  0 < v.width && v.hi < Word.shl 1 (v.width - 1).toUInt64

def leq (a b : WordRange) : Bool :=
  a.width == b.width && b.lo ≤ a.lo && a.hi ≤ b.hi

def lesser (x y : UInt64) : UInt64 := if x < y then x else y

def greater (x y : UInt64) : UInt64 := if y < x then x else y

/-- The intersection, which must not be empty. -/
def meet (a b : WordRange) : Narrowed WordRange :=
  let v : WordRange := ⟨greater a.lo b.lo, lesser a.hi b.hi, a.width⟩
  if v.hi < v.lo then .conflicts a "bvinterval meet" else .fits v

/-! ## Forward operators -/

/-- Unsigned division; a divisor of zero alone gives up the path. -/
def divide (a b : WordRange) : Eval WordRange :=
  if b.hi = 0 then Eval.cancel "bvinterval division by zero"
  else pure ⟨a.lo / b.hi, a.hi / greater b.lo 1, a.width⟩

/-- Unsigned remainder; a divisor of zero alone gives up the path. -/
def remainder (a b : WordRange) : Eval WordRange :=
  if b.hi = 0 then Eval.cancel "bvinterval division by zero"
  else pure ⟨0, lesser a.hi (b.hi - 1), a.width⟩

/-- The unsigned rule where both operands are below the sign bit, else the full range. -/
def signedDivision (rule : WordRange → WordRange → Eval WordRange) (a b : WordRange) :
    Eval WordRange :=
  if a.belowSign && b.belowSign then rule a b
  else if b.hi = 0 then Eval.cancel "bvinterval division by zero"
  else pure (top a.width)

def shiftRight (a b : WordRange) : WordRange :=
  if a.width.toUInt64 ≤ b.lo then ⟨0, 0, a.width⟩
  else ⟨Word.shr a.lo (lesser b.hi a.width.toUInt64), Word.shr a.hi b.lo, a.width⟩

/-- The shift to the left by a fixed amount that loses no bit, else the full range. -/
def shiftLeft (a b : WordRange) : WordRange :=
  if !b.isPoint || a.width.toUInt64 ≤ b.lo ||
      a.width.toNat < Word.bitLength a.hi + b.lo.toNat then top a.width
  else ⟨Word.shl a.lo b.lo, Word.shl a.hi b.lo, a.width⟩

/-- An arithmetic operator on two ranges of one width. -/
def arith (op : Arith) (a b : WordRange) : Eval WordRange :=
  let w := a.width
  let limit := (Word.mask w).toNat
  match op with
  | .add =>
    pure (if limit < a.hi.toNat + b.hi.toNat then top w else ⟨a.lo + b.lo, a.hi + b.hi, w⟩)
  | .sub => pure (if a.lo < b.hi then top w else ⟨a.lo - b.hi, a.hi - b.lo, w⟩)
  | .mul =>
    pure (if limit < a.hi.toNat * b.hi.toNat then top w else ⟨a.lo * b.lo, a.hi * b.hi, w⟩)
  | .udiv => divide a b
  | .urem => remainder a b
  | .sdiv => signedDivision divide a b
  | .srem => signedDivision remainder a b
  | .and => pure ⟨0, lesser a.hi b.hi, w⟩
  | .or => pure ⟨greater a.lo b.lo, Word.fill (a.hi ||| b.hi), w⟩
  | .xor => pure ⟨0, Word.fill (a.hi ||| b.hi), w⟩
  | .shl => pure (shiftLeft a b)
  | .lshr => pure (shiftRight a b)
  | .ashr => pure (if a.belowSign then shiftRight a b else top w)

/-- Whether the two ranges hold the same word. -/
def equal (a b : WordRange) : Tristate :=
  if a.isPoint && b.isPoint && a.lo == b.lo then .yes
  else if a.hi < b.lo || b.hi < a.lo then .no
  else .maybe

/-- Whether the first word is below the second. -/
def less (a b : WordRange) : Tristate :=
  if a.hi < b.lo then .yes
  else if b.hi ≤ a.lo then .no
  else .maybe

/-- The truth of a relation that reads words without sign. -/
def compareUnsigned (rel : Relation) (a b : WordRange) : Tristate :=
  match rel with
  | .eq => equal a b
  | .ne => (equal a b).not
  | .ult | .slt => less a b
  | .ugt | .sgt => less b a
  | .ule | .sle => (less b a).not
  | .uge | .sge => (less a b).not

/-- The truth of a relation; a signed order is read only below the sign bit. -/
def compare (rel : Relation) (a b : WordRange) : Tristate :=
  match rel with
  | .slt | .sle | .sgt | .sge =>
    if a.belowSign && b.belowSign then compareUnsigned rel.unsigned a b else .maybe
  | _ => compareUnsigned rel a b

def compareTag (tag : Tag) (a b : WordRange) : Eval Tristate :=
  match tag with
  | .relation rel => pure (compare rel a b)
  | _ => Eval.unsupported .words tag

/-- A binary or comparison operator on two ranges of one width. -/
def binary (tag : Tag) (a b : WordRange) : Eval WordRange :=
  if a.width ≠ b.width then Eval.misuse (.rangeWidthMismatch tag)
  else match tag with
    | .join => pure ⟨lesser a.lo b.lo, greater a.hi b.hi, a.width⟩
    | .meet => (meet a b).eval
    | .arith op => arith op a b
    | .relation rel => pure (ofTristate (compare rel a b))
    | _ => Eval.unsupported .words tag

def cast (tag : Tag) (a : WordRange) (width : UInt8) : Eval WordRange :=
  match tag with
  | .cast .sext =>
    pure (if a.belowSign && a.width ≤ width then ⟨a.lo, a.hi, width⟩ else top width)
  | .cast _ => pure (if Word.mask width < a.hi then top width else ⟨a.lo, a.hi, width⟩)
  | _ => Eval.unsupported .words tag

/-! ## Truth, witnesses and backward narrowing -/

/-- Narrow to a truth value: false is `[0, 0]`, true drops a zero low end. -/
def assume (v : WordRange) : Bool → Narrowed WordRange
  | false => v.meet ⟨0, 0, v.width⟩
  | true =>
    if v.hi = 0 then .conflicts v "bvinterval assume true"
    else .fits { v with lo := if v.lo = 0 then 1 else v.lo }

def toTristate (v : WordRange) : Tristate :=
  if v.hi = 0 then .no
  else if v.lo = 0 then .maybe
  else .yes

/-- Pick a member within the choose bound of the low end. -/
def lower (bound : UInt32) (v : WordRange) : Eval Constant := do
  let span := lesser (v.hi - v.lo) bound.toUInt64
  let i ← Eval.choose (span.toNat + 1)
  return .ofBits (v.lo + UInt64.ofNat i) v.width

/-- Narrow `a` and `b` given that `r` is the result of an operator on them; only equality and
changes of width narrow. -/
def backward (tag : Tag) (r a b : WordRange) : Eval (WordRange × WordRange) :=
  match tag with
  | .relation .eq => do
    if r.toTristate = .yes then
      let m ← (meet a b).eval
      return (m, m)
    else return (a, b)
  | .cast .zext | .cast .zfit | .cast .trunc => do
    if r.hi ≤ Word.mask a.width then
      return (← (meet a ⟨r.lo, r.hi, a.width⟩).eval, b)
    else return (a, b)
  | _ => do
    Eval.imprecise .words tag
    return (a, b)

end WordRange

end Narrowing
