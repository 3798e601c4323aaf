/-
Exact words.

A constant is one machine word: an integer, a floating-point number or a
pointer, of a given width.  The bits above the width are not assumed to be
clear; `unsigned` and `signed` are the two readings of the low ones.
-/
import Narrowing.Decimal.Shortest
import Narrowing.Tristate
import Narrowing.Word

namespace Narrowing

/-- What a word stands for. -/
inductive Kind where
  | integer
  | float
  | pointer
deriving DecidableEq

namespace Kind

def name : Kind → String
  | integer => "bv"
  | float => "fp"
  | pointer => "ptr"

def ofName? (name : String) : Option Kind :=
  [integer, float, pointer].find? fun k => k.name == name

end Kind

/-- A machine word of a given width. -/
structure Constant where
  bits : UInt64
  kind : Kind
  width : UInt8
deriving DecidableEq

namespace Constant

/-- The integer word of the low `width` bits. -/
def ofBits (bits : UInt64) (width : UInt8) : Constant :=
  ⟨bits &&& Word.mask width, .integer, width⟩

/-- The integer word of a signed number. -/
def ofInt64 (x : Int64) (width : UInt8) : Constant := ofBits x.toUInt64 width

def ofBool (b : Bool) : Constant := ofBits (if b then 1 else 0) 1

def ofFloat32Bits (bits : UInt32) : Constant := ⟨bits.toUInt64, .float, 32⟩

def ofFloat64Bits (bits : UInt64) : Constant := ⟨bits, .float, 64⟩

def ofPointer (bits : UInt64) : Constant := ⟨bits, .pointer, 64⟩

def unsigned (c : Constant) : UInt64 := c.bits &&& Word.mask c.width

def signed (c : Constant) : Int64 := Word.signExtend c.bits c.width

/-- The integer that other domains read a word as: 0 or 1 for one bit, the signed reading
for 8, 16, 32 and 64 bits. -/
def liftValue (c : Constant) : Eval Int64 :=
  if c.kind = .float then Eval.misuse .floatWitness
  else if c.width = 1 then pure (c.bits &&& 1).toInt64
  else if c.width = 8 || c.width = 16 || c.width = 32 || c.width = 64 then pure c.signed
  else Eval.misuse (.unreadableWidth c.width)

/-- The written form: the shortest decimal of a float, a pointer in hexadecimal, `true` or
`false` for one bit, else the signed reading with its width. -/
def text (c : Constant) : String :=
  match c.kind with
  | .float =>
    if c.width = 32 then Decimal.single.text c.bits.toUInt32.toNat
    else Decimal.double.text c.bits.toNat
  | .pointer => "0x" ++ String.ofList (Nat.toDigits 16 c.bits.toNat)
  | .integer =>
    if c.width = 1 then (if c.bits = 0 then "false" else "true")
    else c.signed.toInt.repr ++ ":i" ++ c.width.toNat.repr

/-- An arithmetic operator on two words of one width. -/
def arith (op : Arith) (a b : Constant) : Eval Constant :=
  let w := a.width
  let ua := a.unsigned
  let ub := b.unsigned
  let sa := a.signed
  let sb := b.signed
  match op with
  | .add => pure (ofBits (ua + ub) w)
  | .sub => pure (ofBits (ua - ub) w)
  | .mul => pure (ofBits (ua * ub) w)
  | .udiv => if ub = 0 then Eval.fault op.name .divisionByZero else pure (ofBits (ua / ub) w)
  | .sdiv => if sb = 0 then Eval.fault op.name .divisionByZero else pure (ofInt64 (sa / sb) w)
  | .urem => if ub = 0 then Eval.fault op.name .divisionByZero else pure (ofBits (ua % ub) w)
  | .srem => if sb = 0 then Eval.fault op.name .divisionByZero else pure (ofInt64 (sa % sb) w)
  | .and => pure (ofBits (ua &&& ub) w)
  | .or => pure (ofBits (ua ||| ub) w)
  | .xor => pure (ofBits (ua ^^^ ub) w)
  | .shl => pure (ofBits (if w.toUInt64 ≤ ub then 0 else Word.shl ua ub) w)
  | .lshr => pure (ofBits (if w.toUInt64 ≤ ub then 0 else Word.shr ua ub) w)
  | .ashr => pure (ofInt64 (Word.sar sa (if w.toUInt64 ≤ ub then w.toUInt64 - 1 else ub)) w)

def compare (rel : Relation) (a b : Constant) : Bool :=
  match rel with
  | .eq => a.unsigned == b.unsigned
  | .ne => a.unsigned != b.unsigned
  | .slt => a.signed < b.signed
  | .sle => a.signed ≤ b.signed
  | .sgt => b.signed < a.signed
  | .sge => b.signed ≤ a.signed
  | .ult => a.unsigned < b.unsigned
  | .ule => a.unsigned ≤ b.unsigned
  | .ugt => b.unsigned < a.unsigned
  | .uge => b.unsigned ≤ a.unsigned

/-- A binary or comparison operator.  Two words join or meet only when they are the same. -/
def binary (tag : Tag) (a b : Constant) : Eval Constant :=
  if a.kind = .float ∨ b.kind = .float then Eval.unsupported .constant tag
  else match tag with
    | .join => if a = b then pure a else Eval.misuse .distinctConstants
    | .meet => if a = b then pure a else Eval.cancel "constant meet"
    | _ =>
      if a.width ≠ b.width then Eval.misuse (.widthMismatch tag a.width b.width)
      else match tag with
        | .arith op => arith op a b
        | .relation rel => pure (ofBool (compare rel a b))
        | _ => Eval.unsupported .constant tag

def cast (tag : Tag) (a : Constant) (width : UInt8) : Eval Constant :=
  match tag with
  | .cast .zext | .cast .trunc | .cast .zfit =>
    if a.kind = .float then Eval.unsupported .constant tag
    else pure { ofBits a.unsigned width with kind := a.kind }
  | .cast .sext =>
    if a.kind = .float then Eval.unsupported .constant tag
    else pure (ofInt64 a.signed width)
  | .cast .inttoptr => pure (ofPointer a.unsigned)
  | .cast .ptrtoint => pure (ofBits a.bits width)
  | _ => Eval.unsupported .constant tag

/-- The bits from `start` up to, not including, `stop`. -/
def extract (a : Constant) (start stop : UInt8) : Eval Constant :=
  if stop ≤ start || a.width < stop then Eval.misuse (.badSlice start stop a.width)
  else pure (ofBits (Word.shr a.bits start.toUInt64) (stop - start))

/-- `a` above `b` in one word. -/
def concat (a b : Constant) : Eval Constant :=
  if 64 < a.width.toNat + b.width.toNat then Eval.misuse .concatTooWide
  else pure (ofBits (Word.shl a.bits b.width.toUInt64 ||| b.unsigned) (a.width + b.width))

/-- A constant is never unknown. -/
def any : Eval Constant := Eval.misuse .unconstrainedConstant

/-- The truth value: whether a bit is set. -/
def truth (c : Constant) : Bool := c.bits != 0

/-- The truth value, which is always definite. -/
def toTristate (c : Constant) : Tristate := .ofBool c.truth

/-- A word fits its own truth value only. -/
def assume (c : Constant) (expected : Bool) : Narrowed Constant :=
  if c.truth = expected then .fits c else .conflicts c "constant assume"

end Constant

end Narrowing
