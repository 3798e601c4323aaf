/-
Machine words of up to sixty-four bits.

A shift by sixty-four or more leaves nothing (or only the sign), whatever
the amount.
-/
namespace Narrowing.Word

/-- The word of `width` ones; sixty-four at most. -/
def mask (width : UInt8) : UInt64 :=
  if 64 ≤ width then 0xFFFFFFFFFFFFFFFF else (1 <<< width.toUInt64) - 1

/-- The left shift; nothing is left from an amount of sixty-four on. -/
def shl (x : UInt64) (amount : UInt64) : UInt64 :=
  if 64 ≤ amount then 0 else x <<< amount

/-- The right shift; nothing is left from an amount of sixty-four on. -/
def shr (x : UInt64) (amount : UInt64) : UInt64 :=
  if 64 ≤ amount then 0 else x >>> amount

/-- The right shift that keeps the sign; only the sign is left from an amount of sixty-four on. -/
def sar (x : Int64) (amount : UInt64) : Int64 :=
  if 64 ≤ amount then (if x < 0 then -1 else 0) else x >>> amount.toInt64

/-- The signed reading of the low `width` bits; width 0 and widths from sixty-four on
read the whole word. -/
def signExtend (x : UInt64) (width : UInt8) : Int64 :=
  if width = 0 || 64 ≤ width then x.toInt64
  else
    let rest := 64 - width.toUInt64
    (x <<< rest).toInt64 >>> rest.toInt64

/-- The number of bits needed to write a word. -/
def bitLength (x : UInt64) : Nat :=
  if x = 0 then 0 else x.toNat.log2 + 1

/-- The smallest word of ones that covers `x`. -/
def fill (x : UInt64) : UInt64 :=
  if x = 0 then 0 else shl 1 (UInt64.ofNat (bitLength x)) - 1

end Narrowing.Word
