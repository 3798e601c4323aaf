/-
# Words as numbers

Each operation on machine words, read through the natural number of a word or
the integer of a signed one.  A word of `width` bits is a remainder modulo
`2 ^ width`:

    x &&& mask width      the remainder itself
    signExtend x width    the balanced remainder, from `-2 ^ (width - 1)` on

The shifts are products and quotients by powers of two whatever the amount; that
nothing is left from sixty-four on is the same rule.
-/
import Narrowing.Proofs.Bound
import Narrowing.Constant
import Mathlib.Tactic.Ring

namespace Narrowing.Word

variable {x y : UInt64} {w : UInt8}

theorem toNat_width (hw : w ≤ 64) : w.toNat ≤ 64 := UInt8.le_iff_toNat_le.mp hw

theorem toNat_lt_of_not_le (h : ¬ (64 : UInt64) ≤ x) : x.toNat < 64 := by
  rw [UInt64.le_iff_toNat_le] at h
  exact Nat.lt_of_not_le h

/-! ## Low bits -/

theorem toNat_mask (hw : w ≤ 64) : (mask w).toNat = 2 ^ w.toNat - 1 := by
  have hn := toNat_width hw
  by_cases h64 : 64 ≤ w
  · have hw64 : w.toNat = 64 := le_antisymm hn (UInt8.le_iff_toNat_le.mp h64)
    simp only [mask, if_pos h64, hw64]
    rfl
  · have hlt : w.toNat < 64 := by
      rw [UInt8.le_iff_toNat_le] at h64
      exact Nat.lt_of_not_le h64
    have hpow : 2 ^ w.toNat < 2 ^ 64 := Nat.pow_lt_pow_right (by decide) hlt
    have hone : (1 <<< w.toUInt64 : UInt64).toNat = 2 ^ w.toNat := by
      rw [UInt64.toNat_shiftLeft, UInt8.toNat_toUInt64, Nat.mod_eq_of_lt hlt, Nat.shiftLeft_eq,
        UInt64.toNat_one, one_mul, Nat.mod_eq_of_lt hpow]
    have hpos : 0 < 2 ^ w.toNat := Nat.pow_pos (by decide)
    have hle : (1 : UInt64) ≤ 1 <<< w.toUInt64 := by
      rw [UInt64.le_iff_toNat_le, hone]
      exact hpos
    simp only [mask, if_neg h64, UInt64.toNat_sub_of_le _ _ hle, hone]
    rfl

theorem le_mask_iff (hw : w ≤ 64) : x ≤ mask w ↔ x.toNat < 2 ^ w.toNat := by
  have hpos : 0 < 2 ^ w.toNat := Nat.pow_pos (by decide)
  rw [UInt64.le_iff_toNat_le, toNat_mask hw]
  omega

theorem toNat_and_mask (hw : w ≤ 64) : (x &&& mask w).toNat = x.toNat % 2 ^ w.toNat := by
  rw [UInt64.toNat_and, toNat_mask hw, Nat.and_two_pow_sub_one_eq_mod]

/-! ## Shifts -/

theorem toNat_shl (x k : UInt64) : (shl x k).toNat = x.toNat * 2 ^ k.toNat % 2 ^ 64 := by
  unfold shl
  split
  · rename_i h
    have hdvd : 2 ^ 64 ∣ x.toNat * 2 ^ k.toNat :=
      Dvd.dvd.mul_left (Nat.pow_dvd_pow 2 (UInt64.le_iff_toNat_le.mp h)) _
    rw [Nat.mod_eq_zero_of_dvd hdvd]
    rfl
  · rename_i h
    rw [UInt64.toNat_shiftLeft, Nat.mod_eq_of_lt (toNat_lt_of_not_le h), Nat.shiftLeft_eq]

theorem toNat_shr (x k : UInt64) : (shr x k).toNat = x.toNat / 2 ^ k.toNat := by
  unfold shr
  split
  · rename_i h
    have hx : x.toNat < 2 ^ k.toNat :=
      x.toNat_lt.trans_le (Nat.pow_le_pow_right (by decide) (UInt64.le_iff_toNat_le.mp h))
    rw [Nat.div_eq_of_lt hx]
    rfl
  · rename_i h
    rw [UInt64.toNat_shiftRight, Nat.mod_eq_of_lt (toNat_lt_of_not_le h),
      Nat.shiftRight_eq_div_pow]

theorem toInt_toInt64 (x : UInt64) : x.toInt64.toInt = (x.toNat : Int).bmod (2 ^ 64) :=
  BitVec.toInt_eq_toNat_bmod x.toBitVec

theorem toInt64_of_lt (h : x.toNat < 2 ^ 63) : x.toInt64.toInt = x.toNat := by
  rw [toInt_toInt64, Bound.bmod_of_word (by omega) (by omega)]

theorem toNat_toUInt64 {z : Int64} {k : Nat} (h : z.toInt = k) : z.toUInt64.toNat = k := by
  have hcases : z.toInt = _ := BitVec.toInt_eq_toNat_cond z.toBitVec
  have hlt : z.toBitVec.toNat < 2 ^ 64 := z.toBitVec.isLt
  change z.toBitVec.toNat = _
  split at hcases <;> omega

theorem toInt_sar (x : Int64) (k : UInt64) : (sar x k).toInt = x.toInt / 2 ^ k.toNat := by
  unfold sar
  split
  · rename_i h
    have hl := x.le_toInt
    have hu := x.toInt_lt
    have hfar : (2 : Int) ^ 64 ≤ 2 ^ k.toNat :=
      pow_le_pow_right₀ (by decide) (UInt64.le_iff_toNat_le.mp h)
    split
    · rename_i hneg
      rw [Int64.lt_iff_toInt_lt, Int64.toInt_zero] at hneg
      rw [Int.ediv_eq_neg_one_of_neg_of_le hneg (by omega)]
      rfl
    · rename_i hneg
      rw [Int64.lt_iff_toInt_lt, Int64.toInt_zero] at hneg
      exact (Int.ediv_eq_zero_of_lt (by omega) (by omega)).symm
  · rename_i h
    have hk := toNat_lt_of_not_le h
    have hint : k.toInt64.toInt = k.toNat := toInt64_of_lt (by omega)
    rw [Bound.toInt_shiftRight (by omega) (by omega), hint, Int.toNat_natCast]

/-! ## The signed reading -/

theorem bmod_mul_two_pow (n : Int) (w s : Nat) (hw : 1 ≤ w) :
    (n * 2 ^ s).bmod (2 ^ (w + s)) = n.bmod (2 ^ w) * 2 ^ s := by
  obtain ⟨v, rfl⟩ : ∃ v, w = v + 1 := ⟨w - 1, by omega⟩
  have hs : (0 : Int) < 2 ^ s := by positivity
  have hhalf (k : Nat) : (((2 ^ (k + 1) : Nat) : Int) + 1) / 2 = 2 ^ k := by
    push_cast
    rw [pow_succ]
    omega
  have hmod : n * 2 ^ s % ((2 ^ (v + 1 + s) : Nat) : Int) = n % 2 ^ (v + 1) * 2 ^ s := by
    push_cast
    rw [pow_add _ (v + 1), mul_comm n, mul_comm _ ((2 : Int) ^ s), Int.mul_emod_mul_of_pos _ _ hs,
      mul_comm]
  have hlt : n % 2 ^ (v + 1) * 2 ^ s < 2 ^ (v + s) ↔ n % 2 ^ (v + 1) < 2 ^ v := by
    rw [pow_add _ v s]
    exact mul_lt_mul_iff_left₀ hs
  rw [Int.bmod_def, Int.bmod_def, hmod, hhalf, show v + 1 + s = v + s + 1 by omega, hhalf]
  push_cast
  simp only [hlt]
  split
  · rfl
  · ring

theorem toInt_signExtend (hw0 : 1 ≤ w) (hw : w ≤ 64) :
    (signExtend x w).toInt = (x.toNat : Int).bmod (2 ^ w.toNat) := by
  have hn0 : 1 ≤ w.toNat := UInt8.le_iff_toNat_le.mp hw0
  have hn := toNat_width hw
  have hne : w ≠ 0 := by
    rintro rfl
    exact absurd hn0 (by decide)
  by_cases h64 : 64 ≤ w
  · have hw64 : w.toNat = 64 := le_antisymm hn (UInt8.le_iff_toNat_le.mp h64)
    simp only [signExtend, h64, decide_true, Bool.or_true, if_true, hw64]
    exact toInt_toInt64 x
  · have hlt : w.toNat < 64 := by
      rw [UInt8.le_iff_toNat_le] at h64
      exact Nat.lt_of_not_le h64
    simp only [signExtend, h64, hne, decide_false, Bool.or_false, Bool.false_eq_true, if_false]
    generalize hrest : 64 - w.toUInt64 = rest
    have hr : rest.toNat = 64 - w.toNat := by
      rw [← hrest, UInt64.toNat_sub_of_le _ _ (UInt64.le_iff_toNat_le.mpr (by simpa using hn))]
      simp
    have hr64 : rest.toInt64.toInt = rest.toNat := toInt64_of_lt (by omega)
    have hshift : (x <<< rest).toInt64.toInt = ((x.toNat : Int) * 2 ^ rest.toNat).bmod (2 ^ 64) := by
      have hlt64 : rest.toNat < 64 := by omega
      rw [toInt_toInt64, UInt64.toNat_shiftLeft, Nat.mod_eq_of_lt hlt64, Nat.shiftLeft_eq,
        Int.natCast_emod, Int.emod_bmod]
      push_cast
      rfl
    have hsplit : 64 = w.toNat + rest.toNat := by omega
    rw [Bound.toInt_shiftRight (by omega) (by omega), hshift, hr64, Int.toNat_natCast]
    conv_lhs => rw [hsplit]
    rw [bmod_mul_two_pow _ _ _ hn0, Int.mul_ediv_cancel _ (by positivity)]

/-! ## The ones that cover a word -/

theorem bitLength_le_iff {k : Nat} : bitLength x ≤ k ↔ x.toNat < 2 ^ k := by
  unfold bitLength
  split
  · rename_i h
    simp [h]
  · rename_i h
    have hne : x.toNat ≠ 0 := fun h0 => h (UInt64.toNat_inj.mp h0)
    exact Nat.log2_lt hne

theorem bitLength_mono (h : x.toNat ≤ y.toNat) : bitLength x ≤ bitLength y :=
  bitLength_le_iff.mpr (h.trans_lt (bitLength_le_iff.mp le_rfl))

theorem toNat_mul_two_pow_lt {k n : Nat} (h : bitLength x + k ≤ n) :
    x.toNat * 2 ^ k < 2 ^ n := calc
  x.toNat * 2 ^ k < 2 ^ bitLength x * 2 ^ k :=
    Nat.mul_lt_mul_of_pos_right (bitLength_le_iff.mp le_rfl) (Nat.pow_pos (by decide))
  _ = 2 ^ (bitLength x + k) := (Nat.pow_add _ _ _).symm
  _ ≤ 2 ^ n := Nat.pow_le_pow_right (by decide) h

theorem toNat_fill (x : UInt64) : (fill x).toNat = 2 ^ bitLength x - 1 := by
  unfold fill
  split
  · rename_i h
    rw [h]
    rfl
  · have hlen : bitLength x ≤ 64 := bitLength_le_iff.mpr x.toNat_lt
    have hofNat : (UInt64.ofNat (bitLength x)).toNat = bitLength x := by
      rw [UInt64.toNat_ofNat']
      exact Nat.mod_eq_of_lt (by omega)
    have hpow : 2 ^ bitLength x ≤ 2 ^ 64 := Nat.pow_le_pow_right (by decide) hlen
    have hpos : 0 < 2 ^ bitLength x := Nat.pow_pos (by decide)
    rw [UInt64.toNat_sub, toNat_shl, hofNat]
    show (2 ^ 64 - 1 + 1 * 2 ^ bitLength x % 2 ^ 64) % 2 ^ 64 = _
    rcases hlen.eq_or_lt with h | h
    · rw [h]
      rfl
    · have : 2 ^ bitLength x < 2 ^ 64 := Nat.pow_lt_pow_right (by decide) h
      omega

theorem toNat_fill_mono (h : bitLength x ≤ bitLength y) : (fill x).toNat ≤ (fill y).toNat := by
  rw [toNat_fill, toNat_fill]
  exact Nat.sub_le_sub_right (Nat.pow_le_pow_right (by decide) h) 1

/-- Every word with no more bits than `x` is covered, and nothing longer. -/
theorem toNat_fill_lt {k : Nat} (h : x.toNat < 2 ^ k) : (fill x).toNat < 2 ^ k := by
  have hpow : 2 ^ bitLength x ≤ 2 ^ k :=
    Nat.pow_le_pow_right (by decide) (bitLength_le_iff.mpr h)
  have hpos : 0 < 2 ^ bitLength x := Nat.pow_pos (by decide)
  rw [toNat_fill]
  omega

theorem le_fill_of_lt (h : y.toNat < 2 ^ bitLength x) : y.toNat ≤ (fill x).toNat := by
  rw [toNat_fill]
  omega

end Narrowing.Word

/-! ## The two readings of a constant -/

namespace Narrowing.Constant

variable {c : Constant} {w : UInt8}

theorem toNat_unsigned (hw : c.width ≤ 64) : c.unsigned.toNat = c.bits.toNat % 2 ^ c.width.toNat :=
  Word.toNat_and_mask hw

theorem toNat_unsigned_ofBits (bits : UInt64) (hw : w ≤ 64) :
    (ofBits bits w).unsigned.toNat = bits.toNat % 2 ^ w.toNat := by
  show ((bits &&& Word.mask w) &&& Word.mask w).toNat = _
  rw [Word.toNat_and_mask hw, Word.toNat_and_mask hw, Nat.mod_mod]

theorem toInt_signed (hw0 : 1 ≤ c.width) (hw : c.width ≤ 64) :
    c.signed.toInt = (c.unsigned.toNat : Int).bmod (2 ^ c.width.toNat) := by
  rw [toNat_unsigned hw, Int.natCast_emod, Int.emod_bmod]
  exact Word.toInt_signExtend hw0 hw

theorem signed_ofBits (bits : UInt64) (hw0 : 1 ≤ w) (hw : w ≤ 64) :
    (ofBits bits w).signed.toInt = (bits.toNat : Int).bmod (2 ^ w.toNat) := by
  rw [toInt_signed hw0 hw]
  show ((ofBits bits w).unsigned.toNat : Int).bmod (2 ^ w.toNat) = _
  rw [toNat_unsigned_ofBits bits hw, Int.natCast_emod, Int.emod_bmod]

theorem toInt_signed_of_lt (hw0 : 1 ≤ c.width) (hw : c.width ≤ 64)
    (h : c.unsigned.toNat < 2 ^ (c.width.toNat - 1)) : c.signed.toInt = c.unsigned.toNat := by
  have hn0 : 1 ≤ c.width.toNat := UInt8.le_iff_toNat_le.mp hw0
  obtain ⟨v, hv⟩ : ∃ v, c.width.toNat = v + 1 := ⟨c.width.toNat - 1, by omega⟩
  rw [hv, Nat.add_sub_cancel] at h
  have hint : (c.unsigned.toNat : Int) < 2 ^ v := by exact_mod_cast h
  rw [toInt_signed hw0 hw, hv, Int.bmod_eq_of_le] <;> push_cast <;> rw [pow_succ] <;> omega

end Narrowing.Constant
