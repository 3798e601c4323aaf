/-
# Slices of words

To take a slice of a word is to divide its number, and to put one word above another is to
multiply and add:

    the bits of `n` from `i` up to `j`        n / 2 ^ i % 2 ^ (j - i)
    `m` above a word `n` of `w` bits          m * 2 ^ w + n

So a word cut in two is put together again by division with remainder, and two words put together
are the quotient and the remainder of the sum, as long as there is room for both in sixty-four
bits.  A slice without a bit, one that reaches past the width, and a word of more than sixty-four
bits are refused.
-/
import Narrowing.Proofs.Constant

namespace Narrowing.Constant

variable {a b : Constant} {w wa wb k start stop : UInt8}

/-! ## Words by their numbers -/

theorem IsWord.toNat_lt (ha : a.IsWord w) (hw : w ≤ 64) : a.bits.toNat < 2 ^ w.toNat := by
  obtain ⟨-, rfl, hmasked⟩ := ha
  exact (Word.le_mask_iff hw).mp hmasked

theorem IsWord.ext (ha : a.IsWord w) (hb : b.IsWord w) (h : a.bits.toNat = b.bits.toNat) :
    a = b := by
  cases a
  cases b
  obtain ⟨rfl, rfl, -⟩ := ha
  obtain ⟨rfl, rfl, -⟩ := hb
  exact congrArg (Constant.mk · .integer _) (UInt64.toNat_inj.mp h)

theorem toNat_bits_ofBits (bits : UInt64) (hw : w ≤ 64) :
    (ofBits bits w).bits.toNat = bits.toNat % 2 ^ w.toNat := Word.toNat_and_mask hw

theorem isWord_ofBits (bits : UInt64) (hw : w ≤ 64) : (ofBits bits w).IsWord w := by
  refine ⟨rfl, rfl, (Word.le_mask_iff hw).mpr ?_⟩
  rw [toNat_bits_ofBits bits hw]
  exact Nat.mod_lt _ (Nat.pow_pos (by decide))

/-! ## Two widths that fit together -/

theorem toNat_add_width (hfit : wa.toNat + wb.toNat ≤ 64) :
    (wa + wb).toNat = wa.toNat + wb.toNat := by
  rw [UInt8.toNat_add]
  exact Nat.mod_eq_of_lt (hfit.trans_lt (by decide))

theorem widths_le (hfit : wa.toNat + wb.toNat ≤ 64) : wa ≤ 64 ∧ wb ≤ 64 ∧ wa + wb ≤ 64 := by
  simp only [UInt8.le_iff_toNat_le, toNat_add_width hfit]
  exact ⟨(Nat.le_add_right _ _).trans hfit, (Nat.le_add_left _ _).trans hfit, hfit⟩

/-! ## The two operations -/

theorem exists_extract (ha : a.IsWord w) (hw : w ≤ 64) (hlt : start < stop) (hle : stop ≤ w) :
    ∃ c, a.extract start stop = pure c ∧ c.IsWord (stop - start) ∧
      c.bits.toNat = a.bits.toNat / 2 ^ start.toNat % 2 ^ (stop.toNat - start.toNat) := by
  have hsize : (stop - start).toNat = stop.toNat - start.toNat :=
    UInt8.toNat_sub_of_le _ _ (UInt8.le_of_lt hlt)
  have hslice : stop - start ≤ 64 := by
    rw [UInt8.le_iff_toNat_le, hsize]
    exact (Nat.sub_le _ _).trans (UInt8.le_iff_toNat_le.mp (UInt8.le_trans hle hw))
  have hrange : ¬ (decide (stop ≤ start) || decide (a.width < stop)) = true := by
    rw [ha.width]
    simp [hlt, hle]
  refine ⟨_, if_neg hrange, isWord_ofBits _ hslice, ?_⟩
  rw [toNat_bits_ofBits _ hslice, Word.toNat_shr, UInt8.toNat_toUInt64, hsize]

theorem exists_concat (ha : a.IsWord wa) (hb : b.IsWord wb) (hfit : wa.toNat + wb.toNat ≤ 64) :
    ∃ c, a.concat b = pure c ∧ c.IsWord (wa + wb) ∧
      c.bits.toNat = 2 ^ wb.toNat * a.bits.toNat + b.bits.toNat := by
  have hsize := toNat_add_width hfit
  obtain ⟨hwa, hwb, hw⟩ := widths_le hfit
  have hb' := hb.toNat_lt hwb
  have hlt : 2 ^ wb.toNat * a.bits.toNat + b.bits.toNat < 2 ^ (wa.toNat + wb.toNat) := by
    rw [Nat.add_comm, Nat.add_comm wa.toNat, Nat.pow_add]
    exact Nat.add_mul_lt_mul_of_lt_of_lt hb' (ha.toNat_lt hwa)
  -- No bit of the upper word is lost, and none of them meets a bit of the lower one.
  have hshl : (Word.shl a.bits wb.toUInt64).toNat = 2 ^ wb.toNat * a.bits.toNat := by
    rw [Word.toNat_shl, UInt8.toNat_toUInt64, Nat.mul_comm]
    refine Nat.mod_eq_of_lt ((Nat.le_add_right _ _).trans_lt (hlt.trans_le ?_))
    exact Nat.pow_le_pow_right (by decide) hfit
  have hor : (Word.shl a.bits wb.toUInt64 ||| b.unsigned).toNat =
      2 ^ wb.toNat * a.bits.toNat + b.bits.toNat := by
    rw [UInt64.toNat_or, hshl, toNat_unsigned (hb.width.trans_le hwb), hb.width,
      Nat.mod_eq_of_lt hb']
    exact (Nat.two_pow_add_eq_or_of_lt hb' _).symm
  obtain ⟨-, rfl, -⟩ := ha
  obtain ⟨-, rfl, -⟩ := hb
  refine ⟨_, if_neg hfit.not_gt, isWord_ofBits _ hw, ?_⟩
  rw [toNat_bits_ofBits _ hw, hor, hsize]
  exact Nat.mod_eq_of_lt hlt

/-! ## Each undoes the other -/

theorem concat_extract (ha : a.IsWord w) (hw : w ≤ 64) (hk : 0 < k) (hkw : k < w) :
    (do concat (← a.extract k w) (← a.extract 0 k)) = pure a := by
  have hsize : (w - k).toNat = w.toNat - k.toNat :=
    UInt8.toNat_sub_of_le _ _ (UInt8.le_of_lt hkw)
  have hle : k.toNat ≤ w.toNat := UInt8.le_iff_toNat_le.mp (UInt8.le_of_lt hkw)
  obtain ⟨high, hhigh, hhighWord, hhighBits⟩ := exists_extract ha hw hkw UInt8.le_rfl
  obtain ⟨low, hlow, hlowWord, hlowBits⟩ := exists_extract ha hw hk (UInt8.le_of_lt hkw)
  rw [UInt8.sub_zero] at hlowWord
  have hfit : (w - k).toNat + k.toNat ≤ 64 := by
    rw [hsize, Nat.sub_add_cancel hle]
    exact Word.toNat_width hw
  obtain ⟨c, hc, hcWord, hcBits⟩ := exists_concat hhighWord hlowWord hfit
  rw [UInt8.sub_add_cancel] at hcWord
  rw [hhigh, hlow, pure_bind, pure_bind, hc, hcWord.ext ha ?_]
  -- The upper slice is the whole quotient: nothing of the word stands above it.
  have hquot : a.bits.toNat / 2 ^ k.toNat < 2 ^ (w.toNat - k.toNat) := by
    refine Nat.div_lt_of_lt_mul ?_
    rw [← Nat.pow_add, Nat.add_sub_cancel' hle]
    exact ha.toNat_lt hw
  calc c.bits.toNat = 2 ^ k.toNat * high.bits.toNat + low.bits.toNat := hcBits
    _ = 2 ^ k.toNat * (a.bits.toNat / 2 ^ k.toNat) + a.bits.toNat % 2 ^ k.toNat := by
      rw [hhighBits, hlowBits, Nat.mod_eq_of_lt hquot]
      simp
    _ = a.bits.toNat := Nat.div_add_mod _ _

theorem extract_concat (ha : a.IsWord wa) (hb : b.IsWord wb) (ha0 : 1 ≤ wa) (hb0 : 1 ≤ wb)
    (hfit : wa.toNat + wb.toNat ≤ 64) :
    (do (← concat a b).extract wb (wa + wb)) = pure a ∧
      (do (← concat a b).extract 0 wb) = pure b := by
  have hsize := toNat_add_width hfit
  obtain ⟨hwa, hwb, hw⟩ := widths_le hfit
  have hmeet : wb < wa + wb := by
    rw [UInt8.lt_iff_toNat_lt, hsize]
    exact Nat.lt_add_of_pos_left (UInt8.le_iff_toNat_le.mp ha0)
  have hpos : 0 < wb := UInt8.lt_iff_toNat_lt.mpr (UInt8.le_iff_toNat_le.mp hb0)
  obtain ⟨c, hc, hcWord, hcBits⟩ := exists_concat ha hb hfit
  rw [hc, pure_bind, pure_bind]
  constructor
  · obtain ⟨high, hhigh, hhighWord, hhighBits⟩ := exists_extract hcWord hw hmeet UInt8.le_rfl
    rw [UInt8.add_sub_cancel] at hhighWord
    rw [hhigh, hhighWord.ext ha ?_]
    rw [hhighBits, hcBits, hsize, Nat.add_sub_cancel, Nat.mul_add_div (Nat.two_pow_pos _),
      Nat.div_eq_of_lt (hb.toNat_lt hwb), Nat.add_zero]
    exact Nat.mod_eq_of_lt (ha.toNat_lt hwa)
  · obtain ⟨low, hlow, hlowWord, hlowBits⟩ :=
      exists_extract hcWord hw hpos (UInt8.le_of_lt hmeet)
    rw [UInt8.sub_zero] at hlowWord
    rw [hlow, hlowWord.ext hb ?_]
    rw [hlowBits, hcBits, UInt8.toNat_zero, Nat.pow_zero, Nat.div_one, Nat.sub_zero,
      Nat.mul_add_mod]
    exact Nat.mod_eq_of_lt (hb.toNat_lt hwb)

/-! ## What is refused -/

/-- An error is never an answer. -/
theorem ite_misuse_iff {α : Type} {p : Prop} [Decidable p] {m : Misuse} {x : α} :
    (if p then Eval.misuse m else pure x) = (Eval.misuse m : Eval α) ↔ p := by
  constructor
  · intro h
    by_contra hp
    rw [if_neg hp] at h
    cases h
  · exact fun hp => if_pos hp

theorem extract_eq_misuse_iff :
    a.extract start stop = Eval.misuse (.badSlice start stop a.width) ↔
      stop ≤ start ∨ a.width < stop := by
  refine ite_misuse_iff.trans ?_
  simp

theorem concat_eq_misuse_iff :
    a.concat b = Eval.misuse .concatTooWide ↔ 64 < a.width.toNat + b.width.toNat :=
  ite_misuse_iff

/-! ## Cutting and joining -/

/-- **Slices are put together as they were cut.**  Cutting a word in two and putting two words
together undo each other, for words of every width as far as there is room, and everything else is
refused. -/
theorem slices_inverse :
    (∀ (w : UInt8) (a : Constant) (k : UInt8), w ≤ 64 → a.IsWord w → 0 < k → k < w →
      (do concat (← a.extract k w) (← a.extract 0 k)) = pure a) ∧
    (∀ (wa wb : UInt8) (a b : Constant), 1 ≤ wa → 1 ≤ wb → wa.toNat + wb.toNat ≤ 64 →
      a.IsWord wa → b.IsWord wb →
      (do (← concat a b).extract wb (wa + wb)) = pure a ∧
        (do (← concat a b).extract 0 wb) = pure b) ∧
    (∀ (a : Constant) (start stop : UInt8),
      a.extract start stop = Eval.misuse (.badSlice start stop a.width) ↔
        stop ≤ start ∨ a.width < stop) ∧
    (∀ a b : Constant,
      concat a b = Eval.misuse .concatTooWide ↔ 64 < a.width.toNat + b.width.toNat) := by
  refine ⟨?_, ?_, fun _ _ _ => extract_eq_misuse_iff, fun _ _ => concat_eq_misuse_iff⟩
  · intro w a k hw ha hk hkw
    exact concat_extract ha hw hk hkw
  · intro wa wb a b ha0 hb0 hfit ha hb
    exact extract_concat ha hb ha0 hb0 hfit

/-- A full word cut below its sign bit, and a bit put above the sixty-three others. -/
theorem slices_inverse_full :
    let a : Constant := ⟨0x8000000000000001, .integer, 64⟩
    let bit : Constant := ⟨1, .integer, 1⟩
    let rest : Constant := ⟨1, .integer, 63⟩
    (do concat (← a.extract 63 64) (← a.extract 0 63)) = pure a ∧
      (do (← concat bit rest).extract 63 (1 + 63)) = pure bit ∧
      (do (← concat bit rest).extract 0 63) = pure rest ∧
      a.extract 63 63 = Eval.misuse (.badSlice 63 63 64) ∧
      concat a bit = Eval.misuse .concatTooWide := by
  intro a bit rest
  obtain ⟨hcut, hjoin, hslice, hwide⟩ := slices_inverse
  have ha : a.IsWord 64 := ⟨rfl, rfl, by decide⟩
  have hbit : bit.IsWord 1 := ⟨rfl, rfl, by decide⟩
  have hrest : rest.IsWord 63 := ⟨rfl, rfl, by decide⟩
  obtain ⟨hhigh, hlow⟩ := hjoin 1 63 bit rest (by decide) (by decide) (by decide) hbit hrest
  refine ⟨hcut 64 a 63 (by decide) ha (by decide) (by decide), hhigh, hlow, ?_, ?_⟩
  · exact (hslice a 63 63).mpr (.inl UInt8.le_rfl)
  · exact (hwide a bit).mpr (by decide)

end Narrowing.Constant
