/-
# Word ranges hold what the exact words give

An operator on two ranges is judged by the same operator on exact words.  Take
any word out of each range: if the operator gives a word for the two, its range
is there, and holds that word.

A range is full, or no operation on its ends left the width.  This is the only
distinction (`Fits`), and every operator has its own test for it: the sum and
the product against the mask, the length in bits for a shift to the left, the
sign bit for whatever reads words with a sign.  Below the sign bit the signed
rules are the unsigned ones, since the two readings of a word agree there.

A divisor of zero is a defect for the exact words, and they then give nothing
to be held.
-/
import Narrowing.Proofs.Dialogue
import Narrowing.Proofs.Meaning
import Narrowing.Proofs.Word
import Narrowing.WordRange

namespace Narrowing.WordRange

/-! ## Words in a range -/

/-- A word lies between the ends, and these lie in the width of the range; both are the width
of the word. -/
structure Holds (v : WordRange) (c : Constant) : Prop where
  width : v.width = c.width
  lo_le : v.lo ≤ c.unsigned
  le_hi : c.unsigned ≤ v.hi
  le_mask : v.hi ≤ Word.mask v.width

/-- A number lies between the ends, and these lie in the width of the range. -/
structure Spans (v : WordRange) (n : Nat) : Prop where
  lo_le : v.lo.toNat ≤ n
  le_hi : n ≤ v.hi.toNat
  hi_lt : v.hi.toNat < 2 ^ v.width.toNat

/-- The range is full, or it holds the number as it is, whatever the bits above the width. -/
def Fits (w : UInt8) (v : WordRange) (n : Nat) : Prop :=
  v = top w ∨ v.width = w ∧ v.Spans n

variable {a b v : WordRange} {m n : UInt64} {x y c : Constant} {w : UInt8}

theorem holds_iff (hw : v.width ≤ 64) :
    v.Holds c ↔ v.width = c.width ∧ v.Spans c.unsigned.toNat := by
  constructor
  · rintro ⟨hwidth, hlo, hhi, hmask⟩
    exact ⟨hwidth, UInt64.le_iff_toNat_le.mp hlo, UInt64.le_iff_toNat_le.mp hhi,
      (Word.le_mask_iff hw).mp hmask⟩
  · rintro ⟨hwidth, hlo, hhi, hlt⟩
    exact ⟨hwidth, UInt64.le_iff_toNat_le.mpr hlo, UInt64.le_iff_toNat_le.mpr hhi,
      (Word.le_mask_iff hw).mpr hlt⟩

theorem spans_top {k : Nat} (hw : w ≤ 64) (hk : k < 2 ^ w.toNat) : (top w).Spans k := by
  have hhi : (top w).hi.toNat = 2 ^ w.toNat - 1 := Word.toNat_mask hw
  refine ⟨Nat.zero_le _, ?_, ?_⟩
  · rw [hhi]
    omega
  · rw [hhi]
    exact Nat.sub_one_lt_of_lt hk

theorem Fits.holds (hw : w ≤ 64) (h : Fits w v m.toNat) (hc : c.width = w)
    (hbits : c.unsigned.toNat = m.toNat % 2 ^ w.toNat) : v.Holds c := by
  have hmod : m.toNat % 2 ^ w.toNat < 2 ^ w.toNat := Nat.mod_lt _ (Nat.pow_pos (by decide))
  rcases h with rfl | ⟨hv, hspans⟩
  · rw [holds_iff hw, hbits]
    exact ⟨hc.symm, spans_top hw hmod⟩
  · have hlt : m.toNat < 2 ^ w.toNat := by
      rw [← hv]
      exact hspans.le_hi.trans_lt hspans.hi_lt
    rw [holds_iff (hv ▸ hw), hbits, Nat.mod_eq_of_lt hlt]
    exact ⟨hv.trans hc.symm, hspans⟩

theorem Fits.ofBits (hw : w ≤ 64) (h : Fits w v m.toNat) : v.Holds (.ofBits m w) :=
  h.holds hw rfl (Constant.toNat_unsigned_ofBits m hw)

theorem toNat_lesser (m n : UInt64) : (lesser m n).toNat = min m.toNat n.toNat := by
  simp only [lesser, UInt64.lt_iff_toNat_lt]
  split <;> omega

theorem toNat_greater (m n : UInt64) : (greater m n).toNat = max m.toNat n.toNat := by
  simp only [greater, UInt64.lt_iff_toNat_lt]
  split <;> omega

/-! ## Arithmetic -/

theorem two_pow_width (hw : w ≤ 64) : 2 ^ w.toNat ≤ 2 ^ 64 :=
  Nat.pow_le_pow_right (by decide) (Word.toNat_width hw)

section Arithmetic

variable (hw : a.width ≤ 64) (hab : a.width = b.width) (hm : a.Spans m.toNat)
  (hn : b.Spans n.toNat)

include hm hn

include hw in
theorem fits_add : Fits a.width (if (Word.mask a.width).toNat < a.hi.toNat + b.hi.toNat
    then top a.width else ⟨a.lo + b.lo, a.hi + b.hi, a.width⟩) (m + n).toNat := by
  have hpow := two_pow_width hw
  have hpos : 0 < 2 ^ a.width.toNat := Nat.pow_pos (by decide)
  rw [Word.toNat_mask hw]
  split
  · exact Or.inl rfl
  · rename_i hfit
    obtain ⟨hmlo, hmhi, -⟩ := hm
    obtain ⟨hnlo, hnhi, -⟩ := hn
    refine Or.inr ⟨rfl, ?_, ?_, ?_⟩ <;>
      simp only [UInt64.toNat_add] <;> repeat rw [Nat.mod_eq_of_lt (by omega)]
    all_goals omega

theorem fits_sub : Fits a.width (if a.lo < b.hi then top a.width
    else ⟨a.lo - b.hi, a.hi - b.lo, a.width⟩) (m - n).toNat := by
  split
  · exact Or.inl rfl
  · rename_i hfit
    rw [UInt64.lt_iff_toNat_lt] at hfit
    obtain ⟨hmlo, hmhi, hmlt⟩ := hm
    obtain ⟨hnlo, hnhi, -⟩ := hn
    have hlo : (a.lo - b.hi).toNat = a.lo.toNat - b.hi.toNat :=
      UInt64.toNat_sub_of_le _ _ (UInt64.le_iff_toNat_le.mpr (by omega))
    have hhi : (a.hi - b.lo).toNat = a.hi.toNat - b.lo.toNat :=
      UInt64.toNat_sub_of_le _ _ (UInt64.le_iff_toNat_le.mpr (by omega))
    have hmid : (m - n).toNat = m.toNat - n.toNat :=
      UInt64.toNat_sub_of_le _ _ (UInt64.le_iff_toNat_le.mpr (by omega))
    refine Or.inr ⟨rfl, ?_, ?_, ?_⟩
    · rw [hlo, hmid]
      omega
    · rw [hhi, hmid]
      omega
    · rw [hhi]
      exact (Nat.sub_le _ _).trans_lt hmlt

include hw in
theorem fits_mul : Fits a.width (if (Word.mask a.width).toNat < a.hi.toNat * b.hi.toNat
    then top a.width else ⟨a.lo * b.lo, a.hi * b.hi, a.width⟩) (m * n).toNat := by
  have hpow := two_pow_width hw
  have hpos : 0 < 2 ^ a.width.toNat := Nat.pow_pos (by decide)
  rw [Word.toNat_mask hw]
  split
  · exact Or.inl rfl
  · rename_i hfit
    have hlow : a.lo.toNat * b.lo.toNat ≤ m.toNat * n.toNat := Nat.mul_le_mul hm.lo_le hn.lo_le
    have hhigh : m.toNat * n.toNat ≤ a.hi.toNat * b.hi.toNat := Nat.mul_le_mul hm.le_hi hn.le_hi
    refine Or.inr ⟨rfl, ?_, ?_, ?_⟩ <;>
      simp only [UInt64.toNat_mul] <;> repeat rw [Nat.mod_eq_of_lt (by omega)]
    all_goals omega

theorem fits_div (h0 : n.toNat ≠ 0) :
    Fits a.width ⟨a.lo / b.hi, a.hi / greater b.lo 1, a.width⟩ (m / n).toNat := by
  obtain ⟨hmlo, hmhi, hmlt⟩ := hm
  obtain ⟨hnlo, hnhi, -⟩ := hn
  have hone : max b.lo.toNat (1 : UInt64).toNat ≤ n.toNat := max_le hnlo (Nat.pos_of_ne_zero h0)
  have hpos : max b.lo.toNat (1 : UInt64).toNat ≠ 0 := by
    rw [UInt64.toNat_one]
    omega
  refine Or.inr ⟨rfl, ?_, ?_, ?_⟩
  · rw [UInt64.toNat_div, UInt64.toNat_div]
    exact Nat.div_le_div hmlo hnhi h0
  · rw [UInt64.toNat_div, UInt64.toNat_div, toNat_greater]
    exact Nat.div_le_div hmhi hone hpos
  · rw [UInt64.toNat_div]
    exact (Nat.div_le_self _ _).trans_lt hmlt

theorem fits_rem (h0 : n.toNat ≠ 0) :
    Fits a.width ⟨0, lesser a.hi (b.hi - 1), a.width⟩ (m % n).toNat := by
  obtain ⟨hmlo, hmhi, hmlt⟩ := hm
  obtain ⟨hnlo, hnhi, -⟩ := hn
  have hpred : (b.hi - 1).toNat = b.hi.toNat - 1 :=
    UInt64.toNat_sub_of_le _ _ (UInt64.le_iff_toNat_le.mpr (by rw [UInt64.toNat_one]; omega))
  have hlt : m.toNat % n.toNat < n.toNat := Nat.mod_lt _ (Nat.pos_of_ne_zero h0)
  have hle : m.toNat % n.toNat ≤ m.toNat := Nat.mod_le _ _
  refine Or.inr ⟨rfl, Nat.zero_le _, ?_, ?_⟩
  · rw [UInt64.toNat_mod, toNat_lesser, hpred]
    omega
  · rw [toNat_lesser]
    exact (min_le_left _ _).trans_lt hmlt

theorem fits_and : Fits a.width ⟨0, lesser a.hi b.hi, a.width⟩ (m &&& n).toNat := by
  have hl : m.toNat &&& n.toNat ≤ m.toNat := Nat.and_le_left
  have hr : m.toNat &&& n.toNat ≤ n.toNat := Nat.and_le_right
  refine Or.inr ⟨rfl, Nat.zero_le _, ?_, ?_⟩
  · rw [UInt64.toNat_and, toNat_lesser]
    exact le_min (hl.trans hm.le_hi) (hr.trans hn.le_hi)
  · rw [toNat_lesser]
    exact (min_le_left _ _).trans_lt hm.hi_lt

/-- Neither word has more bits than the two high ends together. -/
theorem lt_bitLength : m.toNat < 2 ^ Word.bitLength (a.hi ||| b.hi) ∧
    n.toNat < 2 ^ Word.bitLength (a.hi ||| b.hi) := by
  have hlen := Word.bitLength_le_iff.mp (le_refl (Word.bitLength (a.hi ||| b.hi)))
  rw [UInt64.toNat_or] at hlen
  exact ⟨(hm.le_hi.trans Nat.left_le_or).trans_lt hlen,
    (hn.le_hi.trans Nat.right_le_or).trans_lt hlen⟩

include hab

theorem fill_lt : (Word.fill (a.hi ||| b.hi)).toNat < 2 ^ a.width.toNat := by
  refine Word.toNat_fill_lt ?_
  rw [UInt64.toNat_or]
  exact Nat.or_lt_two_pow hm.hi_lt (hab ▸ hn.hi_lt)

theorem fits_or :
    Fits a.width ⟨greater a.lo b.lo, Word.fill (a.hi ||| b.hi), a.width⟩ (m ||| n).toNat := by
  obtain ⟨hml, hnl⟩ := lt_bitLength hm hn
  refine Or.inr ⟨rfl, ?_, Word.le_fill_of_lt ?_, fill_lt hab hm hn⟩
  · rw [UInt64.toNat_or, toNat_greater]
    exact max_le (hm.lo_le.trans Nat.left_le_or) (hn.lo_le.trans Nat.right_le_or)
  · rw [UInt64.toNat_or]
    exact Nat.or_lt_two_pow hml hnl

theorem fits_xor : Fits a.width ⟨0, Word.fill (a.hi ||| b.hi), a.width⟩ (m ^^^ n).toNat := by
  obtain ⟨hml, hnl⟩ := lt_bitLength hm hn
  refine Or.inr ⟨rfl, Nat.zero_le _, Word.le_fill_of_lt ?_, fill_lt hab hm hn⟩
  rw [UInt64.toNat_xor]
  exact Nat.xor_lt_two_pow hml hnl

end Arithmetic

/-! ## Shifts -/

section Shifts

variable (hm : a.Spans m.toNat) (hn : b.Spans n.toNat)

include hm hn

theorem fits_shiftLeft (hw : a.width ≤ 64) :
    Fits a.width (shiftLeft a b) (if a.width.toUInt64 ≤ n then 0 else Word.shl m n).toNat := by
  simp only [shiftLeft, isPoint, Bool.or_eq_true, Bool.not_eq_true', beq_eq_false_iff_ne,
    decide_eq_true_eq, UInt64.le_iff_toNat_le, UInt8.toNat_toUInt64]
  split
  · exact Or.inl rfl
  · rename_i hfit
    obtain ⟨⟨hpoint, hamount⟩, hlen⟩ : (b.lo = b.hi ∧ ¬ a.width.toNat ≤ b.lo.toNat) ∧
        ¬ a.width.toNat < Word.bitLength a.hi + b.lo.toNat := by
      simpa only [not_or, not_not] using hfit
    have hnb : n.toNat = b.lo.toNat :=
      le_antisymm (by rw [hpoint]; exact hn.le_hi) hn.lo_le
    rw [if_neg (by omega)]
    -- no bit of the high end is lost, so none of a smaller word is
    have hhi : a.hi.toNat * 2 ^ b.lo.toNat < 2 ^ a.width.toNat :=
      Word.toNat_mul_two_pow_lt (not_lt.mp hlen)
    have hpow := two_pow_width hw
    have hlow : a.lo.toNat * 2 ^ b.lo.toNat ≤ m.toNat * 2 ^ b.lo.toNat :=
      Nat.mul_le_mul_right _ hm.lo_le
    have hhigh : m.toNat * 2 ^ b.lo.toNat ≤ a.hi.toNat * 2 ^ b.lo.toNat :=
      Nat.mul_le_mul_right _ hm.le_hi
    refine Or.inr ⟨rfl, ?_, ?_, ?_⟩ <;> simp only [Word.toNat_shl, hnb] <;>
      repeat rw [Nat.mod_eq_of_lt (by omega)]
    all_goals omega

/-- A shift by the width or more leaves nothing of the word, as it leaves nothing of the low
end. -/
theorem spans_shiftRight : (shiftRight a b).width = a.width ∧
    (shiftRight a b).Spans (m.toNat / 2 ^ n.toNat) := by
  obtain ⟨hmlo, hmhi, hlt⟩ := hm
  have hpos (k : Nat) : 2 ^ k ≠ 0 := (Nat.pow_pos (by decide)).ne'
  simp only [shiftRight, UInt64.le_iff_toNat_le, UInt8.toNat_toUInt64]
  split
  · rename_i hfar
    have hzero : m.toNat / 2 ^ n.toNat = 0 := Nat.div_eq_of_lt
      ((hmhi.trans_lt hlt).trans_le (Nat.pow_le_pow_right (by decide) (hfar.trans hn.lo_le)))
    exact ⟨rfl, Nat.zero_le _, hzero.le, Nat.pow_pos (by decide)⟩
  · refine ⟨rfl, ?_, ?_, ?_⟩
    · rw [Word.toNat_shr, toNat_lesser, UInt8.toNat_toUInt64]
      rcases le_total n.toNat a.width.toNat with hle | hge
      · exact Nat.div_le_div hmlo
          (Nat.pow_le_pow_right (by decide) (le_min hn.le_hi hle)) (hpos _)
      · rw [min_eq_right (hge.trans hn.le_hi), Nat.div_eq_of_lt ((hmlo.trans hmhi).trans_lt hlt)]
        exact Nat.zero_le _
    · rw [Word.toNat_shr]
      exact Nat.div_le_div hmhi (Nat.pow_le_pow_right (by decide) hn.lo_le) (hpos _)
    · rw [Word.toNat_shr]
      exact (Nat.div_le_self _ _).trans_lt hlt

theorem fits_shiftRight :
    Fits a.width (shiftRight a b) (if a.width.toUInt64 ≤ n then 0 else Word.shr m n).toNat := by
  have hvalue : (if a.width.toUInt64 ≤ n then 0 else Word.shr m n).toNat =
      m.toNat / 2 ^ n.toNat := by
    split
    · rename_i hfar
      rw [UInt64.le_iff_toNat_le, UInt8.toNat_toUInt64] at hfar
      exact (Nat.div_eq_of_lt ((hm.le_hi.trans_lt hm.hi_lt).trans_le
        (Nat.pow_le_pow_right (by decide) hfar))).symm
    · exact Word.toNat_shr m n
  rw [hvalue]
  exact Or.inr (spans_shiftRight hm hn)

end Shifts

/-! ## Below the sign bit -/

theorem lt_of_belowSign (hm : a.Spans m.toNat) (h : a.belowSign = true) :
    m.toNat < 2 ^ (a.width.toNat - 1) := by
  simp only [belowSign, Bool.and_eq_true, decide_eq_true_eq, UInt8.lt_iff_toNat_lt,
    UInt64.lt_iff_toNat_lt, Word.toNat_shl] at h
  obtain ⟨hpos, hlt⟩ := h
  have hone : (1 : UInt8) ≤ a.width := UInt8.le_iff_toNat_le.mpr hpos
  have hpred : (a.width - 1).toUInt64.toNat = a.width.toNat - 1 := by
    rw [UInt8.toNat_toUInt64, UInt8.toNat_sub_of_le _ _ hone]
    rfl
  rw [hpred, UInt64.toNat_one, one_mul] at hlt
  exact hm.le_hi.trans_lt (hlt.trans_le (Nat.mod_le _ _))

section Signed

variable (hw0 : 1 ≤ a.width) (hw : a.width ≤ 64) (hx : a.Holds x)

include hw0 hw hx

theorem toInt_signed_of_belowSign (h : a.belowSign = true) :
    x.signed.toInt = x.unsigned.toNat := by
  obtain ⟨hwidth, hm⟩ := (holds_iff hw).mp hx
  refine Constant.toInt_signed_of_lt (hwidth ▸ hw0) (hwidth ▸ hw) ?_
  rw [← hwidth]
  exact lt_of_belowSign hm h

theorem signed_eq_zero (h : x.unsigned.toNat = 0) : x.signed = 0 := by
  rw [← Int64.toInt_inj, Constant.toInt_signed_of_lt (hx.width ▸ hw0) (hx.width ▸ hw), h]
  · rfl
  · rw [h]
    exact Nat.pow_pos (by decide)

theorem fits_ashr (hy : b.Spans n.toNat) (h : a.belowSign = true) :
    Fits a.width (shiftRight a b) (Word.sar x.signed
      (if a.width.toUInt64 ≤ n then a.width.toUInt64 - 1 else n)).toUInt64.toNat := by
  obtain ⟨hwidth, hm⟩ := (holds_iff hw).mp hx
  have hlt := lt_of_belowSign hm h
  have hsigned := toInt_signed_of_belowSign hw0 hw hx h
  have hn0 : 1 ≤ a.width.toNat := UInt8.le_iff_toNat_le.mp hw0
  have hvalue : (Word.sar x.signed
      (if a.width.toUInt64 ≤ n then a.width.toUInt64 - 1 else n)).toInt =
      ((x.unsigned.toNat / 2 ^ n.toNat : Nat) : Int) := by
    rw [Word.toInt_sar, hsigned]
    split
    · rename_i hfar
      have hpred : (a.width.toUInt64 - 1).toNat = a.width.toNat - 1 := by
        rw [UInt64.toNat_sub_of_le _ _ (UInt64.le_iff_toNat_le.mpr (by simpa using hn0)),
          UInt8.toNat_toUInt64]
        rfl
      rw [UInt64.le_iff_toNat_le, UInt8.toNat_toUInt64] at hfar
      have hzero : x.unsigned.toNat / 2 ^ (a.width.toNat - 1) = 0 := Nat.div_eq_of_lt hlt
      have hzero' : x.unsigned.toNat / 2 ^ n.toNat = 0 := Nat.div_eq_of_lt
        (hlt.trans_le (Nat.pow_le_pow_right (by decide) (by omega)))
      rw [hpred, hzero']
      exact_mod_cast hzero
    · push_cast
      rfl
  rw [Word.toNat_toUInt64 hvalue]
  exact Or.inr (spans_shiftRight hm hy)

end Signed

/-! ## Operators against exact words -/

/-- The exact words give nothing, or a range is there that holds what they give. -/
def Abstracts (range : Eval WordRange) (exact : Eval Constant) : Prop :=
  exact.Sure fun c => ∃ v, range = pure v ∧ v.Holds c

theorem abstracts_pure (h : v.Holds c) : Abstracts (pure v) (pure c) :=
  Eval.sure_pure ⟨v, rfl, h⟩

section Operators

variable (hw0 : 1 ≤ a.width) (hw : a.width ≤ 64) (hab : a.width = b.width) (hx : a.Holds x)
  (hy : b.Holds y)

include hw hab hy in
theorem hi_ne_zero (h : y.unsigned.toNat ≠ 0) : b.hi ≠ 0 := by
  intro h0
  have hle := ((holds_iff (hab ▸ hw)).mp hy).2.le_hi
  rw [h0] at hle
  exact h (Nat.le_zero.mp hle)

include hw0 hw hab hy

/-- Signed division and remainder, from the unsigned rule.  The rule is needed only where both
words are below the sign bit; elsewhere the range is full. -/
theorem abstracts_signed {op : Arith} {rule : WordRange → WordRange → Eval WordRange}
    {f : Int64 → Int64 → Int64}
    (hrule : a.belowSign = true → b.belowSign = true → y.unsigned.toNat ≠ 0 →
      ∃ v, rule a b = pure v ∧ v.Holds (.ofInt64 (f x.signed y.signed) a.width)) :
    Abstracts (signedDivision rule a b) (if y.signed = 0 then
      Eval.fault op.name .divisionByZero else pure (.ofInt64 (f x.signed y.signed) a.width)) := by
  split
  · exact Eval.sure_fault
  · rename_i hne
    have hzero : y.unsigned.toNat ≠ 0 := fun h =>
      hne (signed_eq_zero (hab ▸ hw0) (hab ▸ hw) hy h)
    refine Eval.sure_pure ?_
    simp only [signedDivision]
    split
    · rename_i hbelow
      obtain ⟨ha, hb⟩ := Bool.and_eq_true_iff.mp hbelow
      exact hrule ha hb hzero
    · rw [if_neg (hi_ne_zero hw hab hy hzero)]
      exact ⟨_, rfl, Fits.ofBits hw (Or.inl rfl)⟩

include hx

theorem abstracts_arith (op : Arith) : Abstracts (arith op a b) (Constant.arith op x y) := by
  obtain ⟨hxw, hm⟩ := (holds_iff hw).mp hx
  obtain ⟨-, hn⟩ := (holds_iff (hab ▸ hw)).mp hy
  have hdivisor : y.unsigned ≠ 0 → y.unsigned.toNat ≠ 0 := fun h h0 =>
    h (UInt64.toNat_inj.mp h0)
  simp only [Constant.arith, ← hxw]
  cases op with
  | add => exact abstracts_pure (Fits.ofBits hw (fits_add hw hm hn))
  | sub => exact abstracts_pure (Fits.ofBits hw (fits_sub hm hn))
  | mul => exact abstracts_pure (Fits.ofBits hw (fits_mul hw hm hn))
  | udiv =>
      dsimp only
      split
      · exact Eval.sure_fault
      · rename_i hne
        simp only [arith, divide, if_neg (hi_ne_zero hw hab hy (hdivisor hne))]
        exact abstracts_pure (Fits.ofBits hw (fits_div hm hn (hdivisor hne)))
  | urem =>
      dsimp only
      split
      · exact Eval.sure_fault
      · rename_i hne
        simp only [arith, remainder, if_neg (hi_ne_zero hw hab hy (hdivisor hne))]
        exact abstracts_pure (Fits.ofBits hw (fits_rem hm hn (hdivisor hne)))
  | sdiv =>
      refine abstracts_signed hw0 hw hab hy ?_
      intro ha hb hzero
      have hvalue : (x.signed / y.signed).toInt = ((x.unsigned / y.unsigned).toNat : Int) := by
        have hhalf : 2 ^ (a.width.toNat - 1) ≤ 2 ^ 63 :=
          Nat.pow_le_pow_right (by decide) (by have := Word.toNat_width hw; omega)
        have hlt : x.unsigned.toNat / y.unsigned.toNat < 2 ^ 63 :=
          (Nat.div_le_self _ _).trans_lt ((lt_of_belowSign hm ha).trans_le hhalf)
        rw [Int64.toInt_div, toInt_signed_of_belowSign hw0 hw hx ha,
          toInt_signed_of_belowSign (hab ▸ hw0) (hab ▸ hw) hy hb, ← Int.ofNat_tdiv,
          UInt64.toNat_div]
        generalize x.unsigned.toNat / y.unsigned.toNat = q at *
        exact Bound.bmod_of_word (by omega) (by omega)
      simp only [divide, if_neg (hi_ne_zero hw hab hy hzero)]
      refine ⟨_, rfl, Fits.ofBits hw ?_⟩
      rw [Word.toNat_toUInt64 hvalue]
      exact fits_div hm hn hzero
  | srem =>
      refine abstracts_signed hw0 hw hab hy ?_
      intro ha hb hzero
      have hvalue : (x.signed % y.signed).toInt = ((x.unsigned % y.unsigned).toNat : Int) := by
        rw [Int64.toInt_mod, toInt_signed_of_belowSign hw0 hw hx ha,
          toInt_signed_of_belowSign (hab ▸ hw0) (hab ▸ hw) hy hb, ← Int.ofNat_tmod,
          UInt64.toNat_mod]
      simp only [remainder, if_neg (hi_ne_zero hw hab hy hzero)]
      refine ⟨_, rfl, Fits.ofBits hw ?_⟩
      rw [Word.toNat_toUInt64 hvalue]
      exact fits_rem hm hn hzero
  | and => exact abstracts_pure (Fits.ofBits hw (fits_and hm hn))
  | or => exact abstracts_pure (Fits.ofBits hw (fits_or hab hm hn))
  | xor => exact abstracts_pure (Fits.ofBits hw (fits_xor hab hm hn))
  | shl => exact abstracts_pure (Fits.ofBits hw (fits_shiftLeft hm hn hw))
  | lshr => exact abstracts_pure (Fits.ofBits hw (fits_shiftRight hm hn))
  | ashr =>
      refine abstracts_pure (Fits.ofBits hw ?_)
      split
      · rename_i hbelow
        exact fits_ashr hw0 hw hx hn hbelow
      · exact Or.inl rfl

end Operators

/-! ## Relations -/

theorem holds_ofTristate {t : Tristate} {p : Bool} (h : t.Admits p) :
    (ofTristate t).Holds (.ofBool p) := by
  cases t with
  | no =>
      obtain rfl : p = false := h
      exact ⟨rfl, by decide, by decide, by decide⟩
  | yes =>
      obtain rfl : p = true := h
      exact ⟨rfl, by decide, by decide, by decide⟩
  | maybe => exact Fits.ofBits (by decide) (Or.inl rfl)
  | invalid => exact Fits.ofBits (by decide) (Or.inl rfl)

theorem less_admits (hm : a.Spans m.toNat) (hn : b.Spans n.toNat) :
    (less a b).Admits (decide (m < n)) := by
  have := hm.le_hi
  have := hm.lo_le
  have := hn.le_hi
  have := hn.lo_le
  simp only [less, UInt64.lt_iff_toNat_lt, UInt64.le_iff_toNat_le]
  split_ifs
  · exact decide_eq_true (by omega)
  · exact decide_eq_false (by omega)
  · trivial

theorem equal_admits (hm : a.Spans m.toNat) (hn : b.Spans n.toNat) :
    (equal a b).Admits (m == n) := by
  have := hm.le_hi
  have := hm.lo_le
  have := hn.le_hi
  have := hn.lo_le
  simp only [equal, isPoint, Bool.and_eq_true, Bool.or_eq_true, beq_iff_eq, decide_eq_true_eq,
    UInt64.lt_iff_toNat_lt, ← UInt64.toNat_inj]
  split_ifs
  · exact beq_iff_eq.mpr (UInt64.toNat_inj.mp (by omega))
  · refine beq_eq_false_iff_ne.mpr ?_
    rintro rfl
    omega
  · trivial

/-- A relation between two unsigned words, a signed order being read without sign. -/
def relates (rel : Relation) (m n : UInt64) : Bool :=
  match rel with
  | .eq => m == n
  | .ne => m != n
  | .slt | .ult => m < n
  | .sle | .ule => m ≤ n
  | .sgt | .ugt => n < m
  | .sge | .uge => n ≤ m

theorem compareUnsigned_admits (rel : Relation) (hm : a.Spans m.toNat) (hn : b.Spans n.toNat) :
    (compareUnsigned rel.unsigned a b).Admits (relates rel m n) := by
  have hle (m n : UInt64) : decide (n ≤ m) = !decide (m < n) := by
    rw [← decide_not]
    exact decide_eq_decide.mpr UInt64.not_lt.symm
  cases rel with
  | eq => exact equal_admits hm hn
  | ne => exact (equal_admits hm hn).not
  | slt | ult => exact less_admits hm hn
  | sgt | ugt => exact less_admits hn hm
  | sle | ule =>
      simp only [relates, hle n m]
      exact (less_admits hn hm).not
  | sge | uge =>
      simp only [relates, hle m n]
      exact (less_admits hm hn).not

section Operators

variable (hw0 : 1 ≤ a.width) (hw : a.width ≤ 64) (hab : a.width = b.width) (hx : a.Holds x)
  (hy : b.Holds y)

include hw0 hw hab hx hy

theorem compare_admits (rel : Relation) :
    (compare rel a b).Admits (Constant.compare rel x y) := by
  have hunsigned := compareUnsigned_admits rel ((holds_iff hw).mp hx).2
    ((holds_iff (hab ▸ hw)).mp hy).2
  -- a signed order on words below the sign bit is the unsigned one
  have hsigned (h : Constant.compare rel x y = relates rel x.unsigned y.unsigned ∨
      ¬ (a.belowSign && b.belowSign) = true) :
      (if a.belowSign && b.belowSign then compareUnsigned rel.unsigned a b
        else .maybe).Admits (Constant.compare rel x y) := by
    split
    · rw [h.resolve_right (not_not.mpr ‹_›)]
      exact hunsigned
    · trivial
  have hread : (a.belowSign && b.belowSign) = true →
      (x.signed < y.signed ↔ x.unsigned < y.unsigned) ∧
      (y.signed < x.signed ↔ y.unsigned < x.unsigned) ∧
      (x.signed ≤ y.signed ↔ x.unsigned ≤ y.unsigned) ∧
      (y.signed ≤ x.signed ↔ y.unsigned ≤ x.unsigned) := by
    intro hbelow
    obtain ⟨ha, hb⟩ := Bool.and_eq_true_iff.mp hbelow
    simp only [Int64.lt_iff_toInt_lt, Int64.le_iff_toInt_le, UInt64.lt_iff_toNat_lt,
      UInt64.le_iff_toNat_le, toInt_signed_of_belowSign hw0 hw hx ha,
      toInt_signed_of_belowSign (hab ▸ hw0) (hab ▸ hw) hy hb]
    omega
  by_cases hbelow : (a.belowSign && b.belowSign) = true
  · obtain ⟨hlt, hgt, hle, hge⟩ := hread hbelow
    cases rel with
    | slt => exact hsigned (Or.inl (decide_eq_decide.mpr hlt))
    | sle => exact hsigned (Or.inl (decide_eq_decide.mpr hle))
    | sgt => exact hsigned (Or.inl (decide_eq_decide.mpr hgt))
    | sge => exact hsigned (Or.inl (decide_eq_decide.mpr hge))
    | _ => exact hunsigned
  · cases rel with
    | slt | sle | sgt | sge => exact hsigned (Or.inr hbelow)
    | _ => exact hunsigned

theorem abstracts_binary {tag : Tag} (htag : (∃ op, tag = .arith op) ∨ ∃ rel, tag = .relation rel) :
    Abstracts (binary tag a b) (Constant.binary tag x y) := by
  have hwidth : x.width = y.width := by rw [← hx.width, ← hy.width, hab]
  have hrange : ¬ a.width ≠ b.width := not_not.mpr hab
  have hexact : ¬ x.width ≠ y.width := not_not.mpr hwidth
  unfold Constant.binary
  by_cases hfloat : x.kind = .float ∨ y.kind = .float
  · rw [if_pos hfloat]
    exact Eval.sure_misuse
  · rw [if_neg hfloat]
    rcases htag with ⟨op, rfl⟩ | ⟨rel, rfl⟩
    · simp only [binary, if_neg hrange, if_neg hexact]
      exact abstracts_arith hw0 hw hab hx hy op
    · simp only [binary, if_neg hrange, if_neg hexact]
      exact abstracts_pure (holds_ofTristate (compare_admits hw0 hw hab hx hy rel))

omit hab hy

theorem abstracts_cast {k : Cast} (hk : k ∈ [Cast.zext, .trunc, .zfit, .sext]) (hto : w ≤ 64) :
    Abstracts (cast (.cast k) a w) (x.cast (.cast k) w) := by
  obtain ⟨-, hm⟩ := (holds_iff hw).mp hx
  -- the bits stay, and whatever stands above the new width is cut off
  have hcut : Abstracts (pure (if Word.mask w < a.hi then top w else ⟨a.lo, a.hi, w⟩))
      (if x.kind = .float then Eval.unsupported .constant (.cast k)
        else pure { Constant.ofBits x.unsigned w with kind := x.kind }) := by
    by_cases hfloat : x.kind = .float
    · rw [if_pos hfloat]
      exact Eval.sure_misuse
    · rw [if_neg hfloat]
      refine abstracts_pure (Fits.holds hto (m := x.unsigned) ?_ rfl
        (Constant.toNat_unsigned_ofBits _ hto))
      split
      · exact Or.inl rfl
      · rename_i hle
        exact Or.inr ⟨rfl, hm.lo_le, hm.le_hi,
          (Word.le_mask_iff hto).mp (UInt64.not_lt.mp hle)⟩
  have hextend : Abstracts (pure (if a.belowSign && a.width ≤ w then ⟨a.lo, a.hi, w⟩ else top w))
      (if x.kind = .float then Eval.unsupported .constant (.cast k)
        else pure (.ofInt64 x.signed w)) := by
    by_cases hfloat : x.kind = .float
    · rw [if_pos hfloat]
      exact Eval.sure_misuse
    · rw [if_neg hfloat]
      refine abstracts_pure (Fits.ofBits hto ?_)
      split
      · rename_i hbelow
        obtain ⟨ha, hle⟩ := Bool.and_eq_true_iff.mp hbelow
        rw [Word.toNat_toUInt64 (toInt_signed_of_belowSign hw0 hw hx ha)]
        refine Or.inr ⟨rfl, hm.lo_le, hm.le_hi, hm.hi_lt.trans_le ?_⟩
        exact Nat.pow_le_pow_right (by decide) (UInt8.le_iff_toNat_le.mp (of_decide_eq_true hle))
      · exact Or.inl rfl
  cases k with
  | zext | trunc | zfit => exact hcut
  | sext => exact hextend
  | inttoptr | ptrtoint => simp at hk

/-- **Word ranges are sound for the exact words of every width up to sixty-four.**  Whatever
word each of two ranges holds: where an arithmetic operator or a relation on the exact words
gives a word, or a change of width does, the ranges give a range, and it holds that word. -/
theorem holds_of_constant (hab : a.width = b.width) (hy : b.Holds y) :
    (∀ tag c answers, (∃ op, tag = .arith op) ∨ (∃ rel, tag = .relation rel) →
      ((Constant.binary tag x y).run.play answers).result = .ok c →
        ∃ v, binary tag a b = pure v ∧ v.Holds c) ∧
    ∀ k ∈ [Cast.zext, .trunc, .zfit, .sext], ∀ width c answers, width ≤ 64 →
      ((x.cast (.cast k) width).run.play answers).result = .ok c →
        ∃ v, cast (.cast k) a width = pure v ∧ v.Holds c := by
  constructor
  · intro tag c answers htag hc
    exact (abstracts_binary hw0 hw hab hx hy htag).of_play hc
  · intro k hk width c answers hto hc
    exact (abstracts_cast hw0 hw hx hk hto).of_play hc

end Operators

/-- At the full width, where the sum of two ranges leaves it, signed division of a negative word
is given the full range, and a word above the sign bit is extended from eight bits. -/
theorem holds_of_constant_full :
    let a : WordRange := ⟨0x8000000000000000, 0xFFFFFFFFFFFFFFF0, 64⟩
    let b : WordRange := ⟨2, 3, 64⟩
    (∃ v, binary (.arith .sdiv) a b = pure v ∧
      v.Holds (.ofInt64 (-16) 64)) ∧
    (∃ v, binary (.relation .ugt) a b = pure v ∧ v.Holds (.ofBool true)) ∧
    ∃ v, cast (.cast .sext) ⟨0x80, 0x90, 8⟩ 16 = pure v ∧ v.Holds (.ofBits 0xFF85 16) := by
  have hx : WordRange.Holds ⟨0x8000000000000000, 0xFFFFFFFFFFFFFFF0, 64⟩ (.ofInt64 (-32) 64) :=
    ⟨rfl, by decide, by decide, by decide⟩
  have hy : WordRange.Holds ⟨2, 3, 64⟩ (.ofInt64 2 64) := ⟨rfl, by decide, by decide, by decide⟩
  have hz : WordRange.Holds ⟨0x80, 0x90, 8⟩ (.ofBits 0x85 8) :=
    ⟨rfl, by decide, by decide, by decide⟩
  refine ⟨?_, ?_, ?_⟩
  · exact (holds_of_constant (b := ⟨2, 3, 64⟩) (by decide) (by decide) hx rfl hy).1 (.arith .sdiv) _ []
      (Or.inl ⟨_, rfl⟩) (by decide)
  · exact (holds_of_constant (b := ⟨2, 3, 64⟩) (by decide) (by decide) hx rfl hy).1 (.relation .ugt) _ []
      (Or.inr ⟨_, rfl⟩) (by decide)
  · exact (holds_of_constant (by decide) (by decide) hz rfl hz).2 .sext (by decide) 16 _ []
      (by decide) (by decide)

end Narrowing.WordRange
