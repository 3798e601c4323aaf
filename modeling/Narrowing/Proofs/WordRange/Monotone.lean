/-
# Narrower operands give narrower results

Operators on word ranges are monotone: on a pair of ranges inside another pair, the result lies
inside the other result.

An operator gives an exact rule on the ends, or the full range where the rule might leave the
width.  Two things are therefore asked of it.  The rule has to be monotone; and the test for it
has to be so too, so that a rule which can be used on the wider pair can be used on the narrower
one (`tighter_ite_top`).  Nothing more is needed where the wider pair gives the full range, since a
result always stays in the width: it holds a word that the exact operator gives for two words
of the operands.

    sum, product       a sum of high ends that fits, for the greater ends and so for the lesser
    difference         a low end above a high end, for the wider ranges and so for the narrower
    shift to the left  by a point, which has only itself inside
    signed division    below the sign bit

A relation is a verdict on all pairs of words, and what holds of all pairs of the wider ranges
holds of all pairs of the narrower ones.

A division by the range of zero alone gives up the path.  The wider divisor may well hold other
words, so the narrower pair may give up where the wider one does not, and only there.
-/
import Narrowing.Proofs.Comparison.Verdict
import Narrowing.Proofs.Constant
import Narrowing.Proofs.Order.Leaf

namespace Narrowing

namespace WordRange

variable {a a' b b' u u' v v' : WordRange} {w : UInt8}

/-- A range of words of a width: its ends are in order, and lie in the width. -/
structure IsRange (w : UInt8) (v : WordRange) : Prop where
  width : v.width = w
  le : v.lo ≤ v.hi
  le_mask : v.hi ≤ Word.mask w

/-! ## Results stay in the width -/

theorem leq_top (hv : v.width = w) (hmask : v.hi ≤ Word.mask w) : v.leq (top w) = true :=
  leq_iff.mpr ⟨hv, Nat.zero_le _, UInt64.le_iff_toNat_le.mp hmask⟩

theorem arith_of_divisor_zero {op : Arith} (hop : op.divides = true) (hb : b.hi = 0) :
    arith op a b = Eval.cancel "bvinterval division by zero" := by
  cases op with
  | udiv | urem => exact if_pos hb
  | sdiv | srem =>
      simp only [arith, signedDivision, divide, remainder, if_pos hb, ite_self]
  | _ => cases hop

section Width

variable (hw0 : 1 ≤ w) (hw : w ≤ 64) (ha : a.IsRange w) (hb : b.IsRange w)

include hw0 hw ha hb

/-- Where it does not divide by zero alone, an operator gives a range in the width. -/
theorem exists_arith (op : Arith) (hop : op.divides = true → b.hi ≠ 0) :
    ∃ v, arith op a b = pure v ∧ v.width = w ∧ v.hi ≤ Word.mask w := by
  have hab : a.width = b.width := ha.width.trans hb.width.symm
  -- the exact operator gives a word for these two, and the range has to hold it
  let x : Constant := ⟨a.lo, .integer, w⟩
  let y : Constant := ⟨b.hi, .integer, w⟩
  have hread {n : UInt64} (hn : n ≤ Word.mask w) :
      (Constant.mk n .integer w).unsigned.toNat = n.toNat := by
    rw [Constant.toNat_unsigned hw]
    exact Nat.mod_eq_of_lt ((Word.le_mask_iff hw).mp hn)
  have hlo : a.lo ≤ Word.mask w := UInt64.le_trans ha.le ha.le_mask
  have hx : a.Holds x := ⟨ha.width, UInt64.le_iff_toNat_le.mpr (hread hlo).ge,
    UInt64.le_iff_toNat_le.mpr ((hread hlo).le.trans (UInt64.le_iff_toNat_le.mp ha.le)),
    ha.width.symm ▸ ha.le_mask⟩
  have hy : b.Holds y := ⟨hb.width, UInt64.le_iff_toNat_le.mpr
      ((UInt64.le_iff_toNat_le.mp hb.le).trans (hread hb.le_mask).ge),
    UInt64.le_iff_toNat_le.mpr (hread hb.le_mask).le, hb.width.symm ▸ hb.le_mask⟩
  have hheld := abstracts_arith (ha.width ▸ hw0) (ha.width ▸ hw) hab hx hy op
  have hdivisor : ¬ (op.divides = true ∧ y.low w.toNat = 0#w.toNat) := by
    rintro ⟨hdiv, hzero⟩
    rw [Constant.low_eq_zero_iff hw rfl, ← UInt64.toNat_inj, hread hb.le_mask] at hzero
    exact hop hdiv (UInt64.toNat_inj.mp hzero)
  rw [Abstracts, Constant.arith_eq_words hw0 hw rfl rfl, if_neg hdivisor] at hheld
  obtain ⟨v, hv, hholds⟩ := Eval.sure_pure_iff.mp hheld
  have hwidth : v.width = w := hholds.width
  exact ⟨v, hv, hwidth, hwidth ▸ hholds.le_mask⟩

end Width

/-! ## Rules and tests -/

/-- A range of words of a width inside another: the four ends in their order. -/
structure Inside (w : UInt8) (v v' : WordRange) : Prop where
  width : v.width = w
  width_outer : v'.width = w
  lo_le : v'.lo.toNat ≤ v.lo.toNat
  le : v.lo.toNat ≤ v.hi.toNat
  le_hi : v.hi.toNat ≤ v'.hi.toNat
  hi_lt : v.hi.toNat < 2 ^ w.toNat

theorem IsRange.inside (hw : w ≤ 64) (hv : v.IsRange w) (h : v.leq v' = true) :
    v.Inside w v' := by
  obtain ⟨hwidth, hlo, hhi⟩ := leq_iff.mp h
  exact ⟨hv.width, hwidth ▸ hv.width, hlo, UInt64.le_iff_toNat_le.mp hv.le, hhi,
    (Word.le_mask_iff hw).mp hv.le_mask⟩

section Rules

variable (ha : a.Inside w a') (hb : b.Inside w b')

include ha hb

theorem leq_add (hfit : a'.hi.toNat + b'.hi.toNat < 2 ^ 64) :
    (WordRange.mk (a.lo + b.lo) (a.hi + b.hi) w).leq
      ⟨a'.lo + b'.lo, a'.hi + b'.hi, w⟩ = true := by
  obtain ⟨-, -, halo, hale, hahi, -⟩ := ha
  obtain ⟨-, -, hblo, hble, hbhi, -⟩ := hb
  rw [leq_iff]
  simp only [UInt64.toNat_add]
  repeat rw [Nat.mod_eq_of_lt (by omega)]
  exact ⟨trivial, Nat.add_le_add halo hblo, Nat.add_le_add hahi hbhi⟩

theorem leq_sub (hfit : b'.hi.toNat ≤ a'.lo.toNat) :
    (WordRange.mk (a.lo - b.hi) (a.hi - b.lo) w).leq
      ⟨a'.lo - b'.hi, a'.hi - b'.lo, w⟩ = true := by
  obtain ⟨-, -, halo, hale, hahi, -⟩ := ha
  obtain ⟨-, -, hblo, hble, hbhi, -⟩ := hb
  have hsub {m n : UInt64} (h : n.toNat ≤ m.toNat) : (m - n).toNat = m.toNat - n.toNat :=
    UInt64.toNat_sub_of_le _ _ (UInt64.le_iff_toNat_le.mpr h)
  rw [leq_iff, hsub hfit, hsub (by omega), hsub (by omega), hsub (by omega)]
  exact ⟨rfl, by omega, by omega⟩

theorem leq_mul (hfit : a'.hi.toNat * b'.hi.toNat < 2 ^ 64) :
    (WordRange.mk (a.lo * b.lo) (a.hi * b.hi) w).leq
      ⟨a'.lo * b'.lo, a'.hi * b'.hi, w⟩ = true := by
  obtain ⟨-, -, halo, hale, hahi, -⟩ := ha
  obtain ⟨-, -, hblo, hble, hbhi, -⟩ := hb
  have hlo := Nat.mul_le_mul halo hblo
  have hmid := Nat.mul_le_mul hale hble
  have hhi := Nat.mul_le_mul hahi hbhi
  rw [leq_iff]
  simp only [UInt64.toNat_mul]
  repeat rw [Nat.mod_eq_of_lt (by omega)]
  exact ⟨trivial, hlo, hhi⟩

theorem leq_div (hpos : b.hi ≠ 0) :
    (WordRange.mk (a.lo / b.hi) (a.hi / greater b.lo 1) w).leq
      ⟨a'.lo / b'.hi, a'.hi / greater b'.lo 1, w⟩ = true := by
  have hne : b.hi.toNat ≠ 0 := fun h => hpos (UInt64.toNat_inj.mp h)
  rw [leq_iff]
  simp only [UInt64.toNat_div, toNat_greater, UInt64.toNat_one]
  refine ⟨trivial, Nat.div_le_div ha.lo_le hb.le_hi hne, Nat.div_le_div ha.le_hi ?_ ?_⟩
  · exact max_le_max_right 1 hb.lo_le
  · exact (le_max_right b'.lo.toNat 1).trans_lt' Nat.one_pos |>.ne'

theorem leq_rem (hpos : b.hi ≠ 0) :
    (WordRange.mk 0 (lesser a.hi (b.hi - 1)) w).leq ⟨0, lesser a'.hi (b'.hi - 1), w⟩ = true := by
  have hone : 1 ≤ b.hi.toNat := Nat.one_le_iff_ne_zero.mpr fun h => hpos (UInt64.toNat_inj.mp h)
  have hpred {n : UInt64} (h : 1 ≤ n.toNat) : (n - 1).toNat = n.toNat - 1 :=
    UInt64.toNat_sub_of_le _ _ (UInt64.le_iff_toNat_le.mpr h)
  rw [leq_iff, toNat_lesser, toNat_lesser, hpred hone, hpred (hone.trans hb.le_hi)]
  exact ⟨rfl, le_rfl, min_le_min ha.le_hi (Nat.sub_le_sub_right hb.le_hi 1)⟩

/-- The two high ends together are no longer, though they may be greater as a number. -/
theorem bitLength_or_le :
    Word.bitLength (a.hi ||| b.hi) ≤ Word.bitLength (a'.hi ||| b'.hi) := by
  have hlen := Word.bitLength_le_iff.mp (le_refl (Word.bitLength (a'.hi ||| b'.hi)))
  rw [UInt64.toNat_or] at hlen
  rw [Word.bitLength_le_iff, UInt64.toNat_or]
  refine Nat.or_lt_two_pow ?_ ?_
  · exact (ha.le_hi.trans Nat.left_le_or).trans_lt hlen
  · exact (hb.le_hi.trans Nat.right_le_or).trans_lt hlen

theorem leq_shl (hw : w ≤ 64) (hpoint : b'.lo = b'.hi)
    (hlen : Word.bitLength a'.hi + b'.lo.toNat ≤ w.toNat) :
    (WordRange.mk (Word.shl a.lo b.lo) (Word.shl a.hi b.lo) w).leq
      ⟨Word.shl a'.lo b'.lo, Word.shl a'.hi b'.lo, w⟩ = true := by
  obtain ⟨-, -, halo, hale, hahi, -⟩ := ha
  obtain ⟨-, -, hblo, hble, hbhi, -⟩ := hb
  have hamount : b.lo.toNat = b'.lo.toNat := by
    rw [hpoint] at hblo ⊢
    omega
  have hfit := (Word.toNat_mul_two_pow_lt hlen).trans_le (two_pow_width hw)
  have hlo := Nat.mul_le_mul_right (2 ^ b'.lo.toNat) halo
  have hmid := Nat.mul_le_mul_right (2 ^ b'.lo.toNat) hale
  have hhi := Nat.mul_le_mul_right (2 ^ b'.lo.toNat) hahi
  rw [leq_iff]
  simp only [Word.toNat_shl, hamount]
  repeat rw [Nat.mod_eq_of_lt (by omega)]
  exact ⟨trivial, hlo, hhi⟩

theorem leq_shiftRight : (shiftRight a b).leq (shiftRight a' b') = true := by
  have hpos (k : Nat) : 2 ^ k ≠ 0 := (Nat.pow_pos (by decide)).ne'
  unfold shiftRight
  rw [ha.width, ha.width_outer]
  simp only [UInt64.le_iff_toNat_le, UInt8.toNat_toUInt64]
  by_cases hfar' : w.toNat ≤ b'.lo.toNat
  · rw [if_pos hfar', if_pos (hfar'.trans hb.lo_le)]
    exact leq_refl _
  · rw [if_neg hfar']
    split
    · rename_i hfar
      -- nothing is left of the low end of the wider range by the greatest amount
      have hzero : a'.lo.toNat / 2 ^ w.toNat = 0 :=
        Nat.div_eq_of_lt ((ha.lo_le.trans ha.le).trans_lt ha.hi_lt)
      rw [leq_iff]
      simp only [Word.toNat_shr, toNat_lesser, UInt8.toNat_toUInt64]
      rw [min_eq_right ((hfar.trans hb.le).trans hb.le_hi), hzero]
      exact ⟨trivial, le_rfl, Nat.zero_le _⟩
    · rw [leq_iff]
      simp only [Word.toNat_shr, toNat_lesser, UInt8.toNat_toUInt64]
      refine ⟨trivial, Nat.div_le_div ha.lo_le ?_ (hpos _), Nat.div_le_div ha.le_hi ?_ (hpos _)⟩
      · exact Nat.pow_le_pow_right (by decide) (min_le_min_right _ hb.le_hi)
      · exact Nat.pow_le_pow_right (by decide) hb.lo_le

end Rules

/-! ## Tests -/

/-- Whatever the two give, the first range is inside the second. -/
def Tighter (e e' : Eval WordRange) : Prop := e.Sure fun v => e'.Sure fun v' => v.leq v' = true

theorem tighter_pure (h : v.leq v' = true) : Tighter (pure v) (pure v') :=
  Eval.sure_pure (Eval.sure_pure h)

theorem tighter_top {e : Eval WordRange}
    (hwidth : e.Sure fun v => v.width = w ∧ v.hi ≤ Word.mask w) : Tighter e (pure (top w)) :=
  hwidth.mono fun _ hv => Eval.sure_pure (leq_top hv.1 hv.2)

/-- A rule behind a test.  Where the wider operands pass the test, the narrower have to pass it
too, and the rule has to be monotone; elsewhere any result will do. -/
theorem tighter_ite_top {p p' : Prop} [Decidable p] [Decidable p']
    (hwidth : Eval.Sure (fun v => v.width = w ∧ v.hi ≤ Word.mask w)
      (pure (if p then top w else u)))
    (hrule : ¬ p' → ¬ p ∧ u.leq u' = true) :
    Tighter (pure (if p then top w else u)) (pure (if p' then top w else u')) := by
  by_cases hp' : p'
  · rw [if_pos hp']
    exact tighter_top hwidth
  · obtain ⟨hp, hle⟩ := hrule hp'
    rw [if_neg hp', if_neg hp]
    exact tighter_pure hle

theorem Inside.belowSign (h : a.Inside w a') (hbelow : a'.belowSign = true) :
    a.belowSign = true := by
  obtain ⟨hpos, hle, hlt⟩ := belowSign_iff.mp hbelow
  rw [h.width_outer] at hpos hle hlt
  refine belowSign_iff.mpr ⟨?_, ?_, ?_⟩ <;> rw [h.width]
  · exact hpos
  · exact hle
  · exact h.le_hi.trans_lt hlt

/-- A rule that gives up on the divisor zero alone. -/
theorem tighter_division (h : b.hi ≠ 0 → v.leq v' = true) :
    Tighter (if b.hi = 0 then Eval.cancel "bvinterval division by zero" else pure v)
      (if b'.hi = 0 then Eval.cancel "bvinterval division by zero" else pure v') := by
  by_cases hzero : b.hi = 0
  · rw [if_pos hzero]
    exact Eval.sure_cancel
  · rw [if_neg hzero]
    refine Eval.sure_pure ?_
    split
    · exact Eval.sure_cancel
    · exact Eval.sure_pure (h hzero)

section Operators

variable (ha : a.Inside w a') (hb : b.Inside w b')

include ha hb

theorem tighter_divide : Tighter (divide a b) (divide a' b') := by
  simp only [divide, ha.width, ha.width_outer]
  exact tighter_division (leq_div ha hb)

theorem tighter_remainder : Tighter (remainder a b) (remainder a' b') := by
  simp only [remainder, ha.width, ha.width_outer]
  exact tighter_division (leq_rem ha hb)

theorem tighter_signedDivision {rule : WordRange → WordRange → Eval WordRange}
    (hrule : Tighter (rule a b) (rule a' b'))
    (hwidth : (signedDivision rule a b).Sure fun v => v.width = w ∧ v.hi ≤ Word.mask w) :
    Tighter (signedDivision rule a b) (signedDivision rule a' b') := by
  by_cases hbelow' : (a'.belowSign && b'.belowSign) = true
  · obtain ⟨ha', hb'⟩ := Bool.and_eq_true_iff.mp hbelow'
    have hbelow : (a.belowSign && b.belowSign) = true :=
      Bool.and_eq_true_iff.mpr ⟨ha.belowSign ha', hb.belowSign hb'⟩
    rw [signedDivision, signedDivision, if_pos hbelow, if_pos hbelow']
    exact hrule
  · rw [signedDivision.eq_1 rule a' b', if_neg hbelow', ha.width_outer]
    split
    · exact hwidth.mono fun _ _ => Eval.sure_cancel
    · exact tighter_top hwidth

theorem tighter_arith (hw : w ≤ 64) (op : Arith)
    (hwidth : (arith op a b).Sure fun v => v.width = w ∧ v.hi ≤ Word.mask w) :
    Tighter (arith op a b) (arith op a' b') := by
  have hmask := (Word.mask w).toNat_lt
  cases op <;> simp only [arith, shiftLeft, ha.width, ha.width_outer] at hwidth ⊢
  case udiv => exact tighter_divide ha hb
  case urem => exact tighter_remainder ha hb
  case sdiv => exact tighter_signedDivision ha hb (tighter_divide ha hb) hwidth
  case srem => exact tighter_signedDivision ha hb (tighter_remainder ha hb) hwidth
  case and =>
      refine tighter_pure (leq_iff.mpr ⟨rfl, le_rfl, ?_⟩)
      rw [toNat_lesser, toNat_lesser]
      exact min_le_min ha.le_hi hb.le_hi
  case or =>
      refine tighter_pure (leq_iff.mpr ⟨rfl, ?_, Word.toNat_fill_mono (bitLength_or_le ha hb)⟩)
      rw [toNat_greater, toNat_greater]
      exact max_le_max ha.lo_le hb.lo_le
  case xor =>
      exact tighter_pure (leq_iff.mpr ⟨rfl, le_rfl, Word.toNat_fill_mono (bitLength_or_le ha hb)⟩)
  case lshr => exact tighter_pure (leq_shiftRight ha hb)
  case ashr =>
      by_cases hbelow' : a'.belowSign = true
      · rw [if_pos hbelow', if_pos (ha.belowSign hbelow')]
        exact tighter_pure (leq_shiftRight ha hb)
      · rw [if_neg hbelow']
        exact tighter_top hwidth
  case add =>
      refine tighter_ite_top hwidth fun hfit => ?_
      have hsum := Nat.add_le_add ha.le_hi hb.le_hi
      exact ⟨by omega, leq_add ha hb (by omega)⟩
  case sub =>
      refine tighter_ite_top hwidth fun hfit => ?_
      rw [UInt64.lt_iff_toNat_lt, not_lt] at hfit ⊢
      exact ⟨(hb.le_hi.trans hfit).trans ha.lo_le, leq_sub ha hb hfit⟩
  case mul =>
      refine tighter_ite_top hwidth fun hfit => ?_
      have hproduct := Nat.mul_le_mul ha.le_hi hb.le_hi
      exact ⟨by omega, leq_mul ha hb (by omega)⟩
  case shl =>
      refine tighter_ite_top hwidth fun hfit => ?_
      simp only [isPoint, Bool.or_eq_true, Bool.not_eq_true', beq_eq_false_iff_ne,
        decide_eq_true_eq, UInt64.le_iff_toNat_le, UInt8.toNat_toUInt64, not_or, not_not,
        not_lt] at hfit ⊢
      obtain ⟨⟨hpoint, hamount⟩, hlen⟩ := hfit
      have hlength := Word.bitLength_mono ha.le_hi
      have hbends := congrArg UInt64.toNat hpoint
      obtain ⟨-, -, hblo, hble, hbhi, -⟩ := id hb
      refine ⟨⟨⟨UInt64.toNat_inj.mp ?_, ?_⟩, ?_⟩, leq_shl ha hb hw hpoint hlen⟩
      all_goals omega

end Operators

/-! ## Relations -/

theorem ofTristate_leq {t t' : Tristate} (h : t' = .maybe ∨ t = t') :
    (ofTristate t).leq (ofTristate t') = true := by
  rcases h with rfl | rfl
  · cases t <;> decide
  · exact leq_refl _

theorem Inside.contains (ha : a.Inside w a') {x : UInt64} (hx : a.contains x = true) :
    a'.contains x = true := by
  obtain ⟨hlo, hhi⟩ := contains_iff.mp hx
  exact contains_iff.mpr ⟨ha.lo_le.trans hlo, hhi.trans ha.le_hi⟩

theorem Inside.ends_le (ha : a.Inside w a') : a.lo ≤ a.hi ∧ a'.lo ≤ a'.hi :=
  ⟨UInt64.le_iff_toNat_le.mpr ha.le,
    UInt64.le_iff_toNat_le.mpr ((ha.lo_le.trans ha.le).trans ha.le_hi)⟩

theorem compare_of_inside (ha : a.Inside w a') (hb : b.Inside w b') (rel : Relation) :
    compare rel a' b' = .maybe ∨ compare rel a b = compare rel a' b' := by
  have hwidth : a.width = b.width := ha.width.trans hb.width.symm
  have hwidth' : a'.width = b'.width := ha.width_outer.trans hb.width_outer.symm
  by_cases hsign : rel.isSigned = true → a'.BelowSign ∧ b'.BelowSign
  · have hverdict' := compare_verdict ha.ends_le.2 hb.ends_le.2 hwidth' hsign
    have hverdict : (compare rel a b).Verdict _ _ _ :=
      compare_verdict ha.ends_le.1 hb.ends_le.1 hwidth fun hrel =>
        ⟨belowSign_iff.mp (ha.belowSign (belowSign_iff.mpr (hsign hrel).1)),
          belowSign_iff.mp (hb.belowSign (belowSign_iff.mpr (hsign hrel).2))⟩
    rw [ha.width_outer] at hverdict'
    rw [ha.width] at hverdict
    exact hverdict.mono hverdict' (fun _ => ha.contains) fun _ => hb.contains
  · -- a signed order is left open
    rw [Classical.not_imp, ← belowSign_iff, ← belowSign_iff, ← Bool.and_eq_true_iff] at hsign
    cases rel with
    | slt | sle | sgt | sge => exact Or.inl (if_neg hsign.2)
    | _ => cases hsign.1

/-! ## Every operator -/

/-- **Operators on word ranges are monotone.**  At every width from one to sixty-four, let two
ranges lie inside two others, and let an operator other than the meet give a range for the wider
two.  For the narrower two it gives a range inside that one; or it is a division, the narrower
divisor is zero alone, and the path is given up. -/
theorem binary_narrows (hw0 : 1 ≤ w) (hw : w ≤ 64) (ha : a.IsRange w) (hb : b.IsRange w)
    (haa : a.leq a' = true) (hbb : b.leq b' = true) {tag : Tag} (htag : tag ≠ .meet)
    {answers : List Int} (h : ((binary tag a' b').run.play answers).result = .ok v') :
    ((∃ op, tag = .arith op ∧ op.divides = true) ∧ (b.lo = 0 ∧ b.hi = 0) ∧
      binary tag a b = Eval.cancel "bvinterval division by zero") ∨
    ∃ v, binary tag a b = pure v ∧ v.leq v' = true := by
  have hia := ha.inside hw haa
  have hib := hb.inside hw hbb
  have hwidth : ¬ a.width ≠ b.width := not_not.mpr (ha.width.trans hb.width.symm)
  have hwidth' : ¬ a'.width ≠ b'.width :=
    not_not.mpr (hia.width_outer.trans hib.width_outer.symm)
  unfold binary at h ⊢
  rw [if_neg hwidth'] at h
  rw [if_neg hwidth]
  cases tag with
  | meet => exact absurd rfl htag
  | join =>
      obtain rfl := Except.ok.inj h
      refine Or.inr ⟨_, rfl, leq_iff.mpr ⟨hia.width.trans hia.width_outer.symm, ?_, ?_⟩⟩
      · rw [toNat_lesser, toNat_lesser]
        exact min_le_min hia.lo_le hib.lo_le
      · rw [toNat_greater, toNat_greater]
        exact max_le_max hia.le_hi hib.le_hi
  | relation rel =>
      obtain rfl := Except.ok.inj h
      exact Or.inr ⟨_, rfl, ofTristate_leq (compare_of_inside hia hib rel)⟩
  | arith op =>
      by_cases hzero : op.divides = true ∧ b.hi = 0
      · obtain ⟨hop, hhi⟩ := hzero
        have hle := hib.le
        rw [hhi] at hle
        have hlo : b.lo = 0 := UInt64.toNat_inj.mp (Nat.le_zero.mp hle)
        exact Or.inl ⟨⟨op, rfl, hop⟩, ⟨hlo, hhi⟩, arith_of_divisor_zero hop hhi⟩
      · obtain ⟨v, hv, hin⟩ := exists_arith hw0 hw ha hb op fun hop h0 => hzero ⟨hop, h0⟩
        have hle := tighter_arith hia hib hw op (hv ▸ Eval.sure_pure hin)
        rw [hv] at hle
        exact Or.inr ⟨v, hv, (Eval.sure_pure_iff.mp hle).of_play h⟩
  | _ => cases h

/-- A signed quotient whose wider dividend reaches the sign bit and whose wider divisor may be
zero, and a shift to the left that loses no bit. -/
theorem binary_narrows_byte :
    (∃ v, binary (.arith .sdiv) ⟨100, 120, 8⟩ ⟨2, 5, 8⟩ = pure v ∧ v.leq (top 8) = true) ∧
    ∃ v, binary (.arith .shl) ⟨1, 2, 8⟩ ⟨4, 4, 8⟩ = pure v ∧ v.leq ⟨0, 240, 8⟩ = true := by
  have hwide : ((binary (.arith .sdiv) ⟨100, 200, 8⟩ ⟨0, 5, 8⟩).run.play []).result =
      .ok (top 8) := by decide
  have hexact : ((binary (.arith .shl) ⟨0, 15, 8⟩ ⟨4, 4, 8⟩).run.play []).result =
      .ok ⟨0, 240, 8⟩ := by decide
  have hdividend : IsRange 8 ⟨100, 120, 8⟩ := ⟨rfl, by decide, by decide⟩
  have hdivisor : IsRange 8 ⟨2, 5, 8⟩ := ⟨rfl, by decide, by decide⟩
  have hword : IsRange 8 ⟨1, 2, 8⟩ := ⟨rfl, by decide, by decide⟩
  have hamount : IsRange 8 ⟨4, 4, 8⟩ := ⟨rfl, by decide, by decide⟩
  constructor
  · refine (binary_narrows (by decide) (by decide) hdividend hdivisor (by decide) (by decide)
      (by decide) hwide).resolve_left ?_
    rintro ⟨-, ⟨-, hhi⟩, -⟩
    exact absurd hhi (by decide)
  · refine (binary_narrows (by decide) (by decide) hword hamount (by decide) (by decide)
      (by decide) hexact).resolve_left ?_
    rintro ⟨-, ⟨-, hhi⟩, -⟩
    exact absurd hhi (by decide)

end WordRange

end Narrowing
