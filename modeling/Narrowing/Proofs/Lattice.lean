/-
# Operators across domains keep every result

An operator on values of two domains goes through the domain that the join table
names.  A coercion into it never loses an integer, and the operator there does
not either, so the composition does not, whatever the table says: a table that
asks for a coercion there is none of only keeps the operator from giving a
result.

Two exact words are left out, since the operators on these are about words of a
width and not about integers.
-/
import Narrowing.Proofs.Interval.Forward
import Narrowing.Proofs.Zero

namespace Narrowing

/-! ## Exact words as integers -/

namespace Constant

/-- An integer word of a width that other domains read, short of the longest. -/
structure Short (c : Constant) : Prop where
  kind : c.kind = .integer
  width : c.width = 8 ∨ c.width = 16 ∨ c.width = 32

variable {c : Constant}

theorem liftValue_eq (hkind : c.kind = .integer)
    (hw : c.width = 8 ∨ c.width = 16 ∨ c.width = 32 ∨ c.width = 64) :
    c.liftValue = pure c.signed := by
  unfold liftValue
  rw [hkind]
  rcases hw with hw | hw | hw | hw <;> rw [hw] <;> rfl

theorem Short.liftValue_eq (h : c.Short) : c.liftValue = pure c.signed :=
  Constant.liftValue_eq h.kind (h.width.imp_right fun hw => hw.imp_right Or.inl)

/-- A shift to the right by half a word or more leaves little. -/
theorem Short.signed_bounds (h : c.Short) : -2 ^ 62 ≤ c.signed.toInt ∧ c.signed.toInt ≤ 2 ^ 62 := by
  have hshift {y o : Int64} (ho : 32 ≤ o.toInt) (ho' : o.toInt < 63) :
      -2 ^ 62 ≤ (y >>> o).toInt ∧ (y >>> o).toInt ≤ 2 ^ 62 := by
    rw [Bound.toInt_shiftRight (by omega) (by omega)]
    have hlo := y.le_toInt
    have hhi := y.toInt_lt
    have hhalf : y.toInt / 2 ^ (1 : Int).toNat = y.toInt / 2 := rfl
    have hless := shift_toward (p := y.toInt) (i := 1) (by omega) (by omega : 1 ≤ o.toInt)
    have hpow : (0 : Int) < 2 ^ o.toInt.toNat := Int.pow_pos (by omega)
    rcases lt_or_ge y.toInt 0 with hy | hy
    · have := Int.ediv_neg_of_neg_of_pos hy hpow
      omega
    · have := Int.ediv_nonneg hy hpow.le
      omega
  unfold signed Word.signExtend
  rcases h.width with hw | hw | hw <;> rw [hw] <;> exact hshift (by decide) (by decide)

end Constant

namespace Value

/-- A value that stands for integers: a short word, signs, zero-ness, or an interval with
moderate ends. -/
def Numeric : Value → Prop
  | constant c => c.Short
  | sign _ | zero _ => True
  | interval i => i.Moderate (2 ^ 62)
  | words _ => False

variable {v : Value} {x : Int}

/-! ## Coercions -/

theorem mem_lift_sign {w : Int64} (h : x = w.toInt) : x ∈ Sign.lift w := by
  unfold Sign.lift
  simp only [Int64.lt_iff_toInt_lt, Int64.toInt_zero]
  split_ifs
  · exact Sign.mem_ltz.mpr (by omega)
  · exact Sign.mem_gtz.mpr (by omega)
  · exact Sign.mem_eqz.mpr (by omega)

theorem mem_lift_zero {w : Int64} (h : x = w.toInt) : x ∈ Zero.lift w := by
  unfold Zero.lift
  by_cases hw : w = 0
  · subst hw
    exact Zero.mem_isZero.mpr h
  · rw [bne_iff_ne.mpr hw]
    refine Zero.mem_isNonzero.mpr ?_
    rintro rfl
    exact hw (Int64.toInt_inj.mp h.symm)

theorem sure_toSign (hv : v.Numeric) (hx : x ∈ v) : v.toSign.Sure fun s => x ∈ s := by
  cases v with
  | constant c =>
      show Eval.Sure _ (c.liftValue >>= _)
      rw [Constant.Short.liftValue_eq hv]
      exact Eval.sure_pure (mem_lift_sign hx)
  | sign s => exact Eval.sure_pure hx
  | zero z =>
      refine Eval.sure_pure (Sign.mem_def.mpr ?_)
      rcases Zero.mem_def.mp hx with ⟨h0, hz⟩ | ⟨h0, hz⟩
      · exact Or.inr (Or.inl ⟨h0, hz⟩)
      · rcases Int.lt_or_gt_of_ne h0 with hneg | hpos
        · exact Or.inl ⟨hneg, hz⟩
        · exact Or.inr (Or.inr ⟨hpos, hz⟩)
  | interval i => exact Eval.sure_misuse
  | words r => exact hv.elim

theorem sure_toZero (hv : v.Numeric) (hx : x ∈ v) : v.toZero.Sure fun z => x ∈ z := by
  cases v with
  | constant c =>
      show Eval.Sure _ (c.liftValue >>= _)
      rw [Constant.Short.liftValue_eq hv]
      exact Eval.sure_pure (mem_lift_zero hx)
  | zero z => exact Eval.sure_pure hx
  | sign s => exact Eval.sure_misuse
  | interval i => exact Eval.sure_misuse
  | words r => exact hv.elim

theorem sure_sign_toInterval {s : Sign} (hx : x ∈ s) :
    s.toInterval.Sure fun i => x ∈ i ∧ i.Moderate (2 ^ 62) := by
  unfold Sign.toInterval
  split
  · exact Eval.sure_cancel
  · refine Eval.sure_pure ?_
    have hone : (1 : Bound).toInt = 1 := rfl
    have hneg : (-1 : Bound).toInt = -1 := rfl
    rw [Interval.mem_iff, Interval.moderate_iff]
    obtain ⟨neg, zero, pos⟩ := s
    cases neg <;> cases zero <;> cases pos <;> simp [Sign.mem_def] at hx <;>
      simp [hone, hneg, Bound.toInt_negInf, Bound.toInt_posInf] <;> omega

theorem sure_toInterval (hv : v.Numeric) (hx : x ∈ v) :
    v.toInterval.Sure fun i => x ∈ i ∧ i.Moderate (2 ^ 62) := by
  cases v with
  | constant c =>
      show Eval.Sure _ (c.liftValue >>= _)
      rw [Constant.Short.liftValue_eq hv]
      have hbounds := Constant.Short.signed_bounds hv
      obtain rfl : x = c.signed.toInt := hx
      exact Eval.sure_pure ⟨⟨Or.inr le_rfl, Or.inr le_rfl⟩, ⟨Or.inr hbounds, Or.inr hbounds⟩⟩
  | sign s => exact sure_sign_toInterval hx
  | zero z =>
      show Eval.Sure _ z.toInterval
      unfold Zero.toInterval
      split_ifs with hbot hzero
      · exact Eval.sure_cancel
      · subst hzero
        obtain rfl := Zero.mem_isZero.mp hx
        exact Eval.sure_pure ⟨⟨Or.inr le_rfl, Or.inr le_rfl⟩,
          ⟨Or.inr (by decide), Or.inr (by decide)⟩⟩
      · exact Eval.sure_pure ⟨Interval.mem_top, ⟨Or.inl rfl, Or.inl rfl⟩⟩
  | interval i => exact Eval.sure_pure ⟨hx, hv⟩
  | words r => exact hv.elim

theorem sure_toConstant : v.toConstant.Sure fun _ => v.domain = .constant := by
  cases v with
  | constant c => exact Eval.sure_pure rfl
  | _ => exact Eval.sure_misuse

/-- Among the values that stand for integers, only a constant is a word range. -/
theorem sure_toWords (hv : v.Numeric) : v.toWords.Sure fun _ => v.domain = .constant := by
  cases v with
  | constant c => exact Eval.sure_pure rfl
  | words r => exact hv.elim
  | _ => exact Eval.sure_misuse

end Value

/-! ## Operators -/

namespace Lattice

variable {a b : Value} {x y z : Int}

/-- An operator in one domain: both operands are brought there, and the result is wrapped. -/
theorem sure_in_domain {α : Type} {e e' : Eval α} {f : α → α → Eval α} {wrap : α → Value}
    {P P' : α → Prop} {Q : Value → Prop} (he : e.Sure P) (he' : e'.Sure P')
    (hf : ∀ p q, P p → P' q → (f p q).Sure fun r => Q (wrap r)) :
    Eval.Sure Q (do return wrap (← f (← e) (← e'))) := by
  refine Eval.sure_bind (he.mono ?_)
  intro p hp
  refine Eval.sure_bind (he'.mono ?_)
  intro q hq
  exact Eval.sure_bind ((hf p q hp hq).mono fun r hr => Eval.sure_pure hr)

theorem sure_binary (l : Lattice) {tag : Tag} (ha : a.Numeric) (hb : b.Numeric)
    (hab : ¬ (a.domain = .constant ∧ b.domain = .constant)) (hx : x ∈ a) (hy : y ∈ b)
    (hz : tag.Gives x y z) : (l.binary tag a b).Sure fun v => z ∈ v := by
  unfold binary join join?
  refine Eval.sure_bind ?_
  cases l.options.joins.lookup (some a.domain) (some b.domain) with
  | none => exact Eval.sure_misuse
  | some d =>
      refine Eval.sure_pure (Eval.sure_bind (Eval.sure_note ?_))
      cases d with
      | constant =>
          exact sure_in_domain Value.sure_toConstant Value.sure_toConstant
            fun _ _ hca hcb => absurd ⟨hca, hcb⟩ hab
      | sign =>
          exact sure_in_domain (Value.sure_toSign ha hx) (Value.sure_toSign hb hy)
            fun _ _ hp hq => Sign.sure_binary hp hq hz
      | zero =>
          exact sure_in_domain (Value.sure_toZero ha hx) (Value.sure_toZero hb hy)
            fun _ _ hp hq => Zero.sure_binary hp hq hz
      | interval =>
          exact sure_in_domain (Value.sure_toInterval ha hx) (Value.sure_toInterval hb hy)
            fun _ _ hp hq => Interval.sure_binary hp.2 hq.2 le_rfl hp.1 hq.1 hz
      | words =>
          exact sure_in_domain (Value.sure_toWords ha) (Value.sure_toWords hb)
            fun _ _ hca hcb => absurd ⟨hca, hcb⟩ hab

/-- **Forward soundness.**  Whatever the join table is, and so under all settings that pass the
checks: if an operator on two values gives a result at all, the result holds every integer
that the operator gives on integers of the two. -/
theorem mem_of_binary_eq_ok (l : Lattice) {tag : Tag} {v : Value} (answers : List Int)
    (ha : a.Numeric) (hb : b.Numeric) (hab : ¬ (a.domain = .constant ∧ b.domain = .constant))
    (hx : x ∈ a) (hy : y ∈ b) (hz : tag.Gives x y z)
    (hv : ((l.binary tag a b).run.play answers).result = .ok v) : z ∈ v :=
  (sure_binary l ha hb hab hx hy hz).of_play hv

/-- Settings may have words meet signs as intervals: 5 times a number below zero is then read
off the interval that ends at -5. -/
theorem mem_of_binary_eq_ok_overridden :
    let joins := JoinTable.standard.set .constant .sign (some .interval)
    let v : Value := .interval ⟨Bound.negInf, -5⟩
    joins.validate = .ok () ∧ (-15 : Int) ∈ v :=
  ⟨rfl, mem_of_binary_eq_ok
    ⟨⟨JoinTable.standard.set .constant .sign (some .interval), some .constant, some .interval,
      some, some⟩, defaultChooseBound⟩ []
    (a := .constant (.ofInt64 5 8)) (b := .sign .ltz) (x := 5) (y := -3)
    ⟨rfl, Or.inl rfl⟩ trivial (by decide) (show (5 : Int) = _ by decide)
    (show (-3 : Int) ∈ Sign.ltz from Sign.mem_ltz.mpr (by decide))
    (show Tag.Gives (.arith .mul) 5 (-3) (-15) from (rfl : some _ = some _)) rfl⟩

end Lattice

end Narrowing
