/-
# Narrowing from a product

Positive factors of a product that is known to lie in `r` have their low ends raised until
the least product reaches the low end of `r`, and their high ends lowered until the
greatest product keeps to the high end.  A new end is picked for the first factor: no less
than it takes with the most of the second factor, and no more than it takes with the least
of it.  The end of the second factor follows by a division.  So where the first factor has
no more members than may be asked for, every product of what is left lies in `r`.

A quotient by zero is 0, and a single alternative is taken without a question, so that a
division by zero or a choice out of bounds need not show in the outcome.  To speak about
them the narrowing is written once more with a division and a choice that are given from
outside (`Primitives`): whatever these do for a divisor of zero, or for a number of
alternatives that is not between 1 and the bound, they make no difference.
-/
import Narrowing.Proofs.Interval.Questions

namespace Narrowing

namespace Interval

variable {a b r u v w : Interval} {bound : UInt32} {e : Bound} {x y : Int}

/-! ## Positive factors -/

/-- Positive and finite ends, with integers between them. -/
structure Positive (v : Interval) : Prop where
  lo : 1 ≤ v.lo.toInt
  le : v.lo.toInt ≤ v.hi.toInt
  hi : v.hi.toInt < 2 ^ 63 - 1

theorem toInt_satMul {p q : Bound} (hp : 1 ≤ p.toInt) (hpfin : p.toInt < 2 ^ 63 - 1)
    (hq : 1 ≤ q.toInt) (hqfin : q.toInt < 2 ^ 63 - 1) :
    (Bound.satMul p q).toInt = min (p.toInt * q.toInt) (2 ^ 63 - 1) := by
  have hpos : 0 < p.toInt * q.toInt := Int.mul_pos (by omega) (by omega)
  rw [Bound.satMul_eq_clamp (.finite (Bound.finite_iff.mpr (by omega)))
    (.finite (Bound.finite_iff.mpr (by omega))), Bound.toInt_clamp]
  omega

theorem toInt_span {h l : Bound} (hl : 1 ≤ l.toInt) (hh : 0 ≤ h.toInt) :
    (h - l + 1).toInt = h.toInt - l.toInt + 1 := by
  have hone : (1 : Bound).toInt = 1 := rfl
  have := h.toInt_lt
  have := l.toInt_lt
  have hsub := Bound.toInt_sub (a := h) (b := l) (by omega) (by omega)
  rw [Bound.toInt_add (by omega) (by omega), hsub, hone]

theorem one_le_ceilDiv {d : Bound} (he : 1 ≤ e.toInt) (hefin : e.isInf = false) (hd : 1 ≤ d.toInt) :
    1 ≤ (Bound.ceilDiv e d).toInt := by
  have := Bound.ceilDiv_le_iff he hefin hd (t := 0)
  omega

theorem le_pick_down {h l o : Bound} (hl : 1 ≤ l.toInt) (hh : 0 ≤ h.toInt) (h0 : 0 ≤ o.toInt)
    (ho : o.toInt < (h - l + 1).toInt) : l.toInt ≤ (h - o).toInt := by
  rw [toInt_span hl hh] at ho
  have := h.toInt_lt
  have hsub := Bound.toInt_sub (a := h) (b := o) (by omega) (by omega)
  omega

theorem le_pick_up {h l o : Bound} (hl : 1 ≤ l.toInt) (hh : 0 ≤ h.toInt) (h0 : 0 ≤ o.toInt)
    (ho : o.toInt < (h - l + 1).toInt) :
    l.toInt ≤ (l + o).toInt ∧ (l + o).toInt ≤ h.toInt := by
  rw [toInt_span hl hh] at ho
  have := h.toInt_lt
  have hadd := Bound.toInt_add (a := l) (b := o) (by omega) (by omega)
  omega

section Ends

variable (ha : a.Positive) (hb : b.Positive) (he : e.isInf = false)

include ha hb he

/-- Raising the low ends: nothing else changes, and they multiply up to `e` if the first factor
has no more members than may be asked for. -/
theorem sure_raiseProduct : (raiseProduct bound e a b).Sure fun p =>
    (p.1.Positive ∧ p.2.Positive) ∧ (a.lo.toInt ≤ p.1.lo.toInt ∧ p.1.hi = a.hi ∧ p.2.hi = b.hi) ∧
      (a.hi.toInt - a.lo.toInt + 1 ≤ bound.toNat → e.toInt ≤ p.1.lo.toInt * p.2.lo.toInt) := by
  obtain ⟨ha1, hale, hafin⟩ := ha
  obtain ⟨hb1, hble, hbfin⟩ := hb
  have hefin := Bound.finite_iff.mp he
  have hprod := toInt_satMul ha1 (by omega) hb1 (by omega)
  unfold raiseProduct
  split
  · rename_i hshort
    rw [Int64.lt_iff_toInt_lt] at hshort
    have hpos : 0 < a.lo.toInt * b.lo.toInt := Int.mul_pos (by omega) (by omega)
    have he1 : 1 ≤ e.toInt := by omega
    have hhigh := Bound.toInt_lesser (Bound.ceilDiv e b.lo) a.hi
    have hceil : e.toInt ≤ (Bound.ceilDiv e b.lo).toInt * b.lo.toInt :=
      (Bound.ceilDiv_le_iff he1 he hb1).mp le_rfl
    have hceil1 := one_le_ceilDiv he1 he hb1
    refine Eval.sure_bind (sure_meetLow.mono ?_)
    rintro u ⟨hulo, huhi, hule⟩
    generalize Bound.lesser (Bound.ceilDiv e b.lo) a.hi = high at hhigh ⊢
    have huhi' : u.hi.toInt = a.hi.toInt := congrArg Int64.toInt huhi
    have hspan := toInt_span (h := high) (l := u.lo) (by omega) (by omega)
    dsimp only
    split
    · rename_i hwithin
      rw [withinBound_iff, hspan] at hwithin
      refine Eval.sure_bind (sure_chooseBelow.mono ?_)
      rintro o ⟨h0, ho⟩
      have hpick := le_pick_down (by omega) (by omega) h0 ho
      refine Eval.sure_bind (sure_meetLow.mono ?_)
      rintro u' ⟨hulo', huhi'', hule'⟩
      refine Eval.sure_bind (sure_meetLow.mono ?_)
      rintro w ⟨hwlo, hwhi, hwle⟩
      have hreach : e.toInt ≤ w.lo.toInt * (high - o).toInt :=
        (Bound.ceilDiv_le_iff he1 he (by omega)).mp (by omega)
      have hwhi' : w.hi.toInt = b.hi.toInt := congrArg Int64.toInt hwhi
      have huhi''' : u'.hi.toInt = u.hi.toInt := congrArg Int64.toInt huhi''
      have hu' : u'.Positive := ⟨by omega, hule', by omega⟩
      have hw : w.Positive := ⟨by omega, hwle, by omega⟩
      refine Eval.sure_pure ⟨⟨hu', hw⟩, ⟨?_, huhi''.trans huhi, hwhi⟩, fun _ => ?_⟩
      · show a.lo.toInt ≤ u'.lo.toInt
        omega
      · show e.toInt ≤ u'.lo.toInt * w.lo.toInt
        rw [Int.mul_comm, show u'.lo.toInt = (high - o).toInt by omega]
        exact hreach
    · rename_i hwithin
      rw [withinBound_iff, hspan] at hwithin
      have hu : u.Positive := ⟨by omega, hule, by omega⟩
      have hle : a.lo.toInt ≤ u.lo.toInt := by omega
      refine Eval.sure_pure ⟨⟨hu, hb1, hble, hbfin⟩, ⟨hle, huhi, rfl⟩, fun hfew => ?_⟩
      -- too many ends there cannot be, so the low end has passed the greatest one
      have hpast : (Bound.ceilDiv e b.lo).toInt ≤ u.lo.toInt := by omega
      exact hceil.trans (Int.mul_le_mul_of_nonneg_right hpast (by omega))
  · rename_i hreach
    rw [Int64.lt_iff_toInt_lt] at hreach
    exact Eval.sure_pure ⟨⟨⟨ha1, hale, hafin⟩, hb1, hble, hbfin⟩, ⟨le_rfl, rfl, rfl⟩,
      fun _ => show e.toInt ≤ a.lo.toInt * b.lo.toInt by omega⟩

/-- Lowering the high ends: nothing else changes, and they multiply up to no more than `e`. -/
theorem sure_lowerProduct (hpos : 0 < e.toInt) : (lowerProduct bound e a b).Sure fun p =>
    (p.1.Positive ∧ p.2.Positive) ∧ (p.1.lo = a.lo ∧ p.2.lo = b.lo) ∧
      (a.hi.toInt - a.lo.toInt + 1 ≤ bound.toNat → p.1.hi.toInt * p.2.hi.toInt ≤ e.toInt) := by
  obtain ⟨ha1, hale, hafin⟩ := ha
  obtain ⟨hb1, hble, hbfin⟩ := hb
  have hefin := Bound.finite_iff.mp he
  have hprod := toInt_satMul (p := a.hi) (q := b.hi) (by omega) hafin (by omega) hbfin
  unfold lowerProduct
  split
  · rename_i hlong
    rw [Int64.lt_iff_toInt_lt] at hlong
    have hlow := Bound.toInt_greater (e / b.hi) a.lo
    have hquot : a.hi.toInt < (e / b.hi).toInt → a.hi.toInt * b.hi.toInt ≤ e.toInt := fun h =>
      (Bound.le_div_iff (by omega) he (by omega)).mp h.le
    generalize Bound.greater (e / b.hi) a.lo = low at hlow ⊢
    have hspan := toInt_span (h := a.hi) (l := low) (by omega) (by omega)
    dsimp only
    split
    · rename_i hwithin
      rw [withinBound_iff, hspan] at hwithin
      refine Eval.sure_bind (sure_chooseBelow.mono ?_)
      rintro o ⟨h0, ho⟩
      obtain ⟨hpick, hpick'⟩ := le_pick_up (by omega) (by omega) h0 ho
      refine Eval.sure_bind (sure_meetHigh.mono ?_)
      rintro u ⟨huhi, hulo, hule⟩
      refine Eval.sure_bind (sure_meetHigh.mono ?_)
      rintro w ⟨hwhi, hwlo, hwle⟩
      have hkeep : w.hi.toInt * (low + o).toInt ≤ e.toInt :=
        (Bound.le_div_iff (by omega) he (by omega)).mp (by omega)
      have hulo' : u.lo.toInt = a.lo.toInt := congrArg Int64.toInt hulo
      have hwlo' : w.lo.toInt = b.lo.toInt := congrArg Int64.toInt hwlo
      have hu : u.Positive := ⟨by omega, hule, by omega⟩
      have hw : w.Positive := ⟨by omega, hwle, by omega⟩
      refine Eval.sure_pure ⟨⟨hu, hw⟩, ⟨hulo, hwlo⟩, fun _ => ?_⟩
      show u.hi.toInt * w.hi.toInt ≤ e.toInt
      rw [Int.mul_comm, show u.hi.toInt = (low + o).toInt by omega]
      exact hkeep
    · rename_i hwithin
      rw [withinBound_iff, hspan] at hwithin
      refine Eval.sure_pure ⟨⟨⟨ha1, hale, hafin⟩, hb1, hble, hbfin⟩, ⟨rfl, rfl⟩, fun hfew => ?_⟩
      exact hquot (by omega)
  · rename_i hkeep
    rw [Int64.lt_iff_toInt_lt, Int64.lt_iff_toInt_lt, Bound.toInt_zero] at hkeep
    exact Eval.sure_pure ⟨⟨⟨ha1, hale, hafin⟩, hb1, hble, hbfin⟩, ⟨rfl, rfl⟩,
      fun _ => show a.hi.toInt * b.hi.toInt ≤ e.toInt by omega⟩

end Ends

/-! ## Exactness -/

theorem Positive.isFinite (hv : v.Positive) : v.isFinite = true := by
  obtain ⟨hlo, hle, hhi⟩ := hv
  exact isFinite_iff.mpr (by omega)

theorem Positive.contains_zero (hv : v.Positive) : v.contains 0 = false := by
  have := hv.lo
  rw [Bool.eq_false_iff, Ne, contains_iff, Bound.toInt_zero]
  omega

theorem sure_narrow_le {o : Option Interval} (hv : v.lo.toInt ≤ v.hi.toInt) :
    (v.narrow o).Sure fun u => u.lo.toInt ≤ u.hi.toInt ∧
      (v.lo.toInt ≤ u.lo.toInt ∧ u.hi.toInt ≤ v.hi.toInt) ∧
      ∀ w, o = some w → u.hi.toInt ≤ w.hi.toInt := by
  refine (sure_narrow hv).mono ?_
  rintro u ⟨rfl, hle⟩
  refine ⟨hle, ?_⟩
  cases o with
  | none => exact ⟨⟨le_rfl, le_rfl⟩, nofun⟩
  | some w =>
      have hlow := Bound.toInt_greater v.lo w.lo
      have hhigh := Bound.toInt_lesser v.hi w.hi
      change (v.met (some w)).lo.toInt = _ at hlow
      change (v.met (some w)).hi.toInt = _ at hhigh
      refine ⟨by omega, fun w' hw' => ?_⟩
      obtain rfl : w = w' := Option.some.inj hw'
      omega

theorem div?_nonpos {p d : Bound} (hp : p.isInf = false) (hp0 : p.toInt ≤ 0) (hd : 1 ≤ d.toInt)
    (hdfin : d.toInt < 2 ^ 63 - 1) : ∃ q, Bound.div? p d = some q ∧ q.toInt ≤ 0 := by
  have hd0 : d ≠ 0 := by
    rw [Ne, ← Int64.toInt_inj, Bound.toInt_zero]
    omega
  have hdinf : d.isInf = false := Bound.finite_iff.mpr (by omega)
  refine ⟨p / d, by simp [Bound.div?, hd0, hp, hdinf], ?_⟩
  rw [Bound.toInt_div hp, ← Int.zero_tdiv d.toInt]
  exact Int.tdiv_le_tdiv (by omega) hp0

theorem div?_hi_nonpos (hr : r.isFinite = true) (hle : r.lo.toInt ≤ r.hi.toInt)
    (hhi : r.hi.toInt ≤ 0) (hb : b.Positive) : ∃ q, div? r b = some q ∧ q.hi.toInt ≤ 0 := by
  have hzero := hb.contains_zero
  simp only [isFinite, Bool.and_eq_true, Bool.not_eq_true'] at hr
  obtain ⟨hb1, hble, hbfin⟩ := hb
  obtain ⟨ll, hll, hll0⟩ := div?_nonpos hr.1 (by omega) hb1 (by omega)
  obtain ⟨lh, hlh, hlh0⟩ := div?_nonpos (d := b.hi) hr.1 (by omega) (by omega) hbfin
  obtain ⟨hl, hhl, hhl0⟩ := div?_nonpos hr.2 hhi hb1 (by omega)
  obtain ⟨hh, hhh, hhh0⟩ := div?_nonpos (d := b.hi) hr.2 hhi (by omega) hbfin
  simp only [div?, hzero, corners?, hll, hlh, hhl, hhh]
  refine ⟨_, rfl, ?_⟩
  simp only [Bound.toInt_greater]
  omega

/-- The ends of what is left of positive factors multiply up to the ends of `r`, if the first
factor has no more members than may be asked for. -/
theorem sure_backwardMul (ha : a.Positive) (hb : b.Positive) (hr : r.isFinite = true)
    (hrle : r.lo.toInt ≤ r.hi.toInt) : (backwardMul bound r a b).Sure fun p =>
      (p.1.Positive ∧ p.2.Positive) ∧ (a.hi.toInt - a.lo.toInt + 1 ≤ bound.toNat →
        r.lo.toInt ≤ p.1.lo.toInt * p.2.lo.toInt ∧ p.1.hi.toInt * p.2.hi.toInt ≤ r.hi.toInt) := by
  have hfin : ∀ {v : Interval}, v.Positive → ¬ v.lo < 1 := by
    intro v hv
    rw [Int64.lt_iff_toInt_lt]
    exact not_lt.mpr hv.lo
  have hends := hr
  simp only [isFinite, Bool.and_eq_true, Bool.not_eq_true'] at hends
  unfold backwardMul
  simp only [ha.isFinite, hb.isFinite, hb.contains_zero, Bool.not_true, Bool.or_self,
    Bool.false_eq_true, if_false]
  refine Eval.sure_bind ((sure_narrow_le ha.le).mono ?_)
  rintro u ⟨hule, ⟨hulo, huhi⟩, hquot⟩
  have hu : u.Positive := ⟨ha.lo.trans hulo, hule, huhi.trans_lt ha.hi⟩
  simp only [hu.contains_zero, Bool.false_eq_true, if_false]
  refine Eval.sure_bind ((sure_narrow_le hb.le).mono ?_)
  rintro w ⟨hwle, ⟨hwlo, hwhi⟩, -⟩
  have hw : w.Positive := ⟨hb.lo.trans hwlo, hwle, hwhi.trans_lt hb.hi⟩
  simp only [hfin hu, hfin hw, hr, decide_false, Bool.not_true, Bool.or_self, Bool.false_eq_true,
    if_false]
  have hpos : 0 < r.hi.toInt := by
    by_contra hneg
    obtain ⟨q, hq, hq0⟩ := div?_hi_nonpos hr hrle (by omega) hb
    have := hquot q hq
    have := hu.lo
    have := hu.le
    omega
  refine Eval.sure_bind ((sure_raiseProduct hu hw hends.1).mono ?_)
  rintro p ⟨⟨hp, hp'⟩, ⟨hplo, hphi, -⟩, hraised⟩
  refine (sure_lowerProduct hp hp' hends.2 hpos).mono ?_
  rintro q ⟨hq, ⟨hqlo, hqlo'⟩, hlowered⟩
  refine ⟨hq, fun hfew => ?_⟩
  rw [hqlo, hqlo']
  exact ⟨hraised (by omega), hlowered (by rw [hphi]; omega)⟩

/-! ## Divisions and choices -/

/-- A division and a choice, in the place of those that narrowing makes. -/
structure Primitives where
  divide : Bound → Bound → Eval Bound
  choose : Int → Eval Nat

/-- They are the usual ones wherever the divisor is not zero, and the number of alternatives is
between 1 and the bound. -/
structure Primitives.Regular (bound : UInt32) (ops : Primitives) : Prop where
  divide : ∀ p d, d ≠ 0 → ops.divide p d = pure (p / d)
  choose : ∀ n : Int, 1 ≤ n → n ≤ bound.toNat → ops.choose n = Eval.choose n

example : Primitives.Regular bound ⟨fun p d => pure (p / d), Eval.choose⟩ :=
  ⟨fun _ _ _ => rfl, fun _ _ _ => rfl⟩

namespace Primitives

variable (ops : Primitives)

def satMul (b o : Bound) : Eval Bound :=
  if b = 0 || o = 0 then pure 0
  else
    let inf := Bound.infinity (Bound.sign b * Bound.sign o)
    if b.isInf || o.isInf then pure inf
    else do
      let p := b * o
      return if (← ops.divide p o) ≠ b || p == Bound.posInf || p == Bound.negInf then inf else p

def div? (b o : Bound) : Eval (Option Bound) :=
  if o = 0 then pure none
  else if b.isInf && o.isInf then pure none
  else if o.isInf then pure (some 0)
  else if b.isInf then pure (some (Bound.infinity (Bound.sign b * Bound.sign o)))
  else do return some (← ops.divide b o)

def ceilDiv (a b : Bound) : Eval Bound := do return (← ops.divide (a - 1) b) + 1

/-- The quotients of two intervals; all four corners are computed. -/
def quotients? (a b : Interval) : Eval (Option Interval) := do
  if b.contains 0 then return none
  let ll ← ops.div? a.lo b.lo
  let lh ← ops.div? a.lo b.hi
  let hl ← ops.div? a.hi b.lo
  let hh ← ops.div? a.hi b.hi
  return do
    let ll ← ll
    let lh ← lh
    let hl ← hl
    let hh ← hh
    return ⟨Bound.lesser (Bound.lesser (Bound.lesser ll lh) hl) hh,
      Bound.greater (Bound.greater (Bound.greater ll lh) hl) hh⟩

def chooseBelow (n : Bound) : Eval Bound := do return Int64.ofNat (← ops.choose n.toInt)

def raiseProduct (bound : UInt32) (low : Bound) (a b : Interval) : Eval (Interval × Interval) := do
  if (← ops.satMul a.lo b.lo) < low then
    let high := Bound.lesser (← ops.ceilDiv low b.lo) a.hi
    let a ← meetLow a (← ops.ceilDiv low b.hi)
    let n := high - a.lo + 1
    if withinBound bound n then
      let pick := high - (← ops.chooseBelow n)
      return (← meetLow a pick, ← meetLow b (← ops.ceilDiv low pick))
    else return (a, b)
  else return (a, b)

def lowerProduct (bound : UInt32) (high : Bound) (a b : Interval) : Eval (Interval × Interval) := do
  if high < (← ops.satMul a.hi b.hi) ∧ 0 < high then
    let low := Bound.greater (← ops.divide high b.hi) a.lo
    let n := a.hi - low + 1
    if withinBound bound n then
      let pick := low + (← ops.chooseBelow n)
      return (← meetHigh a pick, ← meetHigh b (← ops.divide high pick))
    else return (a, b)
  else return (a, b)

def backwardMul (bound : UInt32) (r a b : Interval) : Eval (Interval × Interval) := do
  if !a.isFinite || !b.isFinite then return (a, b)
  let a ← if b.contains 0 then pure a else a.narrow (← ops.quotients? r b)
  let b ← if a.contains 0 then pure b else b.narrow (← ops.quotients? r a)
  if a.lo < 1 || b.lo < 1 || !r.isFinite then return (a, b)
  let (a, b) ← ops.raiseProduct bound r.lo a b
  ops.lowerProduct bound r.hi a b

/-- Two ways to go on that agree on whatever a meet may leave. -/
theorem narrowUnless_congr {β : Type} {c : Prop} [Decidable c] {o : Option Interval}
    {f f' : Interval → Eval β} (hv : v.lo.toInt ≤ v.hi.toInt) (hfin : v.hi.toInt < 2 ^ 63 - 1)
    (hf : ∀ u : Interval, u.lo.toInt ≤ u.hi.toInt → u.hi.toInt < 2 ^ 63 - 1 → f u = f' u) :
    (if c then f v else v.narrow o >>= f) = if c then f' v else v.narrow o >>= f' := by
  split
  · exact hf v hv hfin
  · refine Eval.bind_congr_of_sure ((sure_narrow_le hv).mono ?_)
    rintro u ⟨hle, ⟨-, hhi⟩, -⟩
    exact hf u hle (hhi.trans_lt hfin)

namespace Regular

variable {ops} (h : ops.Regular bound)

include h

theorem satMul_eq (p q : Bound) : ops.satMul p q = pure (Bound.satMul p q) := by
  unfold Primitives.satMul Bound.satMul
  split
  · rfl
  · rename_i hzero
    simp only [Bool.or_eq_true, decide_eq_true_eq, not_or] at hzero
    dsimp only
    split
    · rfl
    · rw [h.divide _ _ hzero.2, pure_bind]

theorem div?_eq (p q : Bound) : ops.div? p q = pure (Bound.div? p q) := by
  unfold Primitives.div? Bound.div?
  split_ifs with hzero
  · rfl
  · rfl
  · rfl
  · rfl
  · rw [h.divide _ _ hzero, pure_bind]

theorem ceilDiv_eq {p q : Bound} (hq : 1 ≤ q.toInt) :
    ops.ceilDiv p q = pure (Bound.ceilDiv p q) := by
  have hzero : q ≠ 0 := by
    rw [Ne, ← Int64.toInt_inj, Bound.toInt_zero]
    omega
  unfold Primitives.ceilDiv
  rw [h.divide _ _ hzero, pure_bind]
  rfl

theorem quotients?_eq (u w : Interval) : ops.quotients? u w = pure (Interval.div? u w) := by
  unfold quotients? Interval.div?
  simp only [h.div?_eq, pure_bind]
  split
  · rfl
  · rfl

theorem chooseBelow_eq {n : Bound} (hn : withinBound bound n = true) :
    ops.chooseBelow n = Interval.chooseBelow n := by
  obtain ⟨hpos, hle⟩ := withinBound_iff.mp hn
  unfold Primitives.chooseBelow
  rw [h.choose _ (by omega) hle]
  rfl

theorem raiseProduct_eq (ha : a.Positive) (hb : b.Positive) (he : e.isInf = false) :
    ops.raiseProduct bound e a b = Interval.raiseProduct bound e a b := by
  obtain ⟨ha1, hale, hafin⟩ := ha
  obtain ⟨hb1, hble, hbfin⟩ := hb
  unfold Primitives.raiseProduct Interval.raiseProduct
  rw [h.satMul_eq, pure_bind]
  by_cases hshort : Bound.satMul a.lo b.lo < e
  · rw [if_pos hshort, if_pos hshort, h.ceilDiv_eq hb1, pure_bind, h.ceilDiv_eq (by omega),
      pure_bind]
    have hprod := toInt_satMul ha1 (by omega) hb1 (by omega)
    have hpos : 0 < a.lo.toInt * b.lo.toInt := Int.mul_pos (by omega) (by omega)
    rw [Int64.lt_iff_toInt_lt] at hshort
    have hceil := one_le_ceilDiv (e := e) (by omega) he hb1
    have hhigh := Bound.toInt_lesser (Bound.ceilDiv e b.lo) a.hi
    refine Eval.bind_congr_of_sure (sure_meetLow.mono ?_)
    rintro u ⟨hulo, -, -⟩
    generalize Bound.lesser (Bound.ceilDiv e b.lo) a.hi = high at hhigh ⊢
    dsimp only
    by_cases hwithin : withinBound bound (high - u.lo + 1) = true
    · rw [if_pos hwithin, if_pos hwithin, h.chooseBelow_eq hwithin]
      refine Eval.bind_congr_of_sure (sure_chooseBelow.mono ?_)
      rintro o ⟨h0, ho⟩
      have hpick := le_pick_down (by omega) (by omega) h0 ho
      refine bind_congr fun u' => ?_
      rw [h.ceilDiv_eq (by omega), pure_bind]
    · rw [if_neg hwithin, if_neg hwithin]
  · rw [if_neg hshort, if_neg hshort]

theorem lowerProduct_eq (ha : a.Positive) (hb : b.Positive) :
    ops.lowerProduct bound e a b = Interval.lowerProduct bound e a b := by
  obtain ⟨ha1, hale, hafin⟩ := ha
  obtain ⟨hb1, hble, hbfin⟩ := hb
  have hdivide : ∀ {d : Bound}, 1 ≤ d.toInt → ops.divide e d = pure (e / d) := by
    intro d hd
    refine h.divide e d ?_
    rw [Ne, ← Int64.toInt_inj, Bound.toInt_zero]
    omega
  unfold Primitives.lowerProduct Interval.lowerProduct
  rw [h.satMul_eq, pure_bind]
  by_cases hlong : e < Bound.satMul a.hi b.hi ∧ 0 < e
  · rw [if_pos hlong, if_pos hlong, hdivide (by omega), pure_bind]
    have hlow := Bound.toInt_greater (e / b.hi) a.lo
    dsimp only
    by_cases hwithin : withinBound bound (a.hi - Bound.greater (e / b.hi) a.lo + 1) = true
    · rw [if_pos hwithin, if_pos hwithin, h.chooseBelow_eq hwithin]
      refine Eval.bind_congr_of_sure (sure_chooseBelow.mono ?_)
      rintro o ⟨h0, ho⟩
      obtain ⟨hpick, -⟩ := le_pick_up (by omega) (by omega) h0 ho
      refine bind_congr fun u => ?_
      rw [hdivide (by omega), pure_bind]
    · rw [if_neg hwithin, if_neg hwithin]
  · rw [if_neg hlong, if_neg hlong]

/-- **No division by zero, and no choice out of bounds.**  Narrowing from a product is the same
whatever the primitives do there. -/
theorem backwardMul_eq (ha : a.lo.toInt ≤ a.hi.toInt) (hb : b.lo.toInt ≤ b.hi.toInt) :
    ops.backwardMul bound r a b = Interval.backwardMul bound r a b := by
  unfold Primitives.backwardMul Interval.backwardMul
  by_cases hinf : (!a.isFinite || !b.isFinite) = true
  · rw [if_pos hinf, if_pos hinf]
  · rw [if_neg hinf, if_neg hinf]
    simp only [Bool.or_eq_true, Bool.not_eq_true', not_or, Bool.not_eq_false, isFinite_iff] at hinf
    simp only [h.quotients?_eq, pure_bind]
    refine narrowUnless_congr ha (by omega) fun u hule hufin => ?_
    refine narrowUnless_congr hb (by omega) fun w hwle hwfin => ?_
    by_cases hreturn : (decide (u.lo < 1) || decide (w.lo < 1) || !r.isFinite) = true
    · rw [if_pos hreturn, if_pos hreturn]
    · rw [if_neg hreturn, if_neg hreturn]
      have hone : (1 : Bound).toInt = 1 := rfl
      simp only [Bool.or_eq_true, decide_eq_true_eq, Bool.not_eq_true', not_or, Bool.not_eq_false,
        Int64.lt_iff_toInt_lt, hone, not_lt, isFinite, Bool.and_eq_true] at hreturn
      obtain ⟨⟨hu1, hw1⟩, hrlo, -⟩ := hreturn
      have hu : u.Positive := ⟨hu1, hule, hufin⟩
      have hw : w.Positive := ⟨hw1, hwle, hwfin⟩
      rw [h.raiseProduct_eq hu hw hrlo]
      refine Eval.bind_congr_of_sure ((sure_raiseProduct hu hw hrlo).mono ?_)
      rintro p ⟨⟨hp, hp'⟩, -⟩
      exact h.lowerProduct_eq hp hp'

end Regular

end Primitives

/-! ## Questions -/

theorem asks_backwardMul : (backwardMul bound r a b).Asks fun k => 1 ≤ k ∧ k ≤ bound.toNat :=
  poses_backwardMul.asks.mono fun _ h => ⟨Nat.le_of_succ_le h.1, h.2⟩

/-! ## Products -/

theorem length_le_of_encard {n : Nat} (h : {x | x ∈ v}.encard ≤ n) :
    v.hi.toInt - v.lo.toInt + 1 ≤ n := by
  by_contra hlong
  refine absurd h (not_le.mpr (lt_encard (l := v.lo.toInt) fun z hl hh => ?_))
  exact mem_iff.mpr ⟨Or.inr hl, Or.inr (by omega)⟩

/-- **Narrowing from a product loses no pair of factors, and is exact for positive factors that
can be enumerated.**  Of every pair whose product is in `r`, some answers keep both factors.
Every question has between 1 and `bound` alternatives, and what divisions by zero or other
choices would do makes no difference.  And where the factors are positive and all is finite,
with no more members of the first factor than may be asked for, every pair of what is left has
its product in `r`. -/
theorem backward_product_exact (bound : UInt32) (hr : r.Oriented) (hrne : r.isBottom = false)
    (hane : a.isBottom = false) (hbne : b.isBottom = false) :
    (∀ x ∈ a, ∀ y ∈ b, x * y ∈ r → ∃ answers,
      let play := (backward bound (.arith .mul) r a b).run.play answers
      Dialogue.Fit .inRange answers play.asked ∧
        ∃ p, play.result = .ok p ∧ x ∈ p.1 ∧ y ∈ p.2) ∧
    ((∀ answers, ∀ n ∈ ((backward bound (.arith .mul) r a b).run.play answers).asked,
        1 ≤ n ∧ n ≤ bound.toNat) ∧
      ∀ ops : Primitives, ops.Regular bound →
        ops.backwardMul bound r a b = backward bound (.arith .mul) r a b) ∧
    (1 ≤ a.lo.toInt → 1 ≤ b.lo.toInt →
      a.isFinite = true → b.isFinite = true → r.isFinite = true →
      {x | x ∈ a}.encard ≤ bound.toNat →
      ∀ answers p, ((backward bound (.arith .mul) r a b).run.play answers).result = .ok p →
        ∀ x ∈ p.1, ∀ y ∈ p.2, x * y ∈ r) := by
  rw [isBottom_eq_false_iff] at hrne hane hbne
  refine ⟨fun x hx y hy hz => ?_, ⟨fun answers => ?_, fun ops hops => ?_⟩, ?_⟩
  · have hcan : (backwardMul bound r a b).Can fun p => Keeps x a p.1 ∧ Keeps y b p.2 :=
      can_backwardMul hr hx hy hz
    obtain ⟨answers, hfit, p, hp, hkeeps⟩ := hcan.exists_answers
    exact ⟨answers, hfit, p, hp, hkeeps.1.mem, hkeeps.2.mem⟩
  · exact asks_backwardMul.of_play answers
  · exact hops.backwardMul_eq hane hbne
  · intro ha1 hb1 hafin hbfin hrfin hfew answers p hp x hx y hy
    have hlength := length_le_of_encard hfew
    have hafin' := isFinite_iff.mp hafin
    have hbfin' := isFinite_iff.mp hbfin
    have ha : a.Positive := ⟨ha1, hane, by omega⟩
    have hb : b.Positive := ⟨hb1, hbne, by omega⟩
    obtain ⟨⟨hp1, hp2⟩, hends⟩ := (sure_backwardMul ha hb hrfin hrne).of_play hp
    obtain ⟨hlow, hhigh⟩ := hends hlength
    obtain ⟨hlo1, hle1, hhi1⟩ := hp1
    obtain ⟨hlo2, hle2, hhi2⟩ := hp2
    rw [mem_iff] at hx hy ⊢
    refine ⟨Or.inr (hlow.trans ?_), Or.inr (le_trans ?_ hhigh)⟩
    · exact Int.mul_le_mul (by omega) (by omega) (by omega) (by omega)
    · exact Int.mul_le_mul (by omega) (by omega) (by omega) (by omega)

/-- The factors 1..3 and 1..9 of a product of 5..6: 2 and 3 can be kept, and every product of
what is left is 5 or 6. -/
theorem backward_product_exact_small :
    let narrowed := backward 3 (.arith .mul) ⟨5, 6⟩ ⟨1, 3⟩ ⟨1, 9⟩
    (∃ answers, Dialogue.Fit .inRange answers (narrowed.run.play answers).asked ∧
      ∃ p, (narrowed.run.play answers).result = .ok p ∧ (2 : Int) ∈ p.1 ∧ (3 : Int) ∈ p.2) ∧
    ∀ answers p, (narrowed.run.play answers).result = .ok p →
      ∀ x ∈ p.1, ∀ y ∈ p.2, x * y = 5 ∨ x * y = 6 := by
  have hcard : {x | x ∈ (⟨1, 3⟩ : Interval)}.encard ≤ (3 : UInt32).toNat := by
    have hmembers : {x | x ∈ (⟨1, 3⟩ : Interval)} = ↑(Finset.Icc (1 : Int) 3) := by
      ext x
      rw [Finset.coe_Icc, Set.mem_Icc]
      show x ∈ (⟨1, 3⟩ : Interval) ↔ _
      rw [mem_iff]
      exact ⟨fun h => ⟨h.1.resolve_left (by decide), h.2.resolve_left (by decide)⟩,
        fun h => ⟨Or.inr h.1, Or.inr h.2⟩⟩
    rw [hmembers, Set.encard_coe_eq_coe_finsetCard]
    exact le_rfl
  obtain ⟨hkeep, -, hexact⟩ := backward_product_exact (a := ⟨1, 3⟩) (b := ⟨1, 9⟩) (r := ⟨5, 6⟩) 3
    (oriented_iff.mpr (by decide)) (by decide) (by decide) (by decide)
  refine ⟨hkeep 2 (mem_iff.mpr (by decide)) 3 (mem_iff.mpr (by decide))
    (mem_iff.mpr (by decide)), ?_⟩
  intro answers p hp x hx y hy
  have hmem := hexact (by decide) (by decide) (by decide) (by decide) (by decide) hcard answers p hp
    x hx y hy
  have h5 : (5 : Bound).toInt = 5 := rfl
  have h6 : (6 : Bound).toInt = 6 := rfl
  simp only [mem_iff, h5, h6] at hmem
  omega

end Interval

end Narrowing
