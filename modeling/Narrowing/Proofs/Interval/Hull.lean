/-
# Arithmetic on finite intervals is the exact hull

The results of an operator on the members of two intervals are a set of integers
(`results`).  What the operator gives on the intervals is around all of them, and no wider
than it has to be: its ends are the least and the greatest of them, each clamped.

Two facts carry this.  An operator that goes one way in each operand, whichever way that
is, takes its extremes over a box at the corners (`OneWay.extremes`).  Which corner is the
least hangs on the signs of the operands, and is never asked.  And on finite end points each
operator gives the clamp of the exact result.  A clamp keeps the order, so the least of the
four given is the clamp of the least of the four exact ones.

Sums and differences work end by end, and for them two of the corners are known to be the
outermost.
-/
import Narrowing.Proofs.Interval.Saturation

namespace Narrowing

/-- A shift by a greater amount goes toward zero, or toward -1 from below. -/
theorem between_shift {l y h : Int} (h0 : 0 ≤ l) (hl : l ≤ y) (hh : y ≤ h) (p : Int) :
    Between (p / 2 ^ l.toNat) (p / 2 ^ y.toNat) (p / 2 ^ h.toNat) := by
  have hfirst := shift_toward (p := p) h0 hl
  have hsecond := shift_toward (p := p) (h0.trans hl) hh
  rcases Int.lt_or_le p 0 with hp | hp
  · exact Or.inl ⟨hfirst.2 hp, hsecond.2 hp⟩
  · exact Or.inr ⟨hsecond.1 hp, hfirst.1 hp⟩

namespace Bound

variable {b o : Bound}

/-! ## Finite end points -/

theorem div?_of_finite (hb : b.isInf = false) (ho : o.isInf = false) (h0 : o.toInt ≠ 0) :
    div? b o = some (clamp (b.toInt.tdiv o.toInt)) := by
  have hne : o ≠ 0 := fun h => h0 (Int64.toInt_inj.mpr h)
  have hquot : div? b o = some (b / o) := by
    simp only [div?, hb, ho, if_neg hne, Bool.and_self, Bool.false_eq_true, if_false]
  rw [hquot, div?_eq_clamp (.finite hb) (.finite ho) hquot]

theorem shl?_of_finite (hb : b.isInf = false) (ho : o.isInf = false) (h0 : 0 ≤ o.toInt) :
    shl? b o = some (clamp (b.toInt * 2 ^ o.toInt.toNat)) := by
  have hneg : ¬ o < 0 := by
    rw [Int64.lt_iff_toInt_lt]
    exact not_lt.mpr h0
  obtain ⟨q, hq⟩ : ∃ q, shl? b o = some q := by
    simp only [shl?, if_neg hneg, ← apply_ite some]
    exact ⟨_, rfl⟩
  rw [hq, (shl?_eq_clamp (.finite hb) (.finite ho) hq).2]

theorem shr?_of_finite (hb : b.isInf = false) (ho : o.isInf = false) (h0 : 0 ≤ o.toInt) :
    shr? b o = some (clamp (b.toInt / 2 ^ o.toInt.toNat)) := by
  have hneg : ¬ o < 0 := by
    rw [Int64.lt_iff_toInt_lt]
    exact not_lt.mpr h0
  obtain ⟨q, hq⟩ : ∃ q, shr? b o = some q := by
    simp only [shr?, if_neg hneg, ← apply_ite some]
    exact ⟨_, rfl⟩
  rw [hq, ← (shr?_toInt hb (.finite ho) hq).2, clamp_toInt]

end Bound

namespace Interval

open Narrowing.Bound (clamp)

variable {a b v : Interval} {op : Arith} {g : Int → Int → Int}

/-! ## Extremes at the corners -/

/-- The results of an operator on the members of two intervals. -/
def results (op : Arith) (a b : Interval) : Set Int :=
  {z | ∃ x ∈ a, ∃ y ∈ b, op.eval? x y = some z}

/-- The operator lies between its values at the two ends of each operand. -/
def OneWay (g : Int → Int → Int) (a b : Interval) : Prop :=
  ∀ x ∈ a, ∀ y ∈ b, Between (g a.lo.toInt y) (g x y) (g a.hi.toInt y) ∧
    Between (g x b.lo.toInt) (g x y) (g x b.hi.toInt)

/-- The least value at the four pairs of ends. -/
def leastCorner (g : Int → Int → Int) (a b : Interval) : Int :=
  min (min (min (g a.lo.toInt b.lo.toInt) (g a.lo.toInt b.hi.toInt))
    (g a.hi.toInt b.lo.toInt)) (g a.hi.toInt b.hi.toInt)

/-- The greatest value at the four pairs of ends. -/
def greatestCorner (g : Int → Int → Int) (a b : Interval) : Int :=
  max (max (max (g a.lo.toInt b.lo.toInt) (g a.lo.toInt b.hi.toInt))
    (g a.hi.toInt b.lo.toInt)) (g a.hi.toInt b.hi.toInt)

theorem ends_mem (hne : v.isBottom = false) : ∀ e ∈ [v.lo, v.hi], e.toInt ∈ v := by
  have hle := isBottom_eq_false_iff.mp hne
  simp only [List.forall_mem_cons, List.not_mem_nil]
  exact ⟨lo_mem hle, hi_mem hle, nofun⟩

/-- The corners are values themselves, and every other value lies between two of them. -/
theorem OneWay.extremes (hg : OneWay g a b) (ha : a.isBottom = false) (hb : b.isBottom = false) :
    IsLeast {z | ∃ x ∈ a, ∃ y ∈ b, g x y = z} (leastCorner g a b) ∧
      IsGreatest {z | ∃ x ∈ a, ∃ y ∈ b, g x y = z} (greatestCorner g a b) := by
  obtain ⟨hal, hah, -⟩ := by simpa only [List.forall_mem_cons] using ends_mem ha
  obtain ⟨hbl, hbh, -⟩ := by simpa only [List.forall_mem_cons] using ends_mem hb
  have hvalue : ∀ {x y : Int}, x ∈ a → y ∈ b → g x y ∈ {z | ∃ x ∈ a, ∃ y ∈ b, g x y = z} :=
    fun hx hy => ⟨_, hx, _, hy, rfl⟩
  have hbounds : ∀ x ∈ a, ∀ y ∈ b, leastCorner g a b ≤ g x y ∧ g x y ≤ greatestCorner g a b := by
    intro x hx y hy
    have hacross := (hg x hx y hy).1
    have hlow := (hg a.lo.toInt hal y hy).2
    have hhigh := (hg a.hi.toInt hah y hy).2
    unfold Between at hacross hlow hhigh
    unfold leastCorner greatestCorner
    omega
  refine ⟨⟨?_, ?_⟩, ?_, ?_⟩
  · exact min_rec' _ (min_rec' _ (min_rec' _ (hvalue hal hbl) (hvalue hal hbh)) (hvalue hah hbl))
      (hvalue hah hbh)
  · rintro z ⟨x, hx, y, hy, rfl⟩
    exact (hbounds x hx y hy).1
  · exact max_rec' _ (max_rec' _ (max_rec' _ (hvalue hal hbl) (hvalue hal hbh)) (hvalue hah hbl))
      (hvalue hah hbh)
  · rintro z ⟨x, hx, y, hy, rfl⟩
    exact (hbounds x hx y hy).2

/-- What makes an operator exact on two intervals: it is an operator on integers there, which
goes one way in each operand, and it gives the outermost corners, clamped. -/
structure Cornered (op : Arith) (g : Int → Int → Int) (a b : Interval) : Prop where
  eval : ∀ x ∈ a, ∀ y ∈ b, op.eval? x y = some (g x y)
  oneWay : OneWay g a b
  ends : arith? op a b = some ⟨clamp (leastCorner g a b), clamp (greatestCorner g a b)⟩

theorem Cornered.results_eq (h : Cornered op g a b) :
    results op a b = {z | ∃ x ∈ a, ∃ y ∈ b, g x y = z} := by
  ext z
  constructor
  · rintro ⟨x, hx, y, hy, hz⟩
    rw [h.eval x hx y hy] at hz
    exact ⟨x, hx, y, hy, Option.some.inj hz⟩
  · rintro ⟨x, hx, y, hy, rfl⟩
    exact ⟨x, hx, y, hy, h.eval x hx y hy⟩

theorem toInt_clamp_mono {l h : Int} (hle : l ≤ h) : (clamp l).toInt ≤ (clamp h).toInt := by
  rw [Bound.toInt_clamp, Bound.toInt_clamp]
  exact max_le_max le_rfl (min_le_min hle le_rfl)

/-- The ends of what is given are the extremes of the results, clamped. -/
theorem Cornered.exists_extremes (h : Cornered op g a b) (ha : a.isBottom = false)
    (hb : b.isBottom = false) : ∃ l u, IsLeast (results op a b) l ∧
      IsGreatest (results op a b) u ∧ binary (.arith op) a b = pure ⟨clamp l, clamp u⟩ := by
  obtain ⟨hleast, hgreatest⟩ := h.oneWay.extremes ha hb
  rw [h.results_eq]
  refine ⟨leastCorner g a b, greatestCorner g a b, hleast, hgreatest, ?_⟩
  show settle _ (arith? op a b) = _
  rw [h.ends]
  exact make_of_le (toInt_clamp_mono (hgreatest.2 hleast.1))

theorem corners?_eq_clamp {f : Bound → Bound → Option Bound}
    (hf : ∀ e ∈ [a.lo, a.hi], ∀ o ∈ [b.lo, b.hi], f e o = some (clamp (g e.toInt o.toInt))) :
    corners? f a b = some ⟨clamp (leastCorner g a b), clamp (greatestCorner g a b)⟩ := by
  simp only [List.forall_mem_cons] at hf
  obtain ⟨⟨hll, hlh, -⟩, ⟨hhl, hhh, -⟩, -⟩ := hf
  simp only [corners?, hll, hlh, hhl, hhh, Option.bind_eq_bind, Option.bind_some, Option.pure_def,
    Bound.lesser_clamp, Bound.greater_clamp, leastCorner, greatestCorner]

/-! ## The operators -/

section Operators

variable (ha : a.Within (2 ^ 62)) (hb : b.Within (2 ^ 62))

theorem Within.finite (hv : v.Within (2 ^ 62)) : ∀ e ∈ [v.lo, v.hi], e.isInf = false := by
  obtain ⟨_, _⟩ := hv
  simp only [List.forall_mem_cons, Bound.finite_iff]
  exact ⟨by omega, by omega, nofun⟩

include ha hb

theorem oneWay_of_between (h : ∀ x y : Int, a.lo.toInt ≤ x ∧ x ≤ a.hi.toInt →
      b.lo.toInt ≤ y ∧ y ≤ b.hi.toInt → Between (g a.lo.toInt y) (g x y) (g a.hi.toInt y) ∧
        Between (g x b.lo.toInt) (g x y) (g x b.hi.toInt)) : OneWay g a b := by
  intro x hx y hy
  exact h x y (ha.between (by omega) hx) (hb.between (by omega) hy)

/-- Ends of this size are too near to zero for a sum to wrap round. -/
theorem cornered_add (hane : a.isBottom = false) (hbne : b.isBottom = false) :
    Cornered .add (· + ·) a b where
  eval := fun _ _ _ _ => rfl
  oneWay := by
    refine oneWay_of_between ha hb ?_
    rintro x y ⟨hlx, hxh⟩ ⟨hly, hyh⟩
    exact ⟨Or.inl ⟨Int.add_le_add_right hlx y, Int.add_le_add_right hxh y⟩,
      Or.inl ⟨Int.add_le_add_left hly x, Int.add_le_add_left hyh x⟩⟩
  ends := by
    rw [isBottom_eq_false_iff] at hane hbne
    have hleast : leastCorner (· + ·) a b = a.lo.toInt + b.lo.toInt := by
      dsimp only [leastCorner]
      omega
    have hgreatest : greatestCorner (· + ·) a b = a.hi.toInt + b.hi.toInt := by
      dsimp only [greatestCorner]
      omega
    have hlow : Bound.add? a.lo b.lo = some (clamp (a.lo.toInt + b.lo.toInt)) := by
      refine Bound.add?_of_finite (ha.finite _ (by simp)) (hb.finite _ (by simp)) ?_
      have := ha.lo
      have := hb.lo
      omega
    have hhigh : Bound.add? a.hi b.hi = some (clamp (a.hi.toInt + b.hi.toInt)) := by
      refine Bound.add?_of_finite (ha.finite _ (by simp)) (hb.finite _ (by simp)) ?_
      have := ha.hi
      have := hb.hi
      omega
    simp only [arith?, add?, hlow, hhigh, hleast, hgreatest, Option.bind_eq_bind,
      Option.bind_some, Option.pure_def]

theorem cornered_sub (hane : a.isBottom = false) (hbne : b.isBottom = false) :
    Cornered .sub (· - ·) a b where
  eval := fun _ _ _ _ => rfl
  oneWay := by
    refine oneWay_of_between ha hb ?_
    rintro x y ⟨hlx, hxh⟩ ⟨hly, hyh⟩
    exact ⟨Or.inl ⟨Int.sub_le_sub_right hlx y, Int.sub_le_sub_right hxh y⟩,
      Or.inr ⟨Int.sub_le_sub_left hyh x, Int.sub_le_sub_left hly x⟩⟩
  ends := by
    rw [isBottom_eq_false_iff] at hane hbne
    have hleast : leastCorner (· - ·) a b = a.lo.toInt - b.hi.toInt := by
      dsimp only [leastCorner]
      omega
    have hgreatest : greatestCorner (· - ·) a b = a.hi.toInt - b.lo.toInt := by
      dsimp only [greatestCorner]
      omega
    have hlow : Bound.sub? a.lo b.hi = some (clamp (a.lo.toInt - b.hi.toInt)) := by
      have := ha.lo
      have := hb.hi
      exact Bound.sub?_of_finite (ha.finite _ (by simp)) (hb.finite _ (by simp)) (by omega)
        (by omega)
    have hhigh : Bound.sub? a.hi b.lo = some (clamp (a.hi.toInt - b.lo.toInt)) := by
      have := ha.hi
      have := hb.lo
      exact Bound.sub?_of_finite (ha.finite _ (by simp)) (hb.finite _ (by simp)) (by omega)
        (by omega)
    simp only [arith?, sub?, hlow, hhigh, hleast, hgreatest, Option.bind_eq_bind,
      Option.bind_some, Option.pure_def]

theorem cornered_mul : Cornered .mul (· * ·) a b where
  eval := fun _ _ _ _ => rfl
  oneWay := by
    refine oneWay_of_between ha hb ?_
    rintro x y ⟨hlx, hxh⟩ ⟨hly, hyh⟩
    exact ⟨between_mul hlx hxh y, between_mul_left hly hyh x⟩
  ends := by
    show corners? (fun e o => some (Bound.satMul e o)) a b = _
    refine corners?_eq_clamp ?_
    intro e he o ho
    exact congrArg some
      (Bound.satMul_eq_clamp (.finite (ha.finite e he)) (.finite (hb.finite o ho)))

/-- A divisor without zero has both its ends on one side of it. -/
theorem cornered_div (hbne : b.isBottom = false) (h0 : (0 : Int) ∉ b) :
    Cornered .sdiv Int.tdiv a b := by
  have hne : ∀ y ∈ b, y ≠ 0 := fun y hy h => h0 (h ▸ hy)
  have hzero : ¬ b.contains 0 = true := by
    intro hcontains
    rw [contains_iff, Bound.toInt_zero] at hcontains
    exact h0 (mem_iff.mpr ⟨Or.inr hcontains.1, Or.inr hcontains.2⟩)
  have hside : 0 < b.lo.toInt ∨ b.hi.toInt < 0 :=
    divisor_side hzero (.finite (hb.finite _ (by simp))) (.finite (hb.finite _ (by simp)))
  refine ⟨?_, ?_, ?_⟩
  · intro x _ y hy
    exact if_neg (hne y hy)
  · refine oneWay_of_between ha hb ?_
    rintro x y ⟨hlx, hxh⟩ ⟨hly, hyh⟩
    exact ⟨between_tdiv hlx hxh (by omega), between_tdiv_divisor hly hyh hside x⟩
  · show div? a b = _
    rw [div?, if_neg hzero]
    refine corners?_eq_clamp ?_
    intro e he o ho
    exact Bound.div?_of_finite (ha.finite e he) (hb.finite o ho) (hne _ (ends_mem hbne o ho))

section Shifts

variable (hbne : b.isBottom = false) (h0 : 0 ≤ b.lo.toInt)

include hbne h0

theorem cornered_shl : Cornered .shl (fun x y => x * 2 ^ y.toNat) a b := by
  have hamount : ∀ y ∈ b, 0 ≤ y := fun y hy => h0.trans (hb.between (by omega) hy).1
  refine ⟨?_, ?_, ?_⟩
  · intro x _ y hy
    exact if_neg (not_lt.mpr (hamount y hy))
  · refine oneWay_of_between ha hb ?_
    rintro x y ⟨hlx, hxh⟩ ⟨hly, hyh⟩
    exact ⟨between_mul hlx hxh _, between_two_pow hly hyh x⟩
  · show corners? Bound.shl? a b = _
    refine corners?_eq_clamp ?_
    intro e he o ho
    exact Bound.shl?_of_finite (ha.finite e he) (hb.finite o ho) (hamount _ (ends_mem hbne o ho))

theorem cornered_shr : Cornered .ashr (fun x y => x / 2 ^ y.toNat) a b := by
  have hamount : ∀ y ∈ b, 0 ≤ y := fun y hy => h0.trans (hb.between (by omega) hy).1
  refine ⟨?_, ?_, ?_⟩
  · intro x _ y hy
    exact if_neg (not_lt.mpr (hamount y hy))
  · refine oneWay_of_between ha hb ?_
    rintro x y ⟨hlx, hxh⟩ ⟨hly, hyh⟩
    have hpow : (0 : Int) < 2 ^ y.toNat := Int.pow_pos (by decide)
    exact ⟨Or.inl ⟨Int.ediv_le_ediv hpow hlx, Int.ediv_le_ediv hpow hxh⟩,
      between_shift h0 hly hyh x⟩
  · show corners? Bound.shr? a b = _
    refine corners?_eq_clamp ?_
    intro e he o ho
    exact Bound.shr?_of_finite (ha.finite e he) (hb.finite o ho) (hamount _ (ends_mem hbne o ho))

end Shifts

end Operators

/-- **Arithmetic on finite intervals is the exact hull, saturated.**  For two intervals with
members and with ends of at most `2 ^ 62` in magnitude: a sum, a difference, a product, a
quotient by a divisor without zero and a shift by amounts that are not negative give the
interval from the least to the greatest result on members, where a result that no finite word
holds is the infinity on its side. -/
theorem binary_eq_hull (hop : op ∈ [Arith.add, .sub, .mul, .sdiv, .shl, .ashr])
    (hane : a.isBottom = false) (hbne : b.isBottom = false)
    (ha : a.Within (2 ^ 62)) (hb : b.Within (2 ^ 62)) (hdiv : op = .sdiv → (0 : Int) ∉ b)
    (hshift : op = .shl ∨ op = .ashr → 0 ≤ b.lo.toInt) :
    ∃ l u, IsLeast (results op a b) l ∧ IsGreatest (results op a b) u ∧
      binary (.arith op) a b = pure ⟨clamp l, clamp u⟩ := by
  cases op with
  | add => exact (cornered_add ha hb hane hbne).exists_extremes hane hbne
  | sub => exact (cornered_sub ha hb hane hbne).exists_extremes hane hbne
  | mul => exact (cornered_mul ha hb).exists_extremes hane hbne
  | sdiv => exact (cornered_div ha hb hbne (hdiv rfl)).exists_extremes hane hbne
  | shl => exact (cornered_shl ha hb hbne (hshift (Or.inl rfl))).exists_extremes hane hbne
  | ashr => exact (cornered_shr ha hb hbne (hshift (Or.inr rfl))).exists_extremes hane hbne
  | _ => simp at hop

example : binary (.arith .sdiv) ⟨-7, 9⟩ ⟨-4, -2⟩ = pure ⟨-4, 3⟩ := rfl

/-- A product that saturates on both sides, a quotient by negative divisors, and a shift by
amounts of up to `2 ^ 62`. -/
theorem binary_eq_hull_signs :
    (∃ l u, IsLeast (results .mul ⟨-4611686018427387904, 3⟩ ⟨-2, 5⟩) l ∧
      IsGreatest (results .mul ⟨-4611686018427387904, 3⟩ ⟨-2, 5⟩) u ∧
      binary (.arith .mul) ⟨-4611686018427387904, 3⟩ ⟨-2, 5⟩ = pure ⟨clamp l, clamp u⟩) ∧
    (∃ l u, IsLeast (results .sdiv ⟨-7, 9⟩ ⟨-4, -2⟩) l ∧
      IsGreatest (results .sdiv ⟨-7, 9⟩ ⟨-4, -2⟩) u ∧
      binary (.arith .sdiv) ⟨-7, 9⟩ ⟨-4, -2⟩ = pure ⟨clamp l, clamp u⟩) ∧
    ∃ l u, IsLeast (results .shl ⟨-1, 2⟩ ⟨0, 4611686018427387904⟩) l ∧
      IsGreatest (results .shl ⟨-1, 2⟩ ⟨0, 4611686018427387904⟩) u ∧
      binary (.arith .shl) ⟨-1, 2⟩ ⟨0, 4611686018427387904⟩ = pure ⟨clamp l, clamp u⟩ := by
  have hzero : (0 : Int) ∉ (⟨-4, -2⟩ : Interval) := by
    rw [mem_iff]
    decide
  refine ⟨?_, ?_, ?_⟩
  · exact binary_eq_hull (by decide) rfl rfl (by decide) (by decide) nofun (by decide)
  · exact binary_eq_hull (by decide) rfl rfl (by decide) (by decide) (fun _ => hzero) (by decide)
  · exact binary_eq_hull (by decide) rfl rfl (by decide) (by decide) nofun (by decide)

end Interval

end Narrowing
