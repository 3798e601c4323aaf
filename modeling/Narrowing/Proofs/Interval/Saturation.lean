/-
# Where end points run out of words

The least and the greatest word are the infinities, and what no other word holds is taken
for one of them.  Here the sums, the differences and the numbers of members of finite end
points are followed up to the last finite word.  They saturate as they should, or are
exact, except at two integers:

    -2 ^ 63 - 1    as a sum, it wraps round to the greatest word, and is taken for plus
                   infinity instead of minus infinity
    -2 ^ 63 + 1    as a finite word, its opposite is the greatest word, so to take it away
                   is to add plus infinity

The first leaves a sum of two intervals without members, and its path is given up.  The
second makes every interval that starts at the least finite word endless.

The last section is about single integers.  The extreme words are integers too, but an end
point that is one of them is an infinity, and takes in whatever finite integer is added to it.
So the exact result of an operator on two words is kept where both are finite, the least
finite word apart, and else only where it is an extreme word itself or the product is 0.
-/
import Narrowing.Proofs.Interval.Point
import Narrowing.Proofs.Interval.Sums

namespace Narrowing

namespace Bound

variable {b o : Bound} {x y z : Bound}

/-! ## Sums -/

theorem clamp_toInt (b : Bound) : clamp b.toInt = b := by
  have hl := b.le_toInt
  have hu := b.toInt_lt
  rw [eq_comm, eq_clamp_iff]
  omega

/-- The end point that the sum of two finite ones is given. -/
def sumWord (z : Int) : Bound := if z = -2 ^ 63 - 1 then posInf else clamp z

theorem toInt_sumWord (z : Int) : (sumWord z).toInt =
    if z = -2 ^ 63 - 1 then 2 ^ 63 - 1 else max (-2 ^ 63) (min z (2 ^ 63 - 1)) := by
  unfold sumWord
  split
  · rfl
  · exact toInt_clamp z

/-- A sum one below all words wraps round to the greatest word, before anything is said of its
sign. -/
theorem add?_of_wrapped (hb : b.isInf = false) (ho : o.isInf = false)
    (hsum : b.toInt + o.toInt = -2 ^ 63 - 1) : add? b o = some posInf := by
  have hwrapped : b + o = posInf := by
    have hcases := toInt_add_cases b o
    have hl := (b + o).le_toInt
    have hu := (b + o).toInt_lt
    rw [← Int64.toInt_inj, toInt_posInf]
    omega
  simp only [add?, hb, ho, hwrapped, Bool.and_self, Bool.false_eq_true, if_false, beq_self_eq_true,
    Bool.or_true, if_true]

theorem add?_eq_sumWord (hb : b.isInf = false) (ho : o.isInf = false) :
    add? b o = some (sumWord (b.toInt + o.toInt)) := by
  unfold sumWord
  split
  · exact add?_of_wrapped hb ho ‹_›
  · exact add?_of_finite hb ho ‹_›

theorem add?_of_inf_left (hb : b.isInf = true) (ho : o.isInf = false) : add? b o = some b := by
  simp only [add?, hb, ho, Bool.and_false, Bool.false_eq_true, if_false, if_true]

theorem add?_of_inf_right (hb : b.isInf = false) (ho : o.isInf = true) : add? b o = some o := by
  simp only [add?, hb, ho, Bool.false_and, Bool.false_eq_true, if_false, if_true]

/-! ## Differences -/

theorem opposite_of_least (ho : o.toInt = -2 ^ 63 + 1) : opposite o = posInf := by
  obtain rfl : o = -9223372036854775807 := Int64.toInt_inj.mp ho
  rfl

theorem sub?_of_least (hb : b.isInf = false) (ho : o.toInt = -2 ^ 63 + 1) :
    sub? b o = some posInf := by
  unfold sub?
  rw [opposite_of_least ho]
  exact add?_of_inf_right hb rfl

theorem sub?_of_finite (hb : b.isInf = false) (ho : o.isInf = false) (hleast : o.toInt ≠ -2 ^ 63 + 1)
    (hne : b.toInt - o.toInt ≠ -2 ^ 63 - 1) : sub? b o = some (clamp (b.toInt - o.toInt)) := by
  obtain ⟨d, hd⟩ : ∃ d, sub? b o = some d := add?_isSome (Or.inl hb)
  rw [hd, sub?_eq_clamp (.finite hb) (.finite ho) hleast hne hd]

/-- A difference that is a finite word is found, unless the least finite word is taken away. -/
theorem sub?_exact_iff (hb : b.isInf = false) (ho : o.isInf = false)
    (hl : -2 ^ 63 < b.toInt - o.toInt) (hu : b.toInt - o.toInt < 2 ^ 63 - 1) :
    (∃ d, sub? b o = some d ∧ d.toInt = b.toInt - o.toInt) ↔ o.toInt ≠ -2 ^ 63 + 1 := by
  constructor
  · rintro ⟨d, hd, hexact⟩ hleast
    rw [sub?_of_least hb hleast] at hd
    obtain rfl := Option.some.inj hd
    rw [toInt_posInf] at hexact
    omega
  · intro hleast
    refine ⟨_, sub?_of_finite hb ho hleast (by omega), ?_⟩
    rw [toInt_clamp]
    omega

/-! ## Exact results at the infinities -/

/-- An exact sum is given if both terms are finite, and if it is an infinity itself. -/
theorem add?_eq_some_iff (hz : z.toInt = x.toInt + y.toInt) :
    add? x y = some z ↔ (x.isInf = false ∧ y.isInf = false) ∨ z.isInf = true := by
  have hxl := x.le_toInt
  have hxu := x.toInt_lt
  have hyl := y.le_toInt
  have hyu := y.toInt_lt
  have hzl := z.le_toInt
  constructor
  · intro hsum
    cases hzinf : z.isInf with
    | true => exact Or.inr rfl
    | false =>
        obtain ⟨hx, hy, -⟩ := add?_exact hsum hzinf
        exact Or.inl ⟨hx, hy⟩
  · intro h
    by_cases hfin : x.isInf = false ∧ y.isInf = false
    · rw [add?_of_finite hfin.1 hfin.2 (by omega), ← hz, clamp_toInt]
    · -- one term is the infinity that the sum is, and the other term is 0
      have hzinf := h.resolve_left hfin
      simp only [finite_iff] at hfin
      obtain ⟨hy, hzx⟩ | ⟨hx, hzy⟩ : (y.toInt = 0 ∧ z.toInt = x.toInt) ∨
          (x.toInt = 0 ∧ z.toInt = y.toInt) := by
        rw [isInf_iff] at hzinf
        omega
      · obtain rfl := Int64.toInt_inj.mp hzx
        exact add?_of_inf_left hzinf (finite_iff.mpr (by omega))
      · obtain rfl := Int64.toInt_inj.mp hzy
        exact add?_of_inf_right (finite_iff.mpr (by omega)) hzinf

theorem opposite_of_finite (ho : o.isInf = false) : (opposite o).toInt = -o.toInt ∧
    ((opposite o).isInf = false ↔ o.toInt ≠ -2 ^ 63 + 1) := by
  rw [finite_iff] at ho
  have hl := o.le_toInt
  have hopp := Interval.toInt_opposite_cases o
  rw [finite_iff]
  omega

/-- If an infinity is taken away, the exact difference is given only where it is an infinity. -/
theorem sub?_eq_some_iff_of_inf (hy : y.isInf = true) (hz : z.toInt = x.toInt - y.toInt) :
    sub? x y = some z ↔ z.isInf = true := by
  have hxl := x.le_toInt
  have hxu := x.toInt_lt
  have hzl := z.le_toInt
  have hzu := z.toInt_lt
  have hopp := Interval.toInt_opposite_cases y
  simp only [isInf_iff] at hy
  by_cases hx : x.isInf = false
  · have hdiff : sub? x y = some (opposite y) := add?_of_inf_right hx (isInf_iff.mpr (by omega))
    rw [finite_iff] at hx
    rw [hdiff, Option.some.injEq, ← Int64.toInt_inj, isInf_iff]
    omega
  · -- an infinity less an infinity is a word only if they are the same
    rw [Bool.not_eq_false, isInf_iff] at hx
    obtain rfl : x = y := Int64.toInt_inj.mp (by omega)
    have hzero : z.isInf = false := finite_iff.mpr (by omega)
    have hnone : sub? x x = none := by
      rcases hy with hneg | hpos
      · obtain rfl : x = negInf := Int64.toInt_inj.mp hneg
        rfl
      · obtain rfl : x = posInf := Int64.toInt_inj.mp hpos
        rfl
    simp [hnone, hzero]

/-- An exact difference is given if both terms are finite, but for the least finite word, and if
it is an infinity itself. -/
theorem sub?_eq_some_iff (hz : z.toInt = x.toInt - y.toInt) :
    sub? x y = some z ↔
      (x.isInf = false ∧ y.isInf = false ∧ y.toInt ≠ -2 ^ 63 + 1) ∨ z.isInf = true := by
  cases hy : y.isInf with
  | false =>
      obtain ⟨hopp, hfin⟩ := opposite_of_finite hy
      rw [sub?, add?_eq_some_iff (by omega), hfin]
      simp only [true_and]
  | true => simp [sub?_eq_some_iff_of_inf hy hz]

theorem satMul_of_zero (h : x = 0 ∨ y = 0) : satMul x y = 0 := by
  simp only [satMul, Bool.or_eq_true, decide_eq_true_eq, h, if_true]

/-- An infinity makes an infinity of every product that is not 0. -/
theorem isInf_satMul (hinf : x.isInf = true ∨ y.isInf = true) (hne : satMul x y ≠ 0) :
    (satMul x y).isInf = true := by
  have hzero : ¬ (x = 0 ∨ y = 0) := fun h => hne (satMul_of_zero h)
  have hprod : satMul x y = infinity (sign x * sign y) := by
    simp only [satMul, Bool.or_eq_true, decide_eq_true_eq, hzero, hinf, if_true, if_false]
  rw [hprod]
  unfold infinity
  split <;> rfl

theorem satMul_one (hx : x.isInf = true) : satMul x 1 = x ∧ satMul 1 x = x := by
  simp only [isInf, Bool.or_eq_true, beq_iff_eq] at hx
  rcases hx with rfl | rfl
  · exact ⟨rfl, rfl⟩
  · exact ⟨rfl, rfl⟩

/-- An exact product is given if both factors are finite, and if it is an infinity itself or
0. -/
theorem satMul_eq_iff (hz : z.toInt = x.toInt * y.toInt) :
    satMul x y = z ↔ (x.isInf = false ∧ y.isInf = false) ∨ z.isInf = true ∨ z = 0 := by
  constructor
  · rintro rfl
    by_cases hfin : x.isInf = false ∧ y.isInf = false
    · exact Or.inl hfin
    · refine Or.inr (or_iff_not_imp_right.mpr ?_)
      exact isInf_satMul (by simpa only [Bool.not_eq_false, not_and_or] using hfin)
  · intro h
    by_cases hfin : x.isInf = false ∧ y.isInf = false
    · rw [satMul_eq_clamp (.finite hfin.1) (.finite hfin.2), ← hz, clamp_toInt]
    · rcases h.resolve_left hfin with hzinf | rfl
      · -- one factor is the infinity that the product is, and the other factor is 1
        obtain ⟨hy, hzx⟩ | ⟨hx, hzy⟩ : (y.toInt = 1 ∧ z.toInt = x.toInt) ∨
            (x.toInt = 1 ∧ z.toInt = y.toInt) := by
          simp only [not_and_or, Bool.not_eq_false, isInf_iff] at hfin hzinf
          rcases hfin with (h | h) | (h | h) <;> rw [h] at hz ⊢ <;> omega
        · obtain rfl := Int64.toInt_inj.mp hzx
          obtain rfl : y = 1 := Int64.toInt_inj.mp hy
          exact (satMul_one hzinf).1
        · obtain rfl := Int64.toInt_inj.mp hzy
          obtain rfl : x = 1 := Int64.toInt_inj.mp hx
          exact (satMul_one hzinf).2
      · have hzero : x = 0 ∨ y = 0 := by
          rw [toInt_zero, eq_comm, Int.mul_eq_zero] at hz
          exact hz.imp Int64.toInt_inj.mp Int64.toInt_inj.mp
        exact satMul_of_zero hzero

end Bound

namespace Interval

variable {a b v : Interval} {x y z : Bound}

/-! ## Sums of intervals -/

theorem make_of_le {lo hi : Bound} (h : lo.toInt ≤ hi.toInt) : make lo hi = pure ⟨lo, hi⟩ := by
  have hsome : isBottom ⟨lo, hi⟩ = false := isBottom_eq_false_iff.mpr h
  simp only [make, hsome, Bool.false_eq_true, if_false]

theorem make_of_lt {lo hi : Bound} (h : hi.toInt < lo.toInt) :
    make lo hi = Eval.cancel "interval ⊥" := by
  have hnone : isBottom ⟨lo, hi⟩ = true := decide_eq_true (Int64.lt_iff_toInt_lt.mpr h)
  simp only [make, text, hnone, if_true]
  rfl

theorem binary_add_of_finite (ha : a.isFinite = true) (hb : b.isFinite = true) :
    binary (.arith .add) a b = make (Bound.sumWord (a.lo.toInt + b.lo.toInt))
      (Bound.sumWord (a.hi.toInt + b.hi.toInt)) := by
  rw [isFinite_iff, ← Bound.finite_iff, ← Bound.finite_iff] at ha hb
  have hsum : add? a b = some ⟨Bound.sumWord (a.lo.toInt + b.lo.toInt),
      Bound.sumWord (a.hi.toInt + b.hi.toInt)⟩ := by
    simp only [add?, Bound.add?_eq_sumWord ha.1 hb.1, Bound.add?_eq_sumWord ha.2 hb.2]
    rfl
  show settle _ (add? a b) = _
  rw [hsum]
  rfl

/-- **A sum saturates on its own side, but for the integer below all words.**  The sum of two
finite end points is there, and is the clamp of the exact sum unless that is `-2 ^ 63 - 1`, which
gives plus infinity.  So the sum of two finite intervals with members is given up exactly when
its low end is that integer and its high end another one below plus infinity. -/
theorem sum_saturates_unless_wrapped (x y : Bound) (a b : Interval) :
    (x.isInf = false → y.isInf = false →
      Bound.add? x y = some (if x.toInt + y.toInt = -2 ^ 63 - 1 then Bound.posInf
        else Bound.clamp (x.toInt + y.toInt))) ∧
    (a.isBottom = false → a.isFinite = true → b.isBottom = false → b.isFinite = true →
      binary (.arith .add) a b =
        if a.lo.toInt + b.lo.toInt = -2 ^ 63 - 1 ∧ a.hi.toInt + b.hi.toInt ≠ -2 ^ 63 - 1 ∧
            a.hi.toInt + b.hi.toInt < 2 ^ 63 - 1 then Eval.cancel "interval ⊥"
        else pure ⟨Bound.sumWord (a.lo.toInt + b.lo.toInt),
          Bound.sumWord (a.hi.toInt + b.hi.toInt)⟩) := by
  refine ⟨Bound.add?_eq_sumWord, ?_⟩
  intro hane ha hbne hb
  rw [isBottom_eq_false_iff] at hane hbne
  have hlow := Bound.toInt_sumWord (a.lo.toInt + b.lo.toInt)
  have hhigh := Bound.toInt_sumWord (a.hi.toInt + b.hi.toInt)
  rw [binary_add_of_finite ha hb]
  split
  · exact make_of_lt (by split_ifs at hlow hhigh <;> omega)
  · exact make_of_le (by split_ifs at hlow hhigh <;> omega)

/-- Twice `-2 ^ 62` is the least word, which is minus infinity; two less saturates there. -/
theorem sum_saturates_unless_wrapped_low :
    Bound.add? (-4611686018427387904) (-4611686018427387904) = some Bound.negInf ∧
    binary (.arith .add) ⟨-4611686018427387904, 1⟩ ⟨-4611686018427387906, 2⟩ =
      pure ⟨Bound.negInf, 3⟩ := by
  obtain ⟨hsum, hbinary⟩ := sum_saturates_unless_wrapped (-4611686018427387904)
    (-4611686018427387904) ⟨-4611686018427387904, 1⟩ ⟨-4611686018427387906, 2⟩
  exact ⟨hsum (by decide) (by decide), hbinary (by decide) (by decide) (by decide) (by decide)⟩

/-- The sum of `-2 ^ 62` and the integer below it is given as plus infinity, and the path of a
sum of intervals that starts there is given up. -/
theorem sum_wrapped_cancels :
    Bound.isInf (-4611686018427387904) = false ∧ Bound.isInf (-4611686018427387905) = false ∧
    Bound.add? (-4611686018427387904) (-4611686018427387905) = some Bound.posInf ∧
    binary (.arith .add) ⟨-4611686018427387904, 0⟩ ⟨-4611686018427387905, 0⟩ =
      Eval.cancel "interval ⊥" :=
  ⟨rfl, rfl, rfl, rfl⟩

/-! ## Numbers of members -/

theorem ncard_members (hne : v.isBottom = false) (hv : v.isFinite = true) :
    ({x : Int | x ∈ v}.ncard : Int) = v.hi.toInt - v.lo.toInt + 1 := by
  rw [isBottom_eq_false_iff] at hne
  rw [isFinite_iff] at hv
  have hset : {x : Int | x ∈ v} = ↑(Finset.Icc v.lo.toInt v.hi.toInt) := by
    ext x
    rw [Finset.mem_coe, Finset.mem_Icc]
    show x ∈ v ↔ _
    rw [mem_iff]
    omega
  rw [hset, Set.ncard_coe_finset, Int.card_Icc]
  omega

theorem size_of_least (hne : v.isBottom = false) (hv : v.isFinite = true)
    (hleast : v.lo.toInt = -2 ^ 63 + 1) : v.size = Bound.posInf := by
  have hhi : v.hi.isInf = false := by
    rw [isFinite_iff] at hv
    exact Bound.finite_iff.mpr hv.2
  simp only [size, hne, Bound.sub?_of_least hhi hleast, Bool.false_eq_true, if_false, if_true]

/-- **A difference is exact, unless the least finite word is taken away.**  Where the exact
difference of two finite end points is a finite word, that word is given, or else the second end
point is the least finite word, and plus infinity is given.  So the size of a finite interval
with members is their number, if a finite word holds it, or else the interval starts at the least
finite word, and its size is plus infinity. -/
theorem difference_exact_unless_least (x y : Bound) (v : Interval) :
    (x.isInf = false → y.isInf = false → -2 ^ 63 < x.toInt - y.toInt →
      x.toInt - y.toInt < 2 ^ 63 - 1 →
        ((∃ d, Bound.sub? x y = some d ∧ d.toInt = x.toInt - y.toInt) ↔
          y.toInt ≠ -2 ^ 63 + 1) ∧
        (y.toInt = -2 ^ 63 + 1 → Bound.sub? x y = some Bound.posInf)) ∧
    (v.isBottom = false → v.isFinite = true → {n : Int | n ∈ v}.ncard < 2 ^ 63 - 1 →
      (v.size.toInt = {n : Int | n ∈ v}.ncard ↔ v.lo.toInt ≠ -2 ^ 63 + 1) ∧
      (v.lo.toInt = -2 ^ 63 + 1 → v.size = Bound.posInf)) := by
  constructor
  · intro hx hy hl hu
    exact ⟨Bound.sub?_exact_iff hx hy hl hu, Bound.sub?_of_least hx⟩
  · intro hne hv hfew
    have hcard := ncard_members hne hv
    refine ⟨⟨?_, ?_⟩, size_of_least hne hv⟩
    · intro hexact hleast
      rw [size_of_least hne hv hleast, Bound.toInt_posInf] at hexact
      omega
    · intro hleast
      have hends := isFinite_iff.mp hv
      rw [size_eq_clamp (isBottom_eq_false_iff.mp hne) (Bound.finite_iff.mpr hends.1)
        (Bound.finite_iff.mpr hends.2) hleast, Bound.toInt_clamp, ← hcard]
      omega

/-- The word above the least finite one, taken away; and three integers that start there. -/
theorem difference_exact_unless_least_next :
    (∃ d, Bound.sub? (-2) (-9223372036854775806) = some d ∧ d.toInt = 9223372036854775804) ∧
    size ⟨-9223372036854775806, -9223372036854775804⟩ = 3 := by
  have hcard := ncard_members (v := ⟨-9223372036854775806, -9223372036854775804⟩) (by decide)
    (by decide)
  obtain ⟨hdiff, hmembers⟩ := difference_exact_unless_least (-2) (-9223372036854775806)
    ⟨-9223372036854775806, -9223372036854775804⟩
  refine ⟨?_, ?_⟩
  · exact (hdiff (by decide) (by decide) (by decide) (by decide)).1.mpr (by decide)
  · have hsize := (hmembers (by decide) (by decide) (by zify; rw [hcard]; decide)).1.mpr
      (by decide)
    rw [hcard] at hsize
    exact Int64.toInt_inj.mp hsize

/-- The least finite word taken away from -1 leaves the greatest finite word, but plus infinity is
given, and so it is for the size of that one word. -/
theorem difference_least_infinite :
    Bound.isInf (-1) = false ∧ Bound.isInf (-9223372036854775807) = false ∧
    (-1 : Bound).toInt - (-9223372036854775807 : Bound).toInt = 2 ^ 63 - 2 ∧
    Bound.sub? (-1) (-9223372036854775807) = some Bound.posInf ∧
    size (point (-9223372036854775807)) = Bound.posInf :=
  ⟨rfl, rfl, rfl, rfl, rfl⟩

/-! ## Single integers -/

/-- An operator on two single integers is one operator on words. -/
theorem binary_point_iff {op : Arith} {f : Option Bound}
    (hf : arith? op (point x) (point y) = f.map point) :
    (∃ v, binary (.arith op) (point x) (point y) = pure v ∧ v.contains z = true) ↔
      f = some z := by
  show (∃ v, settle _ (arith? op (point x) (point y)) = pure v ∧ _) ↔ _
  rw [hf]
  cases f with
  | none =>
      constructor
      · rintro ⟨v, hv, -⟩
        cases hv
      · intro h
        cases h
  | some s =>
      have hpoint : settle (.arith op) (some (point s)) = pure (point s) := make_of_le le_rfl
      have hcontains : (point s).contains z = true ↔ s = z := by
        rw [contains_iff, ← Int64.toInt_inj]
        exact le_antisymm_iff.symm
      rw [Option.map_some, hpoint, Option.some.injEq, ← hcontains]
      constructor
      · rintro ⟨v, hv, hz⟩
        cases hv
        exact hz
      · intro hz
        exact ⟨point s, rfl, hz⟩

theorem arith?_add_point : arith? .add (point x) (point y) = (Bound.add? x y).map point := by
  cases h : Bound.add? x y <;> simp [arith?, add?, point, h]

theorem arith?_sub_point : arith? .sub (point x) (point y) = (Bound.sub? x y).map point := by
  cases h : Bound.sub? x y <;> simp [arith?, sub?, point, h]

theorem arith?_mul_point :
    arith? .mul (point x) (point y) = (some (Bound.satMul x y)).map point := by
  simp [arith?, mul?, corners?, point, Bound.lesser_self, Bound.greater_self]

/-- **Single integers keep the exact result, where the operands are finite.**  If the sum, the
difference or the product of two words is a word, the operator on the two single integers returns
and has it, exactly when both words are finite, and not the least finite word is taken away; or
the result is one of the infinities; or it is the product 0. -/
theorem binary_points_exact_iff {op : Arith} (hop : op = .add ∨ op = .sub ∨ op = .mul)
    (x y z : Int64) (hz : op.eval? x.toInt y.toInt = some z.toInt) :
    (∃ v, binary (.arith op) (point x) (point y) = pure v ∧ v.contains z = true) ↔
      (Bound.isInf x = false ∧ Bound.isInf y = false ∧ (op = .sub → y.toInt ≠ -2 ^ 63 + 1)) ∨
      Bound.isInf z = true ∨ (op = .mul ∧ z = 0) := by
  rcases hop with rfl | rfl | rfl <;> have hz := (Option.some.inj hz).symm
  · rw [binary_point_iff arith?_add_point, Bound.add?_eq_some_iff hz]
    simp
  · rw [binary_point_iff arith?_sub_point, Bound.sub?_eq_some_iff hz]
    simp
  · rw [binary_point_iff arith?_mul_point, Option.some.injEq, Bound.satMul_eq_iff hz]
    simp

/-- At the last finite words: a sum that is plus infinity, a difference that is minus infinity,
and a product of two finite words. -/
theorem binary_points_exact_iff_edge :
    (∃ v, binary (.arith .add) (point 9223372036854775806) (point 1) = pure v ∧
      v.contains 9223372036854775807 = true) ∧
    (∃ v, binary (.arith .sub) (point (-1)) (point 9223372036854775807) = pure v ∧
      v.contains (-9223372036854775808) = true) ∧
    ∃ v, binary (.arith .mul) (point (-3074457345618258602)) (point 3) = pure v ∧
      v.contains (-9223372036854775806) = true :=
  ⟨(binary_points_exact_iff (by decide) _ _ 9223372036854775807 rfl).mpr (by decide),
    (binary_points_exact_iff (by decide) _ _ (-9223372036854775808) rfl).mpr (by decide),
    (binary_points_exact_iff (by decide) _ _ (-9223372036854775806) rfl).mpr (by decide)⟩

/-- Each of these results is a finite word, and none of them is kept: the least finite word taken
away from -5; one less than the greatest word; the sum -1 of the least and the greatest word,
where the path is given up; the opposite of the greatest word, as a product. -/
theorem binary_points_miss :
    binary (.arith .sub) (point (-5)) (point (-9223372036854775807)) = pure (point Bound.posInf) ∧
    (point Bound.posInf).contains 9223372036854775802 = false ∧
    binary (.arith .add) (point 9223372036854775807) (point (-1)) = pure (point Bound.posInf) ∧
    (point Bound.posInf).contains 9223372036854775806 = false ∧
    binary (.arith .add) (point 9223372036854775807) (point (-9223372036854775808)) =
      Eval.cancel "interval add undefined" ∧
    binary (.arith .mul) (point 9223372036854775807) (point (-1)) = pure (point Bound.negInf) ∧
    (point Bound.negInf).contains (-9223372036854775807) = false :=
  ⟨rfl, rfl, rfl, rfl, rfl, rfl, rfl⟩

end Interval

end Narrowing
