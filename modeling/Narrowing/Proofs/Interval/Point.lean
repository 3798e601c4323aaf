/-
# Narrowing single integers

Where the result and both operands are single integers there is nothing left to
narrow.  A sum, a difference or a product then leaves its operands as they are if it
is exact over the integers, and gives up the path if it is not; nothing is asked.

An order that holds between an interval and an integer narrows neither of them.
-/
import Narrowing.Proofs.Interval.Backward

namespace Narrowing

/-! ## End points away from the infinities -/

namespace Bound

variable {a b o : Bound}

/-- A finite end point whose opposite is finite as well. -/
def Calm (b : Bound) : Prop := b.toInt.natAbs < 2 ^ 63 - 1

theorem Calm.finite (h : Calm b) : b.isInf = false := by
  unfold Calm at h
  exact finite_iff.mpr (by omega)

theorem lesser_self (b : Bound) : lesser b b = b := ite_self b

theorem greater_self (b : Bound) : greater b b = b := ite_self b

theorem exists_add? (hb : Calm b) (ho : Calm o) (ha : Calm a) :
    ∃ s, add? b o = some s ∧ (s = a ↔ a.toInt = b.toInt + o.toInt) := by
  obtain ⟨s, hs⟩ := add?_isSome (o := o) (Or.inl hb.finite)
  refine ⟨s, hs, ?_, ?_⟩
  · rintro rfl
    exact (add?_exact hs ha.finite).2.2
  · intro heq
    unfold Calm at ha
    rw [add?_eq_clamp (.finite hb.finite) (.finite ho.finite) (by omega) hs, eq_comm, eq_clamp_iff]
    omega

theorem exists_sub? (hb : Calm b) (ho : Calm o) (ha : Calm a) :
    ∃ d, sub? b o = some d ∧ (d = a ↔ a.toInt = b.toInt - o.toInt) := by
  obtain ⟨d, hd⟩ : ∃ d, sub? b o = some d := add?_isSome (Or.inl hb.finite)
  refine ⟨d, hd, ?_, ?_⟩
  · rintro rfl
    exact (sub?_exact hd ha.finite).2.2
  · intro heq
    unfold Calm at ha ho
    rw [sub?_eq_clamp (.finite hb.finite) (.finite (finite_iff.mpr (by omega))) (by omega) (by omega)
      hd, eq_comm, eq_clamp_iff]
    omega

end Bound

namespace Interval

variable {bound : UInt32} {r a b q : Bound} {v w : Interval}

/-! ## Intersections that change nothing, or leave nothing -/

theorem intersect_eval_eq_self (hne : v.lo ≤ v.hi) (hlo : w.lo ≤ v.lo) (hhi : v.hi ≤ w.hi) :
    (v.intersect w).eval = pure v := by
  rw [Int64.le_iff_toInt_le] at hne hlo hhi
  have hmeet : v.meet w = v := by
    obtain ⟨lo, hi⟩ := v
    simp only [meet, mk.injEq, ← Int64.toInt_inj, Bound.toInt_greater, Bound.toInt_lesser]
    exact ⟨max_eq_left hlo, min_eq_left hhi⟩
  have hsome : ¬ v.isBottom = true := by
    simp only [isBottom, decide_eq_true_eq, Int64.lt_iff_toInt_lt]
    omega
  unfold intersect
  simp only [hmeet, if_neg hsome]
  rfl

theorem meetLow_eq_self (hne : v.lo ≤ v.hi) (h : q ≤ v.lo) : v.meetLow q = pure v :=
  intersect_eval_eq_self hne h (Int64.le_iff_toInt_le.mpr (by
    have := v.hi.toInt_lt
    rw [Bound.toInt_posInf]
    omega))

theorem meetHigh_eq_self (hne : v.lo ≤ v.hi) (h : v.hi ≤ q) : v.meetHigh q = pure v :=
  intersect_eval_eq_self hne (Int64.le_iff_toInt_le.mpr (by
    have := v.lo.le_toInt
    rw [Bound.toInt_negInf]
    omega)) h

theorem ends_narrow_point {o : Option Interval} {P : Prop}
    (ho : ∃ q, o = some (point q) ∧ (q = a ↔ P)) :
    (narrow (point a) o).Ends (fun v => v = point a ∧ P) fun err => err = .cancelled ∧ ¬ P := by
  obtain ⟨q, rfl, hq⟩ := ho
  show ((point a).intersect (point q)).eval.Ends _ _
  by_cases heq : q = a
  · subst heq
    have hself : (point q).lo ≤ (point q).hi := Int64.le_refl q
    rw [intersect_eval_eq_self hself hself hself]
    exact Eval.ends_pure ⟨rfl, hq.mp rfl⟩
  · have hnone : (meet (point a) (point q)).isBottom = true := by
      have hne : q.toInt ≠ a.toInt := fun h => heq (Int64.toInt_inj.mp h)
      simp only [isBottom, meet, point, decide_eq_true_eq, Int64.lt_iff_toInt_lt,
        Bound.toInt_greater, Bound.toInt_lesser]
      omega
    unfold intersect
    simp only [if_pos hnone]
    exact Eval.ends_cancel ⟨rfl, fun hP => heq (hq.mpr hP)⟩

/-! ## Sums and differences -/

theorem exists_add?_point (hb : Bound.Calm b) (hr : Bound.Calm r) (ha : Bound.Calm a) :
    ∃ s, add? (point b) (point r) = some (point s) ∧ (s = a ↔ a.toInt = b.toInt + r.toInt) := by
  obtain ⟨s, hs, hsa⟩ := Bound.exists_add? hb hr ha
  refine ⟨s, ?_, hsa⟩
  simp only [add?, point, hs]
  rfl

theorem exists_sub?_point (hb : Bound.Calm b) (hr : Bound.Calm r) (ha : Bound.Calm a) :
    ∃ d, sub? (point b) (point r) = some (point d) ∧ (d = a ↔ a.toInt = b.toInt - r.toInt) := by
  obtain ⟨d, hd, hda⟩ := Bound.exists_sub? hb hr ha
  refine ⟨d, ?_, hda⟩
  simp only [sub?, point, hd]
  rfl

theorem gap?_self : gap? bound b b = none := by
  rw [Option.eq_none_iff_forall_ne_some]
  intro gap hgap
  have := gap?_exact hgap
  omega

theorem ends_backwardAdd_point (hr : Bound.Calm r) (ha : Bound.Calm a) (hb : Bound.Calm b) :
    (backwardAdd bound (point r) (point a) (point b)).Ends
      (fun p => p = (point a, point b) ∧ r.toInt = a.toInt + b.toInt)
      fun err => err = .cancelled ∧ r.toInt ≠ a.toInt + b.toInt := by
  refine Eval.ends_bind ((ends_narrow_point (exists_sub?_point hr hb ha)).mono ?_ ?_)
  · rintro _ ⟨rfl, hexact⟩
    refine Eval.ends_bind ((ends_narrow_point (exists_sub?_point hr ha hb)).mono ?_ ?_)
    · rintro _ ⟨rfl, -⟩
      obtain ⟨s, hs, hsr⟩ := exists_add?_point ha hb hr
      obtain rfl := hsr.mpr (by omega)
      rw [hs]
      show Eval.Ends _ _ (raiseSum (gap? bound s s) _ _ >>= fun p =>
        lowerSum (gap? bound s s) p.1 p.2)
      rw [gap?_self]
      refine Eval.ends_bind (Eval.ends_pure (Eval.ends_pure ?_))
      exact ⟨rfl, by omega⟩
    · rintro _ ⟨rfl, hne⟩
      exact ⟨rfl, by omega⟩
  · rintro _ ⟨rfl, hne⟩
    exact ⟨rfl, by omega⟩

theorem ends_backwardSub_point (hr : Bound.Calm r) (ha : Bound.Calm a) (hb : Bound.Calm b) :
    (backwardSub bound (point r) (point a) (point b)).Ends
      (fun p => p = (point a, point b) ∧ r.toInt = a.toInt - b.toInt)
      fun err => err = .cancelled ∧ r.toInt ≠ a.toInt - b.toInt := by
  refine Eval.ends_bind ((ends_narrow_point (exists_add?_point hr hb ha)).mono ?_ ?_)
  · rintro _ ⟨rfl, hexact⟩
    refine Eval.ends_bind ((ends_narrow_point (exists_sub?_point ha hr hb)).mono ?_ ?_)
    · rintro _ ⟨rfl, -⟩
      obtain ⟨d, hd, hdr⟩ := exists_sub?_point ha hb hr
      obtain rfl := hdr.mpr (by omega)
      rw [hd]
      show Eval.Ends _ _ (raiseDifference (gap? bound d d) _ _ >>= fun p =>
        lowerDifference (gap? bound d d) p.1 p.2)
      rw [gap?_self]
      refine Eval.ends_bind (Eval.ends_pure (Eval.ends_pure ?_))
      exact ⟨rfl, by omega⟩
    · rintro _ ⟨rfl, hne⟩
      exact ⟨rfl, by omega⟩
  · rintro _ ⟨rfl, hne⟩
    exact ⟨rfl, by omega⟩

/-! ## Products -/

theorem contains_point_zero : (point b).contains 0 = true ↔ b.toInt = 0 := by
  rw [contains_iff, Bound.toInt_zero]
  exact le_antisymm_iff.symm

theorem exists_div?_point (hr : Bound.Calm r) (hb : Bound.Calm b) (hb0 : b.toInt ≠ 0) :
    ∃ q, div? (point r) (point b) = some (point q) ∧ (q = a ↔ a.toInt = r.toInt.tdiv b.toInt) := by
  have hne : b ≠ 0 := by
    rintro rfl
    exact hb0 rfl
  have hquot : Bound.div? r b = some (r / b) := by
    simp only [Bound.div?, if_neg hne, hr.finite, hb.finite, Bool.and_self, Bool.false_eq_true,
      if_false]
  refine ⟨r / b, ?_, ?_⟩
  · unfold div?
    rw [if_neg (fun h => hb0 (contains_point_zero.mp h))]
    simp only [corners?, point, hquot, Option.bind_eq_bind, Option.bind_some, Bound.lesser_self,
      Bound.greater_self]
    rfl
  · rw [← Int64.toInt_inj, Bound.toInt_div hr.finite]
    exact eq_comm

theorem eq_tdiv_iff {r a b : Int} (hb : b ≠ 0) (h : r = a * b ∨ b.natAbs ≤ (r - a * b).natAbs) :
    a = r.tdiv b ↔ r = a * b := by
  constructor
  · intro ha
    refine h.resolve_right fun hfar => ?_
    have hrem := Int.tdiv_mul_add_tmod r b
    rw [← ha] at hrem
    have hlt := (tmod_bounds (x := r) hb).1
    omega
  · rintro rfl
    exact (Int.mul_tdiv_cancel a hb).symm

/-- A factor is narrowed where the other is not zero. -/
theorem ends_narrowUnless_point {β : Type} {c P : Prop} [Decidable c] {o : Option Interval}
    {f : Interval → Eval β} {Q : β → Prop} {E : Failure → Prop} (hc : c → P)
    (ho : ¬ c → ∃ q, o = some (point q) ∧ (q = a ↔ P)) (hf : P → (f (point a)).Ends Q E)
    (hE : ¬ P → E .cancelled) :
    Eval.Ends Q E (if c then pure (point a) >>= f else (point a).narrow o >>= f) := by
  split
  · rename_i h
    exact hf (hc h)
  · rename_i h
    refine Eval.ends_bind ((ends_narrow_point (ho h)).mono ?_ ?_)
    · rintro _ ⟨rfl, hP⟩
      exact hf hP
    · rintro _ ⟨rfl, hP⟩
      exact hE hP

theorem ends_backwardMul_point (hr : Bound.Calm r) (ha : Bound.Calm a) (hb : Bound.Calm b)
    (hzero : b.toInt = 0 → r.toInt = 0) (hfar : r.toInt = a.toInt * b.toInt ∨
      b.toInt.natAbs ≤ (r.toInt - a.toInt * b.toInt).natAbs) :
    (backwardMul bound (point r) (point a) (point b)).Ends
      (fun p => p = (point a, point b) ∧ r.toInt = a.toInt * b.toInt)
      fun err => err = .cancelled ∧ r.toInt ≠ a.toInt * b.toInt := by
  have hfinite {e : Bound} (he : Bound.Calm e) : (point e).isFinite = true := by
    simp only [isFinite, point, he.finite, Bool.not_false, Bool.and_self]
  unfold backwardMul
  rw [if_neg (by rw [hfinite ha, hfinite hb]; exact Bool.false_ne_true)]
  refine ends_narrowUnless_point (P := r.toInt = a.toInt * b.toInt) ?_ ?_ ?_ fun hne => ⟨rfl, hne⟩
  · intro hb0
    have hb0 := contains_point_zero.mp hb0
    rw [hzero hb0, hb0, Int.mul_zero]
  · intro hb0
    have hb0 := fun h => hb0 (contains_point_zero.mpr h)
    rw [← eq_tdiv_iff hb0 hfar]
    exact exists_div?_point hr hb hb0
  · intro hexact
    refine ends_narrowUnless_point (P := True) (fun _ => trivial) ?_ ?_ fun hne => absurd trivial hne
    · intro ha0
      have ha0 := fun h => ha0 (contains_point_zero.mpr h)
      obtain ⟨q, hq, hqb⟩ := exists_div?_point (a := b) hr ha ha0
      rw [eq_tdiv_iff ha0 (Or.inl (hexact.trans (Int.mul_comm _ _)))] at hqb
      exact ⟨q, hq, hqb.trans (iff_true_intro (hexact.trans (Int.mul_comm _ _)))⟩
    · intro _
      -- The product of the low ends is the low end of the result, and so are the high ends.
      have hprod : Bound.satMul a b = r := by
        rw [Bound.satMul_eq_clamp (.finite ha.finite) (.finite hb.finite), ← hexact, eq_comm,
          Bound.eq_clamp_iff]
        have := r.le_toInt
        have := r.toInt_lt
        omega
      have hself : ¬ r < r := by
        rw [Int64.lt_iff_toInt_lt]
        exact lt_irrefl _
      dsimp only
      split
      · exact Eval.ends_pure ⟨rfl, hexact⟩
      · show Eval.Ends _ _ (raiseProduct bound r (point a) (point b) >>= fun p =>
          lowerProduct bound r p.1 p.2)
        simp only [raiseProduct, lowerProduct, point, hprod, hself, false_and, if_false, pure_bind]
        exact Eval.ends_pure ⟨rfl, hexact⟩

/-- Sums, differences and products of single integers: the operands stay if the result is exact,
and the path is given up if not. -/
theorem ends_backward_point {op : Arith} {z : Int} (hop : op = .add ∨ op = .sub ∨ op = .mul)
    (hr : Bound.Calm r) (ha : Bound.Calm a) (hb : Bound.Calm b)
    (hz : op.eval? a.toInt b.toInt = some z) (hzero : op = .mul → b.toInt = 0 → r.toInt = 0)
    (hfar : r.toInt = z ∨ b.toInt.natAbs ≤ (r.toInt - z).natAbs) :
    (backward bound (.arith op) (point r) (point a) (point b)).Ends
      (fun p => p = (point a, point b) ∧ r.toInt = z)
      fun err => err = .cancelled ∧ r.toInt ≠ z := by
  rcases hop with rfl | rfl | rfl <;> obtain rfl := Option.some.inj hz
  · exact ends_backwardAdd_point hr ha hb
  · exact ends_backwardSub_point hr ha hb
  · exact ends_backwardMul_point hr ha hb (hzero rfl) hfar

/-! ## An order that holds -/

theorem binary_sge_point {lo hi k : Bound} (hk : k ≤ lo) (hne : lo ≤ hi) :
    binary (.relation .sge) ⟨lo, hi⟩ (point k) = pure (point 1) := by
  have hless : less ⟨lo, hi⟩ (point k) = .no := by
    rw [Int64.le_iff_toInt_le] at hk hne
    unfold less point
    simp only [Int64.lt_iff_toInt_lt, Int64.le_iff_toInt_le]
    rw [if_neg (by omega), if_pos hk]
  show (pure (ofTristate (less ⟨lo, hi⟩ (point k)).not) : Eval Interval) = _
  rw [hless]
  rfl

theorem ends_backwardGreater_point {lo hi k : Bound} (hk : k ≤ lo) (hne : lo ≤ hi) :
    (backwardGreater bound false ⟨lo, hi⟩ (point k)).Ends (fun p => p = (⟨lo, hi⟩, point k))
      fun _ => False := by
  have hkk : (point k).lo ≤ (point k).hi := Int64.le_refl k
  have hkhi : k ≤ hi := Int64.le_trans hk hne
  unfold backwardGreater
  rw [meetLow_eq_self (v := ⟨lo, hi⟩) (q := (point k).lo) hne hk]
  simp only [pure_bind, Bool.false_eq_true, if_false]
  rw [meetHigh_eq_self (v := point k) hkk hkhi]
  simp only [pure_bind]
  split
  · exact Eval.ends_pure rfl
  · rename_i hsmall
    simp only [Bool.or_eq_true, Bool.not_eq_true', not_or, Bool.not_eq_false] at hsmall
    -- The only integer common to both is the low end of the one and all of the other.
    obtain ⟨hsome, hwithin⟩ := hsmall
    obtain ⟨-, hsize⟩ := size_exact hsome hwithin
    have hlow : (meet ⟨lo, hi⟩ (point k)).lo = lo := by
      rw [Int64.le_iff_toInt_le] at hk
      exact Int64.toInt_inj.mp ((Bound.toInt_greater lo k).trans (max_eq_left hk))
    have hhigh : (meet ⟨lo, hi⟩ (point k)).hi = k := by
      rw [Int64.le_iff_toInt_le] at hkhi
      exact Int64.toInt_inj.mp ((Bound.toInt_lesser hi k).trans (min_eq_right hkhi))
    have hlok : lo = k := by
      simp only [isBottom, hlow, hhigh, decide_eq_true_eq, Int64.lt_iff_toInt_lt] at hsome
      rw [Int64.le_iff_toInt_le] at hk
      exact Int64.toInt_inj.mp (by omega)
    subst hlok
    rw [hlow, hhigh, sub_self, zero_add] at hsize
    have hborder : lo + Int64.ofNat 0 = lo := Int64.add_zero lo
    have hone : Eval.choose 1 = pure 0 := rfl
    rw [hsize, hlow, Int.add_zero, hone]
    simp only [pure_bind, hborder]
    rw [meetLow_eq_self (v := ⟨lo, hi⟩) hne hk, meetHigh_eq_self (v := point lo) hkk hk]
    simp only [pure_bind]
    exact Eval.ends_pure rfl

/-- From a comparison that is true, where it is true of every member. -/
theorem ends_backward_sge_point {lo hi k : Bound} (hk : k ≤ lo) (hne : lo ≤ hi) :
    (backward bound (.relation .sge) (point 1) ⟨lo, hi⟩ (point k)).Ends
      (fun p => p = (⟨lo, hi⟩, point k)) fun _ => False := by
  have htrue : toTristate (point 1) = pure .yes := rfl
  show Eval.Ends _ _ (backwardCompare bound .sge (point 1) ⟨lo, hi⟩ (point k))
  unfold backwardCompare
  rw [htrue, pure_bind]
  exact ends_backwardGreater_point hk hne

end Interval

end Narrowing
