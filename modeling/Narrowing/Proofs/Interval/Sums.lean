/-
# Narrowing from a sum

Where a sum or a difference is known to lie in `r`, its operands are first met with what
the inverse operator gives, and then the ends are moved.  The least result may fall short
of the low end of `r` and the greatest one may exceed the high end.  Such a gap, if it is
within the bound on questions, is shared out between the two operands, so that the ends of
what is left add up to the end of `r`.

A difference is a sum with the mirror image of the second operand (`mirror`), and so it is
only for sums that the ends are added up (`Closes`).  The meets leave operands that have a
sum in `r`; to close a gap does not change that, since `r` has a member.  And where neither
gap is left open, every sum lies in `r`.
-/
import Narrowing.Proofs.Interval.Steps

namespace Narrowing

namespace Interval

variable {a b r u v w s : Interval} {bound : UInt32} {gap : Option Bound} {x y : Int}

/-! ## Members near the ends -/

/-- Between two of its members an interval has every integer, and an infinite end is as far
out as wanted. -/
theorem exists_span (hv : v.Oriented) (hle : v.lo.toInt ≤ v.hi.toInt) {n : Int} (hn : 2 ^ 64 ≤ n) :
    ∃ l h, l ≤ h ∧ (∀ x, l ≤ x → x ≤ h → x ∈ v) ∧
      (v.lo.toInt = -2 ^ 63 ∧ l = -n ∨ v.lo.toInt ≠ -2 ^ 63 ∧ l = v.lo.toInt) ∧
      (v.hi.toInt = 2 ^ 63 - 1 ∧ h = n ∨ v.hi.toInt ≠ 2 ^ 63 - 1 ∧ h = v.hi.toInt) := by
  rw [oriented_iff] at hv
  refine ⟨if v.lo.toInt = -2 ^ 63 then -n else v.lo.toInt,
    if v.hi.toInt = 2 ^ 63 - 1 then n else v.hi.toInt, ?_, fun x hl hh => mem_iff.mpr ?_, ?_, ?_⟩
  · split_ifs <;> omega
  · split_ifs at hl hh <;> omega
  · split_ifs <;> omega
  · split_ifs <;> omega

/-- Two ranges of integers have a sum in a third, unless their sums are all below or all above. -/
theorem exists_split {l h l' h' m n : Int} (hlh : l ≤ h) (hlh' : l' ≤ h') (hmn : m ≤ n)
    (hlow : l + l' ≤ n) (hhigh : m ≤ h + h') :
    ∃ x y, (l ≤ x ∧ x ≤ h) ∧ (l' ≤ y ∧ y ≤ h') ∧ m ≤ x + y ∧ x + y ≤ n := by
  -- the least sum that is not below m, made with as much of the first as it takes
  obtain ⟨z, hz⟩ : ∃ z, z = max m (l + l') := ⟨_, rfl⟩
  exact ⟨min h (z - l'), z - min h (z - l'), by omega, by omega, by omega⟩

/-- Some sum of two intervals lies in a third, if that is not ruled out by the ends. -/
theorem exists_sum_mem (hu : u.Oriented) (hw : w.Oriented) (hr : r.Oriented)
    (hule : u.lo.toInt ≤ u.hi.toInt) (hwle : w.lo.toInt ≤ w.hi.toInt)
    (hrle : r.lo.toInt ≤ r.hi.toInt)
    (hlow : (u.lo.toInt = -2 ^ 63 ∨ w.lo.toInt = -2 ^ 63) ∨ r.hi.toInt = 2 ^ 63 - 1 ∨
      u.lo.toInt + w.lo.toInt ≤ r.hi.toInt)
    (hhigh : (u.hi.toInt = 2 ^ 63 - 1 ∨ w.hi.toInt = 2 ^ 63 - 1) ∨ r.lo.toInt = -2 ^ 63 ∨
      r.lo.toInt ≤ u.hi.toInt + w.hi.toInt) :
    ∃ x ∈ u, ∃ y ∈ w, x + y ∈ r := by
  obtain ⟨l, h, hlh, hmem, hl, hh⟩ := exists_span hu hule (n := 2 ^ 70) (by omega)
  obtain ⟨l', h', hlh', hmem', hl', hh'⟩ := exists_span hw hwle (n := 2 ^ 70) (by omega)
  obtain ⟨m, n, hmn, hmem'', hm, hn⟩ := exists_span hr hrle (n := 2 ^ 70) (by omega)
  rw [oriented_iff] at hu hw hr
  have hlow' : l + l' ≤ n := by
    clear hh hh' hm hhigh
    omega
  have hhigh' : m ≤ h + h' := by
    clear hl hl' hn hlow hlow'
    omega
  obtain ⟨x, y, hx, hy, hz⟩ := exists_split hlh hlh' hmn hlow' hhigh'
  exact ⟨x, hmem x hx.1 hx.2, y, hmem' y hy.1 hy.2, hmem'' _ hz.1 hz.2⟩

/-- Every member of the differences of two intervals is one. -/
theorem exists_of_mem_sub? {j k : Int} (hu : u.Filled j) (hw : w.Filled k)
    (hj : j ≤ 2 ^ 61) (hk : k ≤ 2 ^ 61) (hv : sub? u w = some v) (hy : y ∈ v) :
    ∃ x ∈ u, ∃ z ∈ w, x - z = y := by
  have hor := hu.moderate.oriented (by omega)
  have hor' := hw.moderate.oriented (by omega)
  obtain ⟨l, h, hlh, hmem, hl, hh⟩ := exists_span hor hu.le (n := 2 ^ 64 + y.natAbs) (by omega)
  obtain ⟨l', h', hlh', hmem', hl', hh'⟩ :=
    exists_span hor' hw.le (n := 2 ^ 64 + y.natAbs) (by omega)
  obtain ⟨hlo, hhi⟩ := sub?_ends hv
  have humod := moderate_iff.mp hu.moderate
  have hwmod := moderate_iff.mp hw.moderate
  rw [oriented_iff] at hor hor'
  rw [mem_iff] at hy
  have hlow : l + -h' ≤ y := by
    clear hh hl'
    by_cases hfin : u.lo.toInt = -2 ^ 63 ∨ w.hi.toInt = 2 ^ 63 - 1
    · omega
    · have := Bound.eq_clamp_iff.mp (Bound.sub?_eq_clamp (.finite (Bound.finite_iff.mpr (by omega)))
        (.finite (Bound.finite_iff.mpr (by omega))) (by omega) (by omega) hlo)
      omega
  have hhigh : y ≤ h + -l' := by
    clear hl hh'
    by_cases hfin : u.hi.toInt = 2 ^ 63 - 1 ∨ w.lo.toInt = -2 ^ 63
    · omega
    · have := Bound.eq_clamp_iff.mp (Bound.sub?_eq_clamp (.finite (Bound.finite_iff.mpr (by omega)))
        (.finite (Bound.finite_iff.mpr (by omega))) (by omega) (by omega) hhi)
      omega
  obtain ⟨x, z, hx, hz, hsum⟩ := exists_split hlh (neg_le_neg hlh') le_rfl hlow hhigh
  exact ⟨x, hmem x hx.1 hx.2, -z, hmem' (-z) (by omega) (by omega), by omega⟩

/-! ## Mirror images -/

/-- The opposites of the members. -/
def mirror (v : Interval) : Interval := ⟨Bound.opposite v.hi, Bound.opposite v.lo⟩

theorem sub?_eq_add? (u w : Interval) : sub? u w = add? u w.mirror := rfl

theorem toInt_opposite_cases (o : Bound) :
    (o.toInt = -2 ^ 63 ∧ o.opposite.toInt = 2 ^ 63 - 1) ∨
    (o.toInt = 2 ^ 63 - 1 ∧ o.opposite.toInt = -2 ^ 63) ∨
    (o.toInt ≠ -2 ^ 63 ∧ o.toInt ≠ 2 ^ 63 - 1 ∧ o.opposite.toInt = -o.toInt) := by
  have := o.le_toInt
  have := o.toInt_lt
  unfold Bound.opposite
  split_ifs with hneg hpos
  · exact Or.inl ⟨congrArg Int64.toInt hneg, rfl⟩
  · exact Or.inr (Or.inl ⟨congrArg Int64.toInt hpos, rfl⟩)
  · rw [← Int64.toInt_inj, Bound.toInt_negInf] at hneg
    rw [← Int64.toInt_inj, Bound.toInt_posInf] at hpos
    refine Or.inr (Or.inr ⟨hneg, hpos, ?_⟩)
    rw [Int64.toInt_neg, Bound.bmod_of_word (by omega) (by omega)]

/-- To move a finite end one way is to move its opposite the other way. -/
theorem toInt_opposite_add {e f : Bound} {i : Int} (h : f.toInt = e.toInt + i)
    (hfin : i = 0 ∨ e.isInf = false ∧ f.isInf = false) :
    f.opposite.toInt = e.opposite.toInt - i := by
  have he := toInt_opposite_cases e
  have hf := toInt_opposite_cases f
  rw [Bound.finite_iff, Bound.finite_iff] at hfin
  omega

theorem Filled.mirror {k : Int} (hv : v.Filled k) (hk : k ≤ 2 ^ 63 - 2) : v.mirror.Filled k := by
  have hmod := moderate_iff.mp hv.moderate
  have hle := hv.le
  have hlo := toInt_opposite_cases v.lo
  have hhi := toInt_opposite_cases v.hi
  refine ⟨moderate_iff.mpr ?_, isBottom_eq_false_iff.mpr ?_⟩
  · simp only [Interval.mirror]
    omega
  · simp only [Interval.mirror]
    omega

theorem mem_mirror {k : Int} (hv : v.Moderate k) (hk : k ≤ 2 ^ 63 - 2) :
    y ∈ v.mirror ↔ -y ∈ v := by
  have hlo := toInt_opposite_cases v.lo
  have hhi := toInt_opposite_cases v.hi
  rw [moderate_iff] at hv
  rw [mem_iff, mem_iff]
  simp only [mirror]
  omega

/-! ## Sharing out a gap -/

/-- What is left when `i` is taken off below and `j` above. -/
structure Trimmed (i j : Int) (v u : Interval) : Prop where
  lo : u.lo.toInt = v.lo.toInt + i
  hi : u.hi.toInt = v.hi.toInt - j
  le : u.lo.toInt ≤ u.hi.toInt

theorem Trimmed.refl (hv : v.lo.toInt ≤ v.hi.toInt) : Trimmed 0 0 v v :=
  ⟨(Int.add_zero _).symm, (Int.sub_zero _).symm, hv⟩

theorem Trimmed.trans {i j i' j' : Int} (h : Trimmed i j v u) (h' : Trimmed i' j' u w) :
    Trimmed (i + i') (j + j') v w := by
  have := h.lo
  have := h.hi
  have := h'.lo
  have := h'.hi
  exact ⟨by omega, by omega, h'.le⟩

theorem Trimmed.mirror {i j : Int} (h : Trimmed i j v u) (hv : v.Moderate (2 ^ 62))
    (hi : i = 0 ∨ v.lo.toInt ≠ -2 ^ 63 ∧ 0 < i ∧ i < 2 ^ 32)
    (hj : j = 0 ∨ v.hi.toInt ≠ 2 ^ 63 - 1 ∧ 0 < j ∧ j < 2 ^ 32) :
    Trimmed j i v.mirror u.mirror ∧ u.Moderate (2 ^ 62 + 2 ^ 32) := by
  obtain ⟨hlo, hhi, hle⟩ := h
  have hv := moderate_iff.mp hv
  have hu : u.Moderate (2 ^ 62 + 2 ^ 32) := moderate_iff.mpr (by omega)
  have hu' : u.Filled (2 ^ 62 + 2 ^ 32) := ⟨hu, isBottom_eq_false_iff.mpr hle⟩
  have hleft : (Bound.opposite u.hi).toInt = (Bound.opposite v.hi).toInt - -j := by
    refine toInt_opposite_add (by omega) (hj.imp (by omega) fun _ => ?_)
    rw [Bound.finite_iff, Bound.finite_iff]
    omega
  have hright : (Bound.opposite u.lo).toInt = (Bound.opposite v.lo).toInt - i := by
    refine toInt_opposite_add hlo (hi.imp id fun _ => ?_)
    rw [Bound.finite_iff, Bound.finite_iff]
    omega
  exact ⟨⟨by rw [← sub_neg_eq_add]; exact hleft, hright, (hu'.mirror (by omega)).le⟩, hu⟩

section Share

variable {g o : Bound} (h0 : 0 ≤ o.toInt) (hle : o.toInt ≤ g.toInt) (hlt : g.toInt < 2 ^ 32)

include h0 hle hlt

theorem sure_raise (ht : Tame v.lo) : (v.meetLow (v.lo + o)).Sure (Trimmed o.toInt 0 v) := by
  unfold Tame at ht
  have hadd := Bound.toInt_add (a := v.lo) (b := o) (by omega) (by omega)
  refine sure_meetLow.mono ?_
  rintro u ⟨hlo, hhi, hule⟩
  exact ⟨by omega, by rw [hhi, Int.sub_zero], hule⟩

theorem sure_raise_rest (ht : Tame v.lo) :
    (v.meetLow (v.lo + g - o)).Sure (Trimmed (g.toInt - o.toInt) 0 v) := by
  unfold Tame at ht
  have hadd := Bound.toInt_add (a := v.lo) (b := g) (by omega) (by omega)
  have hsub := Bound.toInt_sub (a := v.lo + g) (b := o) (by omega) (by omega)
  refine sure_meetLow.mono ?_
  rintro u ⟨hlo, hhi, hule⟩
  exact ⟨by omega, by rw [hhi, Int.sub_zero], hule⟩

theorem sure_lower (ht : Tame v.hi) : (v.meetHigh (v.hi - o)).Sure (Trimmed 0 o.toInt v) := by
  unfold Tame at ht
  have hsub := Bound.toInt_sub (a := v.hi) (b := o) (by omega) (by omega)
  refine sure_meetHigh.mono ?_
  rintro u ⟨hhi, hlo, hule⟩
  exact ⟨by rw [hlo, Int.add_zero], by omega, hule⟩

theorem sure_lower_rest (ht : Tame v.hi) :
    (v.meetHigh (v.hi - g + o)).Sure (Trimmed 0 (g.toInt - o.toInt) v) := by
  unfold Tame at ht
  have hsub := Bound.toInt_sub (a := v.hi) (b := g) (by omega) (by omega)
  have hadd := Bound.toInt_add (a := v.hi - g) (b := o) (by omega) (by omega)
  refine sure_meetHigh.mono ?_
  rintro u ⟨hhi, hlo, hule⟩
  exact ⟨by rw [hlo, Int.add_zero], by omega, hule⟩

end Share

/-- The size of a gap; one that is not to be closed counts as none. -/
def amount (gap : Option Bound) : Int := gap.elim 0 Int64.toInt

/-- A gap is shared out between two operands, a part for each. -/
def Shares (gap : Option Bound) (P P' : Int → Interval → Prop) (p : Interval × Interval) : Prop :=
  ∃ i j, (0 ≤ i ∧ 0 ≤ j) ∧ i + j = amount gap ∧ P i p.1 ∧ P' j p.2

section Gaps

variable (ha : a.lo.toInt ≤ a.hi.toInt) (hb : b.lo.toInt ≤ b.hi.toInt)
  (hgap : ∀ n, gap = some n → 0 < n.toInt ∧ n.toInt < 2 ^ 32)

include hgap in
theorem sure_share {f g : Bound → Bound → Eval Interval} {P P' : Int → Interval → Prop}
    (hP : P 0 a) (hP' : P' 0 b)
    (hf : ∀ n o : Bound, gap = some n → 0 ≤ o.toInt → o.toInt ≤ n.toInt → n.toInt < 2 ^ 32 →
      (f n o).Sure (P o.toInt))
    (hg : ∀ n o : Bound, gap = some n → 0 ≤ o.toInt → o.toInt ≤ n.toInt → n.toInt < 2 ^ 32 →
      (g n o).Sure (P' (n.toInt - o.toInt))) :
    Eval.Sure (Shares gap P P') (match gap with
      | none => pure (a, b)
      | some n => do
        let i ← chooseBelow (n + 1)
        return (← f n i, ← g n i)) := by
  cases gap with
  | none => exact Eval.sure_pure ⟨0, 0, by omega, rfl, hP, hP'⟩
  | some n =>
      obtain ⟨hpos, hlt⟩ := hgap n rfl
      have hone : (1 : Bound).toInt = 1 := rfl
      have hnext := Bound.toInt_add (a := n) (b := 1) (by omega) (by omega)
      refine Eval.sure_bind (sure_chooseBelow.mono ?_)
      rintro o ⟨h0, ho⟩
      refine Eval.sure_bind ((hf n o rfl h0 (by omega) hlt).mono fun u hu => ?_)
      refine Eval.sure_bind ((hg n o rfl h0 (by omega) hlt).mono fun w hw => ?_)
      exact Eval.sure_pure ⟨o.toInt, n.toInt - o.toInt, by omega, add_sub_cancel _ _, hu, hw⟩

include ha hb hgap

theorem sure_raiseSum (ht : ∀ n, gap = some n → Tame a.lo ∧ Tame b.lo) :
    (raiseSum gap a b).Sure (Shares gap (Trimmed · 0 a) (Trimmed · 0 b)) :=
  sure_share hgap (.refl ha) (.refl hb) (fun n _ hn h0 hle hlt => sure_raise h0 hle hlt (ht n hn).1)
    fun n _ hn h0 hle hlt => sure_raise_rest h0 hle hlt (ht n hn).2

theorem sure_lowerSum (ht : ∀ n, gap = some n → Tame a.hi ∧ Tame b.hi) :
    (lowerSum gap a b).Sure (Shares gap (Trimmed 0 · a) (Trimmed 0 · b)) :=
  sure_share hgap (.refl ha) (.refl hb) (fun n _ hn h0 hle hlt => sure_lower h0 hle hlt (ht n hn).1)
    fun n _ hn h0 hle hlt => sure_lower_rest h0 hle hlt (ht n hn).2

theorem sure_raiseDifference (ht : ∀ n, gap = some n → Tame a.lo ∧ Tame b.hi) :
    (raiseDifference gap a b).Sure (Shares gap (Trimmed · 0 a) (Trimmed 0 · b)) :=
  sure_share hgap (.refl ha) (.refl hb) (fun n _ hn h0 hle hlt => sure_raise h0 hle hlt (ht n hn).1)
    fun n _ hn h0 hle hlt => sure_lower_rest h0 hle hlt (ht n hn).2

theorem sure_lowerDifference (ht : ∀ n, gap = some n → Tame a.hi ∧ Tame b.lo) :
    (lowerDifference gap a b).Sure (Shares gap (Trimmed 0 · a) (Trimmed · 0 b)) :=
  sure_share hgap (.refl ha) (.refl hb) (fun n _ hn h0 hle hlt => sure_lower h0 hle hlt (ht n hn).1)
    fun n _ hn h0 hle hlt => sure_raise_rest h0 hle hlt (ht n hn).2

end Gaps

/-! ## Closing the gaps -/

theorem amount_gap? (bound : UInt32) (high low : Bound) : amount (gap? bound high low) = 0 ∨
    (high.isInf = false ∧ low.isInf = false) ∧
      amount (gap? bound high low) = high.toInt - low.toInt ∧
      0 < amount (gap? bound high low) ∧ amount (gap? bound high low) < 2 ^ 32 := by
  cases hgap : gap? bound high low with
  | none => exact Or.inl rfl
  | some n => exact Or.inr (gap?_exact hgap)

theorem le_amount_gap? {high low : Bound} (hhigh : high.isInf = false) (hlow : low.isInf = false)
    (hleast : low.toInt ≠ -2 ^ 63 + 1) (hlt : high.toInt - low.toInt < 2 ^ 63 - 1)
    (hle : high.toInt - low.toInt ≤ bound.toNat) :
    high.toInt - low.toInt ≤ amount (gap? bound high low) := by
  rcases lt_or_ge 0 (high.toInt - low.toInt) with hpos | hneg
  · obtain ⟨d, hd⟩ : ∃ d, Bound.sub? high low = some d := Bound.add?_isSome (Or.inl hhigh)
    have hdiff := Bound.eq_clamp_iff.mp
      (Bound.sub?_eq_clamp (.finite hhigh) (.finite hlow) hleast (by omega) hd)
    have hgap : gap? bound high low = some d :=
      Option.filter_eq_some_iff.mpr ⟨hd, withinBound_iff.mpr (by omega)⟩
    rw [hgap]
    show high.toInt - low.toInt ≤ d.toInt
    omega
  · have := amount_gap? bound high low
    omega

/-- What is left of two operands once the gaps between their sums and `r` are shared out. -/
def Closes (bound : UInt32) (r u w : Interval) (p : Interval × Interval) : Prop :=
  ∃ s, add? u w = some s ∧ ∃ i j i' j',
    ((0 ≤ i ∧ 0 ≤ j) ∧ i + j = amount (gap? bound r.lo s.lo)) ∧
    ((0 ≤ i' ∧ 0 ≤ j') ∧ i' + j' = amount (gap? bound s.hi r.hi)) ∧
    Trimmed i i' u p.1 ∧ Trimmed j j' w p.2

/-- An integer that is no farther outside of an interval than may be asked for. -/
def Near (bound : UInt32) (r : Interval) (z : Int) : Prop :=
  (r.lo.isInf = false → r.lo.toInt - bound.toNat ≤ z) ∧
    (r.hi.isInf = false → z ≤ r.hi.toInt + bound.toNat)

theorem amount_below (bound : UInt32) (r : Interval) {e : Bound}
    (he : Bound.add? u.lo w.lo = some e) :
    amount (gap? bound r.lo e) = 0 ∨
      ((u.lo.toInt ≠ -2 ^ 63 ∧ w.lo.toInt ≠ -2 ^ 63) ∧ r.lo.toInt ≠ -2 ^ 63) ∧
        u.lo.toInt + w.lo.toInt + amount (gap? bound r.lo e) = r.lo.toInt ∧
        0 < amount (gap? bound r.lo e) ∧ amount (gap? bound r.lo e) < 2 ^ 32 := by
  refine (amount_gap? bound r.lo e).imp_right ?_
  rintro ⟨⟨hrfin, hefin⟩, heq, hpos, hlt⟩
  obtain ⟨hufin, hwfin, hexact⟩ := Bound.add?_exact he hefin
  rw [Bound.finite_iff] at hrfin hufin hwfin
  omega

theorem amount_above (bound : UInt32) (r : Interval) {e : Bound}
    (he : Bound.add? u.hi w.hi = some e) :
    amount (gap? bound e r.hi) = 0 ∨
      ((u.hi.toInt ≠ 2 ^ 63 - 1 ∧ w.hi.toInt ≠ 2 ^ 63 - 1) ∧ r.hi.toInt ≠ 2 ^ 63 - 1) ∧
        u.hi.toInt + w.hi.toInt - amount (gap? bound e r.hi) = r.hi.toInt ∧
        0 < amount (gap? bound e r.hi) ∧ amount (gap? bound e r.hi) < 2 ^ 32 := by
  refine (amount_gap? bound e r.hi).imp_right ?_
  rintro ⟨⟨hefin, hrfin⟩, heq, hpos, hlt⟩
  obtain ⟨hufin, hwfin, hexact⟩ := Bound.add?_exact he hefin
  rw [Bound.finite_iff] at hrfin hufin hwfin
  omega

theorem Closes.filled {p : Interval × Interval} (h : Closes bound r u w p) (hu : u.Filled (2 ^ 61))
    (hw : w.Filled (2 ^ 62)) :
    p.1.Filled (2 ^ 62 + 2 ^ 32) ∧ p.2.Filled (2 ^ 62 + 2 ^ 32) := by
  obtain ⟨s, hs, i, j, i', j', hlow, hhigh, ⟨hlo, hhi, hle⟩, hlo', hhi', hle'⟩ := h
  obtain ⟨hslo, hshi⟩ := add?_ends hs
  have hbelow := amount_below bound r hslo
  have habove := amount_above bound r hshi
  have humod := moderate_iff.mp hu.moderate
  have hwmod := moderate_iff.mp hw.moderate
  refine ⟨⟨moderate_iff.mpr ⟨?_, ?_⟩, isBottom_eq_false_iff.mpr hle⟩,
    moderate_iff.mpr ⟨?_, ?_⟩, isBottom_eq_false_iff.mpr hle'⟩
  · clear habove
    omega
  · clear hbelow
    omega
  · clear habove
    omega
  · clear hbelow
    omega

section Closing

variable (hr : r.Filled (2 ^ 60)) (hu : u.Filled (2 ^ 61)) (hw : w.Filled (2 ^ 62))

include hr hu hw

theorem reach_below {e : Bound} (he : Bound.add? u.lo w.lo = some e)
    (hulo : u.lo.toInt ≠ -2 ^ 63) (hwlo : w.lo.toInt ≠ -2 ^ 63) (hrlo : r.lo.toInt ≠ -2 ^ 63)
    (hle : r.lo.toInt ≤ u.lo.toInt + w.lo.toInt + bound.toNat) :
    r.lo.toInt ≤ u.lo.toInt + w.lo.toInt + amount (gap? bound r.lo e) := by
  have hrmod := moderate_iff.mp hr.moderate
  have humod := moderate_iff.mp hu.moderate
  have hwmod := moderate_iff.mp hw.moderate
  have hufin : u.lo.isInf = false := Bound.finite_iff.mpr (by omega)
  have hwfin : w.lo.isInf = false := Bound.finite_iff.mpr (by omega)
  have hrfin : r.lo.isInf = false := Bound.finite_iff.mpr (by omega)
  have hexact := Bound.eq_clamp_iff.mp
    (Bound.add?_eq_clamp (.finite hufin) (.finite hwfin) (by omega) he)
  have hefin : e.isInf = false := Bound.finite_iff.mpr (by omega)
  have hgap : r.lo.toInt - e.toInt ≤ amount (gap? bound r.lo e) :=
    le_amount_gap? hrfin hefin (by omega) (by omega) (by omega)
  omega

theorem reach_above {e : Bound} (he : Bound.add? u.hi w.hi = some e)
    (huhi : u.hi.toInt ≠ 2 ^ 63 - 1) (hwhi : w.hi.toInt ≠ 2 ^ 63 - 1)
    (hrhi : r.hi.toInt ≠ 2 ^ 63 - 1)
    (hle : u.hi.toInt + w.hi.toInt ≤ r.hi.toInt + bound.toNat) :
    u.hi.toInt + w.hi.toInt - amount (gap? bound e r.hi) ≤ r.hi.toInt := by
  have hrmod := moderate_iff.mp hr.moderate
  have humod := moderate_iff.mp hu.moderate
  have hwmod := moderate_iff.mp hw.moderate
  have hufin : u.hi.isInf = false := Bound.finite_iff.mpr (by omega)
  have hwfin : w.hi.isInf = false := Bound.finite_iff.mpr (by omega)
  have hrfin : r.hi.isInf = false := Bound.finite_iff.mpr (by omega)
  have hexact := Bound.eq_clamp_iff.mp
    (Bound.add?_eq_clamp (.finite hufin) (.finite hwfin) (by omega) he)
  have hefin : e.isInf = false := Bound.finite_iff.mpr (by omega)
  have hgap : e.toInt - r.hi.toInt ≤ amount (gap? bound e r.hi) :=
    le_amount_gap? hefin hrfin (by omega) (by omega) (by omega)
  omega

theorem near_below (hnear : ∀ x ∈ u, ∀ y ∈ w, Near bound r (x + y)) (hfin : r.lo.toInt ≠ -2 ^ 63) :
    u.lo.toInt ≠ -2 ^ 63 ∧ w.lo.toInt ≠ -2 ^ 63 ∧
      r.lo.toInt ≤ u.lo.toInt + w.lo.toInt + bound.toNat := by
  obtain ⟨l, h, hlh, hmem, hl, -⟩ :=
    exists_span (hu.moderate.oriented (by omega)) hu.le (n := 2 ^ 70) (by omega)
  obtain ⟨l', h', hlh', hmem', hl', -⟩ :=
    exists_span (hw.moderate.oriented (by omega)) hw.le (n := 2 ^ 70) (by omega)
  have hrmod := moderate_iff.mp hr.moderate
  have hleast := (hnear l (hmem l le_rfl hlh) l' (hmem' l' le_rfl hlh')).1
    (Bound.finite_iff.mpr (by omega))
  have hlt := bound.toNat_lt
  have := u.lo.toInt_lt
  have := w.lo.toInt_lt
  omega

theorem near_above (hnear : ∀ x ∈ u, ∀ y ∈ w, Near bound r (x + y))
    (hfin : r.hi.toInt ≠ 2 ^ 63 - 1) :
    u.hi.toInt ≠ 2 ^ 63 - 1 ∧ w.hi.toInt ≠ 2 ^ 63 - 1 ∧
      u.hi.toInt + w.hi.toInt ≤ r.hi.toInt + bound.toNat := by
  obtain ⟨l, h, hlh, hmem, -, hh⟩ :=
    exists_span (hu.moderate.oriented (by omega)) hu.le (n := 2 ^ 70) (by omega)
  obtain ⟨l', h', hlh', hmem', -, hh'⟩ :=
    exists_span (hw.moderate.oriented (by omega)) hw.le (n := 2 ^ 70) (by omega)
  have hrmod := moderate_iff.mp hr.moderate
  have hmost := (hnear h (hmem h hlh le_rfl) h' (hmem' h' hlh' le_rfl)).2
    (Bound.finite_iff.mpr (by omega))
  have hlt := bound.toNat_lt
  have := u.hi.le_toInt
  have := w.hi.le_toInt
  omega

variable {p : Interval × Interval} (h : Closes bound r u w p)

include h

/-- Where there was a sum in `r`, there still is one: the ends of what is left add up to those of
`r`, or they are the old ones. -/
theorem Closes.exists_sum (hsum : ∃ x ∈ u, ∃ y ∈ w, x + y ∈ r) :
    ∃ x ∈ p.1, ∃ y ∈ p.2, x + y ∈ r := by
  obtain ⟨hp, hp'⟩ := h.filled hu hw
  obtain ⟨x, hx, y, hy, hz⟩ := hsum
  obtain ⟨s, hs, i, j, i', j', hlow, hhigh, ⟨hlo, hhi, -⟩, hlo', hhi', -⟩ := h
  obtain ⟨hslo, hshi⟩ := add?_ends hs
  have hbelow := amount_below bound r hslo
  have habove := amount_above bound r hshi
  have hrle := hr.le
  rw [mem_iff] at hx hy hz
  refine exists_sum_mem (hp.moderate.oriented (by omega)) (hp'.moderate.oriented (by omega))
    (hr.moderate.oriented (by omega)) hp.le hp'.le hrle ?_ ?_
  · clear hhigh hhi hhi' habove
    omega
  · clear hlow hlo hlo' hbelow
    omega

/-- Where no sum was farther from `r` than the bound, every sum is in `r`. -/
theorem Closes.forall_sum (hnear : ∀ x ∈ u, ∀ y ∈ w, Near bound r (x + y)) :
    ∀ x ∈ p.1, ∀ y ∈ p.2, x + y ∈ r := by
  have hleast := near_below hr hu hw hnear
  have hmost := near_above hr hu hw hnear
  obtain ⟨s, hs, i, j, i', j', hlow, hhigh, ⟨hlo, hhi, -⟩, hlo', hhi', -⟩ := h
  obtain ⟨hslo, hshi⟩ := add?_ends hs
  intro x hx y hy
  rw [mem_iff] at hx hy ⊢
  constructor
  · by_cases hfin : r.lo.toInt = -2 ^ 63
    · exact Or.inl hfin
    · obtain ⟨hulo, hwlo, hle⟩ := hleast hfin
      have := u.lo.le_toInt
      have := w.lo.le_toInt
      have hreach := reach_below hr hu hw hslo hulo hwlo hfin hle
      exact Or.inr (by omega)
  · by_cases hfin : r.hi.toInt = 2 ^ 63 - 1
    · exact Or.inl hfin
    · obtain ⟨huhi, hwhi, hle⟩ := hmost hfin
      have := u.hi.toInt_lt
      have := w.hi.toInt_lt
      have hreach := reach_above hr hu hw hshi huhi hwhi hfin hle
      exact Or.inr (by omega)

end Closing

/-! ## The meets with the inverse operator -/

/-- The operands of a sum or a difference after the two meets with what the inverse operator
gives. -/
def afterMeets (op : Arith) (r a b : Interval) : Interval × Interval :=
  match op with
  | .add => (a.met (sub? r b), b.met (sub? r (a.met (sub? r b))))
  | .sub => (a.met (add? r b), b.met (sub? (a.met (add? r b)) r))
  | _ => (a, b)

theorem Filled.mono {j k : Int} (hjk : j ≤ k) (hv : v.Filled j) : v.Filled k :=
  ⟨hv.moderate.mono hjk, hv.nonempty⟩

theorem sure_narrow_filled {k : Int} {o : Option Interval} (hv : v.Filled k)
    (ho : ∀ w, o = some w → w.Moderate k) :
    (v.narrow o).Sure fun u => u = v.met o ∧ u.Filled k := by
  refine (sure_narrow hv.le).mono ?_
  rintro u ⟨rfl, hle⟩
  refine ⟨rfl, ?_, isBottom_eq_false_iff.mpr hle⟩
  cases o with
  | none => exact hv.moderate
  | some w => exact hv.moderate.meet (ho w rfl)

section Inverse

variable {j k : Int} (hu : u.Filled j) (hw : w.Filled k)

include hu hw

theorem moderate_of_add? (hj : j ≤ 2 ^ 61) (hk : k ≤ 2 ^ 61) (hv : add? u w = some v) :
    v.Moderate (j + k) := by
  obtain ⟨x, hx⟩ := exists_mem hu.le
  obtain ⟨y, hy⟩ := exists_mem hw.le
  exact (mem_add? hu.moderate hw.moderate (by omega) (by omega) hx hy hv).2

theorem moderate_of_sub? (hj : j ≤ 2 ^ 61) (hk : k ≤ 2 ^ 61) (hv : sub? u w = some v) :
    v.Moderate (j + k) := by
  obtain ⟨x, hx⟩ := exists_mem hu.le
  obtain ⟨y, hy⟩ := exists_mem hw.le
  exact (mem_sub? hu.moderate hw.moderate (by omega) (by omega) hx hy hv).2

theorem exists_add? (hj : j ≤ 2 ^ 62) (hk : k ≤ 2 ^ 62) : ∃ v, add? u w = some v := by
  have hends : ∀ {c d : Bound}, (c.isInf = true → d.isInf = true → c = d) →
      ∃ e, Bound.add? c d = some e := by
    intro c d h
    by_cases hfin : c.isInf = false ∨ d.isInf = false
    · exact Bound.add?_isSome hfin
    · simp only [not_or, Bool.not_eq_false] at hfin
      exact ⟨c, by simp [Bound.add?, hfin, h hfin.1 hfin.2]⟩
  have humod := moderate_iff.mp hu.moderate
  have hwmod := moderate_iff.mp hw.moderate
  simp only [Bound.isInf_iff, ← Int64.toInt_inj] at hends
  obtain ⟨lo, hlo⟩ := hends (c := u.lo) (d := w.lo) (by omega)
  obtain ⟨hi, hhi⟩ := hends (c := u.hi) (d := w.hi) (by omega)
  exact ⟨⟨lo, hi⟩, by simp [add?, hlo, hhi]⟩

theorem exists_sub? (hj : j ≤ 2 ^ 62) (hk : k ≤ 2 ^ 62) : ∃ v, sub? u w = some v := by
  rw [sub?_eq_add?]
  exact exists_add? hu (hw.mirror (by omega)) hj hk

/-- A meet with differences that leaves something leaves a difference. -/
theorem exists_of_met (hj : j ≤ 2 ^ 61) (hk : k ≤ 2 ^ 61) (hv : v = b.met (sub? u w))
    (hle : v.lo.toInt ≤ v.hi.toInt) : ∃ x ∈ u, ∃ z ∈ w, x - z ∈ v := by
  obtain ⟨d, hd⟩ := exists_sub? hu hw (by omega) (by omega)
  obtain ⟨y, hy⟩ := exists_mem hle
  have hmeet : v = meet b d := by rw [hv, hd]; rfl
  have hmem : y ∈ meet b d := hmeet ▸ hy
  obtain ⟨x, hx, z, hz, rfl⟩ := exists_of_mem_sub? hu hw hj hk hd (mem_meet.mp hmem).2
  exact ⟨x, hx, z, hz, hy⟩

end Inverse

/-! ## Sums and differences -/

section Sums

variable (hr : r.Filled (2 ^ 60)) (ha : a.Filled (2 ^ 60)) (hb : b.Filled (2 ^ 60))

include hr ha hb

theorem sure_backwardAdd : (backwardAdd bound r a b).Sure fun p => ∃ u w,
    afterMeets .add r a b = (u, w) ∧ (u.Filled (2 ^ 61) ∧ w.Filled (2 ^ 62)) ∧
      (∃ x ∈ u, ∃ y ∈ w, x + y ∈ r) ∧ Closes bound r u w p := by
  refine Eval.sure_bind ((sure_narrow_filled (k := 2 ^ 61) (ha.mono (by omega)) ?_).mono ?_)
  · intro w hw
    exact (moderate_of_sub? hr hb (by omega) (by omega) hw).mono (by omega)
  rintro u ⟨rfl, hu⟩
  refine Eval.sure_bind ((sure_narrow_filled (k := 2 ^ 62) (hb.mono (by omega)) ?_).mono ?_)
  · intro w hw
    exact (moderate_of_sub? hr hu (by omega) (by omega) hw).mono (by omega)
  rintro w ⟨hmet, hw⟩
  generalize hmet' : a.met (sub? r b) = u at *
  have hsolution : ∃ x ∈ u, ∃ y ∈ w, x + y ∈ r := by
    obtain ⟨z, hz, x, hx, hy⟩ := exists_of_met hr hu (by omega) (by omega) hmet hw.le
    exact ⟨x, hx, z - x, hy, by rwa [add_sub_cancel]⟩
  obtain ⟨s, hs⟩ := exists_add? hu hw (by omega) (by omega)
  obtain ⟨hslo, hshi⟩ := add?_ends hs
  obtain ⟨hulo, huhi⟩ := hu.moderate.tame (by omega)
  obtain ⟨hwlo, hwhi⟩ := hw.moderate.tame (by omega)
  simp only [hs]
  refine Eval.sure_bind ((sure_raiseSum hu.le hw.le (fun n hn => (gap?_exact hn).2.2) ?_).mono ?_)
  · intro n hn
    obtain ⟨hufin, hwfin, -⟩ := Bound.add?_exact hslo (gap?_exact hn).1.2
    exact ⟨hulo hufin, hwlo hwfin⟩
  rintro q ⟨i, j, hij, hlow, hq, hq'⟩
  refine (sure_lowerSum hq.le hq'.le (fun n hn => (gap?_exact hn).2.2) ?_).mono ?_
  · intro n hn
    obtain ⟨hufin, hwfin, -⟩ := Bound.add?_exact hshi (gap?_exact hn).1.1
    have hta := huhi hufin
    have htb := hwhi hwfin
    have := hq.hi
    have := hq'.hi
    unfold Tame at *
    omega
  rintro p ⟨i', j', hij', hhigh, hp, hp'⟩
  refine ⟨u, w, by rw [hmet, ← hmet']; rfl, ⟨hu, hw⟩, hsolution, s, hs, i, j, i', j', ⟨hij, hlow⟩,
    ⟨hij', hhigh⟩, ?_, ?_⟩
  · simpa using hq.trans hp
  · simpa using hq'.trans hp'

theorem sure_backwardSub : (backwardSub bound r a b).Sure fun p => ∃ u w,
    afterMeets .sub r a b = (u, w) ∧ (u.Filled (2 ^ 61) ∧ w.Filled (2 ^ 62)) ∧
      (∃ x ∈ u, ∃ y ∈ w, x - y ∈ r) ∧ p.2.Moderate (2 ^ 62 + 2 ^ 32) ∧
      Closes bound r u w.mirror (p.1, p.2.mirror) := by
  refine Eval.sure_bind ((sure_narrow_filled (k := 2 ^ 61) (ha.mono (by omega)) ?_).mono ?_)
  · intro w hw
    exact (moderate_of_add? hr hb (by omega) (by omega) hw).mono (by omega)
  rintro u ⟨rfl, hu⟩
  refine Eval.sure_bind ((sure_narrow_filled (k := 2 ^ 62) (hb.mono (by omega)) ?_).mono ?_)
  · intro w hw
    exact (moderate_of_sub? hu hr (by omega) (by omega) hw).mono (by omega)
  rintro w ⟨hmet, hw⟩
  generalize hmet' : a.met (add? r b) = u at *
  have hsolution : ∃ x ∈ u, ∃ y ∈ w, x - y ∈ r := by
    obtain ⟨x, hx, z, hz, hy⟩ := exists_of_met hu hr (by omega) (by omega) hmet hw.le
    exact ⟨x, hx, x - z, hy, by rwa [sub_sub_cancel]⟩
  obtain ⟨s, hs⟩ := exists_sub? hu hw (by omega) (by omega)
  obtain ⟨hslo, hshi⟩ := sub?_ends hs
  obtain ⟨hulo, huhi⟩ := hu.moderate.tame (by omega)
  obtain ⟨hwlo, hwhi⟩ := hw.moderate.tame (by omega)
  simp only [hs]
  refine Eval.sure_bind
    ((sure_raiseDifference hu.le hw.le (fun n hn => (gap?_exact hn).2.2) ?_).mono ?_)
  · intro n hn
    obtain ⟨hufin, hwfin, -⟩ := Bound.sub?_exact hslo (gap?_exact hn).1.2
    exact ⟨hulo hufin, hwhi hwfin⟩
  rintro q ⟨i, j, hij, hlow, hq, hq'⟩
  refine (sure_lowerDifference hq.le hq'.le (fun n hn => (gap?_exact hn).2.2) ?_).mono ?_
  · intro n hn
    obtain ⟨hufin, hwfin, -⟩ := Bound.sub?_exact hshi (gap?_exact hn).1.1
    have hta := huhi hufin
    have htb := hwlo hwfin
    have := hq.hi
    have := hq'.lo
    unfold Tame at *
    omega
  rintro p ⟨i', j', hij', hhigh, hp, hp'⟩
  have hsum : add? u w.mirror = some s := sub?_eq_add? u w ▸ hs
  have hj : j = 0 ∨ w.hi.toInt ≠ 2 ^ 63 - 1 ∧ 0 < j ∧ j < 2 ^ 32 := by
    have hbelow := amount_below bound r (add?_ends hsum).1
    have hhi := toInt_opposite_cases w.hi
    simp only [mirror] at hbelow
    omega
  have hj' : j' = 0 ∨ w.lo.toInt ≠ -2 ^ 63 ∧ 0 < j' ∧ j' < 2 ^ 32 := by
    have habove := amount_above bound r (add?_ends hsum).2
    have hlo := toInt_opposite_cases w.lo
    simp only [mirror] at habove
    omega
  have htrim : Trimmed j' j w p.2 := by simpa using hq'.trans hp'
  obtain ⟨hmirror, hmod⟩ := htrim.mirror hw.moderate hj' hj
  refine ⟨u, w, by rw [hmet, ← hmet']; rfl, ⟨hu, hw⟩, hsolution, hmod, s, hsum, i, j, i', j',
    ⟨hij, hlow⟩, ⟨hij', hhigh⟩, ?_, hmirror⟩
  simpa using hq.trans hp

variable (bound) in
/-- What is left has a result in `r`; and every result is in `r`, if none was far from it after
the meets. -/
theorem sure_backward_sum {op : Arith} (hop : op = .add ∨ op = .sub) :
    (backward bound (.arith op) r a b).Sure fun p =>
      (∃ x ∈ p.1, ∃ y ∈ p.2, ∃ z ∈ r, op.eval? x y = some z) ∧
      ((∀ x ∈ (afterMeets op r a b).1, ∀ y ∈ (afterMeets op r a b).2, ∀ z,
          op.eval? x y = some z → Near bound r z) →
        ∀ x ∈ p.1, ∀ y ∈ p.2, ∃ z ∈ r, op.eval? x y = some z) := by
  rcases hop with rfl | rfl
  · refine (sure_backwardAdd hr ha hb).mono ?_
    rintro p ⟨u, w, hmeets, ⟨hu, hw⟩, hsolution, hcloses⟩
    rw [hmeets]
    constructor
    · obtain ⟨x, hx, y, hy, hz⟩ := hcloses.exists_sum hr hu hw hsolution
      exact ⟨x, hx, y, hy, x + y, hz, rfl⟩
    · intro hnear x hx y hy
      refine ⟨x + y, ?_, rfl⟩
      exact hcloses.forall_sum hr hu hw (fun x hx y hy => hnear x hx y hy _ rfl) x hx y hy
  · refine (sure_backwardSub hr ha hb).mono ?_
    rintro p ⟨u, w, hmeets, ⟨hu, hw⟩, ⟨x, hx, y, hy, hz⟩, hmod, hcloses⟩
    have hw' := hw.mirror (by omega)
    have hmem : ∀ {y : Int}, y ∈ w.mirror ↔ -y ∈ w := mem_mirror hw.moderate (by omega)
    have hmem' : ∀ {y : Int}, y ∈ p.2.mirror ↔ -y ∈ p.2 := mem_mirror hmod (by omega)
    rw [hmeets]
    constructor
    · have hsolution : ∃ x ∈ u, ∃ y ∈ w.mirror, x + y ∈ r :=
        ⟨x, hx, -y, hmem.mpr (by rwa [neg_neg]), hz⟩
      obtain ⟨x, hx, y, hy, hz⟩ := hcloses.exists_sum hr hu hw' hsolution
      exact ⟨x, hx, -y, hmem'.mp hy, x + y, hz, congrArg some (sub_neg_eq_add x y)⟩
    · intro hnear x hx y hy
      have hy' : -y ∈ p.2.mirror := hmem'.mpr (by rwa [neg_neg])
      refine ⟨x - y, hcloses.forall_sum hr hu hw' (fun x hx y hy => ?_) x hx (-y) hy', rfl⟩
      exact hnear x hx (-y) (hmem.mp hy) _ (congrArg some (sub_neg_eq_add x y))

variable (bound) in
theorem can_backward_sum {op : Arith} (hop : op = .add ∨ op = .sub) {z : Int} (hx : x ∈ a)
    (hy : y ∈ b) (hz : z ∈ r) (heval : op.eval? x y = some z) :
    (backward bound (.arith op) r a b).Can fun p => Keeps x a p.1 ∧ Keeps y b p.2 := by
  rcases hop with rfl | rfl
  · obtain rfl : x + y = z := Option.some.inj heval
    exact can_backwardAdd hr.moderate ha.moderate hb.moderate hx hy hz
  · obtain rfl : x - y = z := Option.some.inj heval
    exact can_backwardSub hr.moderate ha.moderate hb.moderate hx hy hz

/-- **Narrowing from a sum or a difference covers the solutions exactly.**  Whatever is
answered, what is left lies inside the operands and has a result in `r`.  Of every pair whose
result is in `r`, some answers keep both members.  And where after the meets no result is
farther from `r` than may be asked for, every pair of what is left has its result in `r`. -/
theorem backward_sum_exact (bound : UInt32) (op : Arith) (hop : op = .add ∨ op = .sub) :
    (∀ answers p, ((backward bound (.arith op) r a b).run.play answers).result = .ok p →
      p.1.leq a = true ∧ p.2.leq b = true ∧
        ∃ x ∈ p.1, ∃ y ∈ p.2, ∃ z ∈ r, op.eval? x y = some z) ∧
    (∀ x ∈ a, ∀ y ∈ b, ∀ z ∈ r, op.eval? x y = some z → ∃ answers,
      let play := (backward bound (.arith op) r a b).run.play answers
      Dialogue.Fit .inRange answers play.asked ∧
        ∃ p, play.result = .ok p ∧ x ∈ p.1 ∧ y ∈ p.2) ∧
    ((∀ x ∈ (afterMeets op r a b).1, ∀ y ∈ (afterMeets op r a b).2, ∀ z,
        op.eval? x y = some z → Near bound r z) →
      ∀ answers p, ((backward bound (.arith op) r a b).run.play answers).result = .ok p →
        ∀ x ∈ p.1, ∀ y ∈ p.2, ∃ z ∈ r, op.eval? x y = some z) := by
  have hsure := sure_backward_sum bound hr ha hb hop
  refine ⟨fun answers p hp => ?_, fun x hx y hy z hz heval => ?_, fun hnear answers p hp => ?_⟩
  · obtain ⟨hleft, hright⟩ := (ends_backward bound (.arith op) r a b).sure.of_play hp
    exact ⟨hleft, hright, (hsure.of_play hp).1⟩
  · obtain ⟨answers, hfit, p, hp, hkeeps⟩ :=
      (can_backward_sum bound hr ha hb hop hx hy hz heval).exists_answers
    exact ⟨answers, hfit, p, hp, hkeeps.1.mem, hkeeps.2.mem⟩
  · exact (hsure.of_play hp).2 hnear

end Sums

/-- The meets of 0..3 and 0..3 with a difference of 1..2 leave 1..3 and 0..2, with no result
farther from it than 2: 3 and 1 can be kept, and every difference of what is left is 1 or 2. -/
theorem backward_sum_exact_difference :
    let narrowed := backward 2 (.arith .sub) ⟨1, 2⟩ ⟨0, 3⟩ ⟨0, 3⟩
    (∃ answers, Dialogue.Fit .inRange answers (narrowed.run.play answers).asked ∧
      ∃ p, (narrowed.run.play answers).result = .ok p ∧ (3 : Int) ∈ p.1 ∧ (1 : Int) ∈ p.2) ∧
    ∀ answers p, (narrowed.run.play answers).result = .ok p →
      ∀ x ∈ p.1, ∀ y ∈ p.2, x - y = 1 ∨ x - y = 2 := by
  have hr : Filled (2 ^ 60) ⟨1, 2⟩ := ⟨moderate_iff.mpr (by decide), by decide⟩
  have ha : Filled (2 ^ 60) ⟨0, 3⟩ := ⟨moderate_iff.mpr (by decide), by decide⟩
  have hmeets : afterMeets .sub ⟨1, 2⟩ ⟨0, 3⟩ ⟨0, 3⟩ = (⟨1, 3⟩, ⟨0, 2⟩) := by decide
  have h1 : (1 : Bound).toInt = 1 := rfl
  have h2 : (2 : Bound).toInt = 2 := rfl
  have h3 : (3 : Bound).toInt = 3 := rfl
  have hbound : (2 : UInt32).toNat = 2 := rfl
  have hnear : ∀ x ∈ (⟨1, 3⟩ : Interval), ∀ y ∈ (⟨0, 2⟩ : Interval), Near 2 ⟨1, 2⟩ (x - y) := by
    intro x hx y hy
    simp only [mem_iff, Bound.toInt_zero, h1, h2, h3] at hx hy
    simp only [Near, hbound, h1, h2]
    omega
  obtain ⟨-, hkeep, hexact⟩ := backward_sum_exact hr ha ha 2 .sub (Or.inr rfl)
  rw [hmeets] at hexact
  refine ⟨hkeep 3 (mem_iff.mpr (by decide)) 1 (mem_iff.mpr (by decide)) 2 (mem_iff.mpr (by decide))
    rfl, ?_⟩
  intro answers p hp x hx y hy
  obtain ⟨z, hz, heval⟩ := hexact (fun x hx y hy z heval => Option.some.inj heval ▸ hnear x hx y hy)
    answers p hp x hx y hy
  obtain rfl : x - y = z := Option.some.inj heval
  simp only [mem_iff, h1, h2] at hz
  omega

end Interval

end Narrowing
