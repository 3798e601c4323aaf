/-
# Backward narrowing on intervals loses no pair of operands

Where `r = a op b` holds of three integers, backward narrowing of the intervals
around them can come to intervals that still hold the two operands.  Narrowing
may ask how to split what is left, so this is a statement about some answers:
those that the two operands themselves give.  For a sum that falls short by
`gap`, the first operand takes as much of the gap as it stands above its own low
end; for a product, and for an order, the split is put at the first operand.

Nothing here depends on how many alternatives may be asked for.
-/
import Narrowing.Proofs.Interval.Forward

namespace Narrowing

namespace Interval

variable {a b r v w : Interval} {x y : Int} {bound : UInt32}

/-- An interval that lies inside another and keeps an integer. -/
structure Keeps (x : Int) (v w : Interval) : Prop where
  mem : x ∈ w
  lo : v.lo.toInt ≤ w.lo.toInt
  hi : w.hi.toInt ≤ v.hi.toInt

theorem Keeps.refl (hx : x ∈ v) : Keeps x v v := ⟨hx, le_rfl, le_rfl⟩

theorem Keeps.trans {u : Interval} (h : Keeps x u v) (h' : Keeps x v w) : Keeps x u w :=
  ⟨h'.mem, h.lo.trans h'.lo, h'.hi.trans h.hi⟩

theorem keeps_meet (hv : x ∈ v) (hw : x ∈ w) : Keeps x v (meet v w) := by
  refine ⟨mem_meet.mpr ⟨hv, hw⟩, ?_, ?_⟩
  · simp only [meet, Bound.toInt_greater]
    omega
  · simp only [meet, Bound.toInt_lesser]
    omega

/-! ## Meets -/

theorem intersect_eq_fits (hv : x ∈ v) (hw : x ∈ w) : v.intersect w = .fits (meet v w) := by
  unfold intersect
  dsimp only
  rw [if_neg (not_isBottom (mem_meet.mpr ⟨hv, hw⟩))]

theorem can_intersect {Q : Interval → Prop} (hv : x ∈ v) (hw : x ∈ w) (h : Q (meet v w)) :
    (v.intersect w).eval.Can Q := by
  rw [intersect_eq_fits hv hw]
  exact Eval.can_pure h

theorem can_meetLow {lo : Bound} {Q : Interval → Prop} (hv : x ∈ v)
    (hlo : lo.toInt = -2 ^ 63 ∨ lo.toInt ≤ x)
    (h : ∀ u : Interval, Keeps x v u → u.lo.toInt = max v.lo.toInt lo.toInt → u.hi = v.hi → Q u) :
    (v.meetLow lo).Can Q := by
  have hw : x ∈ (⟨lo, Bound.posInf⟩ : Interval) := mem_iff.mpr ⟨hlo, Or.inl rfl⟩
  refine can_intersect hv hw (h _ (keeps_meet hv hw) ?_ ?_)
  · exact Bound.toInt_greater _ _
  · rw [← Int64.toInt_inj]
    have := v.hi.toInt_lt
    simp only [meet, Bound.toInt_lesser, Bound.toInt_posInf]
    omega

theorem can_meetHigh {hi : Bound} {Q : Interval → Prop} (hv : x ∈ v)
    (hhi : hi.toInt = 2 ^ 63 - 1 ∨ x ≤ hi.toInt)
    (h : ∀ u : Interval, Keeps x v u → u.hi.toInt = min v.hi.toInt hi.toInt → u.lo = v.lo → Q u) :
    (v.meetHigh hi).Can Q := by
  have hw : x ∈ (⟨Bound.negInf, hi⟩ : Interval) := mem_iff.mpr ⟨Or.inl rfl, hhi⟩
  refine can_intersect hv hw (h _ (keeps_meet hv hw) ?_ ?_)
  · exact Bound.toInt_lesser _ _
  · rw [← Int64.toInt_inj]
    have := v.lo.le_toInt
    simp only [meet, Bound.toInt_greater, Bound.toInt_negInf]
    omega

/-- A low end that is moved past a finite integer where it is that integer. -/
theorem toInt_passLow {e l : Bound} (he : e.isInf = false) :
    (if l = e then l + 1 else l).toInt = if l.toInt = e.toInt then l.toInt + 1 else l.toInt := by
  have hone : (1 : Bound).toInt = 1 := rfl
  rw [Bound.finite_iff] at he
  simp only [Int64.toInt_inj]
  split
  · subst e
    rw [Bound.toInt_add (by omega) (by omega), hone]
  · rfl

/-- A high end that is moved past a finite integer where it is that integer. -/
theorem toInt_passHigh {e h : Bound} (he : e.isInf = false) :
    (if h = e then h - 1 else h).toInt = if h.toInt = e.toInt then h.toInt - 1 else h.toInt := by
  have hone : (1 : Bound).toInt = 1 := rfl
  rw [Bound.finite_iff] at he
  simp only [Int64.toInt_inj]
  split
  · subst e
    rw [Bound.toInt_sub (by omega) (by omega), hone]
  · rfl

theorem exclude_eq_fits {e : Bound} (hv : x ∈ v) (hne : e.isInf = false → e.toInt ≠ x) :
    ∃ u, v.exclude e = .fits u ∧ Keeps x v u := by
  unfold exclude
  split
  · exact ⟨v, rfl, .refl hv⟩
  · rename_i hinf
    have hfin : e.isInf = false := Bool.not_eq_true _ ▸ hinf
    have hne := hne hfin
    have hkeeps : Keeps x v ⟨if v.lo = e then v.lo + 1 else v.lo, if v.hi = e then v.hi - 1 else v.hi⟩ := by
      refine ⟨mem_iff.mpr ?_, ?_, ?_⟩
      · rw [mem_iff] at hv
        have := Bound.finite_iff.mp hfin
        simp only [toInt_passLow hfin, toInt_passHigh hfin]
        split_ifs <;> omega
      · simp only [toInt_passLow hfin]
        split_ifs <;> omega
      · simp only [toInt_passHigh hfin]
        split_ifs <;> omega
    dsimp only
    rw [if_neg (not_isBottom hkeeps.mem)]
    exact ⟨_, rfl, hkeeps⟩

theorem can_exclude {e : Bound} (hv : x ∈ v) (hne : e.isInf = false → e.toInt ≠ x) :
    (v.exclude e).eval.Can fun u => Keeps x v u := by
  obtain ⟨u, hu, hkeeps⟩ := exclude_eq_fits hv hne
  rw [hu]
  exact Eval.can_pure hkeeps

theorem mem_point_zero : x ∈ point 0 ↔ x = 0 := by
  rw [mem_iff]
  simp only [point, Bound.toInt_zero]
  omega

/-- To assume of an interval what a member says keeps the member. -/
theorem assume_eq_fits (hv : x ∈ v) : ∃ u, v.assume (x != 0) = .fits u ∧ Keeps x v u := by
  by_cases hx : x = 0
  · subst hx
    have hpoint : (0 : Int) ∈ point 0 := mem_point_zero.mpr rfl
    exact ⟨_, intersect_eq_fits hv hpoint, keeps_meet hv hpoint⟩
  · rw [bne_iff_ne.mpr hx]
    exact exclude_eq_fits hv fun _ => Ne.symm hx

theorem can_chooseBelow {n : Bound} {Q : Bound → Prop} {i : Int} (h0 : 0 ≤ i) (hi : i < n.toInt)
    (h : ∀ o : Bound, o.toInt = i → Q o) : (chooseBelow n).Can Q := by
  have hn := n.toInt_lt
  refine Eval.can_bind (Eval.can_choose (i := i.toNat) (by omega) (Eval.can_pure (h _ ?_)))
  rw [Int64.toInt_ofNat_of_lt (by omega)]
  omega

/-! ## Sums and differences -/

theorem toInt_boundWord (bound : UInt32) : (boundWord bound).toInt = bound.toNat :=
  Int64.toInt_ofNat_of_lt (lt_of_lt_of_le bound.toNat_lt (by decide))

theorem withinBound_iff {n : Bound} : withinBound bound n = true ↔
    0 < n.toInt ∧ n.toInt ≤ bound.toNat := by
  simp only [withinBound, Bool.and_eq_true, decide_eq_true_eq, Int64.lt_iff_toInt_lt,
    Int64.le_iff_toInt_le, Bound.toInt_zero, toInt_boundWord]

/-- A gap that is within the bound is the exact difference of two finite ends. -/
theorem gap?_exact {high low gap : Bound} (h : gap? bound high low = some gap) :
    (high.isInf = false ∧ low.isInf = false) ∧ gap.toInt = high.toInt - low.toInt ∧
      0 < gap.toInt ∧ gap.toInt < 2 ^ 32 := by
  obtain ⟨hsub, hwithin⟩ := Option.filter_eq_some_iff.mp h
  have hlt := bound.toNat_lt
  obtain ⟨hpos, hle⟩ := withinBound_iff.mp hwithin
  obtain ⟨hhigh, hlow, heq⟩ := Bound.sub?_exact hsub (Bound.finite_iff.mpr (by omega))
  exact ⟨⟨hhigh, hlow⟩, heq, hpos, by omega⟩

/-- An end point that neither is infinite nor comes near it. -/
def Tame (e : Bound) : Prop := -2 ^ 62 ≤ e.toInt ∧ e.toInt ≤ 2 ^ 62

theorem lo_le_of_tame (hx : x ∈ v) (ht : Tame v.lo) : v.lo.toInt ≤ x := by
  unfold Tame at ht
  rw [mem_iff] at hx
  omega

theorem le_hi_of_tame (hx : x ∈ v) (ht : Tame v.hi) : x ≤ v.hi.toInt := by
  unfold Tame at ht
  rw [mem_iff] at hx
  omega

section Gaps

variable {g o : Bound}

theorem can_raise (hx : x ∈ v) (ht : Tame v.lo) (h0 : 0 ≤ o.toInt) (hlt : o.toInt < 2 ^ 32)
    (ho : o.toInt ≤ x - v.lo.toInt) :
    (v.meetLow (v.lo + o)).Can fun u => Keeps x v u ∧ u.hi = v.hi := by
  unfold Tame at ht
  have := Bound.toInt_add (a := v.lo) (b := o) (by omega) (by omega)
  exact can_meetLow hx (Or.inr (by omega)) fun u hu _ hhi => ⟨hu, hhi⟩

theorem can_raise_rest (hx : x ∈ v) (ht : Tame v.lo) (h0 : 0 ≤ o.toInt) (hle : o.toInt ≤ g.toInt)
    (hlt : g.toInt < 2 ^ 32) (ho : g.toInt - o.toInt ≤ x - v.lo.toInt) :
    (v.meetLow (v.lo + g - o)).Can fun u => Keeps x v u ∧ u.hi = v.hi := by
  unfold Tame at ht
  have hadd := Bound.toInt_add (a := v.lo) (b := g) (by omega) (by omega)
  have := Bound.toInt_sub (a := v.lo + g) (b := o) (by omega) (by omega)
  exact can_meetLow hx (Or.inr (by omega)) fun u hu _ hhi => ⟨hu, hhi⟩

theorem can_lower (hx : x ∈ v) (ht : Tame v.hi) (h0 : 0 ≤ o.toInt) (hlt : o.toInt < 2 ^ 32)
    (ho : o.toInt ≤ v.hi.toInt - x) :
    (v.meetHigh (v.hi - o)).Can fun u => Keeps x v u ∧ u.lo = v.lo := by
  unfold Tame at ht
  have := Bound.toInt_sub (a := v.hi) (b := o) (by omega) (by omega)
  exact can_meetHigh hx (Or.inr (by omega)) fun u hu _ hlo => ⟨hu, hlo⟩

theorem can_lower_rest (hx : x ∈ v) (ht : Tame v.hi) (h0 : 0 ≤ o.toInt) (hle : o.toInt ≤ g.toInt)
    (hlt : g.toInt < 2 ^ 32) (ho : g.toInt - o.toInt ≤ v.hi.toInt - x) :
    (v.meetHigh (v.hi - g + o)).Can fun u => Keeps x v u ∧ u.lo = v.lo := by
  unfold Tame at ht
  have hsub := Bound.toInt_sub (a := v.hi) (b := g) (by omega) (by omega)
  have := Bound.toInt_add (a := v.hi - g) (b := o) (by omega) (by omega)
  exact can_meetHigh hx (Or.inr (by omega)) fun u hu _ hlo => ⟨hu, hlo⟩

/-- A gap is shared out between two rooms that together hold it: the first takes what it can,
and the second has room for the rest. -/
theorem can_share {f f' : Bound → Eval Interval} {P P' : Interval → Prop} {s t : Int}
    (hpos : 0 < g.toInt) (hlt : g.toInt < 2 ^ 32) (hs : 0 ≤ s) (hst : g.toInt ≤ s + t)
    (hf : ∀ o : Bound, 0 ≤ o.toInt → o.toInt ≤ g.toInt → o.toInt ≤ s → (f o).Can P)
    (hf' : ∀ o : Bound, 0 ≤ o.toInt → o.toInt ≤ g.toInt → g.toInt - o.toInt ≤ t → (f' o).Can P')
    (ht : 0 ≤ t) :
    Eval.Can (fun p => P p.1 ∧ P' p.2) (do
      let i ← chooseBelow (g + 1)
      return (← f i, ← f' i)) := by
  have hone : (1 : Bound).toInt = 1 := rfl
  -- the first takes the whole gap if it has the room
  refine Eval.can_bind (can_chooseBelow (i := min g.toInt s) (by omega) ?_ fun o ho => ?_)
  · rw [Bound.toInt_add (by omega) (by omega)]
    omega
  · refine Eval.can_bind ((hf o (by omega) (by omega) (by omega)).mono ?_)
    intro u hu
    refine Eval.can_bind ((hf' o (by omega) (by omega) (by omega)).mono ?_)
    intro w hw
    exact Eval.can_pure ⟨hu, hw⟩

end Gaps

section Sums

variable {gap : Option Bound} (hx : x ∈ a) (hy : y ∈ b)

include hx hy

theorem can_raiseSum (hgap : ∀ g, gap = some g → (Tame a.lo ∧ Tame b.lo) ∧
      (0 < g.toInt ∧ g.toInt < 2 ^ 32) ∧ a.lo.toInt + b.lo.toInt + g.toInt ≤ x + y) :
    (raiseSum gap a b).Can fun p =>
      (Keeps x a p.1 ∧ p.1.hi = a.hi) ∧ (Keeps y b p.2 ∧ p.2.hi = b.hi) := by
  cases gap with
  | none => exact Eval.can_pure ⟨⟨.refl hx, rfl⟩, .refl hy, rfl⟩
  | some g =>
      obtain ⟨⟨hta, htb⟩, ⟨hpos, hlt⟩, hsum⟩ := hgap g rfl
      have hxa := lo_le_of_tame hx hta
      have hyb := lo_le_of_tame hy htb
      exact can_share (s := x - a.lo.toInt) (t := y - b.lo.toInt) hpos hlt (by omega) (by omega)
        (fun o h0 hle ho => can_raise hx hta h0 (by omega) ho)
        (fun o h0 hle ho => can_raise_rest hy htb h0 hle hlt ho) (by omega)

theorem can_lowerSum (hgap : ∀ g, gap = some g → (Tame a.hi ∧ Tame b.hi) ∧
      (0 < g.toInt ∧ g.toInt < 2 ^ 32) ∧ x + y ≤ a.hi.toInt + b.hi.toInt - g.toInt) :
    (lowerSum gap a b).Can fun p =>
      (Keeps x a p.1 ∧ p.1.lo = a.lo) ∧ (Keeps y b p.2 ∧ p.2.lo = b.lo) := by
  cases gap with
  | none => exact Eval.can_pure ⟨⟨.refl hx, rfl⟩, .refl hy, rfl⟩
  | some g =>
      obtain ⟨⟨hta, htb⟩, ⟨hpos, hlt⟩, hsum⟩ := hgap g rfl
      have hxa := le_hi_of_tame hx hta
      have hyb := le_hi_of_tame hy htb
      exact can_share (s := a.hi.toInt - x) (t := b.hi.toInt - y) hpos hlt (by omega) (by omega)
        (fun o h0 hle ho => can_lower hx hta h0 (by omega) ho)
        (fun o h0 hle ho => can_lower_rest hy htb h0 hle hlt ho) (by omega)

theorem can_raiseDifference (hgap : ∀ g, gap = some g → (Tame a.lo ∧ Tame b.hi) ∧
      (0 < g.toInt ∧ g.toInt < 2 ^ 32) ∧ a.lo.toInt - b.hi.toInt + g.toInt ≤ x - y) :
    (raiseDifference gap a b).Can fun p =>
      (Keeps x a p.1 ∧ p.1.hi = a.hi) ∧ (Keeps y b p.2 ∧ p.2.lo = b.lo) := by
  cases gap with
  | none => exact Eval.can_pure ⟨⟨.refl hx, rfl⟩, .refl hy, rfl⟩
  | some g =>
      obtain ⟨⟨hta, htb⟩, ⟨hpos, hlt⟩, hsum⟩ := hgap g rfl
      have hxa := lo_le_of_tame hx hta
      have hyb := le_hi_of_tame hy htb
      exact can_share (s := x - a.lo.toInt) (t := b.hi.toInt - y) hpos hlt (by omega) (by omega)
        (fun o h0 hle ho => can_raise hx hta h0 (by omega) ho)
        (fun o h0 hle ho => can_lower_rest hy htb h0 hle hlt ho) (by omega)

theorem can_lowerDifference (hgap : ∀ g, gap = some g → (Tame a.hi ∧ Tame b.lo) ∧
      (0 < g.toInt ∧ g.toInt < 2 ^ 32) ∧ x - y ≤ a.hi.toInt - b.lo.toInt - g.toInt) :
    (lowerDifference gap a b).Can fun p =>
      (Keeps x a p.1 ∧ p.1.lo = a.lo) ∧ (Keeps y b p.2 ∧ p.2.hi = b.hi) := by
  cases gap with
  | none => exact Eval.can_pure ⟨⟨.refl hx, rfl⟩, .refl hy, rfl⟩
  | some g =>
      obtain ⟨⟨hta, htb⟩, ⟨hpos, hlt⟩, hsum⟩ := hgap g rfl
      have hxa := le_hi_of_tame hx hta
      have hyb := lo_le_of_tame hy htb
      exact can_share (s := a.hi.toInt - x) (t := y - b.lo.toInt) hpos hlt (by omega) (by omega)
        (fun o h0 hle ho => can_lower hx hta h0 (by omega) ho)
        (fun o h0 hle ho => can_raise_rest hy htb h0 hle hlt ho) (by omega)

end Sums

theorem Moderate.meet {k : Int} (hv : v.Moderate k) (hw : w.Moderate k) :
    (v.meet w).Moderate k := by
  rw [moderate_iff] at *
  simp only [Interval.meet, Bound.toInt_greater, Bound.toInt_lesser]
  have := v.lo.le_toInt
  have := v.hi.toInt_lt
  have := w.lo.le_toInt
  have := w.hi.toInt_lt
  omega

theorem can_narrow_moderate {o : Option Interval} {k : Int} {Q : Interval → Prop} (hv : x ∈ v)
    (hmod : v.Moderate k) (ho : ∀ w, o = some w → x ∈ w ∧ w.Moderate k)
    (h : ∀ u, Keeps x v u → u.Moderate k → Q u) : (v.narrow o).Can Q := by
  cases o with
  | none => exact Eval.can_pure (h v (.refl hv) hmod)
  | some w =>
      obtain ⟨hw, hwmod⟩ := ho w rfl
      exact can_intersect hv hw (h _ (keeps_meet hv hw) (hmod.meet hwmod))

theorem Moderate.tame {k : Int} (hv : v.Moderate k) (hk : k ≤ 2 ^ 62) :
    (v.lo.isInf = false → Tame v.lo) ∧ (v.hi.isInf = false → Tame v.hi) := by
  rw [moderate_iff] at hv
  rw [Bound.finite_iff, Bound.finite_iff]
  unfold Tame
  omega

section Inverses

variable (hr : r.Moderate (2 ^ 60)) (ha : a.Moderate (2 ^ 60)) (hb : b.Moderate (2 ^ 60))

include hr ha hb

-- The two narrowings at the start widen the ends a little, first to 2^61 and then to 3 * 2^60.
theorem can_backwardAdd (hx : x ∈ a) (hy : y ∈ b) (hz : x + y ∈ r) :
    (backwardAdd bound r a b).Can fun p => Keeps x a p.1 ∧ Keeps y b p.2 := by
  refine Eval.can_bind (can_narrow_moderate (k := 2 ^ 61) hx (ha.mono (by omega)) ?_ fun u hu humod => ?_)
  · intro w hw
    have := mem_sub? hr hb (by omega) (by omega) hz hy hw
    rwa [Int.add_sub_cancel] at this
  refine Eval.can_bind (can_narrow_moderate (k := 2 ^ 62) hy (hb.mono (by omega)) ?_ fun w hw hwmod => ?_)
  · intro w hw
    obtain ⟨hmem, hmod⟩ := mem_sub? hr humod (by omega) (by omega) hz hu.mem hw
    rw [add_sub_cancel_left] at hmem
    exact ⟨hmem, hmod.mono (by omega)⟩
  obtain ⟨hulo, huhi⟩ := humod.tame (by omega)
  obtain ⟨hwlo, hwhi⟩ := hwmod.tame (by omega)
  rw [mem_iff] at hz
  cases hsum : add? u w with
  | none => exact Eval.can_pure ⟨hu, hw⟩
  | some sum =>
      obtain ⟨hlo, hhi⟩ := add?_ends hsum
      refine Eval.can_bind ((can_raiseSum hu.mem hw.mem fun g hg => ?_).mono fun p hp => ?_)
      · obtain ⟨⟨hrfin, hlofin⟩, hgap, hpos, hlt⟩ := gap?_exact hg
        obtain ⟨huf, hwf, hexact⟩ := Bound.add?_exact hlo hlofin
        rw [Bound.finite_iff] at hrfin
        exact ⟨⟨hulo huf, hwlo hwf⟩, ⟨hpos, hlt⟩, by omega⟩
      · obtain ⟨⟨hpu, hpuh⟩, hpw, hpwh⟩ := hp
        refine (can_lowerSum hpu.mem hpw.mem fun g hg => ?_).mono fun q hq =>
          ⟨(hu.trans hpu).trans hq.1.1, (hw.trans hpw).trans hq.2.1⟩
        obtain ⟨⟨hhifin, hrfin⟩, hgap, hpos, hlt⟩ := gap?_exact hg
        obtain ⟨huf, hwf, hexact⟩ := Bound.add?_exact hhi hhifin
        rw [Bound.finite_iff] at hrfin
        rw [hpuh, hpwh]
        exact ⟨⟨huhi huf, hwhi hwf⟩, ⟨hpos, hlt⟩, by omega⟩

theorem can_backwardSub (hx : x ∈ a) (hy : y ∈ b) (hz : x - y ∈ r) :
    (backwardSub bound r a b).Can fun p => Keeps x a p.1 ∧ Keeps y b p.2 := by
  refine Eval.can_bind (can_narrow_moderate (k := 2 ^ 61) hx (ha.mono (by omega)) ?_ fun u hu humod => ?_)
  · intro w hw
    have := mem_add? hr hb (by omega) (by omega) hz hy hw
    rwa [Int.sub_add_cancel] at this
  refine Eval.can_bind (can_narrow_moderate (k := 2 ^ 62) hy (hb.mono (by omega)) ?_ fun w hw hwmod => ?_)
  · intro w hw
    obtain ⟨hmem, hmod⟩ := mem_sub? humod hr (by omega) (by omega) hu.mem hz hw
    rw [Int.sub_sub_self] at hmem
    exact ⟨hmem, hmod.mono (by omega)⟩
  obtain ⟨hulo, huhi⟩ := humod.tame (by omega)
  obtain ⟨hwlo, hwhi⟩ := hwmod.tame (by omega)
  rw [mem_iff] at hz
  cases hdiff : sub? u w with
  | none => exact Eval.can_pure ⟨hu, hw⟩
  | some diff =>
      obtain ⟨hlo, hhi⟩ := sub?_ends hdiff
      refine Eval.can_bind ((can_raiseDifference hu.mem hw.mem fun g hg => ?_).mono fun p hp => ?_)
      · obtain ⟨⟨hrfin, hlofin⟩, hgap, hpos, hlt⟩ := gap?_exact hg
        obtain ⟨huf, hwf, hexact⟩ := Bound.sub?_exact hlo hlofin
        rw [Bound.finite_iff] at hrfin
        exact ⟨⟨hulo huf, hwhi hwf⟩, ⟨hpos, hlt⟩, by omega⟩
      · obtain ⟨⟨hpu, hpuh⟩, hpw, hpwl⟩ := hp
        refine (can_lowerDifference hpu.mem hpw.mem fun g hg => ?_).mono fun q hq =>
          ⟨(hu.trans hpu).trans hq.1.1, (hw.trans hpw).trans hq.2.1⟩
        obtain ⟨⟨hhifin, hrfin⟩, hgap, hpos, hlt⟩ := gap?_exact hg
        obtain ⟨huf, hwf, hexact⟩ := Bound.sub?_exact hhi hhifin
        rw [Bound.finite_iff] at hrfin
        rw [hpuh, hpwl]
        exact ⟨⟨huhi huf, hwlo hwf⟩, ⟨hpos, hlt⟩, by omega⟩

end Inverses

/-! ## Products -/

theorem Within.between {k : Int} (hv : v.Within k) (hk : k ≤ 2 ^ 63 - 2) (hx : x ∈ v) :
    v.lo.toInt ≤ x ∧ x ≤ v.hi.toInt := by
  rw [mem_iff] at hx
  obtain ⟨⟨_, _⟩, _, _⟩ := hv
  omega

theorem Keeps.within {k : Int} (h : Keeps x v w) (hv : v.Within k) (hk : k ≤ 2 ^ 63 - 2) :
    w.Within k := by
  obtain ⟨hmem, hlo, hhi⟩ := h
  rw [mem_iff] at hmem
  obtain ⟨⟨_, _⟩, _, _⟩ := hv
  exact ⟨by omega, by omega⟩

theorem isFinite_iff : v.isFinite = true ↔ (-2 ^ 63 < v.lo.toInt ∧ v.lo.toInt < 2 ^ 63 - 1) ∧
    (-2 ^ 63 < v.hi.toInt ∧ v.hi.toInt < 2 ^ 63 - 1) := by
  simp only [isFinite, Bool.and_eq_true, Bool.not_eq_true', Bound.finite_iff]

theorem Keeps.isFinite (h : Keeps x v w) (hv : v.isFinite = true) : w.isFinite = true := by
  obtain ⟨hmem, hlo, hhi⟩ := h
  rw [isFinite_iff] at *
  rw [mem_iff] at hmem
  omega

theorem within_of_pos (hv : v.isFinite = true) (hx : x ∈ v) (h1 : 1 ≤ v.lo.toInt) :
    v.Within (2 ^ 63 - 2) := by
  rw [isFinite_iff] at hv
  rw [mem_iff] at hx
  exact ⟨by omega, by omega⟩

section Products

variable {e : Bound} (hx : x ∈ a) (hy : y ∈ b) (ha : a.Within (2 ^ 63 - 2))
  (hb : b.Within (2 ^ 63 - 2)) (ha1 : 1 ≤ a.lo.toInt) (hb1 : 1 ≤ b.lo.toInt)
  (he : e.isInf = false)

include hx hy ha hb ha1 hb1 he

theorem can_raiseProduct (hle : e.toInt ≤ x * y) :
    (raiseProduct bound e a b).Can fun p => Keeps x a p.1 ∧ Keeps y b p.2 := by
  obtain ⟨hxl, hxh⟩ := ha.between le_rfl hx
  obtain ⟨hyl, hyh⟩ := hb.between le_rfl hy
  obtain ⟨⟨hal, hal'⟩, hah, hah'⟩ := ha
  obtain ⟨⟨hbl, hbl'⟩, hbh, hbh'⟩ := hb
  have hlt := bound.toNat_lt
  unfold raiseProduct
  split
  · rename_i hshort
    have hprod : 0 < a.lo.toInt * b.lo.toInt := Int.mul_pos (by omega) (by omega)
    rw [Bound.satMul_eq_clamp (.finite (Bound.finite_iff.mpr (by omega)))
      (.finite (Bound.finite_iff.mpr (by omega))), Int64.lt_iff_toInt_lt, Bound.toInt_clamp] at hshort
    have he1 : 1 ≤ e.toInt := by omega
    have hreach : e.toInt ≤ x * b.hi.toInt :=
      hle.trans (Int.mul_le_mul_of_nonneg_left (by omega) (by omega))
    refine Eval.can_bind (can_meetLow hx
      (Or.inr ((Bound.ceilDiv_le_iff he1 he (by omega)).mpr hreach)) fun u hu _ _ => ?_)
    have hxu := mem_iff.mp hu.mem
    have hul := hu.lo
    have hhigh := Bound.toInt_lesser (Bound.ceilDiv e b.lo) a.hi
    have hceil := Bound.ceilDiv_le_iff he1 he hb1 (t := 0)
    generalize Bound.lesser (Bound.ceilDiv e b.lo) a.hi = high at hhigh ⊢
    have hdiff := Bound.toInt_sub (a := high) (b := u.lo) (by omega) (by omega)
    have hone : (1 : Bound).toInt = 1 := rfl
    have hn := Bound.toInt_add (a := high - u.lo) (b := 1) (by omega) (by omega)
    dsimp only
    split
    · rename_i hwithin
      rw [withinBound_iff] at hwithin
      -- the split is put at x, or at the top, from where on any member of b is large enough
      refine Eval.can_bind (can_chooseBelow (i := high.toInt - min x high.toInt) (by omega)
        (by omega) fun o ho => ?_)
      have hpick := Bound.toInt_sub (a := high) (b := o) (by omega) (by omega)
      have hfactor : e.toInt ≤ y * (high - o).toInt := by
        rcases lt_or_ge high.toInt x with h | h
        · have hmin : (high - o).toInt = (Bound.ceilDiv e b.lo).toInt := by omega
          calc e.toInt ≤ (high - o).toInt * b.lo.toInt :=
                (Bound.ceilDiv_le_iff he1 he hb1).mp hmin.ge
            _ ≤ (high - o).toInt * y := Int.mul_le_mul_of_nonneg_left (by omega) (by omega)
            _ = y * (high - o).toInt := Int.mul_comm _ _
        · rw [show (high - o).toInt = x by omega, Int.mul_comm]
          exact hle
      refine Eval.can_bind (can_meetLow hu.mem (Or.inr (by omega)) ?_)
      intro u' hu' _ _
      refine Eval.can_bind (can_meetLow hy
        (Or.inr ((Bound.ceilDiv_le_iff he1 he (by omega)).mpr hfactor)) fun w hw _ _ => ?_)
      exact Eval.can_pure ⟨hu.trans hu', hw⟩
    · exact Eval.can_pure ⟨hu, .refl hy⟩
  · exact Eval.can_pure ⟨.refl hx, .refl hy⟩

theorem can_lowerProduct (hle : x * y ≤ e.toInt) :
    (lowerProduct bound e a b).Can fun p => Keeps x a p.1 ∧ Keeps y b p.2 := by
  obtain ⟨hxl, hxh⟩ := ha.between le_rfl hx
  obtain ⟨hyl, hyh⟩ := hb.between le_rfl hy
  obtain ⟨⟨hal, hal'⟩, hah, hah'⟩ := ha
  obtain ⟨⟨hbl, hbl'⟩, hbh, hbh'⟩ := hb
  have hlt := bound.toNat_lt
  have hprod : 0 < x * y := Int.mul_pos (by omega) (by omega)
  unfold lowerProduct
  split
  · have hlow := Bound.toInt_greater (e / b.hi) a.lo
    have hquot : (e / b.hi).toInt * b.hi.toInt ≤ e.toInt :=
      (Bound.le_div_iff (by omega) he (by omega)).mp le_rfl
    generalize Bound.greater (e / b.hi) a.lo = low at hlow ⊢
    have := low.toInt_lt
    have hdiff := Bound.toInt_sub (a := a.hi) (b := low) (by omega) (by omega)
    have hone : (1 : Bound).toInt = 1 := rfl
    have hn := Bound.toInt_add (a := a.hi - low) (b := 1) (by omega) (by omega)
    dsimp only
    split
    · rename_i hwithin
      rw [withinBound_iff] at hwithin
      -- the split is put at x, or at the bottom, up to where any member of b is small enough
      refine Eval.can_bind (can_chooseBelow (i := max x low.toInt - low.toInt) (by omega)
        (by omega) fun o ho => ?_)
      have hpick := Bound.toInt_add (a := low) (b := o) (by omega) (by omega)
      have hfactor : y * (low + o).toInt ≤ e.toInt := by
        rcases lt_or_ge x low.toInt with h | h
        · rw [show (low + o).toInt = (e / b.hi).toInt by omega]
          calc y * (e / b.hi).toInt ≤ b.hi.toInt * (e / b.hi).toInt :=
                Int.mul_le_mul_of_nonneg_right (by omega) (by omega)
            _ = (e / b.hi).toInt * b.hi.toInt := Int.mul_comm _ _
            _ ≤ e.toInt := hquot
        · rw [show (low + o).toInt = x by omega, Int.mul_comm]
          exact hle
      refine Eval.can_bind (can_meetHigh hx (Or.inr (by omega)) ?_)
      intro u hu _ _
      refine Eval.can_bind (can_meetHigh hy
        (Or.inr ((Bound.le_div_iff (by omega) he (by omega)).mpr hfactor)) fun w hw _ _ => ?_)
      exact Eval.can_pure ⟨hu, hw⟩
    · exact Eval.can_pure ⟨.refl hx, .refl hy⟩
  · exact Eval.can_pure ⟨.refl hx, .refl hy⟩

end Products

theorem can_narrowUnless {β : Type} {c : Prop} [Decidable c] {o : Option Interval}
    {f : Interval → Eval β} {Q : β → Prop} (hv : x ∈ v) (ho : ¬ c → ∀ w, o = some w → x ∈ w)
    (h : ∀ u, Keeps x v u → (f u).Can Q) :
    Eval.Can Q (if c then pure v >>= f else v.narrow o >>= f) := by
  split
  · exact Eval.can_bind (Eval.can_pure (h v (.refl hv)))
  · rename_i hc
    cases o with
    | none => exact Eval.can_bind (Eval.can_pure (h v (.refl hv)))
    | some w =>
        have hw := ho hc w rfl
        exact Eval.can_bind (can_intersect hv hw (h _ (keeps_meet hv hw)))

/-- A factor is the product divided by the other factor. -/
theorem factor_mem_div? (hr : r.Oriented) (hb : b.isFinite = true) (hy : y ∈ b) (hz : x * y ∈ r)
    (h0 : ¬ b.contains 0 = true) (hw : div? r b = some w) : x ∈ w := by
  obtain ⟨⟨_, _⟩, _, _⟩ := isFinite_iff.mp hb
  have hy0 : y ≠ 0 := by
    rintro rfl
    rw [contains_iff, Bound.toInt_zero] at h0
    rw [mem_iff] at hy
    omega
  have := mem_div? hr (oriented_iff.mpr (by omega)) hz hy hw
  rwa [Int.mul_tdiv_cancel _ hy0] at this

theorem can_backwardMul (hr : r.Oriented) (hx : x ∈ a) (hy : y ∈ b) (hz : x * y ∈ r) :
    (backwardMul bound r a b).Can fun p => Keeps x a p.1 ∧ Keeps y b p.2 := by
  unfold backwardMul
  split
  · exact Eval.can_pure ⟨.refl hx, .refl hy⟩
  · rename_i hfin
    simp only [Bool.or_eq_true, Bool.not_eq_true', not_or, Bool.not_eq_false] at hfin
    obtain ⟨hafin, hbfin⟩ := hfin
    refine can_narrowUnless hx (fun h0 w hw => factor_mem_div? hr hbfin hy hz h0 hw) ?_
    intro u hu
    have hufin := hu.isFinite hafin
    refine can_narrowUnless hy (fun h0 w hw => factor_mem_div? hr hufin hu.mem
      (Int.mul_comm x y ▸ hz) h0 hw) fun w hw => ?_
    have hwfin := hw.isFinite hbfin
    dsimp only
    split
    · exact Eval.can_pure ⟨hu, hw⟩
    · rename_i hcond
      have hone : (1 : Bound).toInt = 1 := rfl
      simp only [Bool.or_eq_true, decide_eq_true_eq, Bool.not_eq_true', not_or, Bool.not_eq_false,
        Int64.lt_iff_toInt_lt, hone] at hcond
      obtain ⟨⟨hu1, hw1⟩, hrfin⟩ := hcond
      simp only [isFinite, Bool.and_eq_true, Bool.not_eq_true'] at hrfin
      have hzr := mem_iff.mp hz
      have hrlo := Bound.finite_iff.mp hrfin.1
      have hrhi := Bound.finite_iff.mp hrfin.2
      have huwith := within_of_pos hufin hu.mem (by omega)
      have hwwith := within_of_pos hwfin hw.mem (by omega)
      refine Eval.can_bind ((can_raiseProduct hu.mem hw.mem huwith hwwith
        (by omega) (by omega) hrfin.1 (by omega)).mono fun p hp => ?_)
      have hpu := hp.1.lo
      have hpw := hp.2.lo
      exact (can_lowerProduct hp.1.mem hp.2.mem (hp.1.within huwith le_rfl)
        (hp.2.within hwwith le_rfl) (by omega) (by omega) hrfin.2 (by omega)).mono
        fun q hq => ⟨(hu.trans hp.1).trans hq.1, (hw.trans hp.2).trans hq.2⟩

/-! ## Orders and equations -/

/-- A number of members within the bound is exact, and belongs to finite ends. -/
theorem size_exact (hv : ¬ v.isBottom = true) (hw : withinBound bound v.size = true) :
    (v.lo.isInf = false ∧ v.hi.isInf = false) ∧ v.size.toInt = v.hi.toInt - v.lo.toInt + 1 := by
  obtain ⟨hpos, hle⟩ := withinBound_iff.mp hw
  have hlt := bound.toNat_lt
  have hone : (1 : Bound).toInt = 1 := rfl
  unfold size at *
  rw [if_neg hv] at *
  cases hsub : Bound.sub? v.hi v.lo with
  | none =>
      rw [hsub, Bound.toInt_posInf] at hle
      omega
  | some d =>
      rw [hsub] at hpos hle
      dsimp only at hpos hle ⊢
      split_ifs at hpos hle with hd
      · rw [Bound.toInt_posInf] at hle
        omega
      · cases hadd : Bound.add? d 1 with
        | none =>
            rw [hadd] at hpos
            exact absurd hpos (by decide)
        | some n =>
            rw [hadd] at hpos hle
            simp only [Option.getD_some] at hpos hle ⊢
            obtain ⟨hdfin, -, hn⟩ := Bound.add?_exact hadd (Bound.finite_iff.mpr (by omega))
            obtain ⟨hhi, hlo, hdiff⟩ := Bound.sub?_exact hsub hdfin
            rw [if_neg hd]
            exact ⟨⟨hlo, hhi⟩, by omega⟩

theorem can_excludeIf {β : Type} {e : Bound} {f : Interval → Eval β} {Q : β → Prop} (strict : Bool)
    (hv : x ∈ v) (hne : strict = true → e.isInf = false → e.toInt ≠ x)
    (h : ∀ u, Keeps x v u → (f u).Can Q) :
    Eval.Can Q (if strict then (v.exclude e).eval >>= f else pure v >>= f) := by
  cases strict with
  | true => exact Eval.can_bind ((can_exclude hv (hne rfl)).mono h)
  | false => exact Eval.can_bind (Eval.can_pure (h v (.refl hv)))

/-- The border between a greater and a lesser integer is put at the greater one, or where the
common integers end. -/
theorem can_border {strict : Bool} (hx : x ∈ a) (hy : y ∈ b) (hyx : y ≤ x)
    (hstrict : strict = true → y < x) (hbot : ¬ (meet a b).isBottom = true)
    (hwithin : withinBound bound (meet a b).size = true) :
    Eval.Can (fun p => Keeps x a p.1 ∧ Keeps y b p.2) (do
      let border := (meet a b).lo +
        Int64.ofNat (← Eval.choose ((meet a b).size.toInt + if strict then 1 else 0))
      return (← meetLow a border, ← meetHigh b (if strict then border - 1 else border))) := by
  obtain ⟨⟨hlofin, hhifin⟩, hsize⟩ := size_exact hbot hwithin
  have hxa := mem_iff.mp hx
  have hyb := mem_iff.mp hy
  have hlo := Bound.toInt_greater a.lo b.lo
  have hhi := Bound.toInt_lesser a.hi b.hi
  have hlt := bound.toNat_lt
  rw [withinBound_iff] at hwithin
  rw [Bound.finite_iff] at hlofin hhifin
  have hone : (1 : Bound).toInt = 1 := rfl
  obtain ⟨c, hc⟩ : ∃ c : Int, (if strict = true then 1 else 0) = c := ⟨_, rfl⟩
  have hyxc : (0 ≤ c ∧ c ≤ 1) ∧ y ≤ x - c := by
    cases strict with
    | true =>
        have := hstrict rfl
        obtain rfl : 1 = c := hc
        omega
    | false =>
        obtain rfl : 0 = c := hc
        omega
  change (meet a b).lo.toInt = _ at hlo
  change (meet a b).hi.toInt = _ at hhi
  rw [hc]
  generalize meet a b = common at *
  obtain ⟨i, hi⟩ : ∃ i : Nat, (i : Int) = min x (common.hi.toInt + c) - common.lo.toInt :=
    ⟨_, Int.toNat_of_nonneg (by omega)⟩
  refine Eval.can_bind (Eval.can_choose (i := i) (by omega) ?_)
  have hoffset : (Int64.ofNat i).toInt = i := Int64.toInt_ofNat_of_lt (by omega)
  have hborder := Bound.toInt_add (a := common.lo) (b := Int64.ofNat i) (by omega) (by omega)
  have hbelow : (if strict = true then common.lo + Int64.ofNat i - 1
      else common.lo + Int64.ofNat i).toInt = min x (common.hi.toInt + c) - c := by
    split_ifs at hc ⊢
    · rw [Bound.toInt_sub (by omega) (by omega)]
      omega
    · omega
  refine Eval.can_bind (can_meetLow hx (Or.inr (by omega)) ?_)
  intro u hu _ _
  refine Eval.can_bind (can_meetHigh hy (Or.inr (by omega)) ?_)
  intro w hw _ _
  exact Eval.can_pure ⟨hu, hw⟩

theorem can_backwardGreater (strict : Bool) (hx : x ∈ a) (hy : y ∈ b) (hyx : y ≤ x)
    (hstrict : strict = true → y < x) :
    (backwardGreater bound strict a b).Can fun p => Keeps x a p.1 ∧ Keeps y b p.2 := by
  have hyb := mem_iff.mp hy
  refine Eval.can_bind (can_meetLow hx (by omega) ?_)
  intro u hu _ _
  dsimp only
  refine can_excludeIf strict hu.mem (fun hs hfin => ?_) fun u' hu' => ?_
  · have := hstrict hs
    rw [Bound.finite_iff] at hfin
    omega
  have hxu := mem_iff.mp hu'.mem
  refine Eval.can_bind (can_meetHigh hy (by omega) ?_)
  intro w hw _ _
  refine can_excludeIf strict hw.mem (fun hs hfin => ?_) fun w' hw' => ?_
  · have := hstrict hs
    rw [Bound.finite_iff] at hfin
    omega
  replace hu := hu.trans hu'
  replace hw := hw.trans hw'
  split
  · exact Eval.can_pure ⟨hu, hw⟩
  · rename_i hcommon
    simp only [Bool.or_eq_true, not_or, Bool.not_eq_true', Bool.not_eq_false] at hcommon
    exact (can_border hu.mem hw.mem hyx hstrict hcommon.1 hcommon.2).mono fun p hp =>
      ⟨hu.trans hp.1, hw.trans hp.2⟩

theorem can_backwardLess (strict : Bool) (hx : x ∈ a) (hy : y ∈ b) (hxy : x ≤ y)
    (hstrict : strict = true → x < y) :
    (backwardLess bound strict a b).Can fun p => Keeps x a p.1 ∧ Keeps y b p.2 :=
  Eval.can_bind ((can_backwardGreater strict hy hx hxy hstrict).mono fun _ hp =>
    Eval.can_pure hp.symm)

theorem can_backwardEq (hx : x ∈ a) (hy : x ∈ b) :
    (backwardEq bound a b).Can fun p => Keeps x a p.1 ∧ Keeps x b p.2 := by
  have hmem : x ∈ meet a b := mem_meet.mpr ⟨hx, hy⟩
  have hmeet : Keeps x b (meet a b) := by
    refine ⟨hmem, ?_, ?_⟩
    · simp only [meet, Bound.toInt_greater]
      omega
    · simp only [meet, Bound.toInt_lesser]
      omega
  refine Eval.can_bind (can_intersect hx hy ?_)
  split
  · rename_i hwithin
    obtain ⟨⟨hlofin, hhifin⟩, hsize⟩ := size_exact (not_isBottom hmem) hwithin
    rw [Bound.finite_iff] at hlofin hhifin
    have hm := mem_iff.mp hmem
    refine Eval.can_bind (can_chooseBelow (i := x - (meet a b).lo.toInt) (by omega) (by omega)
      fun o ho => ?_)
    have hp := Bound.toInt_add (a := (meet a b).lo) (b := o) (by omega) (by omega)
    have hpoint : Keeps x (meet a b) (point ((meet a b).lo + o)) := by
      refine ⟨mem_iff.mpr ?_, ?_, ?_⟩ <;> simp only [point] <;> omega
    exact Eval.can_pure ⟨(keeps_meet hx hy).trans hpoint, hmeet.trans hpoint⟩
  · exact Eval.can_pure ⟨keeps_meet hx hy, hmeet⟩

theorem eq_of_isPoint (hv : v.isPoint = true) (hx : x ∈ v) (hfin : v.lo.isInf = false) :
    x = v.lo.toInt := by
  rw [isPoint, beq_iff_eq] at hv
  rw [mem_iff, ← hv] at hx
  rw [Bound.finite_iff] at hfin
  omega

theorem can_backwardNe (hx : x ∈ a) (hy : y ∈ b) (hne : x ≠ y) :
    (backwardNe bound a b).Can fun p => Keeps x a p.1 ∧ Keeps y b p.2 := by
  unfold backwardNe
  split_ifs with hbot hpa hpb
  · exact Eval.can_pure ⟨.refl hx, .refl hy⟩
  · have hpoint := (Bool.and_eq_true_iff.mp hpa).1
    refine Eval.can_bind ((can_exclude hy fun hfin => ?_).mono fun u hu => ?_)
    · rw [← eq_of_isPoint hpoint hx hfin]
      exact hne
    · exact Eval.can_pure ⟨.refl hx, hu⟩
  · have hpoint := (Bool.and_eq_true_iff.mp hpb).1
    refine Eval.can_bind ((can_exclude hx fun hfin => ?_).mono fun u hu => ?_)
    · rw [← eq_of_isPoint hpoint hy hfin]
      exact hne.symm
    · exact Eval.can_pure ⟨hu, .refl hy⟩
  · rcases Int.lt_or_gt_of_ne hne with hlt | hgt
    · exact Eval.can_bind (Eval.can_choose (i := 1) (by decide)
        (can_backwardLess true hx hy hlt.le fun _ => hlt))
    · exact Eval.can_bind (Eval.can_choose (i := 0) (by decide)
        (can_backwardGreater true hx hy hgt.le fun _ => hgt))

theorem can_backwardRelation {rel : Relation} (hx : x ∈ a) (hy : y ∈ b)
    (hrel : rel.holds? x y = some true) :
    (backwardRelation bound rel a b).Can fun p => Keeps x a p.1 ∧ Keeps y b p.2 := by
  cases rel with
  | eq =>
      obtain rfl : x = y := beq_iff_eq.mp (Option.some.inj hrel)
      exact can_backwardEq hx hy
  | ne => exact can_backwardNe hx hy (bne_iff_ne.mp (Option.some.inj hrel))
  | slt =>
      have hlt : x < y := of_decide_eq_true (Option.some.inj hrel)
      exact can_backwardLess true hx hy hlt.le fun _ => hlt
  | sle => exact can_backwardLess false hx hy (of_decide_eq_true (Option.some.inj hrel)) nofun
  | sgt =>
      have hlt : y < x := of_decide_eq_true (Option.some.inj hrel)
      exact can_backwardGreater true hx hy hlt.le fun _ => hlt
  | sge => exact can_backwardGreater false hx hy (of_decide_eq_true (Option.some.inj hrel)) nofun
  | ult | ule | ugt | uge => cases hrel

theorem describes_toTristate (hle : v.lo.toInt ≤ v.hi.toInt) :
    ∃ t, v.toTristate = pure t ∧ t.Describes {x | x ∈ v} := by
  unfold toTristate
  rw [if_neg (Bool.eq_false_iff.mp (isBottom_eq_false_iff.mpr hle))]
  split_ifs with hzero hcontains
  · refine ⟨.no, rfl, Set.ext fun x => ?_⟩
    obtain rfl : v = point 0 := congrArg₂ Interval.mk hzero.1 hzero.2
    exact mem_point_zero
  · rw [contains_iff, Bound.toInt_zero] at hcontains
    refine ⟨.maybe, rfl, mem_iff.mpr (by omega), ?_⟩
    -- an end that is not 0 is a member that is not
    by_contra hnone
    have hall {x : Int} (hx : x ∈ v) : x = 0 := by
      by_contra hne
      exact hnone ⟨x, hx, hne⟩
    exact hzero ⟨Int64.toInt_inj.mp (hall (lo_mem hle)), Int64.toInt_inj.mp (hall (hi_mem hle))⟩
  · refine ⟨.yes, rfl, ⟨_, lo_mem hle⟩, fun h0 => hcontains ?_⟩
    have hends := mem_iff.mp h0
    rw [contains_iff, Bound.toInt_zero]
    omega

theorem can_toTristate (hx : x ∈ v) : v.toTristate.Can fun t => t.Admits (x != 0) := by
  have hle := isBottom_eq_false_iff.mp (Bool.not_eq_true _ ▸ not_isBottom hx)
  obtain ⟨t, ht, hdescribes⟩ := describes_toTristate hle
  rw [ht]
  exact Eval.can_pure (hdescribes.admits hx)

theorem can_backwardCompare {rel : Relation} {z : Int} (hx : x ∈ a) (hy : y ∈ b) (hz : z ∈ r)
    (hrel : rel.eval? x y = some z) :
    (backwardCompare bound rel r a b).Can fun p => Keeps x a p.1 ∧ Keeps y b p.2 := by
  obtain ⟨t, ht, rfl⟩ := Option.map_eq_some_iff.mp hrel
  refine Eval.can_bind ((can_toTristate hz).mono ?_)
  intro s hs
  have htruth : ((if t then 1 else 0 : Int) != 0) = t := by cases t <;> rfl
  rw [htruth] at hs
  cases s with
  | yes =>
      obtain rfl : t = true := hs
      exact can_backwardRelation hx hy ht
  | no =>
      obtain rfl : t = false := hs
      exact can_backwardRelation hx hy (Relation.holds?_negate ht)
  | maybe | invalid => exact Eval.can_pure ⟨.refl hx, .refl hy⟩

theorem can_backwardCast (hx : x ∈ a) (hz : x ∈ r) :
    (a.intersect r).eval.Can fun u => Keeps x a u :=
  can_intersect hx hz (keeps_meet hx hz)

end Interval

end Narrowing
