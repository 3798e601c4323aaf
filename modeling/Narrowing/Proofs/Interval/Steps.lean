/-
# What each step of narrowing leaves

The backward rules of intervals are put together from a few steps: a meet, a cut at one
end, an end that is taken away, an offset that is chosen.  Here is what each of them
leaves, exactly and whatever was answered, whenever it returns.  A step that would leave
nothing does not return, so the low end of what is left is at most the high end.

The second half counts.  The number of members that narrowing works with saturates, so
what it says is compared with the number of integers between the ends: where it is above
the bound on questions, there are that many integers indeed.
-/
import Narrowing.Proofs.Order.Leaf
import Mathlib.Data.Int.Interval
import Mathlib.Data.Set.Card

namespace Narrowing

namespace Interval

variable {v w : Interval} {bound : UInt32} {x : Int}

/-! ## Intervals with members -/

/-- Moderate ends, and integers between them. -/
structure Filled (k : Int) (v : Interval) : Prop where
  moderate : v.Moderate k
  nonempty : v.isBottom = false

theorem Filled.le {k : Int} (hv : v.Filled k) : v.lo.toInt ≤ v.hi.toInt :=
  isBottom_eq_false_iff.mp hv.nonempty

theorem exists_mem (hle : v.lo.toInt ≤ v.hi.toInt) : ∃ x, x ∈ v := ⟨_, lo_mem hle⟩

/-! ## Steps -/

theorem sure_intersect : (v.intersect w).eval.Sure fun u =>
    u = meet v w ∧ u.lo.toInt ≤ u.hi.toInt := by
  refine ends_intersect.sure.mono ?_
  rintro u ⟨hu, hbot⟩
  exact ⟨hu, isBottom_eq_false_iff.mp (Bool.not_eq_true _ ▸ hbot)⟩

/-- An interval met with one that may be undefined. -/
def met (v : Interval) (o : Option Interval) : Interval := o.elim v v.meet

theorem sure_narrow {o : Option Interval} (hv : v.lo.toInt ≤ v.hi.toInt) :
    (v.narrow o).Sure fun u => u = v.met o ∧ u.lo.toInt ≤ u.hi.toInt := by
  cases o with
  | none => exact Eval.sure_pure ⟨rfl, hv⟩
  | some w => exact sure_intersect

theorem sure_meetLow {lo : Bound} : (v.meetLow lo).Sure fun u =>
    u.lo.toInt = max v.lo.toInt lo.toInt ∧ u.hi = v.hi ∧ u.lo.toInt ≤ u.hi.toInt := by
  refine sure_intersect.mono ?_
  rintro u ⟨rfl, hle⟩
  refine ⟨Bound.toInt_greater _ _, ?_, hle⟩
  have := v.hi.toInt_lt
  rw [← Int64.toInt_inj]
  simp only [meet, Bound.toInt_lesser, Bound.toInt_posInf]
  omega

theorem sure_meetHigh {hi : Bound} : (v.meetHigh hi).Sure fun u =>
    u.hi.toInt = min v.hi.toInt hi.toInt ∧ u.lo = v.lo ∧ u.lo.toInt ≤ u.hi.toInt := by
  refine sure_intersect.mono ?_
  rintro u ⟨rfl, hle⟩
  refine ⟨Bound.toInt_lesser _ _, ?_, hle⟩
  have := v.lo.le_toInt
  rw [← Int64.toInt_inj]
  simp only [meet, Bound.toInt_greater, Bound.toInt_negInf]
  omega

theorem sure_chooseBelow {n : Bound} :
    (chooseBelow n).Sure fun o => 0 ≤ o.toInt ∧ o.toInt < n.toInt :=
  ends_chooseBelow.sure

theorem sure_exclude {e : Bound} (hv : v.lo.toInt ≤ v.hi.toInt) :
    (v.exclude e).eval.Sure fun u => u.lo.toInt ≤ u.hi.toInt ∧ (e.isInf = true → u = v) ∧
      (e.isInf = false →
        u.lo.toInt = (if v.lo.toInt = e.toInt then v.lo.toInt + 1 else v.lo.toInt) ∧
        u.hi.toInt = (if v.hi.toInt = e.toInt then v.hi.toInt - 1 else v.hi.toInt)) := by
  by_cases hinf : e.isInf = true
  · have hsame : v.exclude e = .fits v := if_pos hinf
    rw [hsame]
    exact Eval.sure_pure ⟨hv, fun _ => rfl, fun hfin => absurd hinf (Bool.eq_false_iff.mp hfin)⟩
  · have hfin : e.isInf = false := Bool.not_eq_true _ ▸ hinf
    unfold exclude
    rw [if_neg hinf]
    by_cases hbot : Interval.isBottom ⟨if v.lo = e then v.lo + 1 else v.lo,
        if v.hi = e then v.hi - 1 else v.hi⟩ = true
    · rw [if_pos hbot]
      exact Eval.sure_cancel
    · rw [if_neg hbot]
      refine Eval.sure_pure ⟨isBottom_eq_false_iff.mp (Bool.not_eq_true _ ▸ hbot), ?_, fun _ => ?_⟩
      · exact fun h => absurd h hinf
      · exact ⟨toInt_passLow hfin, toInt_passHigh hfin⟩

/-! ## Numbers of members -/

/-- The number of members is the number of integers between two finite ends, as far as a word
holds it. -/
theorem size_eq_clamp (hv : v.lo.toInt ≤ v.hi.toInt) (hlo : v.lo.isInf = false)
    (hhi : v.hi.isInf = false) (hleast : v.lo.toInt ≠ -2 ^ 63 + 1) :
    v.size = Bound.clamp (v.hi.toInt - v.lo.toInt + 1) := by
  have hone : (1 : Bound).toInt = 1 := rfl
  have hbot := isBottom_eq_false_iff.mpr hv
  obtain ⟨d, hd⟩ : ∃ d, Bound.sub? v.hi v.lo = some d := Bound.add?_isSome (Or.inl hhi)
  have hdiff := Bound.sub?_eq_clamp (.finite hhi) (.finite hlo) hleast (by omega) hd
  have hd' := Bound.eq_clamp_iff.mp hdiff
  unfold size
  rw [hbot, hd]
  simp only [Bool.false_eq_true, if_false]
  by_cases hmax : d = Bound.posInf
  · rw [if_pos hmax, Bound.eq_clamp_iff, Bound.toInt_posInf]
    rw [hmax, Bound.toInt_posInf] at hd'
    omega
  · rw [if_neg hmax]
    have hmax' : d.toInt ≠ 2 ^ 63 - 1 := fun h => hmax (Int64.toInt_inj.mp h)
    have hfin : d.isInf = false := Bound.finite_iff.mpr (by omega)
    have hsum := Bound.add?_of_finite (o := 1) hfin rfl (by omega)
    rw [hsum, Option.getD_some, hone]
    congr 1
    omega

theorem lt_encard {k : Nat} {l : Int} {s : Set Int} (h : ∀ z, l ≤ z → z ≤ l + k → z ∈ s) :
    (k : ℕ∞) < s.encard := by
  have hsub : (↑(Finset.Icc l (l + k)) : Set Int) ⊆ s := by
    intro z hz
    obtain ⟨hl, hu⟩ := Finset.mem_Icc.mp (Finset.mem_coe.mp hz)
    exact h z hl hu
  have hcard : (Finset.Icc l (l + k)).card = k + 1 := by
    rw [Int.card_Icc]
    omega
  calc (k : ℕ∞) < ((k + 1 : Nat) : ℕ∞) := by exact_mod_cast Nat.lt_succ_self k
    _ = (↑(Finset.Icc l (l + k)) : Set Int).encard := by
      rw [Set.encard_coe_eq_coe_finsetCard, hcard]
    _ ≤ s.encard := Set.encard_le_encard hsub

/-- An interval whose number of members is above the bound has more integers than that. -/
theorem lt_encard_of_size {k : Int} (hv : v.Moderate k) (hk : k ≤ 2 ^ 63 - 2)
    (hle : v.lo.toInt ≤ v.hi.toInt) (hsize : ¬ withinBound bound v.size = true) :
    (bound.toNat : ℕ∞) < {z | z ∈ v}.encard := by
  have hlt := bound.toNat_lt
  rw [moderate_iff] at hv
  by_cases hlo : v.lo.toInt = -2 ^ 63
  · by_cases hhi : v.hi.toInt = 2 ^ 63 - 1
    · refine lt_encard (l := 0) fun z _ _ => ?_
      exact mem_iff.mpr ⟨Or.inl hlo, Or.inl hhi⟩
    · refine lt_encard (l := v.hi.toInt - bound.toNat) fun z _ _ => ?_
      exact mem_iff.mpr ⟨Or.inl hlo, Or.inr (by omega)⟩
  · refine lt_encard (l := v.lo.toInt) fun z _ hz => ?_
    refine mem_iff.mpr ⟨Or.inr (by omega), ?_⟩
    by_cases hhi : v.hi.toInt = 2 ^ 63 - 1
    · exact Or.inl hhi
    · -- both ends are finite, so the number of members is that of the integers between them
      have hcount := size_eq_clamp hle (Bound.finite_iff.mpr (by omega))
        (Bound.finite_iff.mpr (by omega)) (by omega)
      rw [withinBound_iff, hcount, Bound.toInt_clamp] at hsize
      exact Or.inr (by omega)

end Interval

end Narrowing
