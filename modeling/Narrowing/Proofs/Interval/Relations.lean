/-
# Narrowing from a comparison

A comparison that is known to hold, or known to fail, narrows both operands.  No pair of
integers for which the comparison comes out so is lost: some answers keep it.  What is
left, on the other hand, never contradicts what is known; and it bears it out, for every
pair, as soon as the two operands have no more integers in common than may be asked for.

All of it comes down to orders.  For `a > b` the low end of `a` is raised above that of `b`,
and the high end of `b` lowered below that of `a`, so the integers in common are those from
the low end of `a` to the high end of `b`.  A border among them is chosen, or there are too
many (`Exceeds`).  An equation leaves one interval for both operands; an inequation is
either decided at an end or is one of the two strict orders.
-/
import Narrowing.Proofs.Interval.Steps

namespace Narrowing

theorem Tristate.not_eq_yes_iff {s : Tristate} : s.not = .yes ↔ s = .no := by
  cases s <;> decide

theorem Tristate.not_eq_no_iff {s : Tristate} : s.not = .no ↔ s = .yes := by
  cases s <;> decide

namespace Interval

variable {a b r u v w : Interval} {bound : UInt32} {rel : Relation}

/-! ## Definite comparisons -/

theorem less_eq_yes_iff : less a b = .yes ↔ a.hi.toInt < b.lo.toInt := by
  rw [← Int64.lt_iff_toInt_lt]
  unfold less
  split_ifs with h1 h2
  · simp [h1]
  · simp [h1]
  · simp [h1]

theorem less_eq_no_iff :
    less a b = .no ↔ b.lo.toInt ≤ a.hi.toInt ∧ b.hi.toInt ≤ a.lo.toInt := by
  rw [← not_lt, ← Int64.lt_iff_toInt_lt, ← Int64.le_iff_toInt_le]
  unfold less
  split_ifs with h1 h2
  · simp [h1]
  · simp [h1, h2]
  · simp [h2]

theorem equal_eq_yes_iff : equal a b = .yes ↔
    (a.lo.toInt = a.hi.toInt ∧ b.lo.toInt = b.hi.toInt) ∧ a.lo.toInt = b.lo.toInt := by
  unfold equal isPoint
  simp only [Int64.toInt_inj, Bool.and_eq_true, beq_iff_eq]
  split_ifs with h1 h2
  · exact ⟨fun _ => h1, fun _ => rfl⟩
  · exact ⟨fun h => absurd h (by decide), fun h => absurd h h1⟩
  · exact ⟨fun h => absurd h (by decide), fun h => absurd h h1⟩

theorem equal_eq_no (ha : a.lo.toInt ≤ a.hi.toInt) (hb : b.lo.toInt ≤ b.hi.toInt)
    (h : a.hi.toInt < b.lo.toInt ∨ b.hi.toInt < a.lo.toInt) : equal a b = .no := by
  have hyes : ¬ equal a b = .yes := by
    rw [equal_eq_yes_iff]
    omega
  have hbot : (meet a b).isBottom = true := by
    simp only [isBottom, meet, decide_eq_true_eq, Int64.lt_iff_toInt_lt, Bound.toInt_greater,
      Bound.toInt_lesser]
    omega
  unfold equal at *
  split_ifs at *
  · exact absurd rfl hyes
  · rfl

theorem equal_ne_no (h : a.lo.toInt ≤ a.hi.toInt) : equal a a ≠ .no := by
  have hbot : ¬ (meet a a).isBottom = true := by
    simp only [isBottom, meet, decide_eq_true_eq, Int64.lt_iff_toInt_lt, Bound.toInt_greater,
      Bound.toInt_lesser]
    omega
  unfold equal
  split_ifs
  · decide
  · decide

theorem equal_comm : equal a b = equal b a := by
  have hmeet : meet a b = meet b a := by
    simp only [meet, mk.injEq, ← Int64.toInt_inj, Bound.toInt_greater, Bound.toInt_lesser]
    exact ⟨max_comm _ _, min_comm _ _⟩
  unfold equal
  rw [hmeet, Bool.and_comm a.isPoint, BEq.comm]

theorem compare_negate : compare rel.negate a b = (compare rel a b).not := by
  have hnot : ∀ s : Tristate, s ≠ .invalid → s.not.not = s := by
    intro s hs
    cases s with
    | no | yes | maybe => rfl
    | invalid => exact absurd rfl hs
  have hequal : equal a b ≠ .invalid := by
    unfold equal
    split_ifs <;> decide
  have hless : ∀ a b : Interval, less a b ≠ .invalid := by
    intro a b
    unfold less
    split_ifs <;> decide
  cases rel with
  | eq | slt | ult | sgt | ugt => rfl
  | ne => exact (hnot _ hequal).symm
  | sle | ule => exact (hnot _ (hless b a)).symm
  | sge | uge => exact (hnot _ (hless a b)).symm

/-! ## What is left -/

/-- The integers that two intervals have in common. -/
def common (a b : Interval) : Set Int := {z | z ∈ a ∧ z ∈ b}

theorem common_eq_meet (a b : Interval) : common a b = {z | z ∈ meet a b} := by
  ext z
  exact mem_meet.symm

/-- A relation between two intervals after narrowing: it is not ruled out, and it is certain
unless more integers are common to both than may be asked for. -/
structure Settled (bound : UInt32) (rel : Relation) (p : Interval × Interval) : Prop where
  left : p.1.Oriented
  right : p.2.Oriented
  possible : compare rel p.1 p.2 ≠ .no
  certain : (common p.1 p.2).encard ≤ bound.toNat → compare rel p.1 p.2 = .yes

theorem Settled.swap {rel' : Relation} {p : Interval × Interval} (h : Settled bound rel p.swap)
    (hcompare : compare rel' p.1 p.2 = compare rel p.2 p.1) : Settled bound rel' p := by
  have hsame : common p.1 p.2 = common p.2 p.1 := Set.ext fun _ => and_comm
  refine ⟨h.right, h.left, ?_, fun hcommon => ?_⟩
  · rw [hcompare]
    exact h.possible
  · rw [hcompare]
    exact h.certain (hsame ▸ hcommon)

theorem settled_ne_of_apart (ha : a.Oriented) (hb : b.Oriented) (hale : a.lo.toInt ≤ a.hi.toInt)
    (hble : b.lo.toInt ≤ b.hi.toInt) (h : a.hi.toInt < b.lo.toInt ∨ b.hi.toInt < a.lo.toInt) :
    Settled bound .ne (a, b) := by
  have hyes : compare .ne a b = .yes := Tristate.not_eq_yes_iff.mpr (equal_eq_no hale hble h)
  refine ⟨ha, hb, fun hno => ?_, fun _ => hyes⟩
  exact nomatch hno.symm.trans hyes

/-- The first interval lies above the second by `c`, as far as their ends say: somewhere, and
everywhere unless more integers are common to both than may be asked for. -/
structure Exceeds (bound : UInt32) (c : Int) (u w : Interval) : Prop where
  left : u.Oriented
  right : w.Oriented
  left_le : u.lo.toInt ≤ u.hi.toInt
  right_le : w.lo.toInt ≤ w.hi.toInt
  possible : w.lo.toInt + c ≤ u.hi.toInt
  certain : w.hi.toInt + c ≤ u.lo.toInt ∨ bound.toNat < (common u w).encard

namespace Exceeds

variable {c : Int}

theorem certain_of_common (h : Exceeds bound c u w) (hcommon : (common u w).encard ≤ bound.toNat) :
    w.hi.toInt + c ≤ u.lo.toInt := h.certain.resolve_right (not_lt.mpr hcommon)

theorem settled_gt (h : Exceeds bound 1 u w) : Settled bound .sgt (u, w) := by
  refine ⟨h.left, h.right, ?_, fun hcommon => ?_⟩
  · have := h.possible
    show ¬ less w u = .no
    rw [less_eq_no_iff]
    omega
  · have := h.certain_of_common hcommon
    show less w u = .yes
    rw [less_eq_yes_iff]
    omega

theorem settled_ge (h : Exceeds bound 0 u w) : Settled bound .sge (u, w) := by
  have hpossible := h.possible
  refine ⟨h.left, h.right, ?_, fun hcommon => ?_⟩
  · show ¬ (less u w).not = .no
    rw [Tristate.not_eq_no_iff, less_eq_yes_iff]
    omega
  · have := h.certain_of_common hcommon
    show (less u w).not = .yes
    rw [Tristate.not_eq_yes_iff, less_eq_no_iff]
    omega

theorem settled_ne (h : Exceeds bound 1 u w) : Settled bound .ne (u, w) := by
  have hpossible := h.possible
  have hle := h.left_le
  have hle' := h.right_le
  refine ⟨h.left, h.right, ?_, fun hcommon => ?_⟩
  · show ¬ (equal u w).not = .no
    rw [Tristate.not_eq_no_iff, equal_eq_yes_iff]
    omega
  · have := h.certain_of_common hcommon
    show (equal u w).not = .yes
    rw [Tristate.not_eq_yes_iff]
    exact equal_eq_no hle hle' (by omega)

end Exceeds

/-! ## Orders -/

section Pass

variable {β : Type} {strict : Bool} {e : Bound} {c : Int} {f : Interval → Eval β} {Q : β → Prop}
  (hc : c = if strict = true then 1 else 0) (hv : v.lo.toInt ≤ v.hi.toInt)

include hc hv

/-- A low end that is at least `e` is moved above it, for a strict order and a finite `e`. -/
theorem sure_passLow (he : e.toInt ≤ v.lo.toInt) (hposInf : e.toInt < 2 ^ 63 - 1)
    (hf : ∀ u : Interval, u.hi = v.hi → u.lo.toInt ≤ u.hi.toInt →
      (v.lo.toInt ≤ u.lo.toInt ∧ u.lo.toInt ≤ v.lo.toInt + c) →
      (e.toInt = -2 ^ 63 → u.lo.toInt = v.lo.toInt) →
      (e.toInt = -2 ^ 63 ∨ e.toInt + c ≤ u.lo.toInt) → (f u).Sure Q) :
    Eval.Sure Q (if strict = true then (v.exclude e).eval >>= f else pure v >>= f) := by
  cases strict with
  | false =>
      obtain rfl : c = 0 := hc
      exact Eval.sure_bind (Eval.sure_pure (hf v rfl hv (by omega) (fun _ => rfl)
        (Or.inr (by omega))))
  | true =>
      obtain rfl : c = 1 := hc
      refine Eval.sure_bind ((sure_exclude hv).mono ?_)
      rintro u ⟨hle, hinf, hfin⟩
      by_cases h : e.isInf = true
      · rw [hinf h]
        rw [Bound.isInf_iff] at h
        exact hf v rfl hv (by omega) (fun _ => rfl) (Or.inl (by omega))
      · obtain ⟨hlo, hhi⟩ := hfin (Bool.not_eq_true _ ▸ h)
        rw [Bound.isInf_iff] at h
        -- were the high end taken away too, nothing would be left
        have hsame : u.hi = v.hi := by
          rw [← Int64.toInt_inj]
          split_ifs at hlo hhi <;> omega
        exact hf u hsame hle (by split_ifs at hlo <;> omega) (fun he => by omega)
          (Or.inr (by split_ifs at hlo <;> omega))

/-- A high end that is at most `e` is moved below it, for a strict order and a finite `e`. -/
theorem sure_passHigh (he : v.hi.toInt ≤ e.toInt)
    (hf : ∀ u : Interval, u.lo = v.lo → u.lo.toInt ≤ u.hi.toInt →
      (v.hi.toInt - c ≤ u.hi.toInt ∧ u.hi.toInt ≤ v.hi.toInt) →
      (e.toInt = 2 ^ 63 - 1 → u.hi.toInt = v.hi.toInt) → (f u).Sure Q) :
    Eval.Sure Q (if strict = true then (v.exclude e).eval >>= f else pure v >>= f) := by
  cases strict with
  | false =>
      obtain rfl : c = 0 := hc
      exact Eval.sure_bind (Eval.sure_pure (hf v rfl hv (by omega) fun _ => rfl))
  | true =>
      obtain rfl : c = 1 := hc
      refine Eval.sure_bind ((sure_exclude hv).mono ?_)
      rintro u ⟨hle, hinf, hfin⟩
      by_cases h : e.isInf = true
      · rw [hinf h]
        exact hf v rfl hv (by omega) fun _ => rfl
      · obtain ⟨hlo, hhi⟩ := hfin (Bool.not_eq_true _ ▸ h)
        rw [Bound.isInf_iff] at h
        have hsame : u.lo = v.lo := by
          rw [← Int64.toInt_inj]
          split_ifs at hlo hhi <;> omega
        exact hf u hsame hle (by split_ifs at hhi <;> omega) fun he => by omega

end Pass

/-- A border among the integers in common parts the two intervals. -/
theorem sure_border {strict : Bool} {c k : Int} (hc : c = if strict = true then 1 else 0)
    (hw : w.Moderate k) (hk : k ≤ 2 ^ 62 + 2) (hlo : w.lo.toInt ≤ u.lo.toInt)
    (hhi : w.hi.toInt ≤ u.hi.toInt) (hle : u.lo.toInt ≤ w.hi.toInt)
    (hpossible : w.lo.toInt + c ≤ u.hi.toInt) (hwithin : withinBound bound (meet u w).size = true) :
    Eval.Sure (fun p => Exceeds bound c p.1 p.2) (do
      let border := (meet u w).lo +
        Int64.ofNat (← Eval.choose ((meet u w).size.toInt + if strict then 1 else 0))
      return (← meetLow u border, ← meetHigh w (if strict then border - 1 else border))) := by
  have hone : (1 : Bound).toInt = 1 := rfl
  have hmlo : (meet u w).lo.toInt = u.lo.toInt :=
    (Bound.toInt_greater u.lo w.lo).trans (max_eq_left hlo)
  have hmhi : (meet u w).hi.toInt = w.hi.toInt :=
    (Bound.toInt_lesser u.hi w.hi).trans (min_eq_right hhi)
  have hbot : ¬ (meet u w).isBottom = true := by
    simp only [isBottom, decide_eq_true_eq, Int64.lt_iff_toInt_lt]
    omega
  obtain ⟨⟨hlofin, hhifin⟩, hsize⟩ := size_exact hbot hwithin
  have hlt := bound.toNat_lt
  rw [withinBound_iff] at hwithin
  rw [Bound.finite_iff] at hlofin hhifin
  rw [moderate_iff] at hw
  have hcrange : 0 ≤ c ∧ c ≤ 1 := by
    rw [hc]
    split <;> omega
  rw [← hc]
  generalize meet u w = m at *
  refine Eval.sure_bind (((Eval.ends_choose_local fun _ => id).sure).mono ?_)
  intro i hi
  have hoffset : (Int64.ofNat i).toInt = i := Int64.toInt_ofNat_of_lt (by omega)
  have hborder := Bound.toInt_add (a := m.lo) (b := Int64.ofNat i) (by omega) (by omega)
  have hbelow : (if strict = true then m.lo + Int64.ofNat i - 1 else m.lo + Int64.ofNat i).toInt =
      u.lo.toInt + i - c := by
    split_ifs at hc ⊢
    · rw [Bound.toInt_sub (by omega) (by omega)]
      omega
    · omega
  refine Eval.sure_bind (sure_meetLow.mono ?_)
  rintro u' ⟨hulo, huhi, hule⟩
  refine Eval.sure_bind (sure_meetHigh.mono ?_)
  rintro w' ⟨hwhi, hwlo, hwle⟩
  refine Eval.sure_pure ⟨oriented_iff.mpr ?_, oriented_iff.mpr ?_, hule, hwle, ?_, Or.inl ?_⟩ <;>
    dsimp only <;> rw [← Int64.toInt_inj] at huhi hwlo <;> omega

theorem sure_backwardGreater {strict : Bool} {c : Int} (hc : c = if strict = true then 1 else 0)
    (ha : a.Filled (2 ^ 62)) (hb : b.Filled (2 ^ 62)) :
    (backwardGreater bound strict a b).Sure fun p => Exceeds bound c p.1 p.2 := by
  have hale := ha.le
  have hble := hb.le
  have hamod := moderate_iff.mp ha.moderate
  have hbmod := moderate_iff.mp hb.moderate
  have hcrange : 0 ≤ c ∧ c ≤ 1 := by
    rw [hc]
    split <;> omega
  refine Eval.sure_bind (sure_meetLow.mono ?_)
  rintro u₀ ⟨hu₀lo, hu₀hi, hu₀le⟩
  refine sure_passLow hc hu₀le (by omega) (by omega) fun u huhi hule hulo hneg hpass => ?_
  rw [hu₀hi, ← Int64.toInt_inj] at huhi
  have humod : u.Moderate (2 ^ 62 + 2) := moderate_iff.mpr ⟨by omega, by omega⟩
  have hblo : b.lo.toInt ≤ u.lo.toInt := by omega
  have hpossible : b.lo.toInt + c ≤ u.hi.toInt := by omega
  clear hu₀lo hulo hneg hpass
  refine Eval.sure_bind (sure_meetHigh.mono ?_)
  rintro w₀ ⟨hw₀hi, hw₀lo, hw₀le⟩
  refine sure_passHigh hc hw₀le (by omega) fun w hwlo hwle hwhi hinf => ?_
  rw [hw₀lo] at hwlo
  have hwmod : w.Moderate (2 ^ 62 + 2) := moderate_iff.mpr ⟨by rw [hwlo]; omega, by omega⟩
  have hwu : w.hi.toInt ≤ u.hi.toInt := by omega
  rw [← hwlo] at hblo hpossible
  clear hw₀hi hwhi hinf hamod hbmod
  dsimp only
  split
  · rename_i hreturn
    refine Eval.sure_pure ⟨humod.oriented (by omega), hwmod.oriented (by omega), hule, hwle,
      hpossible, ?_⟩
    rcases lt_or_ge w.hi.toInt u.lo.toInt with hlt | hge
    · exact Or.inl (show w.hi.toInt + c ≤ u.lo.toInt by omega)
    · -- there are integers in common, so it is their number that stopped the narrowing
      have hmeet : (meet u w).lo.toInt ≤ (meet u w).hi.toInt := by
        simp only [meet, Bound.toInt_greater, Bound.toInt_lesser]
        omega
      have hsize : ¬ withinBound bound (meet u w).size = true := by
        simpa [isBottom_eq_false_iff.mpr hmeet] using hreturn
      rw [common_eq_meet]
      exact Or.inr (lt_encard_of_size (humod.meet hwmod) (by omega) hmeet hsize)
  · rename_i hborder
    simp only [Bool.or_eq_true, not_or, Bool.not_eq_true', Bool.not_eq_false, isBottom,
      decide_eq_true_eq, Int64.lt_iff_toInt_lt, meet, Bound.toInt_greater,
      Bound.toInt_lesser] at hborder
    exact sure_border hc hwmod le_rfl hblo hwu (by omega) hpossible hborder.2

theorem sure_backwardLess {strict : Bool} {c : Int} (hc : c = if strict = true then 1 else 0)
    (ha : a.Filled (2 ^ 62)) (hb : b.Filled (2 ^ 62)) :
    (backwardLess bound strict a b).Sure fun p => Exceeds bound c p.2 p.1 :=
  Eval.sure_bind ((sure_backwardGreater hc hb ha).mono fun _ hp => Eval.sure_pure hp)

/-! ## Equations and inequations -/

theorem sure_backwardEq (ha : a.Filled (2 ^ 62)) (hb : b.Filled (2 ^ 62)) :
    (backwardEq bound a b).Sure (Settled bound .eq) := by
  refine Eval.sure_bind (sure_intersect.mono ?_)
  rintro m ⟨rfl, hle⟩
  have hmod := ha.moderate.meet hb.moderate
  generalize meet a b = m at *
  split
  · rename_i hwithin
    have hbot : ¬ m.isBottom = true := Bool.eq_false_iff.mp (isBottom_eq_false_iff.mpr hle)
    obtain ⟨⟨hlo, hhi⟩, hsize⟩ := size_exact hbot hwithin
    rw [Bound.finite_iff] at hlo hhi
    refine Eval.sure_bind (sure_chooseBelow.mono ?_)
    rintro o ⟨ho, ho'⟩
    have hp := Bound.toInt_add (a := m.lo) (b := o) (by omega) (by omega)
    have horiented : (point (m.lo + o)).Oriented := by
      rw [oriented_iff]
      simp only [point]
      omega
    refine Eval.sure_pure ⟨horiented, horiented, equal_ne_no le_rfl, fun _ => ?_⟩
    exact equal_eq_yes_iff.mpr ⟨⟨rfl, rfl⟩, rfl⟩
  · rename_i hsize
    have horiented := hmod.oriented (by omega)
    refine Eval.sure_pure ⟨horiented, horiented, equal_ne_no hle, fun hcommon => ?_⟩
    have hself : common m m = {z | z ∈ m} := Set.ext fun _ => and_self_iff
    rw [hself] at hcommon
    exact absurd hcommon (not_le.mpr (lt_encard_of_size hmod (by omega) hle hsize))

theorem sure_exclude_end {e : Bound} (hv : v.Filled (2 ^ 62)) (he : e.isInf = false)
    (hend : e = v.lo ∨ e = v.hi) : (v.exclude e).eval.Sure fun u =>
      u.Oriented ∧ u.lo.toInt ≤ u.hi.toInt ∧ (e.toInt < u.lo.toInt ∨ u.hi.toInt < e.toInt) := by
  have hmod := moderate_iff.mp hv.moderate
  refine (sure_exclude hv.le).mono ?_
  rintro u ⟨hle, -, hfin⟩
  obtain ⟨hlo, hhi⟩ := hfin he
  rw [Bound.finite_iff] at he
  rw [← Int64.toInt_inj, ← Int64.toInt_inj] at hend
  refine ⟨oriented_iff.mpr ?_, hle, ?_⟩ <;> split_ifs at hlo hhi <;> omega

theorem sure_backwardNe (ha : a.Filled (2 ^ 62)) (hb : b.Filled (2 ^ 62)) :
    (backwardNe bound a b).Sure (Settled bound .ne) := by
  have hale := ha.le
  have hble := hb.le
  have hamod := moderate_iff.mp ha.moderate
  have hbmod := moderate_iff.mp hb.moderate
  have haor := ha.moderate.oriented (by omega)
  have hbor := hb.moderate.oriented (by omega)
  unfold backwardNe
  split_ifs with hbot hpa hpb
  · simp only [isBottom, decide_eq_true_eq, Int64.lt_iff_toInt_lt, meet, Bound.toInt_greater,
      Bound.toInt_lesser] at hbot
    exact Eval.sure_pure (settled_ne_of_apart haor hbor hale hble (by omega))
  · simp only [isPoint, Bool.and_eq_true, Bool.or_eq_true, beq_iff_eq] at hpa
    obtain ⟨hpoint, hend⟩ := hpa
    rw [← Int64.toInt_inj] at hpoint
    refine Eval.sure_bind ((sure_exclude_end hb (Bound.finite_iff.mpr (by omega)) hend).mono ?_)
    rintro u ⟨huor, hule, hapart⟩
    exact Eval.sure_pure (settled_ne_of_apart haor huor hale hule (by omega))
  · simp only [isPoint, Bool.and_eq_true, Bool.or_eq_true, beq_iff_eq] at hpb
    obtain ⟨hpoint, hend⟩ := hpb
    rw [← Int64.toInt_inj] at hpoint
    refine Eval.sure_bind ((sure_exclude_end ha (Bound.finite_iff.mpr (by omega)) hend).mono ?_)
    rintro u ⟨huor, hule, hapart⟩
    exact Eval.sure_pure (settled_ne_of_apart huor hbor hule hble (by omega))
  · refine Eval.sure_bind (Eval.sure_of_forall (fun i => ?_) _)
    split
    · exact (sure_backwardGreater rfl ha hb).mono fun _ hp => hp.settled_ne
    · exact (sure_backwardLess rfl ha hb).mono fun _ hp =>
        hp.settled_ne.swap (congrArg Tristate.not equal_comm)

/-! ## Relations and their truth values -/

theorem sure_backwardRelation (hrel : rel ∈ [.eq, .ne, .slt, .sle, .sgt, .sge])
    (ha : a.Filled (2 ^ 62)) (hb : b.Filled (2 ^ 62)) :
    (backwardRelation bound rel a b).Sure (Settled bound rel) := by
  cases rel with
  | eq => exact sure_backwardEq ha hb
  | ne => exact sure_backwardNe ha hb
  | slt => exact (sure_backwardLess rfl ha hb).mono fun _ hp => hp.settled_gt.swap rfl
  | sle => exact (sure_backwardLess rfl ha hb).mono fun _ hp => hp.settled_ge.swap rfl
  | sgt => exact (sure_backwardGreater rfl ha hb).mono fun _ hp => hp.settled_gt
  | sge => exact (sure_backwardGreater rfl ha hb).mono fun _ hp => hp.settled_ge
  | ult | ule | ugt | uge => exact absurd hrel (by decide)

/-- The truth value that an interval stands for as the result of a relation: false for the
point 0, true for an interval with members that leaves 0 out. -/
def Says (r : Interval) : Bool → Prop
  | false => r = point 0
  | true => r.isBottom = false ∧ (0 : Int) ∉ r

theorem Says.toTristate {t : Bool} (hr : r.Says t) : r.toTristate = pure (.ofBool t) := by
  cases t with
  | false =>
      obtain rfl : r = point 0 := hr
      rfl
  | true =>
      obtain ⟨hbot, hzero⟩ := hr
      obtain ⟨s, hs, hdescribes⟩ := describes_toTristate (isBottom_eq_false_iff.mp hbot)
      have hall : ∀ x ∈ {x | x ∈ r}, (x != 0) = true := fun x hx =>
        bne_iff_ne.mpr fun h0 => hzero (h0 ▸ hx)
      rw [hs, hdescribes.eq_ofBool_iff.mpr hall]

theorem Says.backward_eq {t : Bool} (hr : r.Says t) :
    backward bound (.relation rel) r a b =
      backwardRelation bound (if t then rel else rel.negate) a b := by
  show backwardCompare bound rel r a b = _
  unfold backwardCompare
  rw [hr.toTristate]
  cases t <;> rfl

theorem sure_backward_relation {t : Bool} (hrel : rel ∈ [.eq, .ne, .slt, .sle, .sgt, .sge])
    (hr : r.Says t) (ha : a.Filled (2 ^ 62)) (hb : b.Filled (2 ^ 62)) :
    (backward bound (.relation rel) r a b).Sure fun p =>
      (p.1.Oriented ∧ p.2.Oriented) ∧ compare rel p.1 p.2 ≠ .ofBool !t ∧
        ((common p.1 p.2).encard ≤ bound.toNat → compare rel p.1 p.2 = .ofBool t) := by
  rw [hr.backward_eq]
  cases t with
  | true =>
      refine (sure_backwardRelation hrel ha hb).mono fun p hp => ?_
      exact ⟨⟨hp.left, hp.right⟩, hp.possible, hp.certain⟩
  | false =>
      have hnegate : rel.negate ∈ [.eq, .ne, .slt, .sle, .sgt, .sge] := by
        revert rel
        decide
      refine (sure_backwardRelation hnegate ha hb).mono fun p hp => ?_
      have hpossible := hp.possible
      have hcertain := hp.certain
      rw [compare_negate] at hpossible hcertain
      refine ⟨⟨hp.left, hp.right⟩, fun hyes => ?_, fun hcommon => ?_⟩
      · exact hpossible (Tristate.not_eq_no_iff.mpr hyes)
      · exact Tristate.not_eq_yes_iff.mp (hcertain hcommon)

theorem holds?_of_compare {t : Bool} (hrel : rel ∈ [.eq, .ne, .slt, .sle, .sgt, .sge])
    (ha : a.Oriented) (hb : b.Oriented) (hcompare : compare rel a b = .ofBool t) {x y : Int}
    (hx : x ∈ a) (hy : y ∈ b) : rel.holds? x y = some t := by
  obtain ⟨s, hs⟩ : ∃ s, rel.holds? x y = some s := by
    cases rel with
    | eq | ne | slt | sle | sgt | sge => exact ⟨_, rfl⟩
    | ult | ule | ugt | uge => exact absurd hrel (by decide)
  have hadmits := compare_admits ha hb hx hy hs
  rw [hcompare] at hadmits
  rw [hs]
  cases t <;> exact congrArg some hadmits

/-- **Narrowing from a comparison loses no pair, and is exact within the bound.**  Of every
pair for which the comparison comes out as it is known to, some answers keep both members.
Whatever is answered, what is left lies inside the operands and does not contradict what is
known; and where no more integers are common to both than may be asked for, every pair of
what is left bears it out. -/
theorem backward_relation_exact (bound : UInt32) (rel : Relation) (t : Bool)
    (hrel : rel ∈ [.eq, .ne, .slt, .sle, .sgt, .sge]) (hr : r.Says t)
    (ha : a.Filled (2 ^ 62)) (hb : b.Filled (2 ^ 62)) :
    (∀ x ∈ a, ∀ y ∈ b, rel.holds? x y = some t → ∃ answers,
      let play := (backward bound (.relation rel) r a b).run.play answers
      Dialogue.Fit .inRange answers play.asked ∧
        ∃ p, play.result = .ok p ∧ x ∈ p.1 ∧ y ∈ p.2) ∧
    ∀ answers p, ((backward bound (.relation rel) r a b).run.play answers).result = .ok p →
      (p.1.leq a = true ∧ p.2.leq b = true ∧ compare rel p.1 p.2 ≠ .ofBool !t) ∧
      ((common p.1 p.2).encard ≤ bound.toNat → compare rel p.1 p.2 = .ofBool t ∧
        ∀ x ∈ p.1, ∀ y ∈ p.2, rel.holds? x y = some t) := by
  constructor
  · intro x hx y hy ht
    have hcan : (backward bound (.relation rel) r a b).Can fun p =>
        Keeps x a p.1 ∧ Keeps y b p.2 := by
      rw [hr.backward_eq]
      cases t with
      | true => exact can_backwardRelation hx hy ht
      | false => exact can_backwardRelation hx hy (Relation.holds?_negate ht)
    obtain ⟨answers, hfit, p, hp, hkeeps⟩ := hcan.exists_answers
    exact ⟨answers, hfit, p, hp, hkeeps.1.mem, hkeeps.2.mem⟩
  · intro answers p hp
    have hunder := (ends_backward bound (.relation rel) r a b).sure.of_play hp
    obtain ⟨⟨hleft, hright⟩, hpossible, hcertain⟩ :=
      (sure_backward_relation hrel hr ha hb).of_play hp
    refine ⟨⟨hunder.1, hunder.2, hpossible⟩, fun hcommon => ⟨hcertain hcommon, ?_⟩⟩
    intro x hx y hy
    exact holds?_of_compare hrel hleft hright (hcertain hcommon) hx hy

/-- The comparison of 0..4 with everything from 2 on, known to come out as "not below": 3 and 2
can be kept, and nothing that is left is below. -/
theorem backward_relation_exact_overlap :
    let narrowed := backward 3 (.relation .slt) (point 0) ⟨0, 4⟩ ⟨2, Bound.posInf⟩
    (∃ answers, Dialogue.Fit .inRange answers (narrowed.run.play answers).asked ∧
      ∃ p, (narrowed.run.play answers).result = .ok p ∧ (3 : Int) ∈ p.1 ∧ (2 : Int) ∈ p.2) ∧
    ∀ answers p, (narrowed.run.play answers).result = .ok p → compare .slt p.1 p.2 ≠ .yes := by
  have ha : Filled (2 ^ 62) ⟨0, 4⟩ := ⟨moderate_iff.mpr (by decide), by decide⟩
  have hb : Filled (2 ^ 62) ⟨2, Bound.posInf⟩ := ⟨moderate_iff.mpr (by decide), by decide⟩
  obtain ⟨hkeep, hleft⟩ := backward_relation_exact 3 .slt false (by decide) rfl ha hb
  refine ⟨hkeep 3 (mem_iff.mpr (by decide)) 2 (mem_iff.mpr (by decide)) rfl, ?_⟩
  intro answers p hp
  exact (hleft answers p hp).1.2.2

end Interval

end Narrowing
