/-
# End points as integers

An end point is a word, and its arithmetic saturates.  Here each operation is
given its meaning over the unbounded integers:

    clamp z         the word an integer saturates to
    Stands m b      the integer `m` may be put in the place of the end point `b`

A finite end point stands for its own integer and for no other; an infinity is
stood for by every integer that is far enough out, where "far enough" is
`2 ^ 128`, so that sums, products and quotients with finite words stay outside
all words.  With that, one law says what an operation does, infinities
included: the result on two end points is the clamp of the exact result on what
stands for them.

The law for sums has an exception.  An exact sum of `-2 ^ 63 - 1` wraps round to
the word that is plus infinity, and is taken for it; every caller below shows
that its sums keep clear of that integer.
-/
import Narrowing.Bound
import Mathlib.Algebra.Order.Ring.Int
import Mathlib.Tactic.Linarith
import Mathlib.Tactic.SplitIfs

namespace Narrowing.Bound

/-! ## Words and their integers -/

theorem toInt_negInf : negInf.toInt = -2 ^ 63 := rfl

theorem toInt_posInf : posInf.toInt = 2 ^ 63 - 1 := rfl

theorem toInt_zero : (0 : Bound).toInt = 0 := rfl

theorem isInf_iff {b : Bound} : b.isInf = true ↔ b.toInt = -2 ^ 63 ∨ b.toInt = 2 ^ 63 - 1 := by
  rw [← toInt_negInf, ← toInt_posInf, Int64.toInt_inj, Int64.toInt_inj]
  simp [isInf]

theorem finite_iff {b : Bound} :
    b.isInf = false ↔ -2 ^ 63 < b.toInt ∧ b.toInt < 2 ^ 63 - 1 := by
  rw [← Bool.not_eq_true, isInf_iff]
  have := b.le_toInt
  have := b.toInt_lt
  omega

theorem toInt_lesser (a b : Bound) : (lesser a b).toInt = min a.toInt b.toInt := by
  unfold lesser
  split <;> rename_i h <;> rw [Int64.lt_iff_toInt_lt] at h <;> omega

theorem toInt_greater (a b : Bound) : (greater a b).toInt = max a.toInt b.toInt := by
  unfold greater
  split <;> rename_i h <;> rw [Int64.lt_iff_toInt_lt] at h <;> omega

/-- The word arithmetic is exact where the exact result is a word. -/
theorem bmod_of_word {n : Int} (hl : -2 ^ 63 ≤ n) (hu : n < 2 ^ 63) : n.bmod (2 ^ 64) = n :=
  Int.bmod_eq_of_le (by omega) (by omega)

theorem toInt_add {a b : Bound} (hl : -2 ^ 63 ≤ a.toInt + b.toInt)
    (hu : a.toInt + b.toInt < 2 ^ 63) : (a + b).toInt = a.toInt + b.toInt := by
  rw [Int64.toInt_add, bmod_of_word hl hu]

theorem toInt_sub {a b : Bound} (hl : -2 ^ 63 ≤ a.toInt - b.toInt)
    (hu : a.toInt - b.toInt < 2 ^ 63) : (a - b).toInt = a.toInt - b.toInt := by
  rw [Int64.toInt_sub, bmod_of_word hl hu]

theorem toInt_div {a b : Bound} (ha : a.isInf = false) : (a / b).toInt = a.toInt.tdiv b.toInt := by
  have hq := Int.natAbs_tdiv_le_natAbs a.toInt b.toInt
  have hl := a.le_toInt
  have hu := a.toInt_lt
  have hne : ¬ (a.toInt = -2 ^ 63 ∨ a.toInt = 2 ^ 63 - 1) := by
    rw [← isInf_iff, ha]
    exact Bool.false_ne_true
  rw [Int64.toInt_div, bmod_of_word (by omega) (by omega)]

/-- The word an integer saturates to. -/
def clamp (z : Int) : Bound := Int64.ofIntClamp z

theorem toInt_clamp (z : Int) : (clamp z).toInt = max (-2 ^ 63) (min z (2 ^ 63 - 1)) := by
  have hmin : Int64.minValue.toInt = -2 ^ 63 := rfl
  have hmax : Int64.maxValue.toInt = 2 ^ 63 - 1 := rfl
  unfold clamp Int64.ofIntClamp
  split
  · split
    · rw [Int64.toInt_ofIntLE]
      omega
    · omega
  · omega

theorem eq_clamp_iff {b : Bound} {z : Int} :
    b = clamp z ↔ b.toInt = max (-2 ^ 63) (min z (2 ^ 63 - 1)) := by
  rw [← Int64.toInt_inj, toInt_clamp]

theorem lesser_clamp (x y : Int) : lesser (clamp x) (clamp y) = clamp (min x y) := by
  rw [eq_clamp_iff, toInt_lesser, toInt_clamp, toInt_clamp]
  omega

theorem greater_clamp (x y : Int) : greater (clamp x) (clamp y) = clamp (max x y) := by
  rw [eq_clamp_iff, toInt_greater, toInt_clamp, toInt_clamp]
  omega

/-- The infinity on the side of an exact result that no word holds. -/
theorem infinity_eq_clamp {s z : Int} (hneg : s < 0 → z ≤ -2 ^ 63) (hpos : ¬ s < 0 → 2 ^ 63 - 1 ≤ z) :
    infinity s = clamp z := by
  rw [eq_clamp_iff]
  unfold infinity
  split
  · have := hneg ‹_›
    rw [toInt_negInf]
    omega
  · have := hpos ‹_›
    rw [toInt_posInf]
    omega

/-! ## Integers in the place of end points -/

/-- The integer may be put in the place of the end point. -/
inductive Stands : Int → Bound → Prop where
  | finite {b : Bound} : b.isInf = false → Stands b.toInt b
  | above {m : Int} : 2 ^ 128 ≤ m → Stands m posInf
  | below {m : Int} : m ≤ -2 ^ 128 → Stands m negInf

theorem stands_iff {m : Int} {b : Bound} :
    Stands m b ↔ (b.toInt = 2 ^ 63 - 1 ∧ 2 ^ 128 ≤ m) ∨ (b.toInt = -2 ^ 63 ∧ m ≤ -2 ^ 128) ∨
      (m = b.toInt ∧ -2 ^ 63 < m ∧ m < 2 ^ 63 - 1) := by
  have hl := b.le_toInt
  have hu := b.toInt_lt
  constructor
  · intro h
    cases h with
    | finite hb =>
        have hne : ¬ (b.toInt = -2 ^ 63 ∨ b.toInt = 2 ^ 63 - 1) := by
          rw [← isInf_iff, hb]
          exact Bool.false_ne_true
        omega
    | above hm => exact Or.inl ⟨rfl, hm⟩
    | below hm => exact Or.inr (Or.inl ⟨rfl, hm⟩)
  · rintro (⟨hb, hm⟩ | ⟨hb, hm⟩ | ⟨rfl, hlt, hgt⟩)
    · rw [← toInt_posInf, Int64.toInt_inj] at hb
      exact hb ▸ .above hm
    · rw [← toInt_negInf, Int64.toInt_inj] at hb
      exact hb ▸ .below hm
    · refine .finite ?_
      rw [← Bool.not_eq_true, isInf_iff]
      omega

theorem Stands.sign_eq {m : Int} {b : Bound} (h : Stands m b) :
    (m < 0 ∧ sign b = -1) ∨ (m = 0 ∧ sign b = 0) ∨ (0 < m ∧ sign b = 1) := by
  rw [stands_iff] at h
  unfold sign
  simp only [Int64.lt_iff_toInt_lt, toInt_zero]
  split_ifs <;> omega

theorem Stands.eq_zero_iff {m : Int} {b : Bound} (h : Stands m b) : b = 0 ↔ m = 0 := by
  rw [stands_iff] at h
  rw [← Int64.toInt_inj, toInt_zero]
  omega

/-- Above the least finite word; the opposite of that one is taken for plus infinity. -/
theorem Stands.opposite {m : Int} {b : Bound} (h : Stands m b) (hm : m ≠ -2 ^ 63 + 1) :
    Stands (-m) (opposite b) := by
  have hl := b.le_toInt
  have hu := b.toInt_lt
  rw [stands_iff] at h
  unfold Bound.opposite
  simp only [← Int64.toInt_inj, toInt_negInf, toInt_posInf]
  split_ifs with hneg hpos
  · exact .above (by omega)
  · exact .below (by omega)
  · have hval : (-b).toInt = -b.toInt := by
      rw [Int64.toInt_neg]
      exact bmod_of_word (by omega) (by omega)
    rw [stands_iff, hval]
    omega

theorem Stands.eq_toInt {m : Int} {b : Bound} (h : Stands m b) (hb : ¬ b.isInf = true) :
    m = b.toInt ∧ -2 ^ 63 < m ∧ m < 2 ^ 63 - 1 := by
  rw [stands_iff] at h
  rw [Bound.isInf_iff] at hb
  omega

/-! ## Sums and differences -/

theorem toInt_add_cases (b o : Bound) :
    (b + o).toInt = b.toInt + o.toInt ∨ (b + o).toInt = b.toInt + o.toInt + 2 ^ 64 ∨
      (b + o).toInt = b.toInt + o.toInt - 2 ^ 64 := by
  have h := Int64.toInt_add b o
  have hbl := b.le_toInt
  have hbu := b.toInt_lt
  have hol := o.le_toInt
  have hou := o.toInt_lt
  rw [Int.bmod] at h
  omega

theorem add?_of_finite {b o : Bound} (hb : b.isInf = false) (ho : o.isInf = false)
    (hne : b.toInt + o.toInt ≠ -2 ^ 63 - 1) : add? b o = some (clamp (b.toInt + o.toInt)) := by
  have hbo := toInt_add_cases b o
  have hl := (b + o).le_toInt
  have hu := (b + o).toInt_lt
  have hbl := b.le_toInt
  have hbu := b.toInt_lt
  have hol := o.le_toInt
  have hou := o.toInt_lt
  unfold add?
  simp only [hb, ho, Bool.and_self, Bool.false_eq_true, if_false, Bool.and_eq_true,
    Bool.or_eq_true, decide_eq_true_eq, beq_iff_eq, Int64.lt_iff_toInt_lt, ← Int64.toInt_inj,
    toInt_zero, toInt_negInf, toInt_posInf]
  split_ifs with hover hunder <;> rw [Option.some.injEq, eq_clamp_iff]
  · rw [toInt_posInf]
    omega
  · rw [toInt_negInf]
    omega
  · omega

theorem add?_eq_clamp {m n : Int} {b o s : Bound} (hm : Stands m b) (hn : Stands n o)
    (hne : m + n ≠ -2 ^ 63 - 1) (hs : add? b o = some s) : s = clamp (m + n) := by
  have hneg : negInf.isInf = true := rfl
  have hpos : posInf.isInf = true := rfl
  cases hm with
  | finite hb =>
      have hlu := (Stands.finite hb).eq_toInt (by rw [hb]; exact Bool.false_ne_true)
      cases hn with
      | finite ho =>
          rw [add?_of_finite hb ho hne] at hs
          exact (Option.some.inj hs).symm
      | above hn =>
          simp only [add?, hb, hpos, Bool.false_and, Bool.false_eq_true, if_false, if_true] at hs
          rw [← Option.some.inj hs, eq_clamp_iff, toInt_posInf]
          omega
      | below hn =>
          simp only [add?, hb, hneg, Bool.false_and, Bool.false_eq_true, if_false, if_true] at hs
          rw [← Option.some.inj hs, eq_clamp_iff, toInt_negInf]
          omega
  | above hm =>
      cases hn with
      | finite ho =>
          have hlu := (Stands.finite ho).eq_toInt (by rw [ho]; exact Bool.false_ne_true)
          simp only [add?, ho, hpos, Bool.and_false, Bool.false_eq_true, if_false, if_true] at hs
          rw [← Option.some.inj hs, eq_clamp_iff, toInt_posInf]
          omega
      | above hn =>
          obtain rfl : posInf = s := Option.some.inj hs
          rw [eq_clamp_iff, toInt_posInf]
          omega
      | below hn => exact nomatch (hs : none = some s)
  | below hm =>
      cases hn with
      | finite ho =>
          have hlu := (Stands.finite ho).eq_toInt (by rw [ho]; exact Bool.false_ne_true)
          simp only [add?, ho, hneg, Bool.and_false, Bool.false_eq_true, if_false, if_true] at hs
          rw [← Option.some.inj hs, eq_clamp_iff, toInt_negInf]
          omega
      | above hn => exact nomatch (hs : none = some s)
      | below hn =>
          obtain rfl : negInf = s := Option.some.inj hs
          rw [eq_clamp_iff, toInt_negInf]
          omega

theorem add?_isSome {b o : Bound} (h : b.isInf = false ∨ o.isInf = false) :
    ∃ s, add? b o = some s := by
  unfold add?
  simp only [Bool.and_eq_true]
  split_ifs with hinf
  · exact ⟨b, rfl⟩
  · rcases h with h | h
    · exact absurd hinf.1 (by rw [h]; exact Bool.false_ne_true)
    · exact absurd hinf.2 (by rw [h]; exact Bool.false_ne_true)
  all_goals exact ⟨_, rfl⟩

theorem sub?_eq_clamp {m n : Int} {b o s : Bound} (hm : Stands m b) (hn : Stands n o)
    (hnn : n ≠ -2 ^ 63 + 1) (hne : m - n ≠ -2 ^ 63 - 1) (hs : sub? b o = some s) :
    s = clamp (m - n) := by
  rw [Int.sub_eq_add_neg] at hne ⊢
  exact add?_eq_clamp hm (hn.opposite hnn) hne hs

theorem add?_exact {b o s : Bound} (hs : add? b o = some s) (hfin : s.isInf = false) :
    b.isInf = false ∧ o.isInf = false ∧ s.toInt = b.toInt + o.toInt := by
  have hcases := toInt_add_cases b o
  have hl := (b + o).le_toInt
  have hu := (b + o).toInt_lt
  have hneg : negInf.isInf = true := rfl
  have hpos : posInf.isInf = true := rfl
  unfold add? at hs
  simp only [Bool.and_eq_true, Bool.or_eq_true, decide_eq_true_eq, beq_iff_eq,
    Int64.lt_iff_toInt_lt, toInt_zero] at hs
  split_ifs at hs with hinf hbo hb ho hover hunder <;> obtain rfl := Option.some.inj hs
  · exact absurd hinf.1 (Bool.eq_false_iff.mp hfin)
  · exact absurd hb (Bool.eq_false_iff.mp hfin)
  · exact absurd ho (Bool.eq_false_iff.mp hfin)
  · exact absurd hpos (Bool.eq_false_iff.mp hfin)
  · exact absurd hneg (Bool.eq_false_iff.mp hfin)
  · refine ⟨Bool.eq_false_iff.mpr hb, Bool.eq_false_iff.mpr ho, ?_⟩
    have := b.le_toInt
    have := b.toInt_lt
    have := o.le_toInt
    have := o.toInt_lt
    omega

theorem toInt_opposite {o : Bound} (h : o.opposite.isInf = false) :
    o.isInf = false ∧ o.opposite.toInt = -o.toInt := by
  have hneg : negInf.isInf = true := rfl
  have hpos : posInf.isInf = true := rfl
  unfold opposite at *
  split_ifs at * with hn hp
  · exact absurd hpos (Bool.eq_false_iff.mp h)
  · exact absurd hneg (Bool.eq_false_iff.mp h)
  · rw [← Int64.toInt_inj, toInt_negInf] at hn
    rw [← Int64.toInt_inj, toInt_posInf] at hp
    have := o.le_toInt
    have := o.toInt_lt
    refine ⟨finite_iff.mpr (by omega), ?_⟩
    rw [Int64.toInt_neg, bmod_of_word (by omega) (by omega)]

theorem sub?_exact {b o s : Bound} (hs : sub? b o = some s) (hfin : s.isInf = false) :
    b.isInf = false ∧ o.isInf = false ∧ s.toInt = b.toInt - o.toInt := by
  obtain ⟨hb, ho, heq⟩ := add?_exact hs hfin
  obtain ⟨ho, hopp⟩ := toInt_opposite ho
  exact ⟨hb, ho, by omega⟩

/-! ## Products -/

/-- The test by division finds every product that is no word. -/
theorem toInt_mul_of_div_eq {b o : Bound} (hb : b.isInf = false) (ho : o ≠ 0)
    (h : b * o / o = b) : (b * o).toInt = b.toInt * o.toInt := by
  have hfin : ¬ (b.toInt = -2 ^ 63 ∨ b.toInt = 2 ^ 63 - 1) := by
    rw [← isInf_iff, hb]
    exact Bool.false_ne_true
  have hbl := b.le_toInt
  have hol := o.le_toInt
  have hou := o.toInt_lt
  have hpl := (b * o).le_toInt
  have hpu := (b * o).toInt_lt
  -- the quotient of the wrapped product is the first factor, so the remainder is all that
  -- the wrapped product can differ by, and it is too small for a turn round the words
  have hquot : ((b * o).toInt.tdiv o.toInt).bmod (2 ^ 64) = b.toInt := by
    rw [← Int64.toInt_div, h]
  have hmag := Int.natAbs_tdiv_le_natAbs (b * o).toInt o.toInt
  have hdiv : (b * o).toInt.tdiv o.toInt = b.toInt := by
    rw [Int.bmod] at hquot
    omega
  have hsplit := Int.mul_tdiv_add_tmod (b * o).toInt o.toInt
  rw [hdiv, Int.mul_comm] at hsplit
  have ho0 : o.toInt ≠ 0 := fun h0 => ho (Int64.toInt_inj.mp h0)
  have hrem : ((b * o).toInt.tmod o.toInt).natAbs < o.toInt.natAbs := by
    rw [Int.natAbs_tmod]
    exact Nat.mod_lt _ (Int.natAbs_pos.mpr ho0)
  have hwrap := Int64.toInt_mul b o
  rw [Int.bmod] at hwrap
  omega

/-- A product is far out when one factor is, and the other not 0. -/
theorem mul_far {m n : Int} (hm : 2 ^ 128 ≤ m.natAbs) (hn : n ≠ 0) :
    2 ^ 128 ≤ (m * n).natAbs := by
  rw [Int.natAbs_mul]
  calc 2 ^ 128 ≤ m.natAbs := hm
    _ = m.natAbs * 1 := (Nat.mul_one _).symm
    _ ≤ m.natAbs * n.natAbs := Nat.mul_le_mul_left _ (Int.natAbs_pos.mpr hn)

theorem Stands.natAbs_far {m : Int} {b : Bound} (h : Stands m b) (hb : b.isInf = true) :
    2 ^ 128 ≤ m.natAbs := by
  rw [stands_iff] at h
  rw [isInf_iff] at hb
  omega

theorem Stands.sign_mul {m n : Int} {b o : Bound} (hm : Stands m b) (hn : Stands n o) :
    (sign b * sign o < 0 ↔ m * n < 0) := by
  rcases hm.sign_eq with ⟨h₁, e₁⟩ | ⟨h₁, e₁⟩ | ⟨h₁, e₁⟩ <;>
  rcases hn.sign_eq with ⟨h₂, e₂⟩ | ⟨h₂, e₂⟩ | ⟨h₂, e₂⟩ <;>
  rw [e₁, e₂] <;> simp [h₁, h₂, mul_neg_iff] <;> omega

theorem satMul_eq_clamp {m n : Int} {b o : Bound} (hm : Stands m b) (hn : Stands n o) :
    satMul b o = clamp (m * n) := by
  have hsign := hm.sign_mul hn
  unfold satMul
  simp only [Bool.or_eq_true, decide_eq_true_eq, beq_iff_eq]
  split_ifs with hzero hinf hover
  · rw [hm.eq_zero_iff, hn.eq_zero_iff] at hzero
    have hprod : m * n = 0 := Int.mul_eq_zero.mpr hzero
    rw [hprod]
    rfl
  · rw [hm.eq_zero_iff, hn.eq_zero_iff, not_or] at hzero
    have hfar : 2 ^ 128 ≤ (m * n).natAbs := by
      rcases hinf with h | h
      · exact mul_far (hm.natAbs_far h) hzero.2
      · rw [Int.mul_comm]
        exact mul_far (hn.natAbs_far h) hzero.1
    exact infinity_eq_clamp (by omega) (by omega)
  · rw [not_or] at hzero hinf
    obtain ⟨rfl, _, _⟩ := hm.eq_toInt hinf.1
    obtain ⟨rfl, _, _⟩ := hn.eq_toInt hinf.2
    -- were the exact product a finite word, the test would have found nothing
    have hout : b.toInt * o.toInt ≤ -2 ^ 63 ∨ 2 ^ 63 - 1 ≤ b.toInt * o.toInt := by
      by_contra hin
      have hval : (b * o).toInt = b.toInt * o.toInt := by
        rw [Int64.toInt_mul, bmod_of_word (by omega) (by omega)]
      have hfin : ¬ (b * o).isInf = true := by
        rw [isInf_iff, hval]
        omega
      have hquot : b * o / o = b := by
        rw [← Int64.toInt_inj, toInt_div (Bool.not_eq_true _ ▸ hfin), hval]
        exact Int.mul_tdiv_cancel _ fun h0 => hzero.2 (Int64.toInt_inj.mp h0)
      simp only [isInf, Bool.or_eq_true, beq_iff_eq] at hfin
      tauto
    exact infinity_eq_clamp (by omega) (by omega)
  · simp only [not_or, not_not] at hzero hinf hover
    obtain ⟨⟨hquot, hpos⟩, hneg⟩ := hover
    obtain ⟨rfl, _, _⟩ := hm.eq_toInt hinf.1
    obtain ⟨rfl, _, _⟩ := hn.eq_toInt hinf.2
    have hval := toInt_mul_of_div_eq (Bool.not_eq_true _ ▸ hinf.1) hzero.2 hquot
    have hl := (b * o).le_toInt
    have hu := (b * o).toInt_lt
    rw [eq_clamp_iff]
    omega

/-! ## Quotients -/

theorem tdiv_sign {m n : Int} : (m * n < 0 → m.tdiv n ≤ 0) ∧ (¬ m * n < 0 → 0 ≤ m.tdiv n) := by
  rw [mul_neg_iff]
  rcases Int.le_total 0 m with hm | hm <;> rcases Int.le_total 0 n with hn | hn
  · have := Int.tdiv_nonneg hm hn
    omega
  · have := Int.tdiv_nonpos_of_nonneg_of_nonpos hm hn
    refine ⟨fun _ => this, ?_⟩
    intro h
    obtain rfl | rfl : m = 0 ∨ n = 0 := by omega
    · rw [Int.zero_tdiv]
    · rw [Int.tdiv_zero]
  · have := Int.tdiv_nonneg (Int.neg_nonneg_of_nonpos hm) hn
    rw [Int.neg_tdiv] at this
    refine ⟨fun _ => by omega, ?_⟩
    intro h
    obtain rfl | rfl : m = 0 ∨ n = 0 := by omega
    · rw [Int.zero_tdiv]
    · rw [Int.tdiv_zero]
  · have := Int.tdiv_nonneg_of_nonpos_of_nonpos hm hn
    omega

theorem div?_eq_clamp {m n : Int} {b o q : Bound} (hm : Stands m b) (hn : Stands n o)
    (hq : div? b o = some q) : q = clamp (m.tdiv n) := by
  have hsign := hm.sign_mul hn
  have hquot := Int.natAbs_tdiv m n
  have htd := @tdiv_sign m n
  unfold div? at hq
  simp only [Bool.and_eq_true] at hq
  split_ifs at hq with hzero hboth ho hb
  · obtain rfl := Option.some.inj hq
    have hfin := hm.eq_toInt fun hb => hboth ⟨hb, ho⟩
    have hfar := hn.natAbs_far ho
    have hnone : m.natAbs.div n.natAbs = 0 := Nat.div_eq_of_lt (by omega)
    rw [hnone, Int.natAbs_eq_zero] at hquot
    rw [hquot]
    rfl
  · obtain rfl := Option.some.inj hq
    have hfin := hn.eq_toInt ho
    have hfar := hm.natAbs_far hb
    have hn0 : n ≠ 0 := fun h => hzero (hn.eq_zero_iff.mpr h)
    have hlarge : 2 ^ 64 ≤ m.natAbs.div n.natAbs := by
      refine (Nat.le_div_iff_mul_le (by omega)).mpr ?_
      omega
    exact infinity_eq_clamp (by omega) (by omega)
  · obtain rfl := Option.some.inj hq
    obtain ⟨rfl, _, _⟩ := hm.eq_toInt hb
    obtain ⟨rfl, _, _⟩ := hn.eq_toInt ho
    have hmag := Int.natAbs_tdiv_le_natAbs b.toInt o.toInt
    rw [eq_clamp_iff, toInt_div (Bool.not_eq_true _ ▸ hb)]
    omega

theorem ceilDiv_le_iff {p q : Bound} (hp : 1 ≤ p.toInt) (hfin : p.isInf = false)
    (hq : 1 ≤ q.toInt) {t : Int} : (ceilDiv p q).toInt ≤ t ↔ p.toInt ≤ t * q.toInt := by
  rw [finite_iff] at hfin
  have hone : (1 : Bound).toInt = 1 := rfl
  have hpred : (p - 1).toInt = p.toInt - 1 := by rw [toInt_sub (by omega) (by omega), hone]
  have hdiv : ((p - 1) / q).toInt = (p.toInt - 1) / q.toInt := by
    rw [toInt_div (finite_iff.mpr (by omega)), hpred, Int.tdiv_eq_ediv_of_nonneg (by omega)]
  have hle : (p.toInt - 1) / q.toInt ≤ p.toInt - 1 := Int.ediv_le_self _ (by omega)
  have hnonneg : 0 ≤ (p.toInt - 1) / q.toInt := Int.ediv_nonneg (by omega) (by omega)
  have hceil : (ceilDiv p q).toInt = (p.toInt - 1) / q.toInt + 1 := by
    unfold ceilDiv
    rw [toInt_add (by omega) (by omega), hdiv, hone]
  rw [hceil, Int.add_one_le_iff, Int.ediv_lt_iff_lt_mul (by omega)]
  omega

theorem le_div_iff {p q : Bound} (hp : 0 ≤ p.toInt) (hfin : p.isInf = false) (hq : 1 ≤ q.toInt)
    {t : Int} : t ≤ (p / q).toInt ↔ t * q.toInt ≤ p.toInt := by
  rw [toInt_div hfin, Int.tdiv_eq_ediv_of_nonneg hp, Int.le_ediv_iff_mul_le (by omega)]

/-! ## Shifts -/

theorem eq_ofNat_toNat {o : Bound} (hl : 0 ≤ o.toInt) : o = Int64.ofNat o.toInt.toNat := by
  have hu := o.toInt_lt
  rw [← Int64.toInt_inj, Int64.toInt_ofNat_of_lt (by omega)]
  omega

theorem toInt_one_shiftLeft {o : Bound} (hl : 0 ≤ o.toInt) (hu : o.toInt < 63) :
    ((1 : Bound) <<< o).toInt = 2 ^ o.toInt.toNat := by
  have hall : ∀ k : Fin 63, ((1 : Bound) <<< Int64.ofNat k).toInt = 2 ^ (k : Nat) := by decide
  have hk := hall ⟨o.toInt.toNat, by omega⟩
  rw [← eq_ofNat_toNat hl] at hk
  exact hk

theorem toInt_shiftRight {b o : Bound} (hl : 0 ≤ o.toInt) (hu : o.toInt < 64) :
    (b >>> o).toInt = b.toInt / 2 ^ o.toInt.toNat := by
  have hall : ∀ k : Fin 64, ((Int64.ofNat k).toBitVec.smod 64).toNat = k := by decide
  have hk := hall ⟨o.toInt.toNat, by omega⟩
  rw [← eq_ofNat_toNat hl] at hk
  show (b.toBitVec.sshiftRight (o.toBitVec.smod 64).toNat).toInt = _
  rw [hk, BitVec.toInt_sshiftRight, Int.shiftRight_eq_div_pow]
  rfl

theorem two_pow_far {n : Int} (hn : 63 ≤ n) : (2 : Int) ^ 63 ≤ 2 ^ n.toNat :=
  pow_le_pow_right₀ (by omega) (by omega)

theorem shl?_eq_clamp {m n : Int} {b o q : Bound} (hm : Stands m b) (hn : Stands n o)
    (hq : shl? b o = some q) : 0 ≤ n ∧ q = clamp (m * 2 ^ n.toNat) := by
  have hn' := stands_iff.mp hn
  have hm' := stands_iff.mp hm
  unfold shl? at hq
  simp only [Bool.or_eq_true, decide_eq_true_eq, Int64.lt_iff_toInt_lt, Int64.le_iff_toInt_le,
    toInt_zero, show (63 : Bound).toInt = 63 from rfl] at hq
  split_ifs at hq with hneg hzero hout <;> obtain rfl := Option.some.inj hq <;>
    refine ⟨by omega, ?_⟩
  · rw [hm.eq_zero_iff.mp hzero, Int.zero_mul]
    rfl
  · have hm0 : m ≠ 0 := fun h => hzero (hm.eq_zero_iff.mpr h)
    have hsign := hm.sign_eq
    have hpow : (0 : Int) < 2 ^ n.toNat := Int.pow_pos (by omega)
    have hfar : 2 ^ 63 ≤ (m * 2 ^ n.toNat).natAbs := by
      rcases hout with hinf | hlarge
      · have := mul_far (hm.natAbs_far hinf) (Int.ne_of_gt hpow)
        omega
      · have hpow63 := two_pow_far (n := n) (by omega)
        rw [Int.natAbs_mul]
        calc 2 ^ 63 ≤ 1 * (2 ^ n.toNat : Int).natAbs := by omega
          _ ≤ m.natAbs * (2 ^ n.toNat : Int).natAbs :=
            Nat.mul_le_mul_right _ (Int.natAbs_pos.mpr hm0)
    have hprod : m * 2 ^ n.toNat < 0 ↔ m < 0 := by
      rw [mul_neg_iff]
      omega
    exact infinity_eq_clamp (by omega) (by omega)
  · rw [not_or] at hout
    obtain ⟨rfl, _, _⟩ := hn.eq_toInt (by rw [isInf_iff]; omega)
    have hval := toInt_one_shiftLeft (o := o) (by omega) (by omega)
    have hpow : (2 : Int) ^ o.toInt.toNat ≤ 2 ^ 62 :=
      pow_le_pow_right₀ (by omega) (by omega)
    have hpos : (0 : Int) < 2 ^ o.toInt.toNat := Int.pow_pos (by omega)
    exact satMul_eq_clamp hm (stands_iff.mpr (by omega))

theorem shr?_toInt {n : Int} {b o q : Bound} (hb : b.isInf = false) (hn : Stands n o)
    (hq : shr? b o = some q) : 0 ≤ n ∧ q.toInt = b.toInt / 2 ^ n.toNat := by
  have hn' := stands_iff.mp hn
  have hl := b.le_toInt
  have hu := b.toInt_lt
  unfold shr? at hq
  simp only [hb, Bool.false_eq_true, if_false, Int64.lt_iff_toInt_lt, Int64.le_iff_toInt_le,
    toInt_zero, show (63 : Bound).toInt = 63 from rfl] at hq
  split_ifs at hq with hneg hlarge <;> obtain rfl := Option.some.inj hq <;>
    refine ⟨by omega, ?_⟩
  · have hpow63 := two_pow_far (n := n) (by omega)
    exact (Int.ediv_eq_neg_one_of_neg_of_le (by omega) (by omega)).symm
  · have hpow63 := two_pow_far (n := n) (by omega)
    exact (Int.ediv_eq_zero_of_lt (by omega) (by omega)).symm
  · obtain ⟨rfl, _, _⟩ := hn.eq_toInt (by rw [isInf_iff]; omega)
    exact toInt_shiftRight (by omega) (by omega)

end Narrowing.Bound
