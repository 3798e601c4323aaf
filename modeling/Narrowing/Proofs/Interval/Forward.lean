/-
# Forward operators on intervals keep every result

For integers `x` and `y` in two intervals, what an operator gives on `x` and `y`
lies in what it gives on the intervals, wherever the latter is defined.

The sums go end by end.  The products, quotients and left shifts go by the four
corners, and for these there is one argument.  Put integers in the place of the
ends (`Bound.Stands`), one on either side of each operand.  An operator that is
monotone or antitone in each operand, whichever it is, lies between its values
at the corners, and the ends of the computed interval are the clamps of the
least and the greatest of these.

A shift to the right does not fit: no integer can stand for infinity there,
since a large enough shift takes every integer to 0.  It is treated by itself.
-/
import Narrowing.Proofs.Dialogue
import Narrowing.Proofs.Meaning

namespace Narrowing

/-- The middle one lies between the outer two, whichever way round these stand. -/
def Between (u m v : Int) : Prop := (u ≤ m ∧ m ≤ v) ∨ (v ≤ m ∧ m ≤ u)

/-- What lies between two values that lie between the corners. -/
theorem between_corners {ll lh hl hh m n p : Int} (hp : Between m p n) (hm : Between ll m lh)
    (hn : Between hl n hh) :
    min (min (min ll lh) hl) hh ≤ p ∧ p ≤ max (max (max ll lh) hl) hh := by
  unfold Between at hp hm hn
  omega

/-! ## Operators that go one way in each operand -/

theorem between_mul {l x h : Int} (hl : l ≤ x) (hh : x ≤ h) (y : Int) :
    Between (l * y) (x * y) (h * y) := by
  rcases Int.le_total 0 y with hy | hy
  · exact Or.inl ⟨Int.mul_le_mul_of_nonneg_right hl hy, Int.mul_le_mul_of_nonneg_right hh hy⟩
  · exact Or.inr ⟨Int.mul_le_mul_of_nonpos_right hh hy, Int.mul_le_mul_of_nonpos_right hl hy⟩

theorem between_mul_left {l y h : Int} (hl : l ≤ y) (hh : y ≤ h) (x : Int) :
    Between (x * l) (x * y) (x * h) := by
  rw [Int.mul_comm x l, Int.mul_comm x y, Int.mul_comm x h]
  exact between_mul hl hh x

theorem between_neg {u m v : Int} (h : Between u m v) : Between (-u) (-m) (-v) := by
  unfold Between at *
  omega

theorem between_tdiv {l x h : Int} (hl : l ≤ x) (hh : x ≤ h) {y : Int} (hy : y ≠ 0) :
    Between (l.tdiv y) (x.tdiv y) (h.tdiv y) := by
  obtain hpos | hneg : 0 < y ∨ 0 < -y := by omega
  · exact Or.inl ⟨Int.tdiv_le_tdiv hpos hl, Int.tdiv_le_tdiv hpos hh⟩
  · have hbetween : Between (l.tdiv (-y)) (x.tdiv (-y)) (h.tdiv (-y)) :=
      Or.inl ⟨Int.tdiv_le_tdiv hneg hl, Int.tdiv_le_tdiv hneg hh⟩
    have := between_neg hbetween
    rwa [Int.tdiv_neg, Int.tdiv_neg, Int.tdiv_neg, Int.neg_neg, Int.neg_neg, Int.neg_neg] at this

theorem tdiv_anti {p c d : Int} (hp : 0 ≤ p) (hc : 0 < c) (hcd : c ≤ d) :
    p.tdiv d ≤ p.tdiv c := by
  refine Int.le_tdiv_of_mul_le hc ?_
  calc p.tdiv d * c ≤ p.tdiv d * d :=
        Int.mul_le_mul_of_nonneg_left hcd (Int.tdiv_nonneg hp (by omega))
    _ = d * p.tdiv d := Int.mul_comm _ _
    _ ≤ p := Int.mul_tdiv_self_le hp

theorem between_tdiv_pos {l y h : Int} (hpos : 0 < l) (hl : l ≤ y) (hh : y ≤ h) (p : Int) :
    Between (p.tdiv l) (p.tdiv y) (p.tdiv h) := by
  obtain hp | hp : 0 ≤ p ∨ 0 ≤ -p := by omega
  · exact Or.inr ⟨tdiv_anti hp (by omega) hh, tdiv_anti hp hpos hl⟩
  · have hbetween : Between ((-p).tdiv l) ((-p).tdiv y) ((-p).tdiv h) :=
      Or.inr ⟨tdiv_anti hp (by omega) hh, tdiv_anti hp hpos hl⟩
    have := between_neg hbetween
    rwa [Int.neg_tdiv, Int.neg_tdiv, Int.neg_tdiv, Int.neg_neg, Int.neg_neg, Int.neg_neg] at this

theorem between_tdiv_divisor {l y h : Int} (hl : l ≤ y) (hh : y ≤ h) (h0 : 0 < l ∨ h < 0) (p : Int) :
    Between (p.tdiv l) (p.tdiv y) (p.tdiv h) := by
  rcases h0 with hpos | hneg
  · exact between_tdiv_pos hpos hl hh p
  · have := between_neg
      (between_tdiv_pos (l := -h) (y := -y) (h := -l) (by omega) (by omega) (by omega) p)
    rw [Int.tdiv_neg, Int.tdiv_neg, Int.tdiv_neg, Int.neg_neg, Int.neg_neg, Int.neg_neg] at this
    unfold Between at *
    omega

theorem between_two_pow {l y h : Int} (hl : l ≤ y) (hh : y ≤ h) (p : Int) :
    Between (p * 2 ^ l.toNat) (p * 2 ^ y.toNat) (p * 2 ^ h.toNat) :=
  between_mul_left (pow_le_pow_right₀ (by omega) (by omega))
    (pow_le_pow_right₀ (by omega) (by omega)) p

/-- A shift takes an integer toward zero, or toward -1 from below. -/
theorem shift_toward {p i j : Int} (hi : 0 ≤ i) (hij : i ≤ j) :
    (0 ≤ p → p / 2 ^ j.toNat ≤ p / 2 ^ i.toNat) ∧ (p < 0 → p / 2 ^ i.toNat ≤ p / 2 ^ j.toNat) := by
  have hsplit : p / 2 ^ j.toNat = p / 2 ^ i.toNat / 2 ^ (j - i).toNat := by
    rw [Int.ediv_ediv_of_nonneg (Int.pow_nonneg (by omega)), ← Int.pow_add]
    congr 2
    omega
  rw [hsplit]
  constructor
  · intro hp
    exact Int.ediv_le_self _ (Int.ediv_nonneg hp (Int.pow_nonneg (by omega)))
  · intro hp
    have hneg : p / 2 ^ i.toNat < 0 := Int.ediv_neg_of_neg_of_pos hp (Int.pow_pos (by omega))
    exact Int.self_le_ediv_of_nonpos_of_nonneg (by omega) (Int.pow_nonneg (by omega))

namespace Interval

open Narrowing.Bound (Stands clamp)

/-! ## Members -/

theorem mem_iff {v : Interval} {x : Int} :
    x ∈ v ↔ (v.lo.toInt = -2 ^ 63 ∨ v.lo.toInt ≤ x) ∧ (v.hi.toInt = 2 ^ 63 - 1 ∨ x ≤ v.hi.toInt) := by
  rw [← Bound.toInt_negInf, ← Bound.toInt_posInf, Int64.toInt_inj, Int64.toInt_inj]
  exact Iff.rfl

theorem contains_iff {v : Interval} {x : Bound} :
    v.contains x = true ↔ v.lo.toInt ≤ x.toInt ∧ x.toInt ≤ v.hi.toInt := by
  unfold contains
  rw [Bool.and_eq_true_iff, decide_eq_true_iff, decide_eq_true_iff, Int64.le_iff_toInt_le,
    Int64.le_iff_toInt_le]

theorem mem_clamp {l h x : Int} (hl : l ≤ x) (hh : x ≤ h) : x ∈ (⟨clamp l, clamp h⟩ : Interval) := by
  rw [mem_iff, Bound.toInt_clamp, Bound.toInt_clamp]
  omega

theorem moderate_iff {k : Int} {v : Interval} :
    v.Moderate k ↔ (v.lo.toInt = -2 ^ 63 ∨ (-k ≤ v.lo.toInt ∧ v.lo.toInt ≤ k)) ∧
      (v.hi.toInt = 2 ^ 63 - 1 ∨ (-k ≤ v.hi.toInt ∧ v.hi.toInt ≤ k)) := by
  rw [← Bound.toInt_negInf, ← Bound.toInt_posInf, Int64.toInt_inj, Int64.toInt_inj]
  exact ⟨fun h => ⟨h.lo, h.hi⟩, fun h => ⟨h.1, h.2⟩⟩

theorem moderate_clamp {k l h : Int} (hl : l ≤ -2 ^ 63 ∨ (-k ≤ l ∧ l ≤ k))
    (hh : 2 ^ 63 - 1 ≤ h ∨ (-k ≤ h ∧ h ≤ k)) : (⟨clamp l, clamp h⟩ : Interval).Moderate k := by
  rw [moderate_iff, Bound.toInt_clamp, Bound.toInt_clamp]
  omega

theorem oriented_iff {v : Interval} :
    v.Oriented ↔ v.lo.toInt < 2 ^ 63 - 1 ∧ -2 ^ 63 < v.hi.toInt := by
  have hlo : v.lo = Bound.posInf ↔ v.lo.toInt = 2 ^ 63 - 1 := Int64.toInt_inj.symm
  have hhi : v.hi = Bound.negInf ↔ v.hi.toInt = -2 ^ 63 := Int64.toInt_inj.symm
  have := v.lo.toInt_lt
  have := v.hi.le_toInt
  constructor
  · rintro ⟨h, h'⟩
    rw [Ne, hlo] at h
    rw [Ne, hhi] at h'
    omega
  · intro h
    exact ⟨fun h' => by rw [hlo] at h'; omega, fun h' => by rw [hhi] at h'; omega⟩

theorem Moderate.oriented {k : Int} {v : Interval} (hv : v.Moderate k) (hk : k ≤ 2 ^ 63 - 2) :
    v.Oriented := by
  rw [moderate_iff] at hv
  rw [oriented_iff]
  omega

/-- Integers stand for the two ends, one on either side of a member. -/
theorem Oriented.exists_stands {v : Interval} {x : Int} (hv : v.Oriented) (hx : x ∈ v) :
    ∃ l h, (Stands l v.lo ∧ l ≤ x) ∧ Stands h v.hi ∧ x ≤ h := by
  have := v.lo.le_toInt
  have := v.hi.toInt_lt
  rw [mem_iff] at hx
  rw [oriented_iff] at hv
  refine ⟨if v.lo.toInt = -2 ^ 63 then min x (-2 ^ 128) else v.lo.toInt,
    if v.hi.toInt = 2 ^ 63 - 1 then max x (2 ^ 128) else v.hi.toInt, ?_, ?_⟩
  · rw [Bound.stands_iff]
    split_ifs <;> omega
  · rw [Bound.stands_iff]
    split_ifs <;> omega

/-- Where the ends are moderate, so is what stands for them, or far out. -/
theorem exists_stands {k : Int} {v : Interval} {x : Int} (hv : v.Moderate k) (hk : k ≤ 2 ^ 63 - 2)
    (hx : x ∈ v) :
    ∃ l h, (Stands l v.lo ∧ l ≤ x ∧ (l ≤ -2 ^ 128 ∨ (-k ≤ l ∧ l ≤ k))) ∧
      (Stands h v.hi ∧ x ≤ h ∧ (2 ^ 128 ≤ h ∨ (-k ≤ h ∧ h ≤ k))) := by
  obtain ⟨l, h, ⟨hl, hlx⟩, hh, hxh⟩ := (hv.oriented hk).exists_stands hx
  have hl' := Bound.stands_iff.mp hl
  have hh' := Bound.stands_iff.mp hh
  rw [moderate_iff] at hv
  exact ⟨l, h, ⟨hl, hlx, by omega⟩, hh, hxh, by omega⟩

section Operators

variable {j k : Int} {a b v : Interval} {x y : Int}

/-! ## Sums and differences -/

theorem add?_ends (h : add? a b = some v) :
    Bound.add? a.lo b.lo = some v.lo ∧ Bound.add? a.hi b.hi = some v.hi := by
  simp only [add?, Option.bind_eq_bind, Option.bind_eq_some_iff, Option.pure_def,
    Option.some.injEq] at h
  obtain ⟨lo, hlo, hi, hhi, rfl⟩ := h
  exact ⟨hlo, hhi⟩

theorem sub?_ends (h : sub? a b = some v) :
    Bound.sub? a.lo b.hi = some v.lo ∧ Bound.sub? a.hi b.lo = some v.hi := by
  simp only [sub?, Option.bind_eq_bind, Option.bind_eq_some_iff, Option.pure_def,
    Option.some.injEq] at h
  obtain ⟨lo, hlo, hi, hhi, rfl⟩ := h
  exact ⟨hlo, hhi⟩

theorem mem_add? (ha : a.Moderate j) (hb : b.Moderate k) (hj : j ≤ 2 ^ 62) (hk : k ≤ 2 ^ 62)
    (hx : x ∈ a) (hy : y ∈ b) (hv : add? a b = some v) : x + y ∈ v ∧ v.Moderate (j + k) := by
  obtain ⟨l, h, ⟨hl, hlx, hlb⟩, hh, hxh, hhb⟩ := exists_stands ha (by omega) hx
  obtain ⟨l', h', ⟨hl', hly, hlb'⟩, hh', hyh, hhb'⟩ := exists_stands hb (by omega) hy
  obtain ⟨hlo, hhi⟩ := add?_ends hv
  rw [show v = ⟨v.lo, v.hi⟩ from rfl, Bound.add?_eq_clamp hl hl' (by omega) hlo, Bound.add?_eq_clamp hh hh' (by omega) hhi]
  exact ⟨mem_clamp (by omega) (by omega), moderate_clamp (by omega) (by omega)⟩

theorem mem_sub? (ha : a.Moderate j) (hb : b.Moderate k) (hj : j ≤ 2 ^ 62) (hk : k ≤ 2 ^ 62)
    (hx : x ∈ a) (hy : y ∈ b) (hv : sub? a b = some v) : x - y ∈ v ∧ v.Moderate (j + k) := by
  obtain ⟨l, h, ⟨hl, hlx, hlb⟩, hh, hxh, hhb⟩ := exists_stands ha (by omega) hx
  obtain ⟨l', h', ⟨hl', hly, hlb'⟩, hh', hyh, hhb'⟩ := exists_stands hb (by omega) hy
  obtain ⟨hlo, hhi⟩ := sub?_ends hv
  rw [show v = ⟨v.lo, v.hi⟩ from rfl, Bound.sub?_eq_clamp hl hh' (by omega) (by omega) hlo,
    Bound.sub?_eq_clamp hh hl' (by omega) (by omega) hhi]
  exact ⟨mem_clamp (by omega) (by omega), moderate_clamp (by omega) (by omega)⟩

/-! ## The four corners -/

/-- An operator on end points that is an operator on integers, clamped. -/
def Clamps (f : Bound → Bound → Option Bound) (g : Int → Int → Int) : Prop :=
  ∀ {m n : Int} {b o q : Bound}, Stands m b → Stands n o → f b o = some q → q = clamp (g m n)

theorem mem_corners? {f : Bound → Bound → Option Bound} {g : Int → Int → Int} (hfg : Clamps f g)
    {l h l' h' : Int} (hl : Stands l a.lo) (hh : Stands h a.hi)
    (hl' : Stands l' b.lo) (hh' : Stands h' b.hi) (hxy : Between (g l y) (g x y) (g h y))
    (hly : Between (g l l') (g l y) (g l h')) (hhy : Between (g h l') (g h y) (g h h'))
    (hv : corners? f a b = some v) : g x y ∈ v := by
  simp only [corners?, Option.bind_eq_bind, Option.bind_eq_some_iff, Option.pure_def,
    Option.some.injEq] at hv
  obtain ⟨ll, hll, lh, hlh, hl, hhl, hh, hhh, rfl⟩ := hv
  rw [hfg ‹_› ‹_› hll, hfg ‹_› ‹_› hlh, hfg ‹_› ‹_› hhl, hfg ‹_› ‹_› hhh]
  simp only [Bound.lesser_clamp, Bound.greater_clamp]
  have hbounds := between_corners hxy hly hhy
  exact mem_clamp hbounds.1 hbounds.2

theorem mem_mul? (ha : a.Moderate k) (hb : b.Moderate k) (hk : k ≤ 2 ^ 63 - 2) (hx : x ∈ a)
    (hy : y ∈ b) (hv : mul? a b = some v) : x * y ∈ v := by
  obtain ⟨l, h, ⟨hl, hlx, -⟩, hh, hxh, -⟩ := exists_stands ha hk hx
  obtain ⟨l', h', ⟨hl', hly, -⟩, hh', hyh, -⟩ := exists_stands hb hk hy
  have hclamps : Clamps (fun p q => some (Bound.satMul p q)) (fun m n => m * n) := by
    intro m n p o q hm hn hq
    rw [← Option.some.inj hq]
    exact Bound.satMul_eq_clamp hm hn
  exact mem_corners? hclamps hl hh hl' hh' (between_mul hlx hxh y)
    (between_mul_left hly hyh l) (between_mul_left hly hyh h) hv

theorem divisor_side {l' h' : Int} (h0 : ¬ b.contains 0 = true) (hl : Stands l' b.lo)
    (hh : Stands h' b.hi) : 0 < l' ∨ h' < 0 := by
  rw [contains_iff, Bound.toInt_zero] at h0
  rw [Bound.stands_iff] at hl hh
  omega

theorem mem_div? (ha : a.Oriented) (hb : b.Oriented) (hx : x ∈ a) (hy : y ∈ b)
    (hv : div? a b = some v) : x.tdiv y ∈ v := by
  unfold div? at hv
  split at hv
  · cases hv
  · rename_i h0
    obtain ⟨l, h, ⟨hl, hlx⟩, hh, hxh⟩ := ha.exists_stands hx
    obtain ⟨l', h', ⟨hl', hly⟩, hh', hyh⟩ := hb.exists_stands hy
    have hside := divisor_side h0 hl' hh'
    exact mem_corners? (g := Int.tdiv) Bound.div?_eq_clamp hl hh hl' hh'
      (between_tdiv hlx hxh (by omega)) (between_tdiv_divisor hly hyh hside l)
      (between_tdiv_divisor hly hyh hside h) hv

theorem mem_shl? (ha : a.Moderate k) (hb : b.Moderate k) (hk : k ≤ 2 ^ 63 - 2) (hx : x ∈ a)
    (hy : y ∈ b) (hv : corners? Bound.shl? a b = some v) : x * 2 ^ y.toNat ∈ v := by
  obtain ⟨l, h, ⟨hl, hlx, -⟩, hh, hxh, -⟩ := exists_stands ha hk hx
  obtain ⟨l', h', ⟨hl', hly, -⟩, hh', hyh, -⟩ := exists_stands hb hk hy
  have hclamps : Clamps Bound.shl? (fun m n => m * 2 ^ n.toNat) :=
    fun hm hn hq => (Bound.shl?_eq_clamp hm hn hq).2
  exact mem_corners? (g := fun m n => m * 2 ^ n.toNat) hclamps hl hh hl' hh' (between_mul hlx hxh _)
    (between_two_pow hly hyh l) (between_two_pow hly hyh h) hv

theorem between_shr? {e o o' q q' : Bound} {l' h' : Int} (he : e.isInf = false)
    (hl : Stands l' o) (hh : Stands h' o') (hly : l' ≤ y) (hyh : y ≤ h')
    (hq : Bound.shr? e o = some q) (hq' : Bound.shr? e o' = some q') :
    Between q.toInt (e.toInt / 2 ^ y.toNat) q'.toInt := by
  obtain ⟨hl0, hval⟩ := Bound.shr?_toInt he hl hq
  obtain ⟨-, hval'⟩ := Bound.shr?_toInt he hh hq'
  have hfirst := shift_toward (p := e.toInt) hl0 hly
  have hsecond := shift_toward (p := e.toInt) (by omega : 0 ≤ y) hyh
  rw [hval, hval']
  unfold Between
  omega

theorem shr?_inf {e o q : Bound} (he : e.isInf = true) (hq : Bound.shr? e o = some q) : q = e := by
  unfold Bound.shr? at hq
  rw [if_pos he] at hq
  split at hq
  · cases hq
  · exact (Option.some.inj hq).symm

/-- An infinite end stays infinite, and a finite one is shifted exactly. -/
theorem mem_shr? (ha : a.Moderate k) (hb : b.Moderate k) (hk : k ≤ 2 ^ 63 - 2) (hx : x ∈ a)
    (hy : y ∈ b) (hv : corners? Bound.shr? a b = some v) : x / 2 ^ y.toNat ∈ v := by
  obtain ⟨l', h', ⟨hl', hly, -⟩, hh', hyh, -⟩ := exists_stands hb hk hy
  simp only [corners?, Option.bind_eq_bind, Option.bind_eq_some_iff, Option.pure_def,
    Option.some.injEq] at hv
  obtain ⟨ll, hll, lh, hlh, hl, hhl, hh, hhh, rfl⟩ := hv
  have hpow : (0 : Int) < 2 ^ y.toNat := Int.pow_pos (by omega)
  rw [moderate_iff] at ha
  rw [mem_iff] at hx ⊢
  simp only [Bound.toInt_lesser, Bound.toInt_greater]
  constructor
  · by_cases hinf : a.lo.isInf = true
    · rw [shr?_inf hinf hll]
      rw [Bound.isInf_iff] at hinf
      have := lh.le_toInt
      have := hl.le_toInt
      have := hh.le_toInt
      omega
    · have hbetween := between_shr? (Bool.not_eq_true _ ▸ hinf) hl' hh' hly hyh hll hlh
      rw [Bound.isInf_iff] at hinf
      have hmono : a.lo.toInt / 2 ^ y.toNat ≤ x / 2 ^ y.toNat :=
        Int.ediv_le_ediv hpow (by omega)
      unfold Between at hbetween
      omega
  · by_cases hinf : a.hi.isInf = true
    · rw [shr?_inf hinf hhl]
      rw [Bound.isInf_iff] at hinf
      have := ll.toInt_lt
      have := lh.toInt_lt
      have := hh.toInt_lt
      omega
    · have hbetween := between_shr? (Bool.not_eq_true _ ▸ hinf) hl' hh' hly hyh hhl hhh
      rw [Bound.isInf_iff] at hinf
      have hmono : x / 2 ^ y.toNat ≤ a.hi.toInt / 2 ^ y.toNat :=
        Int.ediv_le_ediv hpow (by omega)
      unfold Between at hbetween
      omega

/-! ## Remainders -/

/-- The divisor's greatest magnitude, at an end that is finite, is above the remainder. -/
theorem rem_below (hb : b.Moderate k) (hk : k ≤ 2 ^ 63 - 2) (h0 : ¬ b.contains 0 = true)
    (hy : y ∈ b) (x : Int) :
    let m := Bound.greater b.lo.opposite b.hi
    m.isInf = false → 1 ≤ m.toInt ∧ -(m.toInt - 1) ≤ x.tmod y ∧ x.tmod y ≤ m.toInt - 1 := by
  intro m hfin
  obtain ⟨l', h', ⟨hl', hly, hlb⟩, hh', hyh, -⟩ := exists_stands hb hk hy
  have hside := divisor_side h0 hl' hh'
  have hsmall := (tmod_bounds (x := x) (y := y) (by omega)).1
  have hopp := hl'.opposite (by omega)
  have hmax : m.toInt = _ := Bound.toInt_greater b.lo.opposite b.hi
  have hinf := mt Bound.isInf_iff.mpr (Bool.eq_false_iff.mp hfin)
  rw [Bound.stands_iff] at hl' hh' hopp
  omega

theorem toInt_neg_pred {m : Bound} (h1 : 1 ≤ m.toInt) :
    (m - 1).toInt = m.toInt - 1 ∧ (-(m - 1)).toInt = -(m.toInt - 1) := by
  have := m.toInt_lt
  have hone : (1 : Bound).toInt = 1 := rfl
  have hpred : (m - 1).toInt = m.toInt - 1 := by
    rw [Bound.toInt_sub (by omega) (by omega), hone]
  refine ⟨hpred, ?_⟩
  rw [Int64.toInt_neg, hpred]
  exact Bound.bmod_of_word (by omega) (by omega)

theorem mem_rem? (hb : b.Moderate k) (hk : k ≤ 2 ^ 63 - 2) (hx : x ∈ a) (hy : y ∈ b) (hy0 : y ≠ 0)
    (hv : rem? a b = some v) : x.tmod y ∈ v := by
  unfold rem? at hv
  split at hv
  · cases hv
  rename_i h0
  have hbound := rem_below hb hk h0 hy x
  obtain ⟨-, hsign⟩ := tmod_bounds (x := x) (y := y) hy0
  rw [mem_iff] at hx
  dsimp only at hv hbound
  generalize Bound.greater b.lo.opposite b.hi = m at hv hbound
  rw [mem_iff]
  split at hv
  · obtain rfl := Option.some.inj hv
    simp only [Bound.toInt_greater, Bound.toInt_lesser, Bound.toInt_zero]
    omega
  · rename_i hfin
    obtain ⟨h1, hlow, hhigh⟩ := hbound (Bool.not_eq_true _ ▸ hfin)
    have := m.toInt_lt
    obtain ⟨hpred, hneg⟩ := toInt_neg_pred h1
    obtain rfl := Option.some.inj hv
    simp only [Bound.toInt_greater, Bound.toInt_lesser, Int64.le_iff_toInt_le, Bound.toInt_zero]
    refine ⟨Or.inr ?_, Or.inr ?_⟩
    · split_ifs <;> simp only [Bound.toInt_zero, hneg] <;> omega
    · split_ifs <;> simp only [Bound.toInt_zero, hpred] <;> omega

/-! ## Arithmetic as a whole -/

theorem mem_top : x ∈ top := ⟨Or.inl rfl, Or.inl rfl⟩

theorem mem_arith? {op : Arith} {z : Int} (ha : a.Moderate k) (hb : b.Moderate k) (hk : k ≤ 2 ^ 62)
    (hx : x ∈ a) (hy : y ∈ b) (hz : op.eval? x y = some z) (hv : arith? op a b = some v) : z ∈ v := by
  cases op with
  | add =>
      obtain rfl := Option.some.inj hz
      exact (mem_add? ha hb hk hk hx hy hv).1
  | sub =>
      obtain rfl := Option.some.inj hz
      exact (mem_sub? ha hb hk hk hx hy hv).1
  | mul =>
      obtain rfl := Option.some.inj hz
      exact mem_mul? ha hb (by omega) hx hy hv
  | sdiv =>
      obtain rfl := Option.some.inj (Option.ite_none_left_eq_some.mp hz).2
      exact mem_div? (ha.oriented (by omega)) (hb.oriented (by omega)) hx hy hv
  | srem =>
      obtain ⟨hy0, hz⟩ := Option.ite_none_left_eq_some.mp hz
      obtain rfl := Option.some.inj hz
      exact mem_rem? hb (by omega) hx hy hy0 hv
  | and | or | xor =>
      obtain rfl := Option.some.inj hv
      exact mem_top
  | shl =>
      obtain rfl := Option.some.inj (Option.ite_none_left_eq_some.mp hz).2
      exact mem_shl? ha hb (by omega) hx hy hv
  | ashr =>
      obtain rfl := Option.some.inj (Option.ite_none_left_eq_some.mp hz).2
      exact mem_shr? ha hb (by omega) hx hy hv
  | udiv | urem | lshr => cases hz

/-! ## Relations, joins and truth values -/

theorem isBottom_eq_false_iff : v.isBottom = false ↔ v.lo.toInt ≤ v.hi.toInt := by
  rw [← Bool.not_eq_true, isBottom, decide_eq_true_eq, Int64.lt_iff_toInt_lt, not_lt]

theorem lo_mem (hle : v.lo.toInt ≤ v.hi.toInt) : v.lo.toInt ∈ v := ⟨Or.inr le_rfl, Or.inr hle⟩

theorem hi_mem (hle : v.lo.toInt ≤ v.hi.toInt) : v.hi.toInt ∈ v := ⟨Or.inr hle, Or.inr le_rfl⟩

theorem not_isBottom (hx : x ∈ v) : ¬ v.isBottom = true := by
  rw [mem_iff] at hx
  simp only [isBottom, decide_eq_true_eq, Int64.lt_iff_toInt_lt]
  have := v.lo.toInt_lt
  have := v.hi.le_toInt
  have := v.lo.le_toInt
  have := v.hi.toInt_lt
  omega

theorem mem_meet : x ∈ meet a b ↔ x ∈ a ∧ x ∈ b := by
  simp only [mem_iff, meet, Bound.toInt_greater, Bound.toInt_lesser]
  have := a.lo.le_toInt
  have := b.lo.le_toInt
  have := a.hi.toInt_lt
  have := b.hi.toInt_lt
  omega

theorem mem_join (hx : x ∈ a) (hy : y ∈ b) : x ∈ join a b ∧ y ∈ join a b := by
  unfold join
  rw [if_neg (not_isBottom hx), if_neg (not_isBottom hy)]
  simp only [mem_iff, Bound.toInt_greater, Bound.toInt_lesser] at *
  have := a.lo.le_toInt
  have := b.lo.le_toInt
  have := a.hi.toInt_lt
  have := b.hi.toInt_lt
  omega

theorem less_admits (ha : a.Oriented) (hb : b.Oriented) (hx : x ∈ a) (hy : y ∈ b) : (less a b).Admits (x < y) := by
  rw [mem_iff] at hx hy
  rw [oriented_iff] at ha hb
  unfold less
  simp only [Int64.lt_iff_toInt_lt, Int64.le_iff_toInt_le]
  split_ifs with h1 h2
  · exact decide_eq_true (by omega)
  · exact decide_eq_false (by omega)
  · trivial

theorem equal_admits (ha : a.Oriented) (hb : b.Oriented) (hx : x ∈ a) (hy : y ∈ b) : (equal a b).Admits (x == y) := by
  unfold equal
  split_ifs with hpoint hbot
  · simp only [isPoint, Bool.and_eq_true, beq_iff_eq] at hpoint
    obtain ⟨⟨hpa, hpb⟩, hab⟩ := hpoint
    rw [mem_iff, ← hpa] at hx
    rw [mem_iff, ← hpb, ← hab] at hy
    rw [oriented_iff, ← hpa] at ha
    exact beq_iff_eq.mpr (by omega)
  · refine beq_eq_false_iff_ne.mpr ?_
    rintro rfl
    simp only [isBottom, meet, decide_eq_true_eq, Int64.lt_iff_toInt_lt, Bound.toInt_greater,
      Bound.toInt_lesser] at hbot
    rw [mem_iff] at hx hy
    rw [oriented_iff] at ha hb
    omega
  · trivial

theorem compare_admits {rel : Relation} {t : Bool} (ha : a.Oriented) (hb : b.Oriented)
    (hx : x ∈ a) (hy : y ∈ b) (ht : rel.holds? x y = some t) :
    (compare rel a b).Admits t := by
  have hequal := equal_admits ha hb hx hy
  have hless := less_admits ha hb hx hy
  have hgreater := less_admits hb ha hy hx
  cases rel with
  | eq => exact Option.some.inj ht ▸ hequal
  | ne => exact Option.some.inj ht ▸ hequal.not
  | slt => exact Option.some.inj ht ▸ hless
  | sgt => exact Option.some.inj ht ▸ hgreater
  | sle => exact Option.some.inj ht ▸ not_lt_eq_le y x ▸ hgreater.not
  | sge => exact Option.some.inj ht ▸ not_lt_eq_le x y ▸ hless.not
  | ult | ule | ugt | uge => cases ht

theorem sure_make {lo hi : Bound} (h : x ∈ (⟨lo, hi⟩ : Interval)) : (make lo hi).Sure fun v => x ∈ v := by
  unfold make
  dsimp only
  split
  · exact Eval.sure_cancel
  · exact Eval.sure_pure h

theorem mem_ofTristate {s : Tristate} {t : Bool} (h : s.Admits t) :
    (if t then 1 else 0 : Int) ∈ ofTristate s := by
  cases s with
  | no =>
      obtain rfl : t = false := h
      exact mem_iff.mpr (by decide)
  | yes =>
      obtain rfl : t = true := h
      exact mem_iff.mpr (by decide)
  | maybe | invalid => cases t <;> exact mem_iff.mpr (by decide)

/-- Every result of an operator on members is a member of the result. -/
theorem sure_binary {tag : Tag} {z : Int} (ha : a.Moderate k) (hb : b.Moderate k) (hk : k ≤ 2 ^ 62)
    (hx : x ∈ a) (hy : y ∈ b) (hz : tag.Gives x y z) : (binary tag a b).Sure fun v => z ∈ v := by
  cases tag with
  | arith op =>
      show (settle _ (arith? op a b)).Sure _
      cases hv : arith? op a b with
      | none => exact Eval.sure_cancel
      | some v => exact sure_make (mem_arith? ha hb hk hx hy hz hv)
  | relation rel =>
      obtain ⟨t, ht, rfl⟩ := Option.map_eq_some_iff.mp hz
      exact Eval.sure_pure (mem_ofTristate (compare_admits (ha.oriented (by omega))
        (hb.oriented (by omega)) hx hy ht))
  | join =>
      obtain ⟨hjx, hjy⟩ := mem_join hx hy
      rcases hz with rfl | rfl
      · exact Eval.sure_pure hjx
      · exact Eval.sure_pure hjy
  | _ => exact hz.elim

theorem exists_arith? {op : Arith} (hop : op = .add ∨ op = .sub ∨ op = .mul) (ha : a.Within k)
    (hk : k ≤ 2 ^ 63 - 2) : ∃ v, arith? op a b = some v := by
  have hfin : a.lo.isInf = false ∧ a.hi.isInf = false := by
    rw [Bound.finite_iff, Bound.finite_iff]
    obtain ⟨_, _⟩ := ha
    omega
  rcases hop with rfl | rfl | rfl
  · obtain ⟨lo, hlo⟩ := Bound.add?_isSome (o := b.lo) (Or.inl hfin.1)
    obtain ⟨hi, hhi⟩ := Bound.add?_isSome (o := b.hi) (Or.inl hfin.2)
    exact ⟨⟨lo, hi⟩, by simp [arith?, add?, hlo, hhi]⟩
  · obtain ⟨lo, hlo⟩ := Bound.add?_isSome (o := b.hi.opposite) (Or.inl hfin.1)
    obtain ⟨hi, hhi⟩ := Bound.add?_isSome (o := b.lo.opposite) (Or.inl hfin.2)
    exact ⟨⟨lo, hi⟩, by simp [arith?, sub?, Bound.sub?, hlo, hhi]⟩
  · exact ⟨_, rfl⟩

/-- A step forward on finite intervals has a result, which holds the integer. -/
theorem can_binary {tag : Tag} {z : Int} (htag : tag.isExact = true) (ha : a.Within k)
    (hb : b.Within k) (hk : k ≤ 2 ^ 62) (hx : x ∈ a) (hy : y ∈ b) (hz : tag.Gives x y z) :
    (binary tag a b).Can fun v => z ∈ v := by
  cases tag with
  | arith op =>
      have hop : op = .add ∨ op = .sub ∨ op = .mul := by
        cases op <;> first | decide | cases htag
      obtain ⟨v, hv⟩ := exists_arith? hop ha (by omega)
      have hmem := mem_arith? ha.moderate hb.moderate hk hx hy hz hv
      show (settle _ (arith? op a b)).Can _
      rw [hv]
      show (make v.lo v.hi).Can _
      unfold make
      dsimp only
      rw [if_neg (not_isBottom hmem)]
      exact Eval.can_pure hmem
  | relation rel =>
      obtain ⟨t, ht, rfl⟩ := Option.map_eq_some_iff.mp hz
      exact Eval.can_pure (mem_ofTristate
        (compare_admits (ha.moderate.oriented (by omega)) (hb.moderate.oriented (by omega)) hx hy ht))
  | _ => exact nomatch htag

end Operators

end Interval

end Narrowing
