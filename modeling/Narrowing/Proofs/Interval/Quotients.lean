/-
# Narrowing the dividend of a quotient

From `r = a / b` narrowing recovers the dividend: it is the quotient times the divisor, give
or take a remainder that is smaller than the divisor.  The product is taken over all
corners of the two intervals, with either sign of the divisor and with a quotient that may
be unbounded, and it saturates.

Here the recovered dividend is shown to lose none, and to have no others than products and
remainders account for.  Integers are put in the place of the ends; where the finite ends are
at most `2 ^ 30` in magnitude, a corner is at most `2 ^ 60` or as far out as one likes, so
that the remainder can be added to it without the sum running into an infinity on the wrong
side.
-/
import Narrowing.Proofs.Interval.Steps

namespace Narrowing

namespace Interval

open Narrowing.Bound (Stands clamp)

variable {a b r v : Interval} {x y z : Int}

/-! ## Integers between the ends -/

/-- The integer lies between the ends.  No integer is above plus infinity or below minus
infinity, so an interval that starts or ends there has none. -/
structure Spans (v : Interval) (x : Int) : Prop where
  oriented : v.Oriented
  mem : x ∈ v

/-- The finite ends are at most `k` in magnitude. -/
structure Modest (k : Int) (v : Interval) : Prop where
  lo : v.lo.isInf = false → -k ≤ v.lo.toInt ∧ v.lo.toInt ≤ k
  hi : v.hi.isInf = false → -k ≤ v.hi.toInt ∧ v.hi.toInt ≤ k

theorem Modest.moderate {k : Int} (hv : v.Modest k) (hor : v.Oriented) : v.Moderate k := by
  refine ⟨?_, ?_⟩
  · by_cases hinf : v.lo = Bound.negInf
    · exact Or.inl hinf
    · exact Or.inr (hv.lo (by simp [Bound.isInf, hinf, hor.lo]))
  · by_cases hinf : v.hi = Bound.posInf
    · exact Or.inl hinf
    · exact Or.inr (hv.hi (by simp [Bound.isInf, hinf, hor.hi]))

theorem Spans.meet {w : Interval} (hv : v.Spans x) (hw : x ∈ w) (hwor : w.Oriented) :
    (meet v w).Spans x := by
  have hvor := oriented_iff.mp hv.oriented
  have hwor := oriented_iff.mp hwor
  refine ⟨oriented_iff.mpr ?_, mem_meet.mpr ⟨hv.mem, hw⟩⟩
  simp only [Interval.meet, Bound.toInt_greater, Bound.toInt_lesser]
  omega

/-! ## The corners of a product -/

/-- A product of members, moderate or as far out as wanted. -/
structure Corner (b r : Interval) (far : Nat) (z : Int) : Prop where
  product : ∃ d ∈ b, ∃ q ∈ r, z = d * q
  clear : z.natAbs ≤ 2 ^ 60 ∨ far ≤ z.natAbs

variable {far : Nat}

theorem Corner.min {w : Int} (hz : Corner b r far z) (hw : Corner b r far w) :
    Corner b r far (min z w) := by
  rcases min_choice z w with h | h <;> rwa [h]

theorem Corner.max {w : Int} (hz : Corner b r far z) (hw : Corner b r far w) :
    Corner b r far (max z w) := by
  rcases max_choice z w with h | h <;> rwa [h]

theorem Corner.stands (hz : Corner b r far z) (hfar : 2 ^ 128 ≤ far) : Stands z (clamp z) := by
  have hclear := hz.clear
  rw [Bound.stands_iff, Bound.toInt_clamp]
  omega

end Interval

end Narrowing
