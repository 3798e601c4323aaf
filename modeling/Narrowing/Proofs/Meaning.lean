/-
# What operators and values mean

The operators are read over the unbounded integers, and a value of any domain
is read as a set of integers.  Nothing here is computed by an engine: these are
the readings against which its domains are judged.

The bitwise operators take an integer as its endless binary expansion, negative
integers in two's complement.  The unsigned operators and orders are about
words of a width, so they have no result here.
-/
import Narrowing.Lattice
import Narrowing.Proofs.Bound
import Mathlib.Data.Int.Bitwise

namespace Narrowing

/-! ## Operators -/

/-- The integer that an operator gives, where it is defined: the quotient goes toward zero
and the remainder follows the dividend, and a shift to the right rounds down. -/
def Arith.eval? : Arith → Int → Int → Option Int
  | add, x, y => some (x + y)
  | sub, x, y => some (x - y)
  | mul, x, y => some (x * y)
  | sdiv, x, y => if y = 0 then none else some (x.tdiv y)
  | srem, x, y => if y = 0 then none else some (x.tmod y)
  | and, x, y => some (x.land y)
  | or, x, y => some (x.lor y)
  | xor, x, y => some (x.xor y)
  | shl, x, y => if y < 0 then none else some (x * 2 ^ y.toNat)
  | ashr, x, y => if y < 0 then none else some (x / 2 ^ y.toNat)
  | udiv, _, _ | urem, _, _ | lshr, _, _ => none

/-- Whether a relation holds between two integers; an unsigned order has no answer. -/
def Relation.holds? : Relation → Int → Int → Option Bool
  | eq, x, y => some (x == y)
  | ne, x, y => some (x != y)
  | slt, x, y => some (x < y)
  | sle, x, y => some (x ≤ y)
  | sgt, x, y => some (y < x)
  | sge, x, y => some (y ≤ x)
  | ult, _, _ | ule, _, _ | ugt, _, _ | uge, _, _ => none

theorem not_lt_eq_le (x y : Int) : (!decide (x < y)) = decide (y ≤ x) := by
  rw [← decide_not]
  exact decide_eq_decide.mpr Int.not_lt

theorem Relation.holds?_negate {rel : Relation} {x y : Int} {t : Bool}
    (h : rel.holds? x y = some t) : rel.negate.holds? x y = some !t := by
  cases rel with
  | eq => exact Option.some.inj h ▸ rfl
  | ne => exact Option.some.inj h ▸ congrArg some (Bool.not_not _).symm
  | slt => exact Option.some.inj h ▸ congrArg some (not_lt_eq_le x y).symm
  | sge => exact Option.some.inj h ▸ congrArg some (by rw [← not_lt_eq_le, Bool.not_not])
  | sgt => exact Option.some.inj h ▸ congrArg some (not_lt_eq_le y x).symm
  | sle => exact Option.some.inj h ▸ congrArg some (by rw [← not_lt_eq_le, Bool.not_not])
  | ult | ule | ugt | uge => cases h

/-- The truth of a relation as the integer 0 or 1. -/
def Relation.eval? (rel : Relation) (x y : Int) : Option Int :=
  (rel.holds? x y).map fun t => if t then 1 else 0

/-- The integers that an operator may give for two integers.  A join gives either. -/
def Tag.Gives (tag : Tag) (x y z : Int) : Prop :=
  match tag with
  | .arith op => op.eval? x y = some z
  | .relation rel => rel.eval? x y = some z
  | .join => z = x ∨ z = y
  | _ => False

/-- The operators that lose nothing in either direction on finite intervals: sums, differences,
products, and the relations other than the unsigned orders. -/
def Tag.isExact : Tag → Bool
  | .arith .add | .arith .sub | .arith .mul => true
  | .relation .eq | .relation .ne => true
  | .relation .slt | .relation .sle | .relation .sgt | .relation .sge => true
  | _ => false

theorem tmod_bounds {x y : Int} (hy : y ≠ 0) :
    (x.tmod y).natAbs < y.natAbs ∧ ((0 ≤ x ∧ 0 ≤ x.tmod y ∧ x.tmod y ≤ x) ∨
      (x ≤ 0 ∧ x ≤ x.tmod y ∧ x.tmod y ≤ 0)) := by
  have habs := Int.natAbs_tmod x y
  have hlt : x.natAbs % y.natAbs < y.natAbs := Nat.mod_lt _ (Int.natAbs_pos.mpr hy)
  have hle : x.natAbs % y.natAbs ≤ x.natAbs := Nat.mod_le _ _
  obtain hx | hx : 0 ≤ x ∨ 0 ≤ -x := by omega
  · have := Int.tmod_nonneg y hx
    omega
  · have := Int.tmod_nonneg y hx
    rw [Int.neg_tmod] at this
    omega

/-! ## Truth values -/

/-- A boolean that a truth value may stand for. -/
def Tristate.Admits : Tristate → Bool → Prop
  | no, t => t = false
  | yes, t => t = true
  | maybe, _ | invalid, _ => True

theorem Tristate.Admits.not {t : Tristate} {b : Bool} (h : t.Admits b) : t.not.Admits (!b) := by
  cases t with
  | no => exact congrArg _ h
  | yes => exact congrArg _ h
  | maybe => trivial
  | invalid => trivial

namespace Tristate

variable {t : Tristate} {b : Bool} {s : Set Int}

/-- What a truth value says of a set of integers that is not empty. -/
def Describes : Tristate → Set Int → Prop
  | no, s => s = {0}
  | yes, s => s.Nonempty ∧ 0 ∉ s
  | maybe, s => 0 ∈ s ∧ ∃ x ∈ s, x ≠ 0
  | invalid, _ => False

theorem Describes.nonempty (h : t.Describes s) : s.Nonempty := by
  cases t with
  | no => exact h ▸ Set.singleton_nonempty 0
  | yes => exact h.1
  | maybe => exact ⟨0, h.1⟩
  | invalid => exact h.elim

/-- A definite truth value is that of all integers in the set. -/
theorem Describes.eq_ofBool_iff (h : t.Describes s) : t = ofBool b ↔ ∀ x ∈ s, (x != 0) = b := by
  cases t with
  | no =>
      obtain rfl : s = {0} := h
      cases b <;> simp [ofBool]
  | yes =>
      obtain ⟨⟨x, hx⟩, h0⟩ := h
      have hne {y : Int} (hy : y ∈ s) : y ≠ 0 := fun heq => h0 (heq ▸ hy)
      cases b with
      | true => exact iff_of_true rfl fun y hy => bne_iff_ne.mpr (hne hy)
      | false => exact iff_of_false nofun fun hall => hne hx (bne_eq_false_iff_eq.mp (hall x hx))
  | maybe =>
      obtain ⟨h0, x, hx, hne⟩ := h
      cases b with
      | true => exact iff_of_false nofun fun hall => bne_iff_ne.mp (hall 0 h0) rfl
      | false => exact iff_of_false nofun fun hall => hne (bne_eq_false_iff_eq.mp (hall x hx))
  | invalid => exact h.elim

theorem Describes.admits (h : t.Describes s) {x : Int} (hx : x ∈ s) : t.Admits (x != 0) := by
  cases t with
  | no =>
      obtain rfl : s = {0} := h
      exact bne_eq_false_iff_eq.mpr hx
  | yes => exact bne_iff_ne.mpr fun h0 => h.2 (h0 ▸ hx)
  | maybe | invalid => trivial

theorem Describes.exists_of_admits (h : t.Describes s) (hb : t.Admits b) :
    ∃ x ∈ s, (x != 0) = b := by
  by_contra hnone
  have hall : ∀ x ∈ s, (x != 0) = !b := fun x hx =>
    Bool.eq_not.mpr fun heq => hnone ⟨x, hx, heq⟩
  obtain rfl := h.eq_ofBool_iff.mpr hall
  cases b with
  | true => exact absurd hb nofun
  | false => exact absurd hb nofun

end Tristate

/-! ## Values -/

/-- The integers between the ends; an infinite end is no bound on its own side. -/
instance : Membership Int Interval where
  mem v x := (v.lo = Bound.negInf ∨ v.lo.toInt ≤ x) ∧ (v.hi = Bound.posInf ∨ x ≤ v.hi.toInt)

/-- The integers of the given signs. -/
instance : Membership Int Sign where
  mem s x := (x < 0 ∧ s.neg) ∨ (x = 0 ∧ s.zero) ∨ (0 < x ∧ s.pos)

/-- The integers of the given zero-ness. -/
instance : Membership Int Zero where
  mem z x := (x = 0 ∧ z.zero) ∨ (x ≠ 0 ∧ z.nonzero)

/-- The integers that a value stands for: a constant for its signed reading, a word range for
the unsigned words in it. -/
def Value.Holds : Value → Int → Prop
  | constant c, x => x = c.signed.toInt
  | sign s, x => x ∈ s
  | zero z, x => x ∈ z
  | interval i, x => x ∈ i
  | words r, x => (r.lo.toNat : Int) ≤ x ∧ x ≤ r.hi.toNat

instance : Membership Int Value where
  mem v x := v.Holds x

/-- Neither end is the infinity of the other side. -/
structure Interval.Oriented (v : Interval) : Prop where
  lo : v.lo ≠ Bound.posInf
  hi : v.hi ≠ Bound.negInf

/-- No end lies on the wrong side of infinity, and the finite ones are at most `k` in
magnitude. -/
structure Interval.Moderate (k : Int) (v : Interval) : Prop where
  lo : v.lo = Bound.negInf ∨ (-k ≤ v.lo.toInt ∧ v.lo.toInt ≤ k)
  hi : v.hi = Bound.posInf ∨ (-k ≤ v.hi.toInt ∧ v.hi.toInt ≤ k)

/-- Both ends are finite and at most `k` in magnitude. -/
structure Interval.Within (k : Int) (v : Interval) : Prop where
  lo : -k ≤ v.lo.toInt ∧ v.lo.toInt ≤ k
  hi : -k ≤ v.hi.toInt ∧ v.hi.toInt ≤ k

instance (k : Int) (v : Interval) : Decidable (v.Within k) :=
  decidable_of_iff ((-k ≤ v.lo.toInt ∧ v.lo.toInt ≤ k) ∧ -k ≤ v.hi.toInt ∧ v.hi.toInt ≤ k)
    ⟨fun h => ⟨h.1, h.2⟩, fun h => ⟨h.lo, h.hi⟩⟩

theorem Interval.Within.moderate {k : Int} {v : Interval} (h : v.Within k) : v.Moderate k :=
  ⟨Or.inr h.lo, Or.inr h.hi⟩

theorem Interval.Moderate.mono {j k : Int} (hjk : j ≤ k) {v : Interval} (h : v.Moderate j) :
    v.Moderate k :=
  ⟨h.lo.imp_right fun _ => by omega, h.hi.imp_right fun _ => by omega⟩

end Narrowing
