/-
# Zero-ness follows the integers

The tables on the two cases, zero and not, are judged as those on signs are: at
the cases of one integer after another, and carried over to sets by
`mem_lift2`.
-/
import Narrowing.Proofs.Sign

namespace Narrowing

namespace Zero

variable {a b : Zero} {x y z : Int}

theorem mem_def : x ∈ a ↔ (x = 0 ∧ a.zero = true) ∨ (x ≠ 0 ∧ a.nonzero = true) := Iff.rfl

@[simp] theorem not_mem_bottom : ¬ x ∈ bottom := by simp [mem_def, bottom]

@[simp] theorem mem_isZero : x ∈ isZero ↔ x = 0 := by simp [mem_def, isZero]

@[simp] theorem mem_isNonzero : x ∈ isNonzero ↔ x ≠ 0 := by simp [mem_def, isNonzero]

@[simp] theorem mem_unknown : x ∈ unknown := by
  simp [mem_def, unknown]
  omega

theorem lift_ne_bottom (w : Int64) : lift w ≠ bottom := by
  unfold lift
  cases w != 0 <;> decide

theorem mem_join : x ∈ join a b ↔ x ∈ a ∨ x ∈ b := by
  simp only [mem_def, join, Bool.or_eq_true, and_or_left]
  exact ⟨by tauto, by tauto⟩

theorem mem_foldl_join {l : List Zero} : x ∈ l.foldl join a ↔ x ∈ a ∨ ∃ s ∈ l, x ∈ s := by
  induction l generalizing a with
  | nil => simp
  | cons s l ih => simp [ih, mem_join, or_assoc]

/-- A single case is the one of an integer. -/
def CaseOf (p : Bool) (x : Int) : Prop := p = true ↔ x ≠ 0

theorem exists_case (hx : x ∈ a) : ∃ p ∈ a.members, CaseOf p x := by
  rcases mem_def.mp hx with ⟨hx, ha⟩ | ⟨hx, ha⟩
  · exact ⟨false, List.mem_filter.mpr ⟨by decide, ha⟩, iff_of_false (by decide) (by omega)⟩
  · exact ⟨true, List.mem_filter.mpr ⟨by decide, ha⟩, iff_of_true rfl hx⟩

/-- A table need only be right at the cases of the integers. -/
theorem mem_lift2 {f : Bool → Bool → Zero} (hx : x ∈ a) (hy : y ∈ b)
    (hf : ∀ p q, CaseOf p x → CaseOf q y → z ∈ f p q) : z ∈ lift2 f a b := by
  obtain ⟨p, hap, hp⟩ := exists_case hx
  obtain ⟨q, hbq, hq⟩ := exists_case hy
  refine mem_foldl_join.mpr (Or.inr ⟨_, ?_, hf p q hp hq⟩)
  exact List.mem_flatMap.mpr ⟨_, hap, List.mem_map.mpr ⟨_, hbq, rfl⟩⟩

/-! ## The tables -/

section Tables

variable (p q : Bool) (hp : CaseOf p x) (hq : CaseOf q y)

include hp hq

/-- Sums and differences: with one operand zero the other decides. -/
theorem mem_caseAdd (hleft : x = 0 → (z = 0 ↔ y = 0)) (hright : y = 0 → (z = 0 ↔ x = 0)) :
    z ∈ caseAdd p q := by
  cases p <;> cases q <;> simp_all [CaseOf, caseAdd, single]

theorem mem_caseMul (h : x = 0 ∨ y = 0 → z = 0) : z ∈ caseMul p q := by
  cases p <;> cases q <;> simp_all [CaseOf, caseMul]

theorem mem_caseShift (hleft : x = 0 → z = 0) (hright : y = 0 → z = x) : z ∈ caseShift p q := by
  cases p <;> cases q <;> simp_all [CaseOf, caseShift, single]

theorem mem_caseOr (h : z = 0 ↔ x = 0 ∧ y = 0) : z ∈ caseOr p q := by
  cases p <;> cases q <;> simp_all [CaseOf, caseOr, single]

theorem mem_caseEq : (if x == y then 1 else 0 : Int) ∈ caseEq p q := by
  by_cases h : x = y <;> cases p <;> cases q <;> simp_all [CaseOf, caseEq, single]

theorem mem_caseNe : (if x != y then 1 else 0 : Int) ∈ caseAdd p q := by
  by_cases h : x = y <;> cases p <;> cases q <;> simp_all [CaseOf, caseAdd, single]

theorem mem_caseSigned {t onZeros : Bool} (h : x = 0 → y = 0 → t = onZeros) :
    (if t then 1 else 0 : Int) ∈ caseSigned onZeros p q := by
  cases p <;> cases q <;> simp_all [CaseOf, caseSigned]
  cases onZeros <;> simp [single]

end Tables

/-! ## Operators as a whole -/

theorem mem_compare {rel : Relation} (hx : x ∈ a) (hy : y ∈ b) (hz : rel.eval? x y = some z) :
    z ∈ compare rel a b := by
  cases rel with
  | eq => exact Option.some.inj hz ▸ mem_lift2 hx hy mem_caseEq
  | ne => exact Option.some.inj hz ▸ mem_lift2 hx hy mem_caseNe
  | slt => exact Option.some.inj hz ▸
      mem_lift2 hy hx fun p q hp hq => mem_caseSigned p q hp hq (by simp_all)
  | sgt => exact Option.some.inj hz ▸
      mem_lift2 hx hy fun p q hp hq => mem_caseSigned p q hp hq (by simp_all)
  | sle => exact Option.some.inj hz ▸
      mem_lift2 hy hx fun p q hp hq => mem_caseSigned p q hp hq (by simp_all)
  | sge => exact Option.some.inj hz ▸
      mem_lift2 hx hy fun p q hp hq => mem_caseSigned p q hp hq (by simp_all)
  | ult | ule | ugt | uge => cases hz

/-- A quotient of zero, or what a cut leaves of it, is zero; of anything else nothing is known. -/
theorem mem_of_eq_zero_imp (hx : x ∈ a) (hz : x = 0 → z = 0) :
    z ∈ if a = isZero then isZero else unknown := by
  split
  · subst a
    exact mem_isZero.mpr (hz (mem_isZero.mp hx))
  · exact mem_unknown

theorem sure_divide {op : Arith} (hx : x ∈ a) (hz : x = 0 → z = 0) :
    (divide op a b).Sure fun v => z ∈ v := by
  unfold divide
  split
  · exact Eval.sure_fault
  · exact Eval.sure_pure (mem_of_eq_zero_imp hx hz)

theorem sure_arith {op : Arith} (hx : x ∈ a) (hy : y ∈ b) (hz : op.eval? x y = some z) :
    (arith op a b).Sure fun v => z ∈ v := by
  cases op with
  | add =>
      obtain rfl := Option.some.inj hz
      exact Eval.sure_pure (mem_lift2 hx hy fun p q hp hq =>
        mem_caseAdd p q hp hq (by omega) (by omega))
  | sub =>
      obtain rfl := Option.some.inj hz
      exact Eval.sure_pure (mem_lift2 hx hy fun p q hp hq =>
        mem_caseAdd p q hp hq (by omega) (by omega))
  | xor =>
      obtain rfl := Option.some.inj hz
      refine Eval.sure_pure (mem_lift2 hx hy fun p q hp hq => mem_caseAdd p q hp hq ?_ ?_)
      · rintro rfl
        rw [zero_xor]
      · rintro rfl
        rw [xor_zero]
  | mul =>
      obtain rfl := Option.some.inj hz
      exact Eval.sure_pure (mem_lift2 hx hy fun p q hp hq =>
        mem_caseMul p q hp hq Int.mul_eq_zero.mpr)
  | and =>
      obtain rfl := Option.some.inj hz
      refine Eval.sure_pure (mem_lift2 hx hy fun p q hp hq => mem_caseMul p q hp hq ?_)
      rintro (rfl | rfl)
      · exact zero_land y
      · exact land_zero x
  | or =>
      obtain rfl := Option.some.inj hz
      exact Eval.sure_pure (mem_lift2 hx hy fun p q hp hq =>
        mem_caseOr p q hp hq lor_eq_zero_iff)
  | sdiv =>
      obtain rfl := Option.some.inj (Option.ite_none_left_eq_some.mp hz).2
      exact sure_divide hx fun h => h ▸ Int.zero_tdiv y
  | srem =>
      obtain rfl := Option.some.inj (Option.ite_none_left_eq_some.mp hz).2
      exact sure_divide hx fun h => h ▸ Int.zero_tmod y
  | shl =>
      obtain rfl := Option.some.inj (Option.ite_none_left_eq_some.mp hz).2
      refine Eval.sure_pure (mem_lift2 hx hy fun p q hp hq => mem_caseShift p q hp hq ?_ ?_)
      · rintro rfl
        exact Int.zero_mul _
      · rintro rfl
        exact Int.mul_one x
  | ashr =>
      obtain rfl := Option.some.inj (Option.ite_none_left_eq_some.mp hz).2
      refine Eval.sure_pure (mem_lift2 hx hy fun p q hp hq => mem_caseShift p q hp hq ?_ ?_)
      · rintro rfl
        exact Int.zero_ediv _
      · rintro rfl
        exact Int.ediv_one x
  | udiv | urem | lshr => cases hz

theorem sure_binary {tag : Tag} (hx : x ∈ a) (hy : y ∈ b) (hz : tag.Gives x y z) :
    (binary tag a b).Sure fun v => z ∈ v := by
  unfold binary
  split
  · exact Eval.sure_cancel
  · cases tag with
    | arith op => exact sure_arith hx hy hz
    | relation rel => exact Eval.sure_pure (mem_compare hx hy hz)
    | join =>
        rcases hz with rfl | rfl
        · exact Eval.sure_pure (mem_join.mpr (Or.inl hx))
        · exact Eval.sure_pure (mem_join.mpr (Or.inr hy))
    | _ => exact hz.elim

end Zero

end Narrowing
