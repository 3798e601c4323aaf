/-
# Signs follow the integers

An operator on sets of signs is given by a table on single signs.  It is enough
to judge a table on the sign of one integer after another: if it has the sign of
`x op y` at the signs of `x` and `y`, then the operator carried over to sets has
it wherever these two are members (`mem_lift2`).  The bitwise operators have no
table, and go by what their sign bits do.
-/
import Narrowing.Proofs.Dialogue
import Narrowing.Proofs.Meaning

namespace Narrowing

/-! ## Bitwise operators and the sign -/

theorem land_nonneg_left {x : Int} (hx : 0 ≤ x) (y : Int) : 0 ≤ x.land y := by
  cases x with
  | ofNat m => cases y <;> exact Int.natCast_nonneg _
  | negSucc m => exact absurd hx (by omega)

theorem land_nonneg_right {y : Int} (x : Int) (hy : 0 ≤ y) : 0 ≤ x.land y := by
  cases y with
  | ofNat n => cases x <;> exact Int.natCast_nonneg _
  | negSucc n => exact absurd hy (by omega)

theorem zero_land (y : Int) : (0 : Int).land y = 0 := by
  cases y with
  | ofNat n => exact congrArg Int.ofNat (Nat.zero_and n)
  | negSucc n =>
      refine congrArg Int.ofNat (Nat.eq_of_testBit_eq ?_)
      intro i
      rw [Nat.testBit_ldiff, Nat.zero_testBit, Bool.false_and]

theorem land_zero (x : Int) : x.land 0 = 0 := by
  cases x with
  | ofNat m => exact congrArg Int.ofNat (Nat.and_zero m)
  | negSucc m => exact zero_land (.negSucc m)

theorem ldiff_zero (n : Nat) : n.ldiff 0 = n := by
  refine Nat.eq_of_testBit_eq ?_
  intro i
  rw [Nat.testBit_ldiff, Nat.zero_testBit, Bool.not_false, Bool.and_true]

theorem zero_lor (y : Int) : (0 : Int).lor y = y := by
  cases y with
  | ofNat n => exact congrArg Int.ofNat (Nat.zero_or n)
  | negSucc n => exact congrArg Int.negSucc (ldiff_zero n)

theorem lor_zero (x : Int) : x.lor 0 = x := by
  cases x with
  | ofNat m => exact congrArg Int.ofNat (Nat.or_zero m)
  | negSucc m => exact congrArg Int.negSucc (ldiff_zero m)

theorem lor_neg_iff {x y : Int} : x.lor y < 0 ↔ x < 0 ∨ y < 0 := by
  cases x <;> cases y <;> simp only [Int.lor, Int.ofNat_eq_natCast] <;> omega

theorem lor_eq_zero_iff {x y : Int} : x.lor y = 0 ↔ x = 0 ∧ y = 0 := by
  cases x <;> cases y <;> simp [Int.lor]

theorem zero_xor (y : Int) : (0 : Int).xor y = y := by
  cases y with
  | ofNat n => exact congrArg Int.ofNat (Nat.zero_xor n)
  | negSucc n => exact congrArg Int.negSucc (Nat.zero_xor n)

theorem xor_zero (x : Int) : x.xor 0 = x := by
  cases x with
  | ofNat m => exact congrArg Int.ofNat (Nat.xor_zero m)
  | negSucc m => exact congrArg Int.negSucc (Nat.xor_zero m)

theorem xor_nonneg {x y : Int} (hx : 0 ≤ x) (hy : 0 ≤ y) : 0 ≤ x.xor y := by
  cases x with
  | negSucc m => exact absurd hx (by omega)
  | ofNat m =>
      cases y with
      | negSucc n => exact absurd hy (by omega)
      | ofNat n => exact Int.natCast_nonneg _

/-! ## Single signs and sets of them -/

/-- An integer has the sign. -/
def Sgn.Of : Sgn → Int → Prop
  | neg, x => x < 0
  | zero, x => x = 0
  | pos, x => 0 < x

namespace Sign

variable {a b : Sign} {x y z : Int}

theorem mem_def : x ∈ a ↔
    (x < 0 ∧ a.neg = true) ∨ (x = 0 ∧ a.zero = true) ∨ (0 < x ∧ a.pos = true) := Iff.rfl

theorem mem_iff_has : x ∈ a ↔ ∃ p : Sgn, p.Of x ∧ a.has p = true := by
  constructor
  · rintro (h | h | h)
    · exact ⟨.neg, h⟩
    · exact ⟨.zero, h⟩
    · exact ⟨.pos, h⟩
  · rintro ⟨p, h⟩
    cases p with
    | neg => exact Or.inl h
    | zero => exact Or.inr (Or.inl h)
    | pos => exact Or.inr (Or.inr h)

@[simp] theorem not_mem_bot : ¬ x ∈ bot := by simp [mem_def, bot]

@[simp] theorem mem_ltz : x ∈ ltz ↔ x < 0 := by simp [mem_def, ltz]

@[simp] theorem mem_gtz : x ∈ gtz ↔ 0 < x := by simp [mem_def, gtz]

@[simp] theorem mem_eqz : x ∈ eqz ↔ x = 0 := by simp [mem_def, eqz]

@[simp] theorem mem_gez : x ∈ gez ↔ 0 ≤ x := by
  simp [mem_def, gez]
  omega

@[simp] theorem mem_lez : x ∈ lez ↔ x ≤ 0 := by
  simp [mem_def, lez]
  omega

@[simp] theorem mem_top : x ∈ top := by
  simp [mem_def, top]
  omega

theorem mem_join : x ∈ join a b ↔ x ∈ a ∨ x ∈ b := by
  simp only [mem_def, join, Bool.or_eq_true, and_or_left]
  exact ⟨by tauto, by tauto⟩

theorem mem_negate : -x ∈ a.negate ↔ x ∈ a := by
  simp only [mem_def, negate, Int.neg_lt_zero_iff, Int.neg_eq_zero, Int.neg_pos]
  exact ⟨by tauto, by tauto⟩

theorem mem_foldl_join {l : List Sign} : x ∈ l.foldl join a ↔ x ∈ a ∨ ∃ s ∈ l, x ∈ s := by
  induction l generalizing a with
  | nil => simp
  | cons s l ih => simp [ih, mem_join, or_assoc]

/-- What an operator carried over to sets gives. -/
theorem mem_lift2_iff {f : Sgn → Sgn → Sign} :
    z ∈ lift2 f a b ↔ ∃ p q, a.has p = true ∧ b.has q = true ∧ z ∈ f p q := by
  have hmember {c : Sign} {p : Sgn} : p ∈ c.members ↔ c.has p = true := by
    rw [members, List.mem_filter, and_iff_right]
    cases p <;> decide
  simp only [lift2, mem_foldl_join, not_mem_bot, false_or, List.mem_flatMap, List.mem_map, hmember]
  constructor
  · rintro ⟨_, ⟨p, hp, q, hq, rfl⟩, hz⟩
    exact ⟨p, q, hp, hq, hz⟩
  · rintro ⟨p, q, hp, hq, hz⟩
    exact ⟨_, ⟨p, hp, q, hq, rfl⟩, hz⟩

/-- A table need only be right at the signs of the integers. -/
theorem mem_lift2 {f : Sgn → Sgn → Sign} (hx : x ∈ a) (hy : y ∈ b)
    (hf : ∀ p q : Sgn, p.Of x → q.Of y → z ∈ f p q) : z ∈ lift2 f a b := by
  obtain ⟨p, hp, hap⟩ := mem_iff_has.mp hx
  obtain ⟨q, hq, hbq⟩ := mem_iff_has.mp hy
  exact mem_lift2_iff.mpr ⟨p, q, hap, hbq, hf p q hp hq⟩

/-! ## The tables -/

theorem mem_sgnAdd (p q : Sgn) (hp : p.Of x) (hq : q.Of y) : x + y ∈ sgnAdd p q := by
  cases p <;> cases q <;> simp only [Sgn.Of] at hp hq <;> simp [sgnAdd, single] <;> omega

theorem mem_sgnMul (p q : Sgn) (hp : p.Of x) (hq : q.Of y) : x * y ∈ sgnMul p q := by
  cases p <;> cases q <;> simp only [Sgn.Of] at hp hq <;> simp [sgnMul, hp, hq]
  · exact Int.mul_pos_of_neg_of_neg hp hq
  · exact Int.mul_neg_of_neg_of_pos hp hq
  · exact Int.mul_neg_of_pos_of_neg hp hq

theorem mem_sgnDiv (hy : y ≠ 0) (p q : Sgn) (hp : p.Of x) (hq : q.Of y) :
    x.tdiv y ∈ sgnDiv p q := by
  cases p <;> cases q <;> simp only [Sgn.Of] at hp hq <;> simp [sgnDiv, hp] <;> try omega
  · exact Int.tdiv_nonneg_of_nonpos_of_nonpos hp.le hq.le
  · have := Int.tdiv_nonneg (a := -x) (b := y) (by omega) (by omega)
    rw [Int.neg_tdiv] at this
    omega
  · exact Int.tdiv_nonpos_of_nonneg_of_nonpos hp.le hq.le
  · exact Int.tdiv_nonneg hp.le hq.le

theorem mem_sgnRem (hy : y ≠ 0) (p q : Sgn) (hp : p.Of x) (hq : q.Of y) :
    x.tmod y ∈ sgnRem p q := by
  have hbounds := (tmod_bounds (x := x) hy).2
  cases p <;> cases q <;> simp only [Sgn.Of] at hp hq <;> simp [sgnRem] <;> omega

theorem mem_sgnEq (p q : Sgn) (hp : p.Of x) (hq : q.Of y) :
    (if x == y then 1 else 0 : Int) ∈ sgnEq p q := by
  cases p <;> cases q <;> simp only [Sgn.Of] at hp hq <;>
    simp only [sgnEq, mem_gtz, mem_gez, mem_eqz, beq_iff_eq] <;> split_ifs <;> omega

theorem mem_sgnLess (p q : Sgn) (hp : p.Of x) (hq : q.Of y) :
    (if decide (x < y) then 1 else 0 : Int) ∈ sgnLess p q := by
  cases p <;> cases q <;> simp only [Sgn.Of] at hp hq <;>
    simp only [sgnLess, mem_gtz, mem_gez, mem_eqz, decide_eq_true_eq] <;> split_ifs <;> omega

/-! ## Operators without a table -/

theorem nonneg_of_nonNegative (h : nonNegative a = true) (hx : x ∈ a) : 0 ≤ x := by
  rw [nonNegative, leq, beq_iff_eq] at h
  rw [← h, mem_def] at hx
  simp [meet, gez] at hx
  omega

theorem mem_bitAnd (hx : x ∈ a) (hy : y ∈ b) : x.land y ∈ bitAnd a b := by
  unfold bitAnd
  split_ifs with hzero hnonneg
  · rcases hzero with rfl | rfl
    · obtain rfl := mem_eqz.mp hx
      exact mem_eqz.mpr (zero_land y)
    · obtain rfl := mem_eqz.mp hy
      exact mem_eqz.mpr (land_zero x)
  · rcases Bool.or_eq_true_iff.mp hnonneg with ha | hb
    · exact mem_gez.mpr (land_nonneg_left (nonneg_of_nonNegative ha hx) y)
    · exact mem_gez.mpr (land_nonneg_right x (nonneg_of_nonNegative hb hy))
  · exact mem_top

theorem mem_bitOr (hx : x ∈ a) (hy : y ∈ b) : x.lor y ∈ bitOr a b := by
  have hneg := lor_neg_iff (x := x) (y := y)
  have hzero := lor_eq_zero_iff (x := x) (y := y)
  unfold bitOr
  split_ifs with ha0 hb0 hltz hnonneg hgtz
  · subst ha0
    obtain rfl := mem_eqz.mp hx
    rwa [zero_lor]
  · subst hb0
    obtain rfl := mem_eqz.mp hy
    rwa [lor_zero]
  · refine mem_ltz.mpr (hneg.mpr ?_)
    rcases hltz with rfl | rfl
    · exact Or.inl (mem_ltz.mp hx)
    · exact Or.inr (mem_ltz.mp hy)
  · refine mem_gtz.mpr ?_
    obtain ⟨ha, hb⟩ := Bool.and_eq_true_iff.mp hnonneg
    have := nonneg_of_nonNegative ha hx
    have := nonneg_of_nonNegative hb hy
    rcases hgtz with rfl | rfl
    · have := mem_gtz.mp hx
      omega
    · have := mem_gtz.mp hy
      omega
  · refine mem_gez.mpr ?_
    obtain ⟨ha, hb⟩ := Bool.and_eq_true_iff.mp hnonneg
    have := nonneg_of_nonNegative ha hx
    have := nonneg_of_nonNegative hb hy
    omega
  · exact mem_top

theorem mem_bitXor (hx : x ∈ a) (hy : y ∈ b) : x.xor y ∈ bitXor a b := by
  unfold bitXor
  split_ifs with ha0 hb0 hnonneg
  · subst ha0
    obtain rfl := mem_eqz.mp hx
    rwa [zero_xor]
  · subst hb0
    obtain rfl := mem_eqz.mp hy
    rwa [xor_zero]
  · obtain ⟨ha, hb⟩ := Bool.and_eq_true_iff.mp hnonneg
    exact mem_gez.mpr (xor_nonneg (nonneg_of_nonNegative ha hx) (nonneg_of_nonNegative hb hy))
  · exact mem_top

theorem mem_ashr (hx : x ∈ a) (n : Nat) : x / 2 ^ n ∈ (if a.pos then join a eqz else a) := by
  have hpow : (0 : Int) < 2 ^ n := Int.pow_pos (by omega)
  rw [mem_def] at hx
  rcases hx with ⟨hx, ha⟩ | ⟨rfl, ha⟩ | ⟨hx, ha⟩
  · have hneg : x / 2 ^ n < 0 := Int.ediv_neg_of_neg_of_pos hx hpow
    have : x / 2 ^ n ∈ a := Or.inl ⟨hneg, ha⟩
    split_ifs
    · exact mem_join.mpr (Or.inl this)
    · exact this
  · rw [Int.zero_ediv]
    have : (0 : Int) ∈ a := Or.inr (Or.inl ⟨rfl, ha⟩)
    split_ifs
    · exact mem_join.mpr (Or.inl this)
    · exact this
  · rw [if_pos ha]
    have hnonneg : 0 ≤ x / 2 ^ n := Int.ediv_nonneg hx.le hpow.le
    refine mem_join.mpr ?_
    rcases hnonneg.lt_or_eq with h | h
    · exact Or.inl (Or.inr (Or.inr ⟨h, ha⟩))
    · exact Or.inr (mem_eqz.mpr h.symm)

/-- The negation of a boolean, in a set of signs that booleans have. -/
theorem mem_notBool {t : Bool} (ha : ∀ z : Int, z ∈ a → 0 ≤ z)
    (h : (if t then 1 else 0 : Int) ∈ a) : (if !t then 1 else 0 : Int) ∈ notBool a := by
  obtain ⟨neg, zero, pos⟩ := a
  cases neg with
  | true => exact absurd (ha (-1) (Or.inl ⟨by decide, rfl⟩)) (by decide)
  | false =>
      revert h
      cases t <;> cases zero <;> cases pos <;> simp [mem_def, notBool, gtz, eqz]

theorem nonneg_of_mem_lift2 {f : Sgn → Sgn → Sign} (hf : ∀ p q, nonNegative (f p q) = true)
    (hz : z ∈ lift2 f a b) : 0 ≤ z := by
  obtain ⟨p, q, -, -, hz⟩ := mem_lift2_iff.mp hz
  exact nonneg_of_nonNegative (hf p q) hz

/-! ## Operators as a whole -/

theorem mem_compareSigned {rel : Relation} (hx : x ∈ a) (hy : y ∈ b) (hz : rel.eval? x y = some z) :
    z ∈ compareSigned rel a b := by
  have heq : ∀ p q, nonNegative (sgnEq p q) = true := by
    intro p q
    cases p <;> cases q <;> rfl
  have hless : ∀ p q, nonNegative (sgnLess p q) = true := by
    intro p q
    cases p <;> cases q <;> rfl
  cases rel with
  | eq => exact Option.some.inj hz ▸ mem_lift2 hx hy mem_sgnEq
  | ne => exact Option.some.inj hz ▸
      mem_notBool (fun _ => nonneg_of_mem_lift2 heq) (mem_lift2 hx hy mem_sgnEq)
  | slt => exact Option.some.inj hz ▸ mem_lift2 hx hy mem_sgnLess
  | sgt => exact Option.some.inj hz ▸ mem_lift2 hy hx mem_sgnLess
  | sle => exact Option.some.inj hz ▸ not_lt_eq_le y x ▸
      mem_notBool (fun _ => nonneg_of_mem_lift2 hless) (mem_lift2 hy hx mem_sgnLess)
  | sge => exact Option.some.inj hz ▸ not_lt_eq_le x y ▸
      mem_notBool (fun _ => nonneg_of_mem_lift2 hless) (mem_lift2 hx hy mem_sgnLess)
  | ult | ule | ugt | uge => cases hz

theorem sure_divide {op : Arith} {f : Sgn → Sgn → Sign} (hop : op = op.signed)
    (hz : z ∈ lift2 f a b) : (divide op f a b).Sure fun v => z ∈ v := by
  unfold divide
  split
  · exact Eval.sure_fault
  · rw [if_neg fun h => h.1 hop]
    exact Eval.sure_pure hz

theorem sure_arith {op : Arith} (hx : x ∈ a) (hy : y ∈ b) (hz : op.eval? x y = some z) :
    (arith op a b).Sure fun v => z ∈ v := by
  cases op with
  | add => exact Option.some.inj hz ▸ Eval.sure_pure (mem_lift2 hx hy mem_sgnAdd)
  | sub =>
      obtain rfl := Option.some.inj hz
      rw [Int.sub_eq_add_neg]
      exact Eval.sure_pure (mem_lift2 hx (mem_negate.mpr hy) mem_sgnAdd)
  | mul => exact Option.some.inj hz ▸ Eval.sure_pure (mem_lift2 hx hy mem_sgnMul)
  | sdiv =>
      obtain ⟨hy0, hz⟩ := Option.ite_none_left_eq_some.mp hz
      exact Option.some.inj hz ▸ sure_divide rfl (mem_lift2 hx hy (mem_sgnDiv hy0))
  | srem =>
      obtain ⟨hy0, hz⟩ := Option.ite_none_left_eq_some.mp hz
      exact Option.some.inj hz ▸ sure_divide rfl (mem_lift2 hx hy (mem_sgnRem hy0))
  | and => exact Option.some.inj hz ▸ Eval.sure_pure (mem_bitAnd hx hy)
  | or => exact Option.some.inj hz ▸ Eval.sure_pure (mem_bitOr hx hy)
  | xor => exact Option.some.inj hz ▸ Eval.sure_pure (mem_bitXor hx hy)
  | shl =>
      obtain rfl := Option.some.inj (Option.ite_none_left_eq_some.mp hz).2
      refine Eval.sure_pure ?_
      split_ifs with ha
      · subst ha
        obtain rfl := mem_eqz.mp hx
        exact mem_eqz.mpr (Int.zero_mul _)
      · exact mem_top
  | ashr =>
      obtain rfl := Option.some.inj (Option.ite_none_left_eq_some.mp hz).2
      exact Eval.sure_pure (mem_ashr hx _)
  | udiv | urem | lshr => cases hz

/-- Every result of an operator on members is a member of the result. -/
theorem sure_binary {tag : Tag} (hx : x ∈ a) (hy : y ∈ b) (hz : tag.Gives x y z) :
    (binary tag a b).Sure fun v => z ∈ v := by
  cases tag with
  | arith op => exact sure_arith hx hy hz
  | relation rel =>
      have hmem := mem_compareSigned hx hy hz
      cases rel with
      | ult | ule | ugt | uge => cases hz
      | _ => exact Eval.sure_pure hmem
  | join =>
      rcases hz with rfl | rfl
      · exact Eval.sure_pure (mem_join.mpr (Or.inl hx))
      · exact Eval.sure_pure (mem_join.mpr (Or.inr hy))
  | _ => exact hz.elim

end Sign

end Narrowing
