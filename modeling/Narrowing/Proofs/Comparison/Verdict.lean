/-
# Comparing ranges exactly

A comparison of two ranges is about all pairs of their members at once, and there are three
things to say: the relation holds of every pair, or of none, or there are pairs of both kinds.
What `compare` says is the right one of the three (`Tristate.Verdict`), over intervals and over
word ranges.  So it is not only that a definite answer can be relied on: an answer is left open
just where the ranges leave it open.

Each domain answers two questions itself, which of two ranges is below the other and whether the
two are equal.  The other relations exchange the operands of the one or negate the answer, and
either takes a verdict to a verdict.  What is left to show is about the ends of the ranges, which
are members: the pair that decides an order is a high end with a low end, and two ranges that
overlap share the greater of their low ends.

A signed order is asked of word ranges only below the sign bit.  The words there are the same
integers with a sign and without.
-/
import Narrowing.Proofs.Interval.Relations
import Narrowing.Proofs.WordRange

namespace Narrowing

/-! ## Verdicts -/

namespace Tristate

variable {α β : Type} {t t' : Tristate} {A A' : α → Prop} {B B' : β → Prop} {R R' : α → β → Prop}

/-- What a truth value says of all pairs: yes that each is related, no that none is, and
undetermined that some are and some are not. -/
structure Verdict (t : Tristate) (A : α → Prop) (B : β → Prop) (R : α → β → Prop) : Prop where
  yes_iff : t = .yes ↔ ∀ x, A x → ∀ y, B y → R x y
  no_iff : t = .no ↔ ∀ x, A x → ∀ y, B y → ¬ R x y
  maybe_iff : t = .maybe ↔ (∃ x y, A x ∧ B y ∧ R x y) ∧ ∃ x y, A x ∧ B y ∧ ¬ R x y

/-- Of the three answers two are enough: the third is what they leave. -/
theorem verdict_of_iff (hyes : t = .yes ↔ ∀ x, A x → ∀ y, B y → R x y)
    (hno : t = .no ↔ ∀ x, A x → ∀ y, B y → ¬ R x y) (ht : t ≠ .invalid) : t.Verdict A B R := by
  refine ⟨hyes, hno, ?_⟩
  have hopen : t = .maybe ↔ ¬ t = .no ∧ ¬ t = .yes := by
    cases t with
    | invalid => exact absurd rfl ht
    | _ => simp
  rw [hopen, hyes, hno]
  simp only [not_forall, not_not, exists_prop, exists_and_left]

namespace Verdict

theorem ne_invalid (h : t.Verdict A B R) : t ≠ .invalid := by
  rintro rfl
  have hopen : invalid = .maybe := by
    rw [h.maybe_iff]
    have hno := mt h.no_iff.mpr nofun
    have hyes := mt h.yes_iff.mpr nofun
    simpa only [not_forall, not_not, exists_prop, exists_and_left] using And.intro hno hyes
  cases hopen

theorem congr (h : t.Verdict A B R) (hR : ∀ x, A x → ∀ y, B y → (R x y ↔ R' x y)) :
    t.Verdict A B R' := by
  refine verdict_of_iff ?_ ?_ h.ne_invalid
  · rw [h.yes_iff]
    exact forall₂_congr fun x hx => forall₂_congr fun y hy => hR x hx y hy
  · rw [h.no_iff]
    exact forall₂_congr fun x hx => forall₂_congr fun y hy => not_congr (hR x hx y hy)

theorem not (h : t.Verdict A B R) : t.not.Verdict A B fun x y => ¬ R x y := by
  refine verdict_of_iff ?_ ?_ ?_
  · rw [not_eq_yes_iff, h.no_iff]
  · rw [not_eq_no_iff, h.yes_iff]
    simp only [not_not]
  · cases t <;> exact nofun

theorem swap (h : t.Verdict A B R) : t.Verdict B A fun y x => R x y := by
  refine verdict_of_iff ?_ ?_ h.ne_invalid
  · rw [h.yes_iff]
    exact ⟨fun hall y hy x hx => hall x hx y hy, fun hall x hx y hy => hall y hy x hx⟩
  · rw [h.no_iff]
    exact ⟨fun hall y hy x hx => hall x hx y hy, fun hall x hx y hy => hall y hy x hx⟩

/-- Of fewer pairs the same is said, unless nothing definite was said before. -/
theorem mono (h : t.Verdict A B R) (h' : t'.Verdict A' B' R) (hA : ∀ x, A x → A' x)
    (hB : ∀ y, B y → B' y) : t' = .maybe ∨ t = t' := by
  cases t' with
  | maybe => exact Or.inl rfl
  | invalid => exact absurd rfl h'.ne_invalid
  | yes =>
      refine Or.inr (h.yes_iff.mpr fun x hx y hy => ?_)
      exact h'.yes_iff.mp rfl x (hA x hx) y (hB y hy)
  | no =>
      refine Or.inr (h.no_iff.mpr fun x hx y hy => ?_)
      exact h'.no_iff.mp rfl x (hA x hx) y (hB y hy)

end Verdict

end Tristate

/-! ## Relations from two questions -/

namespace Relation

/-- The answer to a relation: whether the first is below the second, whether the second is below
the first, and whether the two are equal decide it. -/
def answer (below above same : Tristate) : Relation → Tristate
  | eq => same
  | ne => same.not
  | slt | ult => below
  | sgt | ugt => above
  | sle | ule => above.not
  | sge | uge => below.not

/-- Whether the relation orders words by their signed readings. -/
def isSigned : Relation → Bool
  | slt | sle | sgt | sge => true
  | _ => false

/-- The integer that a relation takes a word of a width for: a signed order reads the low bits
with their sign, and all others read the word as it is. -/
def reads (rel : Relation) (w : UInt8) (x : UInt64) : Int :=
  match rel with
  | slt | sle | sgt | sge => (Word.signExtend x w).toInt
  | _ => x.toNat

variable {α β : Type} {A : α → Prop} {B : β → Prop} {f : α → Int} {g : β → Int}
  {below above same : Tristate}

/-- Where the three are verdicts on two readings as integers, so is the answer. -/
theorem answer_verdict (hbelow : below.Verdict A B fun x y => f x < g y)
    (habove : above.Verdict A B fun x y => g y < f x)
    (hsame : same.Verdict A B fun x y => f x = g y) (rel : Relation) :
    (rel.answer below above same).Verdict A B fun x y =>
      rel.signed.holds? (f x) (g y) = some true := by
  cases rel with
  | eq => exact hsame.congr fun x _ y _ => by simp [signed, holds?]
  | ne => exact hsame.not.congr fun x _ y _ => by simp [signed, holds?]
  | slt | ult => exact hbelow.congr fun x _ y _ => by simp [signed, holds?]
  | sgt | ugt => exact habove.congr fun x _ y _ => by simp [signed, holds?]
  | sle | ule => exact habove.not.congr fun x _ y _ => by simp [signed, holds?]
  | sge | uge => exact hbelow.not.congr fun x _ y _ => by simp [signed, holds?]

end Relation

/-! ## Intervals -/

namespace Interval

variable {a b : Interval}

/-- An interval that is not empty, with no end on the wrong side of infinity. -/
structure Proper (v : Interval) : Prop where
  oriented : v.Oriented
  nonempty : v.isBottom = false

theorem Proper.le (ha : a.Proper) : a.lo.toInt ≤ a.hi.toInt :=
  isBottom_eq_false_iff.mp ha.nonempty

theorem Proper.lo_mem (ha : a.Proper) : a.lo.toInt ∈ a := Interval.lo_mem ha.le

theorem Proper.hi_mem (ha : a.Proper) : a.hi.toInt ∈ a := Interval.hi_mem ha.le

section Verdict

variable (ha : a.Proper) (hb : b.Proper)

include ha hb

theorem less_verdict : (less a b).Verdict (· ∈ a) (· ∈ b) fun x y => x < y := by
  refine Tristate.verdict_of_iff ?_ ?_ ?_
  · constructor
    · intro hyes x hx y hy
      have hadmits := less_admits ha.oriented hb.oriented hx hy
      rw [hyes] at hadmits
      exact of_decide_eq_true hadmits
    · intro hall
      exact less_eq_yes_iff.mpr (hall _ ha.hi_mem _ hb.lo_mem)
  · constructor
    · intro hno x hx y hy
      have hadmits := less_admits ha.oriented hb.oriented hx hy
      rw [hno] at hadmits
      exact of_decide_eq_false hadmits
    · intro hall
      have hends : b.hi.toInt ≤ a.lo.toInt := not_lt.mp (hall _ ha.lo_mem _ hb.hi_mem)
      exact less_eq_no_iff.mpr ⟨(hb.le.trans hends).trans ha.le, hends⟩
  · unfold less
    split_ifs <;> exact nofun

theorem exists_common (h : ¬ (a.hi.toInt < b.lo.toInt ∨ b.hi.toInt < a.lo.toInt)) :
    ∃ x, x ∈ a ∧ x ∈ b := by
  have hale := ha.le
  have hble := hb.le
  refine ⟨max a.lo.toInt b.lo.toInt, mem_iff.mpr ⟨Or.inr ?_, Or.inr ?_⟩,
    mem_iff.mpr ⟨Or.inr ?_, Or.inr ?_⟩⟩
  all_goals omega

theorem equal_verdict : (equal a b).Verdict (· ∈ a) (· ∈ b) fun x y => x = y := by
  refine Tristate.verdict_of_iff ?_ ?_ ?_
  · constructor
    · intro hyes x hx y hy
      have hadmits := equal_admits ha.oriented hb.oriented hx hy
      rw [hyes] at hadmits
      exact beq_iff_eq.mp hadmits
    · intro hall
      have hlow := hall _ ha.lo_mem _ hb.lo_mem
      have hhigh := hall _ ha.hi_mem _ hb.lo_mem
      have hother := hall _ ha.lo_mem _ hb.hi_mem
      exact equal_eq_yes_iff.mpr ⟨⟨hlow.trans hhigh.symm, hlow.symm.trans hother⟩, hlow⟩
  · constructor
    · intro hno x hx y hy
      have hadmits := equal_admits ha.oriented hb.oriented hx hy
      rw [hno] at hadmits
      exact beq_eq_false_iff_ne.mp hadmits
    · intro hall
      refine equal_eq_no ha.le hb.le ?_
      by_contra hoverlap
      obtain ⟨x, hxa, hxb⟩ := exists_common ha hb hoverlap
      exact hall x hxa x hxb rfl
  · unfold equal
    split_ifs <;> exact nofun

theorem compare_verdict (rel : Relation) : (compare rel a b).Verdict (· ∈ a) (· ∈ b) fun x y =>
    rel.signed.holds? x y = some true := by
  have hanswer : compare rel a b = rel.answer (less a b) (less b a) (equal a b) := by
    cases rel <;> rfl
  rw [hanswer]
  exact Relation.answer_verdict (less_verdict ha hb) (less_verdict hb ha).swap
    (equal_verdict ha hb) rel

end Verdict

end Interval

/-! ## Word ranges -/

namespace WordRange

variable {a b : WordRange} {x y : UInt64}

theorem contains_iff : a.contains x = true ↔ a.lo.toNat ≤ x.toNat ∧ x.toNat ≤ a.hi.toNat := by
  simp only [contains, Bool.and_eq_true, decide_eq_true_eq, UInt64.le_iff_toNat_le]

theorem contains_lo (ha : a.lo ≤ a.hi) : a.contains a.lo = true :=
  contains_iff.mpr ⟨le_rfl, UInt64.le_iff_toNat_le.mp ha⟩

theorem contains_hi (ha : a.lo ≤ a.hi) : a.contains a.hi = true :=
  contains_iff.mpr ⟨UInt64.le_iff_toNat_le.mp ha, le_rfl⟩

section Verdict

variable (ha : a.lo ≤ a.hi) (hb : b.lo ≤ b.hi)

theorem less_eq_yes_iff : less a b = .yes ↔ a.hi.toNat < b.lo.toNat := by
  rw [← UInt64.lt_iff_toNat_lt]
  unfold less
  split_ifs <;> simp [*]

theorem equal_eq_yes_iff : equal a b = .yes ↔ (a.lo = a.hi ∧ b.lo = b.hi) ∧ a.lo = b.lo := by
  unfold equal isPoint
  simp only [Bool.and_eq_true, beq_iff_eq]
  split_ifs with hpoint hapart
  · exact iff_of_true rfl hpoint
  · exact iff_of_false nofun hpoint
  · exact iff_of_false nofun hpoint

theorem equal_eq_no_iff :
    equal a b = .no ↔ a.hi.toNat < b.lo.toNat ∨ b.hi.toNat < a.lo.toNat := by
  rw [← UInt64.lt_iff_toNat_lt, ← UInt64.lt_iff_toNat_lt]
  unfold equal isPoint
  simp only [Bool.and_eq_true, Bool.or_eq_true, beq_iff_eq, decide_eq_true_eq]
  split_ifs with hpoint hapart
  · obtain ⟨⟨hpa, hpb⟩, hab⟩ := hpoint
    simp [← hpa, ← hpb, hab]
  · simp [hapart]
  · simp [hapart]

include ha hb

theorem less_eq_no_iff : less a b = .no ↔ b.hi.toNat ≤ a.lo.toNat := by
  have hale := UInt64.le_iff_toNat_le.mp ha
  have hble := UInt64.le_iff_toNat_le.mp hb
  unfold less
  simp only [UInt64.lt_iff_toNat_lt, UInt64.le_iff_toNat_le]
  split_ifs with hlt hle
  · exact iff_of_false nofun (by omega)
  · exact iff_of_true rfl hle
  · exact iff_of_false nofun hle

theorem less_verdict : (less a b).Verdict (a.contains · = true) (b.contains · = true)
    fun x y => (x.toNat : Int) < y.toNat := by
  simp only [Int.ofNat_lt]
  refine Tristate.verdict_of_iff ?_ ?_ ?_
  · rw [less_eq_yes_iff]
    constructor
    · intro hends x hx y hy
      exact ((contains_iff.mp hx).2.trans_lt hends).trans_le (contains_iff.mp hy).1
    · intro hall
      exact hall _ (contains_hi ha) _ (contains_lo hb)
  · rw [less_eq_no_iff ha hb]
    constructor
    · intro hends x hx y hy
      exact not_lt.mpr (((contains_iff.mp hy).2.trans hends).trans (contains_iff.mp hx).1)
    · intro hall
      exact not_lt.mp (hall _ (contains_lo ha) _ (contains_hi hb))
  · unfold less
    split_ifs <;> exact nofun

theorem exists_common (h : ¬ (a.hi.toNat < b.lo.toNat ∨ b.hi.toNat < a.lo.toNat)) :
    ∃ x, a.contains x = true ∧ b.contains x = true := by
  rw [not_or, not_lt, not_lt] at h
  have hale := UInt64.le_iff_toNat_le.mp ha
  have hble := UInt64.le_iff_toNat_le.mp hb
  refine ⟨greater a.lo b.lo, ?_, ?_⟩ <;> rw [contains_iff, toNat_greater]
  · exact ⟨le_max_left _ _, max_le hale h.1⟩
  · exact ⟨le_max_right _ _, max_le h.2 hble⟩

theorem equal_verdict : (equal a b).Verdict (a.contains · = true) (b.contains · = true)
    fun x y => (x.toNat : Int) = y.toNat := by
  simp only [Int.natCast_inj, UInt64.toNat_inj]
  refine Tristate.verdict_of_iff ?_ ?_ ?_
  · rw [equal_eq_yes_iff]
    constructor
    · rintro ⟨⟨hpa, hpb⟩, hab⟩ x hx y hy
      rw [contains_iff, ← hpa] at hx
      rw [contains_iff, ← hpb, ← hab] at hy
      exact UInt64.toNat_inj.mp ((le_antisymm hx.2 hx.1).trans (le_antisymm hy.1 hy.2))
    · intro hall
      have hlow := hall _ (contains_lo ha) _ (contains_lo hb)
      have hhigh := hall _ (contains_hi ha) _ (contains_lo hb)
      have hother := hall _ (contains_lo ha) _ (contains_hi hb)
      exact ⟨⟨hlow.trans hhigh.symm, hlow.symm.trans hother⟩, hlow⟩
  · rw [equal_eq_no_iff]
    constructor
    · rintro hapart x hx y hy rfl
      obtain ⟨hxa, hax⟩ := contains_iff.mp hx
      obtain ⟨hxb, hbx⟩ := contains_iff.mp hy
      rcases hapart with hlt | hlt
      · exact absurd (hxb.trans hax) (not_le.mpr hlt)
      · exact absurd (hxa.trans hbx) (not_le.mpr hlt)
    · intro hall
      by_contra hoverlap
      obtain ⟨x, hxa, hxb⟩ := exists_common ha hb hoverlap
      exact hall x hxa x hxb rfl
  · unfold equal
    split_ifs <;> exact nofun

theorem compareUnsigned_verdict (rel : Relation) :
    (compareUnsigned rel a b).Verdict (a.contains · = true) (b.contains · = true) fun x y =>
      rel.signed.holds? x.toNat y.toNat = some true := by
  have hanswer : compareUnsigned rel a b = rel.answer (less a b) (less b a) (equal a b) := by
    cases rel <;> rfl
  rw [hanswer]
  exact Relation.answer_verdict (less_verdict ha hb) (less_verdict hb ha).swap
    (equal_verdict ha hb) rel

end Verdict

/-- The words of the range are below the sign bit of its width. -/
structure BelowSign (v : WordRange) : Prop where
  pos : 1 ≤ v.width
  le : v.width ≤ 64
  lt : v.hi.toNat < 2 ^ (v.width.toNat - 1)

theorem belowSign_iff : a.belowSign = true ↔ a.BelowSign := by
  simp only [belowSign, Bool.and_eq_true, decide_eq_true_eq, UInt64.lt_iff_toNat_lt,
    Word.toNat_shl, UInt64.toNat_one, one_mul]
  by_cases hpos : 1 ≤ a.width
  · have hpred : (a.width - 1).toUInt64.toNat = a.width.toNat - 1 := by
      rw [UInt8.toNat_toUInt64, UInt8.toNat_sub_of_le _ _ hpos]
      rfl
    rw [hpred]
    by_cases hw : a.width ≤ 64
    · have hlt : 2 ^ (a.width.toNat - 1) < 2 ^ 64 :=
        Nat.pow_lt_pow_right (by decide) (by have := Word.toNat_width hw; omega)
      rw [Nat.mod_eq_of_lt hlt]
      exact ⟨fun h => ⟨hpos, hw, h.2⟩, fun h => ⟨hpos, h.lt⟩⟩
    · -- past the sixty-fourth bit the sign bit is shifted out, and no word is below it
      have hdvd : 2 ^ 64 ∣ 2 ^ (a.width.toNat - 1) := by
        refine Nat.pow_dvd_pow 2 ?_
        rw [UInt8.le_iff_toNat_le] at hw
        exact Nat.le_sub_one_of_lt (not_le.mp hw)
      rw [Nat.mod_eq_zero_of_dvd hdvd]
      exact ⟨fun h => absurd h.2 (Nat.not_lt_zero _), fun h => absurd h.le hw⟩
  · exact ⟨fun h => absurd h.1 hpos, fun h => absurd h.pos hpos⟩

/-- Below the sign bit a word is the same integer with its sign and without. -/
theorem BelowSign.toInt_signExtend (ha : a.BelowSign) (hx : a.contains x = true) :
    (Word.signExtend x a.width).toInt = x.toNat := by
  have hlt : x.toNat < 2 ^ (a.width.toNat - 1) := (contains_iff.mp hx).2.trans_lt ha.lt
  have hunsigned : (Constant.mk x .integer a.width).unsigned.toNat = x.toNat := by
    rw [Constant.toNat_unsigned ha.le]
    exact Nat.mod_eq_of_lt (hlt.trans_le (Nat.pow_le_pow_right (by decide) (Nat.sub_le _ _)))
  have hsigned := Constant.toInt_signed_of_lt (c := ⟨x, .integer, a.width⟩) ha.pos ha.le
  rw [hunsigned] at hsigned
  exact hsigned hlt

theorem compare_verdict {rel : Relation} (ha : a.lo ≤ a.hi) (hb : b.lo ≤ b.hi)
    (hab : a.width = b.width) (hsign : rel.isSigned = true → a.BelowSign ∧ b.BelowSign) :
    (compare rel a b).Verdict (a.contains · = true) (b.contains · = true) fun x y =>
      rel.signed.holds? (rel.reads a.width x) (rel.reads a.width y) = some true := by
  by_cases hrel : rel.isSigned = true
  · obtain ⟨hbelow, hbelow'⟩ := hsign hrel
    have hcompare : compare rel a b = compareUnsigned rel.unsigned a b := by
      have hand : (a.belowSign && b.belowSign) = true :=
        Bool.and_eq_true_iff.mpr ⟨belowSign_iff.mpr hbelow, belowSign_iff.mpr hbelow'⟩
      cases rel with
      | slt | sle | sgt | sge => exact if_pos hand
      | _ => cases hrel
    rw [hcompare]
    refine (compareUnsigned_verdict ha hb rel.unsigned).congr fun x hx y hy => ?_
    have hy' : (Word.signExtend y a.width).toInt = y.toNat := hab ▸ hbelow'.toInt_signExtend hy
    cases rel with
    | slt | sle | sgt | sge =>
        simp only [Relation.unsigned, Relation.signed, Relation.reads,
          hbelow.toInt_signExtend hx, hy']
    | _ => cases hrel
  · have hunsigned := compareUnsigned_verdict ha hb rel
    cases rel with
    | slt | sle | sgt | sge => exact absurd rfl hrel
    | _ => exact hunsigned

end WordRange

/-! ## Both domains -/

/-- **A comparison of two ranges says all that can be said of their members.**  For intervals
with members, of which no end is on the wrong side of infinity, and for word ranges of one width
with members, `compare` answers yes, no or maybe as the relation holds of every pair of members,
of none, or of some and not of others.  Intervals are read over the integers.  Word ranges are
read without sign, and for a signed order, where both are below the sign bit, with it. -/
theorem compare_is_verdict (rel : Relation) :
    (∀ a b : Interval, a.Proper → b.Proper → ∃ t, Interval.compareTag (.relation rel) a b = pure t ∧
      t.Verdict (· ∈ a) (· ∈ b) fun x y => rel.signed.holds? x y = some true) ∧
    ∀ a b : WordRange, a.lo ≤ a.hi → b.lo ≤ b.hi → a.width = b.width →
      (rel.isSigned = true → a.BelowSign ∧ b.BelowSign) →
      ∃ t, WordRange.compareTag (.relation rel) a b = pure t ∧
        t.Verdict (a.contains · = true) (b.contains · = true) fun x y =>
          rel.signed.holds? (rel.reads a.width x) (rel.reads a.width y) = some true := by
  constructor
  · intro a b ha hb
    exact ⟨_, rfl, Interval.compare_verdict ha hb rel⟩
  · intro a b ha hb hab hsign
    exact ⟨_, rfl, WordRange.compare_verdict ha hb hab hsign⟩

/-- Where two ranges touch: no integer up to 3 is above one from 3 on, and of the bytes from 16
to 127 all but the last are below 127. -/
theorem compare_is_verdict_touching :
    Tristate.no.Verdict (· ∈ (⟨Bound.negInf, 3⟩ : Interval)) (· ∈ (⟨3, Bound.posInf⟩ : Interval))
      (fun x y => Relation.sgt.holds? x y = some true) ∧
    Tristate.maybe.Verdict (WordRange.contains ⟨16, 127, 8⟩ · = true)
      (WordRange.contains ⟨127, 127, 8⟩ · = true) (fun x y =>
        Relation.slt.holds? (Relation.slt.reads 8 x) (Relation.slt.reads 8 y) = some true) := by
  constructor
  · obtain ⟨t, ht, hverdict⟩ := (compare_is_verdict .sgt).1 ⟨Bound.negInf, 3⟩ ⟨3, Bound.posInf⟩
      ⟨⟨by decide, by decide⟩, by decide⟩ ⟨⟨by decide, by decide⟩, by decide⟩
    obtain rfl : Tristate.no = t := Except.ok.inj (Dialogue.done.inj ht)
    exact hverdict
  · obtain ⟨t, ht, hverdict⟩ := (compare_is_verdict .slt).2 ⟨16, 127, 8⟩ ⟨127, 127, 8⟩
      (by decide) (by decide) rfl
      fun _ => ⟨⟨by decide, by decide, by decide⟩, by decide, by decide, by decide⟩
    obtain rfl : Tristate.maybe = t := Except.ok.inj (Dialogue.done.inj ht)
    exact hverdict

end Narrowing
