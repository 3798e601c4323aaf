/-
# Zero-ness follows the words

Words wrap, so the sum of two nonzero words may be zero, and so may a product or what a
shift leaves.  The tables leave all of these open, and what they do settle is settled by a
word that is zero: it is neutral in a sum, absorbs a product, moves nothing as the amount of
a shift, and is the least of the unsigned words.

Going back, an operand loses a case only where the other has none but zero, and no case that
a word needs.  An extension is zero just when its operand is, so it hands its case down; a
cut is not, and hands nothing down.
-/
import Narrowing.Proofs.Constant
import Narrowing.Proofs.Order.Leaf
import Narrowing.Proofs.Zero

namespace Narrowing.Zero

variable {a b r v : Zero} {n : Nat} {x y z : BitVec n}

/-- The set has the case of a bit vector. -/
def Has (v : Zero) (x : BitVec n) : Prop := (x.toNat : Int) ∈ v

/-- The set has the case of a constant. -/
def Holds (v : Zero) (c : Constant) : Prop := (c.unsigned.toNat : Int) ∈ v

instance (v : Zero) (c : Constant) : Decidable (v.Holds c) :=
  inferInstanceAs (Decidable ((_ = _ ∧ _) ∨ (_ ≠ _ ∧ _)))

theorem natCast_toNat_eq_zero : (x.toNat : Int) = 0 ↔ x = 0#n := by
  rw [Int.natCast_eq_zero, ← BitVec.toNat_inj, BitVec.toNat_zero]

theorem natCast_toNat_ofBool (t : Bool) : ((BitVec.ofBool t).toNat : Int) = if t then 1 else 0 := by
  cases t <;> rfl

theorem mem_congr {i j : Int} (h : i = 0 ↔ j = 0) : i ∈ v ↔ j ∈ v := by
  simp only [mem_def, h, ne_eq]

/-! ## Tables on words -/

section Tables

variable (hx : a.Has x) (hy : b.Has y)

include hx hy

theorem has_sum (hleft : x = 0#n → (z = 0#n ↔ y = 0#n)) (hright : y = 0#n → (z = 0#n ↔ x = 0#n)) :
    (lift2 caseAdd a b).Has z := by
  refine mem_lift2 hx hy fun p q hp hq => mem_caseAdd p q hp hq ?_ ?_
  · simpa only [natCast_toNat_eq_zero] using hleft
  · simpa only [natCast_toNat_eq_zero] using hright

theorem has_product (h : x = 0#n ∨ y = 0#n → z = 0#n) : (lift2 caseMul a b).Has z := by
  refine mem_lift2 hx hy fun p q hp hq => mem_caseMul p q hp hq ?_
  simpa only [natCast_toNat_eq_zero] using h

theorem has_shift (hleft : x = 0#n → z = 0#n) (hright : y = 0#n → z = x) :
    (lift2 caseShift a b).Has z := by
  refine mem_lift2 hx hy fun p q hp hq => mem_caseShift p q hp hq ?_ ?_
  · simpa only [natCast_toNat_eq_zero] using hleft
  · intro h
    rw [hright (natCast_toNat_eq_zero.mp h)]

theorem has_disjunction (h : z = 0#n ↔ x = 0#n ∧ y = 0#n) : (lift2 caseOr a b).Has z := by
  refine mem_lift2 hx hy fun p q hp hq => mem_caseOr p q hp hq ?_
  simpa only [natCast_toNat_eq_zero] using h

theorem has_signed {t onZeros : Bool} (h : x = 0#n → y = 0#n → t = onZeros) :
    (lift2 (caseSigned onZeros) a b).Has (BitVec.ofBool t) := by
  unfold Has
  rw [natCast_toNat_ofBool]
  refine mem_lift2 hx hy fun p q hp hq => mem_caseSigned p q hp hq ?_
  simpa only [natCast_toNat_eq_zero] using h

/-- Nothing is below zero, and zero is below everything else. -/
theorem has_above : (lift2 caseAbove a b).Has (BitVec.ofBool (y.ult x)) := by
  unfold Has
  rw [natCast_toNat_ofBool, BitVec.ult_eq_decide]
  refine mem_lift2 hx hy fun p q hp hq => ?_
  simp only [CaseOf, ne_eq, Int.natCast_eq_zero] at hp hq
  cases p <;> cases q <;> simp_all [caseAbove, single]

theorem has_atLeast : (lift2 caseAtLeast a b).Has (BitVec.ofBool (y.ule x)) := by
  unfold Has
  rw [natCast_toNat_ofBool, BitVec.ule_eq_decide]
  refine mem_lift2 hx hy fun p q hp hq => ?_
  simp only [CaseOf, ne_eq, Int.natCast_eq_zero] at hp hq
  cases p <;> cases q <;> simp_all [caseAtLeast, single]

end Tables

/-! ## Operators forward -/

theorem sure_arith_words (hx : a.Has x) (hy : b.Has y) (op : Arith) :
    (arith op a b).Sure fun v => v.Has (op.onWords x y) := by
  have hdivide {op : Arith} {z : BitVec n} (hz : x = 0#n → z = 0#n) :
      (divide op a b).Sure fun v => v.Has z := by
    refine sure_divide hx ?_
    simpa only [natCast_toNat_eq_zero] using hz
  cases op with
  | add | sub | xor =>
      refine Eval.sure_pure (has_sum hx hy ?_ ?_)
      · rintro rfl
        simp [Arith.onWords]
      · rintro rfl
        simp [Arith.onWords]
  | mul | and =>
      refine Eval.sure_pure (has_product hx hy ?_)
      rintro (rfl | rfl)
      · simp [Arith.onWords]
      · simp [Arith.onWords]
  | or => exact Eval.sure_pure (has_disjunction hx hy BitVec.or_eq_zero_iff)
  | udiv | urem | sdiv | srem =>
      refine hdivide ?_
      rintro rfl
      simp [Arith.onWords]
  | shl | lshr | ashr =>
      refine Eval.sure_pure (has_shift hx hy ?_ ?_)
      · rintro rfl
        simp [Arith.onWords]
      · rintro rfl
        simp [Arith.onWords]

theorem has_compare (hx : a.Has x) (hy : b.Has y) (rel : Relation) :
    (compare rel a b).Has (BitVec.ofBool (rel.onWords x y)) := by
  have heq : (x == y) = ((x.toNat : Int) == y.toNat) := by
    rw [Bool.eq_iff_iff, beq_iff_eq, beq_iff_eq, Int.natCast_inj, BitVec.toNat_inj]
  cases rel with
  | eq =>
      show ((BitVec.ofBool (x == y)).toNat : Int) ∈ lift2 caseEq a b
      rw [natCast_toNat_ofBool, heq]
      exact mem_lift2 hx hy mem_caseEq
  | ne =>
      show ((BitVec.ofBool (!(x == y))).toNat : Int) ∈ lift2 caseAdd a b
      rw [natCast_toNat_ofBool, heq]
      exact mem_lift2 hx hy mem_caseNe
  | slt | sle =>
      refine has_signed hy hx ?_
      rintro rfl rfl
      simp [Relation.onWords, BitVec.slt_eq_decide, BitVec.sle_eq_decide]
  | sgt | sge =>
      refine has_signed hx hy ?_
      rintro rfl rfl
      simp [Relation.onWords, BitVec.slt_eq_decide, BitVec.sle_eq_decide]
  | ult => exact has_above hy hx
  | ugt => exact has_above hx hy
  | ule => exact has_atLeast hy hx
  | uge => exact has_atLeast hx hy

/-- An operator on sets that have the cases of two words gives a set with the case of the
result. -/
theorem sure_binary_words (hx : a.Has x) (hy : b.Has y) :
    (∀ op, (binary (.arith op) a b).Sure fun v => v.Has (op.onWords x y)) ∧
    ∀ rel, (binary (.relation rel) a b).Sure fun v => v.Has (BitVec.ofBool (rel.onWords x y)) := by
  unfold binary
  constructor
  · intro op
    split
    · exact Eval.sure_cancel
    · exact sure_arith_words hx hy op
  · intro rel
    split
    · exact Eval.sure_cancel
    · exact Eval.sure_pure (has_compare hx hy rel)

/-! ## Going back -/

/-- Two sets that still have two integers. -/
def Keeps (i j : Int) (p : Zero × Zero) : Prop := i ∈ p.1 ∧ j ∈ p.2

section Backward

variable {i j : Int}

theorem mem_meet : i ∈ meet a b ↔ i ∈ a ∧ i ∈ b := by
  simp only [mem_def, meet, Bool.and_eq_true]
  exact ⟨by tauto, by tauto⟩

theorem mem_diff_isZero : i ∈ diff a isZero ↔ i ∈ a ∧ i ≠ 0 := by
  simp only [mem_def, diff, isZero]
  by_cases hi : i = 0 <;> simp [hi]

theorem nonBottom_of_mem {what : String} (h : i ∈ v) : nonBottom what v = pure v := by
  refine if_neg ?_
  rintro rfl
  exact not_mem_bottom h

theorem keeps_backwardEq (hi : i ∈ a) (hj : j ∈ b) (h : i = j) :
    (backwardEq a b).Ends (Keeps i j) fun _ => False := by
  subst h
  have hmeet : i ∈ meet a b := mem_meet.mpr ⟨hi, hj⟩
  unfold backwardEq
  rw [nonBottom_of_mem hmeet]
  exact Eval.ends_pure ⟨hmeet, hmeet⟩

theorem keeps_backwardNe (hi : i ∈ a) (hj : j ∈ b) (h : i ≠ j) :
    (backwardNe a b).Ends (Keeps i j) fun _ => False := by
  by_cases ha : a = isZero
  · have hi0 : i = 0 := mem_isZero.mp (ha ▸ hi)
    have hleft : j ∈ diff b isZero := mem_diff_isZero.mpr ⟨hj, fun hj0 => h (hi0.trans hj0.symm)⟩
    have hne : diff b isZero ≠ isZero := by
      intro hd
      exact (mem_diff_isZero.mp hleft).2 (mem_isZero.mp (hd ▸ hleft))
    simp only [backwardNe, if_pos ha, nonBottom_of_mem hleft, pure_bind, if_neg hne]
    exact Eval.ends_pure ⟨hi, hleft⟩
  by_cases hb : b = isZero
  · have hj0 : j = 0 := mem_isZero.mp (hb ▸ hj)
    have hleft : i ∈ diff a isZero := mem_diff_isZero.mpr ⟨hi, fun hi0 => h (hi0.trans hj0.symm)⟩
    simp only [backwardNe, if_neg ha, if_pos hb, nonBottom_of_mem hleft, pure_bind]
    exact Eval.ends_pure ⟨hleft, hj⟩
  · simp only [backwardNe, if_neg ha, if_neg hb, pure_bind]
    exact Eval.ends_pure ⟨hi, hj⟩

theorem describes_toTristate (h : v ≠ bottom) :
    ∃ t, toTristate v = pure t ∧ t.Describes {i | i ∈ v} := by
  obtain ⟨_ | _, _ | _⟩ := v
  · exact absurd rfl h
  · exact ⟨.yes, rfl, ⟨1, mem_isNonzero.mpr one_ne_zero⟩, fun h0 => mem_isNonzero.mp h0 rfl⟩
  · exact ⟨.no, rfl, Set.ext fun x => mem_isZero⟩
  · exact ⟨.maybe, rfl, mem_unknown, 1, mem_unknown, one_ne_zero⟩

theorem toTristate_of_mem (h : i ∈ v) : ∃ t, toTristate v = pure t ∧ t.Admits (i != 0) := by
  have hbottom : v ≠ bottom := by
    rintro rfl
    exact not_mem_bottom h
  obtain ⟨t, ht, hdescribes⟩ := describes_toTristate hbottom
  exact ⟨t, ht, hdescribes.admits h⟩

end Backward

/-! ## Operators back -/

theorem toTristate_of_has_ofBool {s : Bool} (h : v.Has (BitVec.ofBool s)) :
    ∃ t, toTristate v = pure t ∧ t.Admits s := by
  obtain ⟨t, ht, htruth⟩ := toTristate_of_mem h
  refine ⟨t, ht, ?_⟩
  cases s <;> exact htruth

theorem mem_diff_of_ult (hy : b.Has y) (h : x.ult y = true) :
    (y.toNat : Int) ∈ diff b isZero := by
  refine mem_diff_isZero.mpr ⟨hy, ?_⟩
  have hlt : x.toNat < y.toNat := BitVec.ult_iff_lt.mp h
  omega

section Rules

variable (hx : a.Has x) (hy : b.Has y)

include hx hy

theorem keeps_backward_relation {rel : Relation} (hr : r.Has (BitVec.ofBool (rel.onWords x y))) :
    (backward (.relation rel) r a b).Ends (Keeps x.toNat y.toNat) fun _ => False := by
  obtain ⟨t, ht, htruth⟩ := toTristate_of_has_ofBool hr
  have heq (h : x = y) : (x.toNat : Int) = y.toNat := congrArg (fun u => (u.toNat : Int)) h
  have hne (h : x ≠ y) : (x.toNat : Int) ≠ y.toNat := by
    rwa [ne_eq, Int.natCast_inj, BitVec.toNat_inj]
  unfold backward
  rw [ht, pure_bind]
  cases rel with
  | eq =>
      cases t with
      | yes => exact keeps_backwardEq hx hy (heq (beq_iff_eq.mp htruth))
      | no => exact keeps_backwardNe hx hy (hne (beq_eq_false_iff_ne.mp htruth))
      | maybe | invalid => exact Eval.ends_pure ⟨hx, hy⟩
  | ne =>
      cases t with
      | yes => exact keeps_backwardNe hx hy (hne (bne_iff_ne.mp htruth))
      | no => exact keeps_backwardEq hx hy (heq (bne_eq_false_iff_eq.mp htruth))
      | maybe | invalid => exact Eval.ends_pure ⟨hx, hy⟩
  | ult =>
      dsimp only
      split
      · subst t
        have hleft := mem_diff_of_ult hy htruth
        rw [nonBottom_of_mem hleft]
        exact Eval.ends_pure ⟨hx, hleft⟩
      · exact Eval.ends_pure ⟨hx, hy⟩
  | ugt =>
      dsimp only
      split
      · subst t
        have hleft := mem_diff_of_ult hx htruth
        rw [nonBottom_of_mem hleft]
        exact Eval.ends_pure ⟨hleft, hy⟩
      · exact Eval.ends_pure ⟨hx, hy⟩
  | _ => exact Eval.ends_imprecise ⟨hx, hy⟩

end Rules

section Rules

variable {i j k : Int} (hi : i ∈ a) (hj : j ∈ b) (hk : k ∈ r)

include hi hj hk

theorem keeps_backward_arith (op : Arith) :
    (backward (.arith op) r a b).Ends (Keeps i j) fun _ => False := by
  obtain ⟨t, ht, -⟩ := toTristate_of_mem hk
  unfold backward
  rw [ht, pure_bind]
  exact Eval.ends_imprecise ⟨hi, hj⟩

theorem keeps_backward_cut {c : Cast} (hc : c = .trunc ∨ c = .zfit) :
    (backward (.cast c) r a b).Ends (Keeps i j) fun _ => False := by
  obtain ⟨t, ht, -⟩ := toTristate_of_mem hk
  unfold backward
  rw [ht, pure_bind]
  rcases hc with rfl | rfl
  · exact Eval.ends_imprecise ⟨hi, hj⟩
  · exact Eval.ends_imprecise ⟨hi, hj⟩

theorem keeps_backward_extension {c : Cast} (hc : c = .zext ∨ c = .sext) (hki : k = 0 ↔ i = 0) :
    (backward (.cast c) r a b).Ends (Keeps i j) fun _ => False := by
  obtain ⟨t, ht, -⟩ := toTristate_of_mem hk
  have hmeet : i ∈ meet a r := mem_meet.mpr ⟨hi, (mem_congr hki).mp hk⟩
  unfold backward
  rw [ht, pure_bind]
  rcases hc with rfl | rfl
  · dsimp only
    rw [nonBottom_of_mem hmeet]
    exact Eval.ends_pure ⟨hmeet, hj⟩
  · dsimp only
    rw [nonBottom_of_mem hmeet]
    exact Eval.ends_pure ⟨hmeet, hj⟩

end Rules

theorem exists_below {tag : Tag} {i j : Int}
    (h : (backward tag r a b).Ends (Keeps i j) fun _ => False) (answers : List Int) :
    ∃ a' b', ((backward tag r a b).run.play answers).result = .ok (a', b') ∧
      a'.leq a = true ∧ b'.leq b = true ∧ i ∈ a' ∧ j ∈ b' := by
  have hboth := ((ends_backward tag r a b).and h).mono (fun _ => id) fun _ hfail => hfail.2
  obtain ⟨⟨a', b'⟩, hok, hunder, hkeeps⟩ := (hboth.of_play answers).exists_ok
  exact ⟨a', b', hok, hunder.1, hunder.2, hkeeps.1, hkeeps.2⟩

/-! ## Changes of width -/

theorem setWidth_eq_zero {m : Nat} (h : n ≤ m) : x.setWidth m = 0#m ↔ x = 0#n := by
  rw [← BitVec.toNat_inj, ← BitVec.toNat_inj, BitVec.toNat_setWidth_of_le h, BitVec.toNat_zero,
    BitVec.toNat_zero]

theorem signExtend_eq_zero {m : Nat} (h : n ≤ m) : x.signExtend m = 0#m ↔ x = 0#n := by
  rw [← BitVec.toInt_inj, ← BitVec.toInt_inj, BitVec.toInt_signExtend_of_le h, BitVec.toInt_zero,
    BitVec.toInt_zero]

section Casts

variable {c d : Constant} {width : UInt8} {answers : List Int}

theorem holds_iff_has_low (hw : c.width ≤ 64) : v.Holds c ↔ v.Has (c.low c.width.toNat) := by
  unfold Holds Has
  rw [Constant.toNat_low hw rfl]

theorem holds_ofWord {w : UInt8} (hw : w ≤ 64) {x : BitVec w.toNat} :
    v.Holds (.ofWord w x) ↔ v.Has x := by
  unfold Holds Has
  rw [Constant.toNat_unsigned_ofWord hw]

variable (hw0 : 1 ≤ c.width) (hw : c.width ≤ 64) (hkind : c.kind ≠ .float) (hwidth : width ≤ 64)

include hw hkind hwidth

theorem eq_zero_of_cut {k : Cast} (hk : k = .trunc ∨ k = .zfit)
    (hd : ((c.cast (.cast k) width).run.play answers).result = .ok d)
    (h : (c.unsigned.toNat : Int) = 0) : (d.unsigned.toNat : Int) = 0 := by
  have hmem : k ∈ [Cast.zext, .trunc, .zfit] := by
    rcases hk with rfl | rfl <;> decide
  rw [Constant.cast_fit hkind hw rfl hwidth hmem] at hd
  obtain rfl := Except.ok.inj hd
  rw [← Constant.toNat_low hw rfl, natCast_toNat_eq_zero] at h
  show ((Constant.ofWord width _).unsigned.toNat : Int) = 0
  rw [Constant.toNat_unsigned_ofWord hwidth, natCast_toNat_eq_zero, h, BitVec.setWidth_zero]

include hw0

theorem eq_zero_of_extension {k : Cast} (hk : k = .zext ∨ k = .sext) (hle : c.width ≤ width)
    (hd : ((c.cast (.cast k) width).run.play answers).result = .ok d) :
    (d.unsigned.toNat : Int) = 0 ↔ (c.unsigned.toNat : Int) = 0 := by
  have hle' : c.width.toNat ≤ width.toNat := UInt8.le_iff_toNat_le.mp hle
  rw [← Constant.toNat_low hw rfl, natCast_toNat_eq_zero]
  rcases hk with rfl | rfl
  · rw [Constant.cast_fit hkind hw rfl hwidth List.mem_cons_self] at hd
    obtain rfl := Except.ok.inj hd
    show ((Constant.ofWord width _).unsigned.toNat : Int) = 0 ↔ _
    rw [Constant.toNat_unsigned_ofWord hwidth, natCast_toNat_eq_zero, setWidth_eq_zero hle']
  · rw [Constant.cast_sext hkind hw0 hw rfl hwidth] at hd
    obtain rfl := Except.ok.inj hd
    rw [Constant.toNat_unsigned_ofWord hwidth, natCast_toNat_eq_zero, signExtend_eq_zero hle']

end Casts

/-! ## Both directions -/

/-- **Zero-ness is sound for the exact words of every width up to sixty-four, in both
directions.**  Take two words of one width and sets with their cases.  Where an operator or a
relation on the words gives a word, what it gives on the sets has the case of that word; and
from any set with that case its backward rule returns, with sets that are no larger and still
have the cases of the two words.  The same holds of extensions, and of cuts to any width. -/
theorem sound_on_words {x y : Constant} (hw0 : 1 ≤ x.width) (hw : x.width ≤ 64)
    (hxy : x.width = y.width) (hkx : x.kind ≠ .float) (hky : y.kind ≠ .float)
    (hx : a.Holds x) (hy : b.Holds y) :
    (∀ tag c answers, (∃ op, tag = .arith op) ∨ (∃ rel, tag = .relation rel) →
      ((Constant.binary tag x y).run.play answers).result = .ok c →
        (∀ v answers, ((binary tag a b).run.play answers).result = .ok v → v.Holds c) ∧
        ∀ r answers, r.Holds c →
          ∃ a' b', ((backward tag r a b).run.play answers).result = .ok (a', b') ∧
            a'.leq a = true ∧ b'.leq b = true ∧ a'.Holds x ∧ b'.Holds y) ∧
    ∀ k ∈ [Cast.zext, .sext, .trunc, .zfit], ∀ width c answers, 1 ≤ width → width ≤ 64 →
      (k = .zext ∨ k = .sext → x.width ≤ width) →
      ((x.cast (.cast k) width).run.play answers).result = .ok c →
        (∃ v, cast (.cast k) a = pure v ∧ v.Holds c) ∧
        ∀ r answers, r.Holds c →
          ∃ a' b', ((backward (.cast k) r a b).run.play answers).result = .ok (a', b') ∧
            a'.leq a = true ∧ b'.leq b = true ∧ a'.Holds x ∧ b'.Holds y := by
  have hlx := (holds_iff_has_low hw).mp hx
  have hly : b.Has (y.low x.width.toNat) := by
    rw [hxy]
    exact (holds_iff_has_low (hxy ▸ hw)).mp hy
  have hforward := sure_binary_words hlx hly
  constructor
  · rintro tag c answers (⟨op, rfl⟩ | ⟨rel, rfl⟩) hc
    · obtain rfl := Constant.eq_of_binary_arith hw0 hw rfl hxy.symm hkx hky hc
      refine ⟨?_, ?_⟩
      · intro v answers hv
        exact (holds_ofWord hw).mpr ((hforward.1 op).of_play hv)
      · intro r answers hr
        exact exists_below (keeps_backward_arith hx hy hr op) answers
    · rw [Constant.binary_relation hw0 hw rfl hxy.symm hkx hky] at hc
      obtain rfl := Except.ok.inj hc
      refine ⟨?_, ?_⟩
      · intro v answers hv
        exact (holds_ofWord (by decide)).mpr ((hforward.2 rel).of_play hv)
      · intro r answers hr
        have hkeeps := keeps_backward_relation hlx hly ((holds_ofWord (by decide)).mp hr)
        rw [Constant.toNat_low hw rfl, Constant.toNat_low hw hxy.symm] at hkeeps
        exact exists_below hkeeps answers
  · intro k hk width c answers _ hwidth hle hc
    by_cases hext : k = .zext ∨ k = .sext
    · have hzero := eq_zero_of_extension hw0 hw hkx hwidth hext (hle hext) hc
      refine ⟨⟨a, ?_, (mem_congr hzero).mpr hx⟩, ?_⟩
      · rcases hext with rfl | rfl <;> rfl
      · intro r answers hr
        exact exists_below (keeps_backward_extension hx hy hr hext hzero) answers
    · have hcut : k = .trunc ∨ k = .zfit := by
        simp only [List.mem_cons, List.not_mem_nil, or_false] at hk
        tauto
      refine ⟨⟨if a = isZero then isZero else unknown, ?_, ?_⟩, ?_⟩
      · rcases hcut with rfl | rfl <;> rfl
      · exact mem_of_eq_zero_imp hx (eq_zero_of_cut hw hkx hwidth hcut hc)
      · intro r answers hr
        exact exists_below (keeps_backward_cut hx hy hr hcut) answers

/-- Twice the least byte wraps to zero, from two bytes that are not; and of two unknown bytes
where the first is below the second, the second cannot be zero. -/
theorem sound_on_words_wrapped :
    (∀ v answers, ((binary (.arith .add) isNonzero isNonzero).run.play answers).result = .ok v →
      v.Holds (.ofBits 0 8)) ∧
    ∃ a' b', ((backward (.relation .ult) isNonzero unknown unknown).run.play []).result =
        .ok (a', b') ∧ a'.leq unknown = true ∧ b'.leq unknown = true ∧
      a'.Holds (.ofBits 0 8) ∧ b'.Holds (.ofBits 5 8) := by
  constructor
  · exact ((sound_on_words (x := .ofBits 0x80 8) (y := .ofBits 0x80 8) (by decide) (by decide) rfl
      (by decide) (by decide) (by decide) (by decide)).1 (.arith .add) _ [] (Or.inl ⟨_, rfl⟩)
      rfl).1
  · exact ((sound_on_words (x := .ofBits 0 8) (y := .ofBits 5 8) (by decide) (by decide) rfl
      (by decide) (by decide) (by decide) (by decide)).1 (.relation .ult) _ [] (Or.inr ⟨_, rfl⟩)
      rfl).2 isNonzero [] (by decide)

end Narrowing.Zero
