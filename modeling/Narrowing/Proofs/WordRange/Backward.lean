/-
# Which words narrowing keeps

Every backward rule of word ranges is a meet: of the two operands of an equality that
holds, or of the operand of a cast with the range of its result.  A meet keeps a word of
the one range just when the other range has it.  So a rule keeps the words it should where
each of them is in the range that it meets with.

For an equality that is so.  For a cast it hangs on the widths.  The result of a cast is
the operand less its bits above the new width:

    x < 2 ^ width        the result is `x` itself, and the rule keeps it
    2 ^ width ≤ x        the result is another word, and the rule loses `x`

A cast to a width that is not smaller is always in the first case.  A cast that cuts bits
off takes many words to one, but its rule is the same, and goes back to that one only: an
operand with a bit above the new width lies above every result, and so above what is left.
-/
import Narrowing.Proofs.WordRange

namespace Narrowing.WordRange

variable {r a b : WordRange} {x y : Nat}

/-! ## Meets -/

theorem eval_of_pair {α β : Type} {n : Narrowed α} {p : α} {q q' : β}
    (h : (do return (← n.eval, q)) = (pure (p, q') : Eval (α × β))) : n.eval = pure p := by
  revert h
  unfold Narrowed.eval
  split
  · intro h
    cases h
    rfl
  · intro h
    cases h

/-- A meet that gives a range gives the numbers between the inner ends. -/
theorem meet_eval_eq_pure_iff {m : WordRange} : (meet a b).eval = pure m ↔
    m = ⟨greater a.lo b.lo, lesser a.hi b.hi, a.width⟩ ∧ m.lo.toNat ≤ m.hi.toNat := by
  simp only [meet, UInt64.lt_iff_toNat_lt]
  split
  · rename_i hempty
    constructor
    · intro h
      cases h
    · rintro ⟨rfl, hle⟩
      exact absurd hempty (Nat.not_lt.mpr hle)
  · rename_i hsome
    constructor
    · intro h
      cases h
      exact ⟨rfl, Nat.not_lt.mp hsome⟩
    · rintro ⟨rfl, -⟩
      rfl

/-- What is left of a range keeps a word of it just when the other range has the word. -/
theorem meet_keeps_iff (hx : a.Spans x) :
    (∃ m, (meet a b).eval = pure m ∧ m.Spans x) ↔ b.lo.toNat ≤ x ∧ x ≤ b.hi.toNat := by
  obtain ⟨hlo, hhi, hlt⟩ := hx
  constructor
  · rintro ⟨m, hm, hmlo, hmhi, -⟩
    obtain ⟨rfl, -⟩ := meet_eval_eq_pure_iff.mp hm
    rw [toNat_greater] at hmlo
    rw [toNat_lesser] at hmhi
    exact ⟨(le_max_right _ _).trans hmlo, hmhi.trans (min_le_right _ _)⟩
  · rintro ⟨hblo, hbhi⟩
    have hmlo : (greater a.lo b.lo).toNat ≤ x := by
      rw [toNat_greater]
      exact max_le hlo hblo
    have hmhi : x ≤ (lesser a.hi b.hi).toNat := by
      rw [toNat_lesser]
      exact le_min hhi hbhi
    refine ⟨_, meet_eval_eq_pure_iff.mpr ⟨rfl, hmlo.trans hmhi⟩, hmlo, hmhi, ?_⟩
    show (lesser a.hi b.hi).toNat < 2 ^ a.width.toNat
    rw [toNat_lesser]
    exact (min_le_left _ _).trans_lt hlt

/-! ## Equality -/

theorem pos_of_toTristate_eq_yes {t : Nat} (ht : r.Spans t) (hyes : r.toTristate = .yes) :
    0 < t := by
  have hne : r.lo ≠ 0 := by
    intro h0
    simp only [toTristate, h0, if_true] at hyes
    split at hyes <;> cases hyes
  have hpos : r.lo.toNat ≠ 0 := fun h0 => hne (UInt64.toNat_inj.mp h0)
  exact (Nat.pos_of_ne_zero hpos).trans_le ht.lo_le

theorem backward_eq_keeps (hx : a.Spans x) (hy : b.Spans y)
    (hr : r.Spans (decide (x = y)).toNat) :
    ∃ a' b', backward (.relation .eq) r a b = pure (a', b') ∧ a'.Spans x ∧ b'.Spans y := by
  by_cases hyes : r.toTristate = .yes
  · have hxy : x = y := by
      have hpos := pos_of_toTristate_eq_yes hr hyes
      by_contra hne
      rw [decide_eq_false hne] at hpos
      exact absurd hpos (Nat.lt_irrefl 0)
    subst hxy
    obtain ⟨m, hm, hmx⟩ := (meet_keeps_iff hx).mpr ⟨hy.lo_le, hy.le_hi⟩
    refine ⟨m, m, ?_, hmx, hmx⟩
    simp only [backward, if_pos hyes, hm, pure_bind]
  · refine ⟨a, b, ?_, hx, hy⟩
    simp only [backward, if_neg hyes]

/-! ## Casts -/

/-- The one rule that goes back through a cast, whichever way the width changes. -/
theorem backward_cast {k : Cast} (hk : k ∈ [Cast.zext, .zfit, .trunc]) :
    backward (.cast k) r a b = if r.hi ≤ Word.mask a.width then
      (do return (← (meet a ⟨r.lo, r.hi, a.width⟩).eval, b)) else pure (a, b) := by
  cases k with
  | zext | zfit | trunc => rfl
  | _ => simp at hk

theorem backward_cast_keeps_iff {k : Cast} (hk : k ∈ [Cast.zext, .zfit, .trunc])
    (hw : a.width ≤ 64) (hx : a.Spans x) (hr : r.Spans (x % 2 ^ r.width.toNat)) :
    (∃ a' b', backward (.cast k) r a b = pure (a', b') ∧ a'.Spans x) ↔
      x < 2 ^ r.width.toNat := by
  rw [backward_cast hk]
  by_cases hfires : r.hi ≤ Word.mask a.width
  · have hmeet := meet_keeps_iff (b := ⟨r.lo, r.hi, a.width⟩) hx
    rw [if_pos hfires]
    constructor
    · rintro ⟨a', b', hreturns, hkept⟩
      -- the operand has come through the meet, so it is among the results
      have hresult := hmeet.mp ⟨a', eval_of_pair hreturns, hkept⟩
      exact hresult.2.trans_lt hr.hi_lt
    · intro hlt
      rw [Nat.mod_eq_of_lt hlt] at hr
      obtain ⟨m, hm, hmx⟩ := hmeet.mpr ⟨hr.lo_le, hr.le_hi⟩
      exact ⟨m, b, by rw [hm, pure_bind], hmx⟩
  · -- a result beyond the width of the operand is wider than the operand
    rw [if_neg hfires]
    refine iff_of_true ⟨a, b, rfl, hx⟩ ?_
    rw [Word.le_mask_iff hw, Nat.not_lt] at hfires
    exact (hx.le_hi.trans_lt hx.hi_lt).trans_le (hfires.trans hr.hi_lt.le)

theorem backward_other {tag : Tag} (heq : tag ≠ .relation .eq)
    (hcast : ∀ k ∈ [Cast.zext, .zfit, .trunc], tag ≠ .cast k) (answers : List Int) :
    ((backward tag r a b).run.play answers).result = .ok (a, b) := by
  unfold backward
  split
  · exact absurd rfl heq
  · exact absurd rfl (hcast .zext (by decide))
  · exact absurd rfl (hcast .zfit (by decide))
  · exact absurd rfl (hcast .trunc (by decide))
  · rfl

/-- **Narrowing keeps every word, except where a cast cut bits off it.**  Of the words that
two ranges have, an equality keeps both if the range of its result has the truth of it.  A cast
keeps a word of its operand, given a range of results that has the low bits of it, exactly when
the word has no other bits, so always if the new width is not smaller.  Every other operator
returns its operands. -/
theorem backward_keeps_unless_cut (hw : a.width ≤ 64) :
    (∀ x y, a.Spans x → b.Spans y → r.Spans (decide (x = y)).toNat →
      ∃ a' b', backward (.relation .eq) r a b = pure (a', b') ∧ a'.Spans x ∧ b'.Spans y) ∧
    (∀ k ∈ [Cast.zext, .zfit, .trunc], ∀ x, a.Spans x → r.Spans (x % 2 ^ r.width.toNat) →
      ((∃ a' b', backward (.cast k) r a b = pure (a', b') ∧ a'.Spans x) ↔
        x < 2 ^ r.width.toNat) ∧
      (a.width ≤ r.width →
        ∃ a' b', backward (.cast k) r a b = pure (a', b') ∧ a'.Spans x)) ∧
    ∀ tag, tag ≠ .relation .eq → (∀ k ∈ [Cast.zext, .zfit, .trunc], tag ≠ .cast k) →
      ∀ answers, ((backward tag r a b).run.play answers).result = .ok (a, b) := by
  refine ⟨?_, ?_, ?_⟩
  · intro x y hx hy hr
    exact backward_eq_keeps hx hy hr
  · intro k hk x hx hr
    have hiff := backward_cast_keeps_iff (b := b) hk hw hx hr
    refine ⟨hiff, ?_⟩
    intro hwide
    refine hiff.mpr ((hx.le_hi.trans_lt hx.hi_lt).trans_le ?_)
    exact Nat.pow_le_pow_right (by decide) (UInt8.le_iff_toNat_le.mp hwide)
  · intro tag heq hcast answers
    exact backward_other heq hcast answers

/-- Of the words up to 511, a low byte of at most 7 keeps 3 and not 259, which has the low byte 3
as well.  At the full width an equality keeps the one word that two ranges have in common. -/
theorem backward_keeps_unless_cut_low_byte :
    (∃ a' b', backward (.cast .trunc) ⟨0, 7, 8⟩ ⟨0, 511, 16⟩ ⟨0, 511, 16⟩ = pure (a', b') ∧
      a'.Spans 3) ∧
    (¬ ∃ a' b', backward (.cast .trunc) ⟨0, 7, 8⟩ ⟨0, 511, 16⟩ ⟨0, 511, 16⟩ = pure (a', b') ∧
      a'.Spans 259) ∧
    ∃ a' b', backward (.relation .eq) ⟨1, 1, 1⟩ ⟨0x8000000000000000, 0xFFFFFFFFFFFFFFFF, 64⟩
      ⟨0, 0x8000000000000000, 64⟩ = pure (a', b') ∧ a'.Spans (2 ^ 63) ∧ b'.Spans (2 ^ 63) := by
  have hcast := (backward_keeps_unless_cut (r := ⟨0, 7, 8⟩) (a := ⟨0, 511, 16⟩)
    (b := ⟨0, 511, 16⟩) (by decide)).2.1 .trunc (by decide)
  refine ⟨?_, ?_, ?_⟩
  · exact (hcast 3 ⟨by decide, by decide, by decide⟩ ⟨by decide, by decide, by decide⟩).1.mpr
      (by decide)
  · rw [(hcast 259 ⟨by decide, by decide, by decide⟩ ⟨by decide, by decide, by decide⟩).1]
    decide
  · exact (backward_keeps_unless_cut (by decide)).1 _ _ ⟨by decide, by decide, by decide⟩
      ⟨by decide, by decide, by decide⟩ ⟨by decide, by decide, by decide⟩

/-- The words from 256 to 300 include one with a low byte of zero.  Going back from that byte
gives up the path, and from the words up to 511 it leaves zero alone. -/
theorem backward_trunc_cancels :
    Spans ⟨256, 300, 16⟩ 256 ∧ Spans ⟨0, 0, 8⟩ (256 % 2 ^ 8) ∧
    backward (.cast .trunc) ⟨0, 0, 8⟩ ⟨256, 300, 16⟩ ⟨256, 300, 16⟩ =
      Eval.cancel "bvinterval meet" ∧
    Spans ⟨0, 511, 16⟩ 256 ∧
    backward (.cast .trunc) ⟨0, 0, 8⟩ ⟨0, 511, 16⟩ ⟨0, 511, 16⟩ =
      pure (⟨0, 0, 16⟩, ⟨0, 511, 16⟩) :=
  ⟨⟨by decide, by decide, by decide⟩, ⟨by decide, by decide, by decide⟩, rfl,
    ⟨by decide, by decide, by decide⟩, rfl⟩

end Narrowing.WordRange
