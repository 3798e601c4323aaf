/-
# Truth values, and assuming one

A branch first asks for the truth value of its condition, then assumes a side that this admits.
It relies on two functions that every domain has separately: the side must not be refused that
was just said to be possible (`always_branch`), and after it is assumed it has to be certain.

Both are held here against the members of the value, of which 0 is false and the others are
true.  A truth value describes them (`Tristate.Describes`): none but 0, or not 0, or both kinds.
To assume a truth value filters them (`Value.Filters`): there is a conflict where none is left,
and otherwise a value with just the others gone.

    constant     one member, so it is refused or left as it is
    sign, zero   a meet with the set of what is false, or of what is true
    interval     a meet with [0, 0], or 0 taken away where it is an end
    word range   a meet with [0, 0], or 0 taken away from the low end

An interval has no way to leave out what is between its ends.  If 0 lies there and the
assumption is that it is true, the interval stays as it is (`Value.Straddles`).
-/
import Narrowing.Proofs.Order.Value
import Narrowing.Proofs.Sign.Backward
import Narrowing.Proofs.Zero.Words

namespace Narrowing

/-! ## Truth values of sets -/

theorem Eval.pure_inj {α : Type} {a b : α} : (pure a : Eval α) = pure b ↔ a = b := by
  constructor
  · intro h
    have hrun : Dialogue.done (Except.ok a : Except Failure α) = .done (.ok b) := h
    exact Except.ok.inj (Dialogue.done.inj hrun)
  · exact congrArg pure

/-- What is settled on is admitted. -/
theorem Tristate.always_lower (t : Tristate) : t.lower.Always t.Admits := by
  cases t with
  | no => exact Eval.always_pure rfl
  | yes => exact Eval.always_pure rfl
  | maybe =>
      refine Eval.always_bind (Eval.always_choose (by decide) fun _ _ => Eval.always_pure ?_)
      trivial
  | invalid =>
      refine Eval.always_bind (Eval.always_choose (by decide) fun _ _ => Eval.always_pure ?_)
      trivial

namespace Value

variable {v : Value} {b : Bool}

/-- A value that stands for some integers and is read as they are: not empty, and of a constant
no float, with no bit above its width. -/
def Meaningful : Value → Prop
  | constant c => c.kind ≠ .float ∧ c.Masked
  | sign s => s ≠ .bot
  | zero z => z ≠ .bottom
  | interval i => i.isBottom = false
  | words r => r.lo ≤ r.hi

/-- An interval with 0 between its ends. -/
def Straddles : Value → Prop
  | interval i => i.lo < 0 ∧ 0 < i.hi
  | _ => False

/-- What it is to assume a truth value: a conflict where no member has it, and otherwise a value
of those members that have it. -/
inductive Filters (v : Value) (b : Bool) : Narrowed Value → Prop
  | conflicts {u : Value} {reason : String} (hnone : ∀ x ∈ v, (x != 0) = !b) :
      Filters v b (.conflicts u reason)
  | fits {u : Value} (hu : u.Meaningful) (hmem : ∀ x, x ∈ u ↔ x ∈ v ∧ (x != 0) = b) :
      Filters v b (.fits u)

/-- A part of the members is left, or a conflict if that part is empty. -/
theorem Filters.ite {α : Type} {f : α → Value} {u p : α} {reason : String} {empty : Prop}
    [Decidable empty] (hmem : ∀ x, x ∈ f p ↔ x ∈ v ∧ (x != 0) = b)
    (hempty : empty → ∀ x, ¬ x ∈ f p) (hp : ¬ empty → (f p).Meaningful) :
    v.Filters b ((if empty then .conflicts u reason else .fits p : Narrowed α).map f) := by
  split_ifs with h
  · exact .conflicts fun x hx => Bool.eq_not.mpr fun hxb => hempty h x ((hmem x).mpr ⟨hx, hxb⟩)
  · exact .fits (hp h) hmem

end Value

/-! ## Constants -/

namespace Constant

variable {c : Constant} {b : Bool}

theorem signed_eq_zero_iff (hc : c.Masked) : c.signed.toInt = 0 ↔ c.bits = 0 := by
  unfold signed
  by_cases hw : (c.width = 0 || 64 ≤ c.width) = true
  · have hread : Word.signExtend c.bits c.width = c.bits.toInt64 := if_pos hw
    rw [hread, ← Int64.toInt_zero, Int64.toInt_inj]
    exact ⟨congrArg Int64.toUInt64, congrArg UInt64.toInt64⟩
  · simp only [Bool.or_eq_true, decide_eq_true_eq, not_or, UInt8.not_le] at hw
    have hw0 : 1 ≤ c.width := by
      rw [UInt8.le_iff_toNat_le]
      exact Nat.one_le_iff_ne_zero.mpr fun h => hw.1 (UInt8.toNat_inj.mp h)
    have hw64 : c.width ≤ 64 := UInt8.le_of_lt hw.2
    have hbits : c.unsigned = c.bits := by
      rw [← UInt64.toNat_inj, toNat_unsigned hw64]
      exact Nat.mod_eq_of_lt ((Word.le_mask_iff hw64).mp hc)
    have hzero := (low_eq_zero_iff_signed hw0 hw64 rfl).symm.trans (low_eq_zero_iff hw64 rfl)
    rw [hbits] at hzero
    exact (Int64.toInt_inj (y := 0)).trans hzero

theorem truth_eq (hc : c.Masked) : c.truth = (c.signed.toInt != 0) := by
  rw [Bool.eq_iff_iff, truth, bne_iff_ne, bne_iff_ne, Ne, Ne, signed_eq_zero_iff hc]

theorem describes_toTristate (hc : c.Masked) : c.toTristate.Describes {c.signed.toInt} := by
  unfold toTristate
  rw [truth_eq hc]
  by_cases hzero : c.signed.toInt = 0
  · rw [hzero]
    rfl
  · rw [bne_iff_ne.mpr hzero]
    exact ⟨Set.singleton_nonempty _, fun h => hzero h.symm⟩

theorem filters_assume (hkind : c.kind ≠ .float) (hc : c.Masked) :
    (Value.constant c).Filters b ((c.assume b).map .constant) := by
  have htruth := truth_eq hc
  unfold assume
  by_cases h : c.truth = b
  · rw [if_pos h]
    refine .fits ⟨hkind, hc⟩ fun x => ⟨fun hx => ⟨hx, ?_⟩, And.left⟩
    obtain rfl : x = c.signed.toInt := hx
    rw [← htruth, h]
  · rw [if_neg h]
    refine .conflicts fun x hx => ?_
    obtain rfl : x = c.signed.toInt := hx
    rw [← htruth]
    exact Bool.eq_not.mpr h

end Constant

/-! ## Signs and zero-ness -/

namespace Sign

variable {s : Sign} {b : Bool}

/-- The signs of the integers that are true, or of those that are false. -/
theorem mem_truth {x : Int} : x ∈ (if b then nez else eqz) ↔ (x != 0) = b := by
  cases b with
  | true => simp [mem_def, nez]
  | false => simp

theorem filters_assume : (Value.sign s).Filters b ((s.assume b).map .sign) := by
  refine .ite (fun x => ?_) (fun hbot x hx => ?_) id
  · exact mem_meet.trans (and_congr_right fun _ => mem_truth)
  · exact not_mem_bot (hbot ▸ hx)

end Sign

namespace Zero

variable {z : Zero} {b : Bool}

theorem mem_single {x : Int} : x ∈ single b ↔ (x != 0) = b := by
  cases b with
  | true => simp [single]
  | false => simp [single]

theorem filters_assume : (Value.zero z).Filters b ((z.assume b).map .zero) := by
  refine .ite (fun x => ?_) (fun hbot x hx => ?_) id
  · exact mem_meet.trans (and_congr_right fun _ => mem_single)
  · exact not_mem_bottom (hbot ▸ hx)

end Zero

/-! ## Intervals -/

namespace Interval

variable {i : Interval}

/-- Zero is no member any more where it was an end. -/
theorem filters_assume_true (hi : i.isBottom = false) (h : ¬ (i.lo < 0 ∧ 0 < i.hi)) :
    (Value.interval i).Filters true ((i.assume true).map .interval) := by
  have hle := isBottom_eq_false_iff.mp hi
  have hfin : Bound.isInf 0 = false := rfl
  simp only [Int64.lt_iff_toInt_lt, Bound.toInt_zero] at h
  show Value.Filters _ _ ((i.exclude 0).map .interval)
  unfold exclude
  rw [if_neg (Bool.eq_false_iff.mp hfin)]
  refine .ite (fun x => ?_) (fun hbot x hx => ?_) fun hbot => ?_
  · show x ∈ (⟨_, _⟩ : Interval) ↔ x ∈ i ∧ _
    rw [mem_iff, mem_iff, bne_iff_ne]
    simp only [toInt_passLow hfin, toInt_passHigh hfin, Bound.toInt_zero]
    split_ifs <;> omega
  · exact not_isBottom hx hbot
  · exact Bool.eq_false_iff.mpr hbot

theorem filters_assume_false :
    (Value.interval i).Filters false ((i.assume false).map .interval) := by
  refine .ite (fun x => ?_) (fun hbot x hx => ?_) fun hbot => ?_
  · refine mem_meet.trans (and_congr_right fun _ => ?_)
    rw [mem_point_zero, bne_eq_false_iff_eq]
  · exact not_isBottom hx hbot
  · exact Bool.eq_false_iff.mpr hbot

end Interval

/-! ## Word ranges -/

namespace WordRange

variable {r : WordRange}

theorem mem_words {x : Int} : x ∈ Value.words r ↔ (r.lo.toNat : Int) ≤ x ∧ x ≤ r.hi.toNat :=
  Iff.rfl

theorem describes_toTristate (hr : r.lo ≤ r.hi) :
    r.toTristate.Describes {x | x ∈ Value.words r} := by
  have hle := UInt64.le_iff_toNat_le.mp hr
  unfold toTristate
  simp only [← UInt64.toNat_inj, UInt64.toNat_zero]
  split_ifs with hhi hlo
  · refine Set.ext fun x => ?_
    rw [Set.mem_ofPred_eq, mem_words, Set.mem_singleton_iff]
    omega
  · exact ⟨mem_words.mpr (by omega), r.hi.toNat, mem_words.mpr (by omega), by omega⟩
  · refine ⟨⟨r.hi.toNat, mem_words.mpr (by omega)⟩, fun h0 => ?_⟩
    have hends := mem_words.mp h0
    omega

theorem filters_assume_false : (Value.words r).Filters false ((r.assume false).map .words) := by
  refine .ite (fun x => ?_) (fun hbot x hx => ?_) UInt64.not_lt.mp
  · rw [mem_words, mem_words, toNat_greater, toNat_lesser, bne_eq_false_iff_eq, UInt64.toNat_zero]
    omega
  · rw [UInt64.lt_iff_toNat_lt] at hbot
    have hends := mem_words.mp hx
    omega

theorem filters_assume_true (hr : r.lo ≤ r.hi) :
    (Value.words r).Filters true ((r.assume true).map .words) := by
  have hle := UInt64.le_iff_toNat_le.mp hr
  have hone : (1 : UInt64).toNat = 1 := rfl
  have hlow : (if r.lo = 0 then 1 else r.lo).toNat = max 1 r.lo.toNat := by
    simp only [← UInt64.toNat_inj, UInt64.toNat_zero]
    split_ifs <;> omega
  refine .ite (fun x => ?_) (fun hempty x hx => ?_) fun hsome => ?_
  · rw [mem_words, mem_words, bne_iff_ne, hlow]
    dsimp only
    omega
  · rw [mem_words, hlow, hempty, UInt64.toNat_zero] at hx
    omega
  · rw [← UInt64.toNat_inj, UInt64.toNat_zero] at hsome
    refine UInt64.le_iff_toNat_le.mpr ?_
    show (if r.lo = 0 then 1 else r.lo).toNat ≤ r.hi.toNat
    rw [hlow]
    omega

end WordRange

/-! ## Values -/

namespace Value

variable {v : Value} {b : Bool}

theorem describes_toTristate (hv : v.Meaningful) :
    ∃ t, v.toTristate = pure t ∧ t.Describes {x | x ∈ v} := by
  cases v with
  | constant c => exact ⟨_, rfl, c.describes_toTristate hv.2⟩
  | sign s => exact Sign.describes_toTristate hv
  | zero z => exact Zero.describes_toTristate hv
  | interval i => exact Interval.describes_toTristate (Interval.isBottom_eq_false_iff.mp hv)
  | words r => exact ⟨_, rfl, r.describes_toTristate hv⟩

theorem toTristate_iff (hv : v.Meaningful) :
    v.toTristate = pure (.ofBool b) ↔ ∀ x ∈ v, (x != 0) = b := by
  obtain ⟨t, ht, hdescribes⟩ := describes_toTristate hv
  rw [ht, Eval.pure_inj]
  exact hdescribes.eq_ofBool_iff

theorem Meaningful.exists_mem (hv : v.Meaningful) : ∃ x, x ∈ v := by
  obtain ⟨t, -, hdescribes⟩ := describes_toTristate hv
  exact hdescribes.nonempty

theorem Filters.conflict_iff {n : Narrowed Value} (h : v.Filters b n) :
    n.conflict ≠ none ↔ ∀ x ∈ v, (x != 0) = !b := by
  cases h with
  | conflicts hnone => exact iff_of_true nofun hnone
  | fits hu hmem =>
      obtain ⟨x, hx⟩ := hu.exists_mem
      obtain ⟨hxv, hxb⟩ := (hmem x).mp hx
      exact iff_of_false (fun h => h rfl) fun hall => Bool.eq_not.mp (hall x hxv) hxb

theorem Filters.left {n : Narrowed Value} (h : v.Filters b n) (hn : n.conflict = none) :
    n.left.Meaningful ∧ ∀ x, x ∈ n.left ↔ x ∈ v ∧ (x != 0) = b := by
  cases h with
  | conflicts hnone => cases hn
  | fits hu hmem => exact ⟨hu, hmem⟩

theorem filters_assume (hv : v.Meaningful) (h : ¬ (v.Straddles ∧ b = true)) :
    v.Filters b (v.assume b) := by
  cases v with
  | constant c => exact c.filters_assume hv.1 hv.2
  | sign s => exact s.filters_assume
  | zero z => exact z.filters_assume
  | interval i =>
      cases b with
      | true => exact i.filters_assume_true hv fun hends => h ⟨hends, rfl⟩
      | false => exact i.filters_assume_false
  | words r =>
      cases b with
      | true => exact r.filters_assume_true hv
      | false => exact r.filters_assume_false

/-! ### Zero between the ends -/

theorem assume_of_straddles (h : v.Straddles) : v.assume true = .fits v := by
  cases v with
  | interval i =>
      obtain ⟨hlo, hhi⟩ := h
      have hsome : ¬ i.isBottom = true := by
        rw [Bool.not_eq_true, Interval.isBottom_eq_false_iff, ← Int64.le_iff_toInt_le]
        exact Int64.le_of_lt (Int64.lt_trans hlo hhi)
      have hsame : i.exclude 0 = .fits i := by
        unfold Interval.exclude
        rw [if_neg (by decide)]
        simp only [Int64.ne_of_lt hlo, (Int64.ne_of_lt hhi).symm, if_false]
        exact if_neg hsome
      exact congrArg (Narrowed.map Value.interval) hsame
  | _ => exact h.elim

theorem Straddles.exists_true (h : v.Straddles) : ∃ x ∈ v, (x != 0) = true := by
  cases v with
  | interval i =>
      obtain ⟨hlo, hhi⟩ := h
      rw [Int64.lt_iff_toInt_lt, Bound.toInt_zero] at hlo hhi
      exact ⟨i.lo.toInt, Interval.lo_mem (hlo.trans hhi).le, bne_iff_ne.mpr hlo.ne⟩
  | _ => exact h.elim

/-! ### The two together -/

theorem conflict_iff (hv : v.Meaningful) :
    (v.assume b).conflict ≠ none ↔ ∀ x ∈ v, (x != 0) = !b := by
  by_cases hs : v.Straddles ∧ b = true
  · obtain ⟨hs, rfl⟩ := hs
    obtain ⟨x, hx, htrue⟩ := hs.exists_true
    rw [assume_of_straddles hs]
    exact iff_of_false (fun h => h rfl) fun hall => Bool.eq_not.mp (hall x hx) htrue
  · exact (filters_assume hv hs).conflict_iff

/-- **What can be assumed agrees with the truth value.**  To assume a truth value of a value of any
domain is refused just where the opposite one is certain.  Otherwise the members that have it
are left, and then it is certain.  The exception is an interval with 0 between its ends that is
assumed to be true: it stays as it is. -/
theorem assume_agrees_with_truth (hv : v.Meaningful) (b : Bool) :
    ((v.assume b).conflict ≠ none ↔ v.toTristate = pure (.ofBool !b)) ∧
    ((v.assume b).conflict = none →
      (v.assume b).left.Leq v ∧
      (v.Straddles ∧ b = true → (v.assume b).left = v) ∧
      (¬ (v.Straddles ∧ b = true) →
        (∀ x, x ∈ (v.assume b).left ↔ x ∈ v ∧ (x != 0) = b) ∧
        (v.assume b).left.toTristate = pure (.ofBool b))) := by
  refine ⟨(conflict_iff hv).trans (toTristate_iff hv).symm, fun hfits => ?_⟩
  refine ⟨assume_leq v b, ?_, fun hs => ?_⟩
  · rintro ⟨hs, rfl⟩
    rw [assume_of_straddles hs]
    rfl
  · obtain ⟨hleft, hmem⟩ := (filters_assume hv hs).left hfits
    exact ⟨hmem, (toTristate_iff hleft).mpr fun x hx => ((hmem x).mp hx).2⟩

/-- Of the integers up to 0 it can be assumed that they are true, and -1 is then the greatest.
After that they can no longer be assumed to be false. -/
theorem assume_agrees_with_truth_below_zero :
    let v : Value := .interval ⟨Bound.negInf, 0⟩
    let u : Value := .interval ⟨Bound.negInf, -1⟩
    v.Meaningful ∧ u.Meaningful ∧ (v.assume true).left = u ∧
      (∀ x, x ∈ u ↔ x ∈ v ∧ (x != 0) = true) ∧ u.toTristate = pure .yes ∧
      (u.assume false).conflict ≠ none := by
  intro v u
  have hv : v.Meaningful := rfl
  have hu : u.Meaningful := rfl
  obtain ⟨-, hfits⟩ := assume_agrees_with_truth hv true
  obtain ⟨-, -, hleft⟩ := hfits rfl
  obtain ⟨hmem, htruth⟩ := hleft fun hs => Int64.lt_irrefl hs.1.2
  exact ⟨hv, hu, rfl, hmem, htruth, (assume_agrees_with_truth hu false).1.mpr htruth⟩

/-! ### Branches -/

/-- **A branch never refuses the side it takes.**  Whatever is answered where the truth value of
the condition leaves both sides open, to assume the side that was settled on is no conflict. -/
theorem always_branch (hv : v.Meaningful) :
    (v.toTristate >>= Tristate.lower).Always fun taken => (v.assume taken).conflict = none := by
  obtain ⟨t, ht, hdescribes⟩ := describes_toTristate hv
  rw [ht, pure_bind]
  refine t.always_lower.mono fun taken htaken => ?_
  obtain ⟨x, hx, hxt⟩ := hdescribes.exists_of_admits htaken
  by_contra hconflict
  exact Bool.eq_not.mp ((conflict_iff hv).mp hconflict x hx) hxt

end Value

end Narrowing
