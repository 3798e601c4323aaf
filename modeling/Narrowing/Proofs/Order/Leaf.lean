/-
# Narrowing only narrows

Each leaf domain has its own order.  Whatever its backward rules are given and
whatever is answered, the operands they leave are at most the ones they got, and
where they give up it is for a reason of the domain: an empty intersection, an
answer out of range, an operator it does not have.  The two are proved together,
since they are read off the same places: every rule is put together from meets,
differences and choices.

A word range is only compared with one of its width, so equality narrows its right
operand where the two widths agree.
-/
import Narrowing.Proofs.Interval.Backward
import Narrowing.Proofs.WordRange

namespace Narrowing

/-- A refusal that a leaf domain, or a question, comes to by itself. -/
def Misuse.isLocal : Misuse → Bool
  | noAlternatives _ | answerOutOfRange _ _ | unsupported _ _ => true
  | floatWitness | unreadableWidth _ | distinctConstants | widthMismatch _ _ _ => true
  | badSlice _ _ _ | concatTooWide | unconstrainedConstant | rangeWidthMismatch _ => true
  | _ => false

/-- A failure that a leaf domain, or a question, comes to by itself. -/
def Failure.IsLocal : Failure → Prop
  | .misuse m => m.isLocal = true
  | _ => True

namespace Eval

variable {α : Type} {Q : α → Prop}

theorem ends_cancel_local {reason : String} : Ends Q Failure.IsLocal (cancel reason) :=
  ends_cancel trivial

theorem ends_choose_local {n : Int} {Q : Nat → Prop} (hQ : ∀ i : Nat, (i : Int) < n → Q i) :
    Ends Q Failure.IsLocal (choose n) :=
  ends_choose hQ (fun _ => rfl) fun _ _ => rfl

theorem ends_imprecise {E : Failure → Prop} {domain : Domain} {op : Tag} {a : α} (h : Q a) :
    Ends Q E (do imprecise domain op; return a) :=
  ends_bind (ends_note (ends_pure h))

end Eval

/-! ## Signs -/

namespace Sign

variable {a b c : Sign}

theorem leq_iff : a.leq b = true ↔
    (a.neg = true → b.neg = true) ∧ (a.zero = true → b.zero = true) ∧
      (a.pos = true → b.pos = true) := by
  obtain ⟨n, z, p⟩ := a
  simp [leq, meet]

theorem leq_refl (a : Sign) : a.leq a = true := leq_iff.mpr ⟨id, id, id⟩

theorem leq_trans (hab : a.leq b = true) (hbc : b.leq c = true) : a.leq c = true := by
  rw [leq_iff] at *
  exact ⟨hbc.1 ∘ hab.1, hbc.2.1 ∘ hab.2.1, hbc.2.2 ∘ hab.2.2⟩

theorem meet_leq_left : (meet a b).leq a = true := by
  simp only [leq_iff, meet, Bool.and_eq_true]
  exact ⟨And.left, And.left, And.left⟩

theorem meet_leq_right : (meet a b).leq b = true := by
  simp only [leq_iff, meet, Bool.and_eq_true]
  exact ⟨And.right, And.right, And.right⟩

theorem diff_leq : (diff a b).leq a = true := by
  simp only [leq_iff, diff, Bool.and_eq_true]
  exact ⟨And.left, And.left, And.left⟩

/-- Two operands after narrowing. -/
def Under (a b : Sign) (p : Sign × Sign) : Prop := p.1.leq a = true ∧ p.2.leq b = true

theorem under_refl : Under a b (a, b) := ⟨leq_refl a, leq_refl b⟩

theorem Under.swap {p : Sign × Sign} (h : Under a b p) : Under b a p.swap := ⟨h.2, h.1⟩

theorem ends_nonBottom {what : String} {v : Sign} (h : v.leq a = true) :
    (nonBottom what v).Ends (fun u => u.leq a = true) Failure.IsLocal := by
  unfold nonBottom
  split
  · exact Eval.ends_cancel_local
  · exact Eval.ends_pure h

theorem ends_backwardEq : (backwardEq a b).Ends (Under a b) Failure.IsLocal := by
  unfold backwardEq nonBottom
  split
  · exact Eval.ends_cancel_local
  · exact Eval.ends_pure ⟨meet_leq_left, meet_leq_right⟩

theorem ends_diff_bind {β : Type} {Q : β → Prop} {what : String} {v w : Sign} {f : Sign → Eval β}
    (hf : ∀ u, u.leq v = true → (f u).Ends Q Failure.IsLocal) :
    (nonBottom what (diff v w) >>= f).Ends Q Failure.IsLocal :=
  Eval.ends_bind ((ends_nonBottom diff_leq).imp hf)

theorem ends_backwardNe : (backwardNe a b).Ends (Under a b) Failure.IsLocal := by
  have hleft : ∀ b', b'.leq b = true → Eval.Ends (Under a b) Failure.IsLocal
      (if b' = eqz then nonBottom "ne" (diff a eqz) >>= fun a => pure (a, b')
        else pure a >>= fun a => pure (a, b')) := by
    intro b' hb
    split
    · exact ends_diff_bind fun a' ha => Eval.ends_pure ⟨ha, hb⟩
    · exact Eval.ends_pure ⟨leq_refl a, hb⟩
  unfold backwardNe
  split
  · exact ends_diff_bind hleft
  · exact hleft b (leq_refl b)

theorem ends_backwardLess {strict : Bool} :
    (backwardLess strict a b).Ends (Under a b) Failure.IsLocal := by
  have hright : ∀ a', a'.leq a = true → Eval.Ends (Under a b) Failure.IsLocal
      (if (leq a' gtz || (strict && leq a' gez)) = true then
          nonBottom "order" (diff b lez) >>= fun b => pure (a', b)
        else if leq a' gez = true then nonBottom "order" (diff b ltz) >>= fun b => pure (a', b)
        else pure b >>= fun b => pure (a', b)) := by
    intro a' ha
    split_ifs
    · exact ends_diff_bind fun b' hb => Eval.ends_pure ⟨ha, hb⟩
    · exact ends_diff_bind fun b' hb => Eval.ends_pure ⟨ha, hb⟩
    · exact Eval.ends_pure ⟨ha, leq_refl b⟩
  unfold backwardLess
  split_ifs
  · exact ends_diff_bind hright
  · exact ends_diff_bind hright
  · exact hright a (leq_refl a)

theorem ends_backwardRelation {rel : Relation} :
    (backwardRelation rel a b).Ends (Under a b) Failure.IsLocal := by
  cases rel with
  | eq => exact ends_backwardEq
  | ne => exact ends_backwardNe
  | slt | sle => exact ends_backwardLess
  | sgt | sge =>
      exact Eval.ends_bind (ends_backwardLess.imp fun p hp => Eval.ends_pure hp.swap)
  | ult | ule | ugt | uge => exact Eval.ends_pure under_refl

theorem ends_toTristate {v : Sign} : (toTristate v).Ends (fun _ => True) Failure.IsLocal := by
  unfold toTristate
  split_ifs
  · exact Eval.ends_cancel_local
  all_goals exact Eval.ends_pure trivial

theorem ends_backwardCompare {rel : Relation} {r : Sign} :
    Eval.Ends (Under a b) Failure.IsLocal (do
      match ← toTristate r with
      | .yes => backwardRelation rel a b
      | .no => backwardRelation rel.negate a b
      | .maybe | .invalid => return (a, b)) := by
  refine Eval.ends_bind (ends_toTristate.imp ?_)
  intro t _
  cases t with
  | yes | no => exact ends_backwardRelation
  | maybe | invalid => exact Eval.ends_pure under_refl

/-- **Narrowing over signs only narrows.** -/
theorem ends_backward (tag : Tag) (r a b : Sign) :
    (backward tag r a b).Ends (Under a b) Failure.IsLocal := by
  cases tag with
  | relation rel =>
      cases rel with
      | ult | ule | ugt | uge => exact Eval.ends_imprecise under_refl
      | _ => exact ends_backwardCompare
  | cast c =>
      cases c with
      | sext =>
          exact Eval.ends_bind ((ends_nonBottom meet_leq_left).imp fun _ hu =>
            Eval.ends_pure ⟨hu, leq_refl b⟩)
      | _ => exact Eval.ends_imprecise under_refl
  | _ => exact Eval.ends_imprecise under_refl

theorem ends_meet (a b : Sign) :
    (binary .meet a b).Ends (fun m => m.leq a = true) Failure.IsLocal :=
  ends_nonBottom meet_leq_left

theorem assume_leq (v : Sign) (expected : Bool) : (v.assume expected).left.leq v = true := by
  have hmeet : ∀ w reason, (if meet v w = bot then Narrowed.conflicts v reason
      else .fits (meet v w)).left.leq v = true := by
    intro w reason
    split
    · exact leq_refl v
    · exact meet_leq_left
  exact hmeet _ _

end Sign

/-! ## Zero-ness -/

namespace Zero

variable {a b c : Zero}

theorem leq_iff : a.leq b = true ↔
    (a.zero = true → b.zero = true) ∧ (a.nonzero = true → b.nonzero = true) := by
  obtain ⟨z, n⟩ := a
  simp [leq, meet]

theorem leq_refl (a : Zero) : a.leq a = true := leq_iff.mpr ⟨id, id⟩

theorem leq_trans (hab : a.leq b = true) (hbc : b.leq c = true) : a.leq c = true := by
  rw [leq_iff] at *
  exact ⟨hbc.1 ∘ hab.1, hbc.2 ∘ hab.2⟩

theorem meet_leq_left : (meet a b).leq a = true := by
  simp only [leq_iff, meet, Bool.and_eq_true]
  exact ⟨And.left, And.left⟩

theorem meet_leq_right : (meet a b).leq b = true := by
  simp only [leq_iff, meet, Bool.and_eq_true]
  exact ⟨And.right, And.right⟩

theorem diff_leq : (diff a b).leq a = true := by
  simp only [leq_iff, diff, Bool.and_eq_true]
  exact ⟨And.left, And.left⟩

def Under (a b : Zero) (p : Zero × Zero) : Prop := p.1.leq a = true ∧ p.2.leq b = true

theorem under_refl : Under a b (a, b) := ⟨leq_refl a, leq_refl b⟩

theorem ends_nonBottom {what : String} {v : Zero} (h : v.leq a = true) :
    (nonBottom what v).Ends (fun u => u.leq a = true) Failure.IsLocal := by
  unfold nonBottom
  split
  · exact Eval.ends_cancel_local
  · exact Eval.ends_pure h

theorem ends_backwardEq : (backwardEq a b).Ends (Under a b) Failure.IsLocal := by
  unfold backwardEq nonBottom
  split
  · exact Eval.ends_cancel_local
  · exact Eval.ends_pure ⟨meet_leq_left, meet_leq_right⟩

theorem ends_diff_bind {β : Type} {Q : β → Prop} {what : String} {v w : Zero} {f : Zero → Eval β}
    (hf : ∀ u, u.leq v = true → (f u).Ends Q Failure.IsLocal) :
    (nonBottom what (diff v w) >>= f).Ends Q Failure.IsLocal :=
  Eval.ends_bind ((ends_nonBottom diff_leq).imp hf)

theorem ends_backwardNe : (backwardNe a b).Ends (Under a b) Failure.IsLocal := by
  have hleft : ∀ b', b'.leq b = true → Eval.Ends (Under a b) Failure.IsLocal
      (if b' = isZero then nonBottom "ne" (diff a isZero) >>= fun a => pure (a, b')
        else pure a >>= fun a => pure (a, b')) := by
    intro b' hb
    split
    · exact ends_diff_bind fun a' ha => Eval.ends_pure ⟨ha, hb⟩
    · exact Eval.ends_pure ⟨leq_refl a, hb⟩
  unfold backwardNe
  split
  · exact ends_diff_bind hleft
  · exact hleft b (leq_refl b)

theorem ends_toTristate {v : Zero} : (toTristate v).Ends (fun _ => True) Failure.IsLocal := by
  obtain ⟨_ | _, _ | _⟩ := v
  · exact Eval.ends_cancel_local
  all_goals exact Eval.ends_pure trivial

/-- **Narrowing over zero-ness only narrows.** -/
theorem ends_backward (tag : Tag) (r a b : Zero) :
    (backward tag r a b).Ends (Under a b) Failure.IsLocal := by
  refine Eval.ends_bind (ends_toTristate.imp ?_)
  intro t _
  cases tag with
  | relation rel =>
      cases rel with
      | eq =>
          cases t with
          | yes => exact ends_backwardEq
          | no => exact ends_backwardNe
          | maybe | invalid => exact Eval.ends_pure under_refl
      | ne =>
          cases t with
          | yes => exact ends_backwardNe
          | no => exact ends_backwardEq
          | maybe | invalid => exact Eval.ends_pure under_refl
      | ult =>
          dsimp only
          split
          · exact ends_diff_bind fun _ hu => Eval.ends_pure ⟨leq_refl a, hu⟩
          · exact Eval.ends_pure under_refl
      | ugt =>
          dsimp only
          split
          · exact ends_diff_bind fun _ hu => Eval.ends_pure ⟨hu, leq_refl b⟩
          · exact Eval.ends_pure under_refl
      | _ => exact Eval.ends_imprecise under_refl
  | cast c =>
      cases c with
      | sext | zext =>
          exact Eval.ends_bind ((ends_nonBottom meet_leq_left).imp fun _ hu =>
            Eval.ends_pure ⟨hu, leq_refl b⟩)
      | _ => exact Eval.ends_imprecise under_refl
  | _ => exact Eval.ends_imprecise under_refl

theorem ends_meet (a b : Zero) :
    (binary .meet a b).Ends (fun m => m.leq a = true) Failure.IsLocal := by
  unfold binary
  split
  · exact Eval.ends_cancel_local
  · exact ends_nonBottom meet_leq_left

theorem assume_leq (v : Zero) (expected : Bool) : (v.assume expected).left.leq v = true := by
  unfold assume
  dsimp only
  split
  · exact leq_refl v
  · exact meet_leq_left

end Zero

/-! ## Word ranges -/

namespace WordRange

variable {a b c : WordRange}

theorem leq_iff : a.leq b = true ↔
    a.width = b.width ∧ b.lo.toNat ≤ a.lo.toNat ∧ a.hi.toNat ≤ b.hi.toNat := by
  simp only [leq, Bool.and_eq_true, beq_iff_eq, decide_eq_true_eq, and_assoc,
    UInt64.le_iff_toNat_le]

theorem leq_refl (a : WordRange) : a.leq a = true := leq_iff.mpr ⟨rfl, le_rfl, le_rfl⟩

theorem leq_trans (hab : a.leq b = true) (hbc : b.leq c = true) : a.leq c = true := by
  rw [leq_iff] at *
  exact ⟨hab.1.trans hbc.1, hbc.2.1.trans hab.2.1, hab.2.2.trans hbc.2.2⟩

theorem width_eq (h : a.leq b = true) : a.width = b.width := (leq_iff.mp h).1

/-- Two operands after narrowing.  Equality gives both one range, which is compared with the
second where the two had one width. -/
def Under (tag : Tag) (a b : WordRange) (p : WordRange × WordRange) : Prop :=
  p.1.leq a = true ∧ ((tag = .relation .eq → a.width = b.width) → p.2.leq b = true)

theorem under_refl {tag : Tag} : Under tag a b (a, b) := ⟨leq_refl a, fun _ => leq_refl b⟩

/-- The intersection is below both, and what is left on a conflict below the first. -/
theorem meet_leq : (meet a b).left.leq a = true ∧
    ((meet a b).conflict = none → a.width = b.width → (meet a b).left.leq b = true) := by
  unfold meet
  dsimp only
  by_cases hempty : lesser a.hi b.hi < greater a.lo b.lo
  · rw [if_pos hempty]
    exact ⟨leq_refl a, nofun⟩
  · rw [if_neg hempty]
    simp only [Narrowed.fits, leq_iff, toNat_lesser, toNat_greater]
    exact ⟨⟨trivial, by omega, by omega⟩, fun _ hwidth => ⟨hwidth, by omega, by omega⟩⟩

theorem ends_meet (a b : WordRange) : (meet a b).eval.Ends
    (fun m => m.leq a = true ∧ (a.width = b.width → m.leq b = true)) Failure.IsLocal := by
  have hmeet := meet_leq (a := a) (b := b)
  unfold Narrowed.eval
  split
  · exact Eval.ends_pure ⟨hmeet.1, hmeet.2 ‹_›⟩
  · exact Eval.ends_cancel_local

/-- **Narrowing over word ranges only narrows.** -/
theorem ends_backward (tag : Tag) (r a b : WordRange) :
    (backward tag r a b).Ends (Under tag a b) Failure.IsLocal := by
  have hcast : Eval.Ends (Under tag a b) Failure.IsLocal (do
      if r.hi ≤ Word.mask a.width then return (← (meet a ⟨r.lo, r.hi, a.width⟩).eval, b)
      else return (a, b)) := by
    split
    · exact Eval.ends_bind ((ends_meet _ _).imp fun m hm =>
        Eval.ends_pure ⟨hm.1, fun _ => leq_refl b⟩)
    · exact Eval.ends_pure under_refl
  cases tag with
  | relation rel =>
      cases rel with
      | eq =>
          show Eval.Ends _ _ (if _ then _ else _)
          split
          · exact Eval.ends_bind ((ends_meet a b).imp fun m hm =>
              Eval.ends_pure ⟨hm.1, fun hwidth => hm.2 (hwidth rfl)⟩)
          · exact Eval.ends_pure under_refl
      | _ => exact Eval.ends_imprecise under_refl
  | cast c =>
      cases c with
      | zext | zfit | trunc => exact hcast
      | _ => exact Eval.ends_imprecise under_refl
  | _ => exact Eval.ends_imprecise under_refl

theorem ends_binary_meet (a b : WordRange) :
    (binary .meet a b).Ends (fun m => m.leq a = true) Failure.IsLocal := by
  unfold binary
  split
  · exact Eval.ends_misuse rfl
  · exact (ends_meet a b).imp fun _ => And.left

theorem assume_leq (v : WordRange) (expected : Bool) : (v.assume expected).left.leq v = true := by
  cases expected with
  | false => exact meet_leq.1
  | true =>
      show (if _ then _ else _ : Narrowed WordRange).left.leq v = true
      split
      · exact leq_refl v
      · refine leq_iff.mpr ⟨rfl, ?_, le_rfl⟩
        show v.lo.toNat ≤ (if v.lo = 0 then 1 else v.lo).toNat
        split
        · rename_i h0
          rw [h0]
          exact Nat.zero_le _
        · exact le_rfl

end WordRange

/-! ## Intervals -/

namespace Interval

variable {a b c d v w : Interval} {bound : UInt32}

theorem leq_iff : a.leq b = true ↔ a.hi.toInt < a.lo.toInt ∨
    (b.lo.toInt ≤ a.lo.toInt ∧ a.hi.toInt ≤ b.hi.toInt) := by
  simp only [leq, isBottom, Bool.or_eq_true, Bool.and_eq_true, decide_eq_true_eq,
    Int64.lt_iff_toInt_lt, Int64.le_iff_toInt_le]

theorem leq_refl (a : Interval) : a.leq a = true := leq_iff.mpr (Or.inr ⟨le_rfl, le_rfl⟩)

theorem leq_trans (hab : a.leq b = true) (hbc : b.leq c = true) : a.leq c = true := by
  rw [leq_iff] at *
  omega

def Under (a b : Interval) (p : Interval × Interval) : Prop := p.1.leq a = true ∧ p.2.leq b = true

/-- An interval below another, with members if that one has. -/
structure Part (v w : Interval) : Prop where
  leq : w.leq v = true
  nonempty : v.isBottom = false → w.isBottom = false

theorem Part.refl (v : Interval) : Part v v := ⟨leq_refl v, id⟩

theorem Part.trans (h : Part c v) (h' : Part v w) : Part c w :=
  ⟨leq_trans h'.leq h.leq, fun hc => h'.nonempty (h.nonempty hc)⟩

/-- Each of two operands is narrowed to a part of it. -/
def Parts (a b : Interval) (p : Interval × Interval) : Prop := Part a p.1 ∧ Part b p.2

theorem Parts.refl : Parts a b (a, b) := ⟨.refl a, .refl b⟩

theorem Parts.swap {p : Interval × Interval} (h : Parts a b p) : Parts b a p.swap := ⟨h.2, h.1⟩

theorem meet_leq_left : (meet a b).leq a = true := by
  simp only [leq_iff, meet, Bound.toInt_greater, Bound.toInt_lesser]
  omega

theorem meet_leq_right : (meet a b).leq b = true := by
  simp only [leq_iff, meet, Bound.toInt_greater, Bound.toInt_lesser]
  omega

theorem intersect_left : (v.intersect w).left = meet v w := by
  unfold intersect
  dsimp only
  split <;> rfl

theorem ends_intersect : (v.intersect w).eval.Ends
    (fun u => u = meet v w ∧ ¬ u.isBottom = true) Failure.IsLocal := by
  unfold intersect
  dsimp only
  split
  · exact Eval.ends_cancel_local
  · exact Eval.ends_pure ⟨rfl, ‹_›⟩

theorem exclude_leq {e : Bound} : (v.exclude e).left.leq v = true := by
  have hkept : ∀ (w : Interval) (reason : String), w.leq v = true →
      (if w.isBottom = true then Narrowed.conflicts v reason else .fits w).left.leq v = true := by
    intro w reason hw
    split
    · exact leq_refl v
    · exact hw
  unfold exclude
  split
  · exact leq_refl v
  · rename_i hinf
    have hfin : e.isInf = false := Bool.not_eq_true _ ▸ hinf
    refine hkept _ _ (leq_iff.mpr (Or.inr ⟨?_, ?_⟩))
    · rw [toInt_passLow hfin]
      split <;> omega
    · rw [toInt_passHigh hfin]
      split <;> omega

theorem exclude_part {e : Bound} (h : (v.exclude e).conflict = none) :
    Part v (v.exclude e).left := by
  have hkept : ∀ (w : Interval) (reason : String),
      (if w.isBottom = true then Narrowed.conflicts v reason else .fits w).conflict = none →
      (if w.isBottom = true then Narrowed.conflicts v reason else .fits w).left.isBottom = false := by
    intro w reason hfits
    split at hfits
    · cases hfits
    · rename_i hsome
      rw [if_neg hsome]
      exact Bool.not_eq_true _ ▸ hsome
  refine ⟨exclude_leq, fun hv => ?_⟩
  unfold exclude at *
  split at h
  · rename_i hinf
    rw [if_pos hinf]
    exact hv
  · rename_i hfin
    rw [if_neg hfin]
    exact hkept _ _ h

theorem intersect_part (h : (v.intersect w).conflict = none) : Part v (v.intersect w).left := by
  unfold intersect at *
  dsimp only at *
  split at h
  · cases h
  · rename_i hsome
    rw [if_neg hsome]
    exact ⟨meet_leq_left, fun _ => Bool.not_eq_true _ ▸ hsome⟩

theorem assume_part {expected : Bool} (h : (v.assume expected).conflict = none) :
    Part v (v.assume expected).left := by
  cases expected with
  | false => exact intersect_part h
  | true => exact exclude_part h

theorem assume_leq (v : Interval) (expected : Bool) : (v.assume expected).left.leq v = true := by
  cases expected with
  | false =>
      show (v.intersect _).left.leq v = true
      rw [intersect_left]
      exact meet_leq_left
  | true => exact exclude_leq

section Below

-- Each way to narrow an interval keeps it a part of whatever it was a part of.
variable (h : Part c v)

include h

theorem ends_below : (v.intersect w).eval.Ends (Part c) Failure.IsLocal := by
  refine ends_intersect.imp ?_
  rintro _ ⟨rfl, hmeet⟩
  exact ⟨leq_trans meet_leq_left h.leq, fun _ => Bool.not_eq_true _ ▸ hmeet⟩

theorem ends_meetLow {lo : Bound} : (v.meetLow lo).Ends (Part c) Failure.IsLocal :=
  ends_below h

theorem ends_meetHigh {hi : Bound} :
    (v.meetHigh hi).Ends (Part c) Failure.IsLocal :=
  ends_below h

theorem ends_narrow {o : Option Interval} :
    (v.narrow o).Ends (Part c) Failure.IsLocal := by
  cases o with
  | none => exact Eval.ends_pure h
  | some w => exact ends_below h

theorem ends_exclude {e : Bound} :
    (v.exclude e).eval.Ends (Part c) Failure.IsLocal := by
  unfold Narrowed.eval
  split
  · rename_i hfits
    exact Eval.ends_pure (h.trans (exclude_part hfits))
  · exact Eval.ends_cancel_local

end Below

theorem ends_chooseBelow {n : Bound} : (chooseBelow n).Ends
    (fun o => 0 ≤ o.toInt ∧ o.toInt < n.toInt) Failure.IsLocal := by
  have hn := n.toInt_lt
  refine Eval.ends_bind (Eval.ends_choose_local fun i hi => Eval.ends_pure ?_)
  rw [Int64.toInt_ofNat_of_lt (by omega)]
  omega

theorem ends_shared {n : Bound} {f f' : Bound → Eval Interval}
    (hf : ∀ o, (f o).Ends (Part a) Failure.IsLocal)
    (hf' : ∀ o, (f' o).Ends (Part b) Failure.IsLocal) :
    Eval.Ends (Parts a b) Failure.IsLocal (do
      let o ← chooseBelow n
      return (← f o, ← f' o)) := by
  refine Eval.ends_bind (ends_chooseBelow.imp ?_)
  intro o _
  refine Eval.ends_bind ((hf o).imp ?_)
  intro u hu
  exact Eval.ends_bind ((hf' o).imp fun w hw => Eval.ends_pure ⟨hu, hw⟩)

section Rules

variable (ha : Part c a) (hb : Part d b)

include ha hb

theorem ends_raiseSum {gap : Option Bound} :
    (raiseSum gap a b).Ends (Parts c d) Failure.IsLocal := by
  cases gap with
  | none => exact Eval.ends_pure ⟨ha, hb⟩
  | some g => exact ends_shared (fun _ => ends_meetLow ha) fun _ => ends_meetLow hb

theorem ends_lowerSum {gap : Option Bound} :
    (lowerSum gap a b).Ends (Parts c d) Failure.IsLocal := by
  cases gap with
  | none => exact Eval.ends_pure ⟨ha, hb⟩
  | some g => exact ends_shared (fun _ => ends_meetHigh ha) fun _ => ends_meetHigh hb

theorem ends_raiseDifference {gap : Option Bound} :
    (raiseDifference gap a b).Ends (Parts c d) Failure.IsLocal := by
  cases gap with
  | none => exact Eval.ends_pure ⟨ha, hb⟩
  | some g => exact ends_shared (fun _ => ends_meetLow ha) fun _ => ends_meetHigh hb

theorem ends_lowerDifference {gap : Option Bound} :
    (lowerDifference gap a b).Ends (Parts c d) Failure.IsLocal := by
  cases gap with
  | none => exact Eval.ends_pure ⟨ha, hb⟩
  | some g => exact ends_shared (fun _ => ends_meetHigh ha) fun _ => ends_meetLow hb

theorem ends_raiseProduct {low : Bound} :
    (raiseProduct bound low a b).Ends (Parts c d) Failure.IsLocal := by
  unfold raiseProduct
  split
  · refine Eval.ends_bind ((ends_meetLow ha).imp ?_)
    intro u hu
    dsimp only
    split
    · exact ends_shared (fun _ => ends_meetLow hu) fun _ => ends_meetLow hb
    · exact Eval.ends_pure ⟨hu, hb⟩
  · exact Eval.ends_pure ⟨ha, hb⟩

theorem ends_lowerProduct {high : Bound} :
    (lowerProduct bound high a b).Ends (Parts c d) Failure.IsLocal := by
  unfold lowerProduct
  split
  · dsimp only
    split
    · exact ends_shared (fun _ => ends_meetHigh ha) fun _ => ends_meetHigh hb
    · exact Eval.ends_pure ⟨ha, hb⟩
  · exact Eval.ends_pure ⟨ha, hb⟩

end Rules

theorem ends_backwardAdd {r : Interval} :
    (backwardAdd bound r a b).Ends (Parts a b) Failure.IsLocal := by
  refine Eval.ends_bind ((ends_narrow (.refl a)).imp ?_)
  intro u hu
  refine Eval.ends_bind ((ends_narrow (.refl b)).imp ?_)
  intro w hw
  cases add? u w with
  | none => exact Eval.ends_pure ⟨hu, hw⟩
  | some sum => exact Eval.ends_bind ((ends_raiseSum hu hw).imp fun p hp => ends_lowerSum hp.1 hp.2)

theorem ends_backwardSub {r : Interval} :
    (backwardSub bound r a b).Ends (Parts a b) Failure.IsLocal := by
  refine Eval.ends_bind ((ends_narrow (.refl a)).imp ?_)
  intro u hu
  refine Eval.ends_bind ((ends_narrow (.refl b)).imp ?_)
  intro w hw
  cases sub? u w with
  | none => exact Eval.ends_pure ⟨hu, hw⟩
  | some diff =>
      exact Eval.ends_bind ((ends_raiseDifference hu hw).imp fun p hp =>
        ends_lowerDifference hp.1 hp.2)

theorem ends_narrowUnless {β : Type} {e : Prop} {_ : Decidable e} {o : Option Interval}
    {f : Interval → Eval β} {Q : β → Prop}
    (hf : ∀ u, Part v u → (f u).Ends Q Failure.IsLocal) :
    Eval.Ends Q Failure.IsLocal (if e then pure v >>= f else v.narrow o >>= f) := by
  split
  · exact hf v (.refl v)
  · exact Eval.ends_bind ((ends_narrow (.refl v)).imp hf)

theorem ends_backwardMul {r : Interval} :
    (backwardMul bound r a b).Ends (Parts a b) Failure.IsLocal := by
  unfold backwardMul
  split
  · exact Eval.ends_pure .refl
  · refine ends_narrowUnless fun u hu => ?_
    refine ends_narrowUnless fun w hw => ?_
    dsimp only
    split
    · exact Eval.ends_pure ⟨hu, hw⟩
    · exact Eval.ends_bind ((ends_raiseProduct hu hw).imp fun p hp => ends_lowerProduct hp.1 hp.2)

theorem ends_backwardDiv {r : Interval} :
    (backwardDiv r a b).Ends (Parts a b) Failure.IsLocal := by
  unfold backwardDiv
  split
  · exact Eval.ends_pure .refl
  cases mul? b r with
  | none => exact Eval.ends_pure .refl
  | some p =>
      exact Eval.ends_bind ((ends_below (.refl a)).imp fun u hu =>
        Eval.ends_pure ⟨hu, .refl b⟩)

theorem ends_excludeIf {β : Type} {strict : Bool} {e : Bound} {f : Interval → Eval β}
    {Q : β → Prop} (h : Part c v)
    (hf : ∀ u, Part c u → (f u).Ends Q Failure.IsLocal) :
    Eval.Ends Q Failure.IsLocal
      (if strict = true then (v.exclude e).eval >>= f else pure v >>= f) := by
  split
  · exact Eval.ends_bind ((ends_exclude h).imp hf)
  · exact hf v h

theorem ends_backwardGreater {strict : Bool} :
    (backwardGreater bound strict a b).Ends (Parts a b) Failure.IsLocal := by
  refine Eval.ends_bind ((ends_meetLow (.refl a)).imp ?_)
  intro u hu
  refine ends_excludeIf hu fun u hu => ?_
  refine Eval.ends_bind ((ends_meetHigh (.refl b)).imp ?_)
  intro w hw
  refine ends_excludeIf hw fun w hw => ?_
  dsimp only
  split
  · exact Eval.ends_pure ⟨hu, hw⟩
  · refine Eval.ends_bind (Eval.ends_choose_local fun i _ => ?_)
    refine Eval.ends_bind ((ends_meetLow hu).imp ?_)
    intro u hu
    exact Eval.ends_bind ((ends_meetHigh hw).imp fun w hw => Eval.ends_pure ⟨hu, hw⟩)

theorem ends_backwardLess {strict : Bool} :
    (backwardLess bound strict a b).Ends (Parts a b) Failure.IsLocal :=
  Eval.ends_bind (ends_backwardGreater.imp fun _ hp => Eval.ends_pure hp.swap)

theorem ends_backwardEq : (backwardEq bound a b).Ends (Parts a b) Failure.IsLocal := by
  refine Eval.ends_bind (ends_intersect.imp ?_)
  rintro m ⟨rfl, hm⟩
  have hsome : (meet a b).isBottom = false := Bool.not_eq_true _ ▸ hm
  have hmeet : Part a (meet a b) ∧ Part b (meet a b) :=
    ⟨⟨meet_leq_left, fun _ => hsome⟩, meet_leq_right, fun _ => hsome⟩
  split
  · rename_i hwithin
    obtain ⟨⟨hlo, hhi⟩, hsize⟩ := size_exact hm hwithin
    rw [Bound.finite_iff] at hlo hhi
    refine Eval.ends_bind (ends_chooseBelow.imp ?_)
    intro o ho
    have hp := Bound.toInt_add (a := (meet a b).lo) (b := o) (by omega) (by omega)
    have hpoint : Part (meet a b) (point ((meet a b).lo + o)) := by
      refine ⟨leq_iff.mpr (Or.inr ?_), fun _ => decide_eq_false Int64.lt_irrefl⟩
      simp only [point]
      omega
    exact Eval.ends_pure ⟨hmeet.1.trans hpoint, hmeet.2.trans hpoint⟩
  · exact Eval.ends_pure hmeet

theorem ends_backwardNe : (backwardNe bound a b).Ends (Parts a b) Failure.IsLocal := by
  unfold backwardNe
  split_ifs
  · exact Eval.ends_pure .refl
  · exact Eval.ends_bind ((ends_exclude (.refl b)).imp fun _ hw =>
      Eval.ends_pure ⟨.refl a, hw⟩)
  · exact Eval.ends_bind ((ends_exclude (.refl a)).imp fun _ hu =>
      Eval.ends_pure ⟨hu, .refl b⟩)
  · refine Eval.ends_bind (Eval.ends_choose_local fun i _ => ?_)
    split
    · exact ends_backwardGreater
    · exact ends_backwardLess

theorem ends_backwardRelation {rel : Relation} :
    (backwardRelation bound rel a b).Ends (Parts a b) Failure.IsLocal := by
  cases rel with
  | eq => exact ends_backwardEq
  | ne => exact ends_backwardNe
  | sgt | ugt | sge | uge => exact ends_backwardGreater
  | slt | ult | sle | ule => exact ends_backwardLess

theorem ends_toTristate : (toTristate v).Ends (fun _ => True) Failure.IsLocal := by
  unfold toTristate
  split_ifs
  · exact Eval.ends_cancel_local
  all_goals exact Eval.ends_pure trivial

theorem ends_backwardCompare {rel : Relation} {r : Interval} :
    (backwardCompare bound rel r a b).Ends (Parts a b) Failure.IsLocal := by
  refine Eval.ends_bind (ends_toTristate.imp ?_)
  intro t _
  cases t with
  | yes | no => exact ends_backwardRelation
  | maybe | invalid => exact Eval.ends_pure .refl

/-- Narrowing leaves a part of each operand. -/
theorem ends_backward_parts (bound : UInt32) (tag : Tag) (r a b : Interval) :
    (backward bound tag r a b).Ends (Parts a b) Failure.IsLocal := by
  cases tag with
  | arith op =>
      cases op with
      | add => exact ends_backwardAdd
      | sub => exact ends_backwardSub
      | mul => exact ends_backwardMul
      | sdiv | udiv => exact ends_backwardDiv
      | _ => exact Eval.ends_imprecise .refl
  | relation rel => exact ends_backwardCompare
  | cast c =>
      cases c with
      | zext | sext | trunc | zfit =>
          exact Eval.ends_bind ((ends_below (.refl a)).imp fun u hu =>
            Eval.ends_pure ⟨hu, .refl b⟩)
      | _ => exact Eval.ends_imprecise .refl
  | _ => exact Eval.ends_imprecise .refl

/-- **Narrowing over intervals only narrows.** -/
theorem ends_backward (bound : UInt32) (tag : Tag) (r a b : Interval) :
    (backward bound tag r a b).Ends (Under a b) Failure.IsLocal :=
  (ends_backward_parts bound tag r a b).imp fun _ hp => ⟨hp.1.leq, hp.2.leq⟩

theorem ends_meet_part (a b : Interval) : (binary .meet a b).Ends (Part a) Failure.IsLocal := by
  show (make _ _).Ends _ _
  unfold make
  dsimp only
  split
  · exact Eval.ends_cancel_local
  · rename_i hsome
    exact Eval.ends_pure ⟨meet_leq_left, fun _ => Bool.not_eq_true _ ▸ hsome⟩

theorem ends_meet (a b : Interval) :
    (binary .meet a b).Ends (fun m => m.leq a = true) Failure.IsLocal :=
  (ends_meet_part a b).imp fun _ hm => hm.leq

end Interval

end Narrowing
