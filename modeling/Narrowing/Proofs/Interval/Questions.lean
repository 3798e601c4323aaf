/-
# The questions that narrowing asks

Narrowing has a split chosen where few alternatives remain, and the choose bound says how
many are few.  Here every question on every way through `backward` is counted: whatever is
answered, it has at least two alternatives and at most one more than the bound, and no
choice is ever made among none.

Each place where a choice is made tests a number against the bound first: a gap between two
sums, the ends that may be picked for a factor, the integers that two operands have in
common.  There is one place that tests nothing.  Two operands that are known to differ,
with neither a point at an end of the other, are told apart by a choice of their order,
between two alternatives and whatever the bound.  So the count is right for every bound but
0, and for 0 exactly where no operands have to be told apart.
-/
import Narrowing.Proofs.Interval.Relations

namespace Narrowing

namespace Eval

variable {α β : Type} {k : Nat} {e : Eval α}

/-- Every question has at least two alternatives and at most `k`, and there is no choice
among none. -/
structure Poses (k : Nat) (e : Eval α) : Prop where
  asks : e.Asks fun n => 2 ≤ n ∧ n ≤ k
  sound : e.Ends (fun _ => True) fun err => ∀ n, err ≠ .misuse (.noAlternatives n)

theorem Poses.mono {j : Nat} (h : Poses j e) (hjk : j ≤ k) : Poses k e :=
  ⟨h.asks.mono fun _ hn => ⟨hn.1, hn.2.trans hjk⟩, h.sound⟩

theorem poses_pure {a : α} : Poses k (pure a : Eval α) := ⟨asks_pure, ends_pure trivial⟩

theorem poses_cancel {reason : String} : Poses k (cancel reason : Eval α) :=
  ⟨asks_cancel, ends_cancel nofun⟩

theorem poses_note {x : Event} : Poses k (note x) := ⟨asks_note, ends_note trivial⟩

theorem poses_bind {f : α → Eval β} (he : Poses k e) (hf : ∀ a, Poses k (f a)) :
    Poses k (e >>= f) :=
  ⟨asks_bind he.asks fun a => (hf a).asks, ends_bind (he.sound.imp fun a _ => (hf a).sound)⟩

theorem poses_choose {n : Int} (hpos : 1 ≤ n) (hle : n ≤ k) : Poses k (choose n) := by
  refine ⟨asks_choose fun _ => by omega, ends_choose (fun _ _ => trivial) ?_ nofun⟩
  intro hnone
  omega

theorem Poses.asked_eq_nil (h : Poses 1 e) (answers : List Int) :
    (e.run.play answers).asked = [] := by
  refine List.eq_nil_iff_forall_not_mem.mpr fun n hn => ?_
  have := h.asks.of_play answers n hn
  omega

end Eval

open Eval (Poses poses_pure poses_bind)

theorem Narrowed.poses_eval {α : Type} {k : Nat} (n : Narrowed α) : Poses k n.eval := by
  unfold Narrowed.eval
  split
  · exact poses_pure
  · exact Eval.poses_cancel

namespace Interval

variable {a b r v : Interval} {bound : UInt32} {e : Bound} {k : Nat}

/-! ## Steps -/

theorem poses_narrow {o : Option Interval} : Poses k (v.narrow o) := by
  cases o with
  | none => exact poses_pure
  | some w => exact Narrowed.poses_eval _

theorem poses_chooseBelow {n : Bound} (hpos : 1 ≤ n.toInt) (hle : n.toInt ≤ k) :
    Poses k (chooseBelow n) :=
  poses_bind (Eval.poses_choose hpos hle) fun _ => poses_pure

theorem poses_shared {n : Bound} {f f' : Bound → Narrowed Interval} (hpos : 1 ≤ n.toInt)
    (hle : n.toInt ≤ k) :
    Poses k (do
      let o ← chooseBelow n
      return (← (f o).eval, ← (f' o).eval)) := by
  refine poses_bind (poses_chooseBelow hpos hle) fun o => ?_
  refine poses_bind (Narrowed.poses_eval _) fun _ => ?_
  exact poses_bind (Narrowed.poses_eval _) fun _ => poses_pure

/-! ## Sums and differences

A gap is shared out in one more way than it is wide. -/

theorem toInt_gap_succ {high low gap : Bound} (h : gap? bound high low = some gap) :
    1 ≤ (gap + 1).toInt ∧ (gap + 1).toInt ≤ (bound.toNat + 1 : Nat) := by
  obtain ⟨-, hwithin⟩ := Option.filter_eq_some_iff.mp h
  obtain ⟨hpos, hle⟩ := withinBound_iff.mp hwithin
  have hlt := bound.toNat_lt
  have hone : (1 : Bound).toInt = 1 := rfl
  have hsucc := Bound.toInt_add (a := gap) (b := 1) (by omega) (by omega)
  omega

section Gaps

variable {high low : Bound}

theorem poses_raiseSum : Poses (bound.toNat + 1) (raiseSum (gap? bound high low) a b) := by
  cases hgap : gap? bound high low with
  | none => exact poses_pure
  | some gap => exact poses_shared (toInt_gap_succ hgap).1 (toInt_gap_succ hgap).2

theorem poses_lowerSum : Poses (bound.toNat + 1) (lowerSum (gap? bound high low) a b) := by
  cases hgap : gap? bound high low with
  | none => exact poses_pure
  | some gap => exact poses_shared (toInt_gap_succ hgap).1 (toInt_gap_succ hgap).2

theorem poses_raiseDifference :
    Poses (bound.toNat + 1) (raiseDifference (gap? bound high low) a b) := by
  cases hgap : gap? bound high low with
  | none => exact poses_pure
  | some gap => exact poses_shared (toInt_gap_succ hgap).1 (toInt_gap_succ hgap).2

theorem poses_lowerDifference :
    Poses (bound.toNat + 1) (lowerDifference (gap? bound high low) a b) := by
  cases hgap : gap? bound high low with
  | none => exact poses_pure
  | some gap => exact poses_shared (toInt_gap_succ hgap).1 (toInt_gap_succ hgap).2

end Gaps

theorem poses_backwardAdd : Poses (bound.toNat + 1) (backwardAdd bound r a b) := by
  refine poses_bind poses_narrow fun u => poses_bind poses_narrow fun w => ?_
  cases add? u w with
  | none => exact poses_pure
  | some sum => exact poses_bind poses_raiseSum fun p => poses_lowerSum

theorem poses_backwardSub : Poses (bound.toNat + 1) (backwardSub bound r a b) := by
  refine poses_bind poses_narrow fun u => poses_bind poses_narrow fun w => ?_
  cases sub? u w with
  | none => exact poses_pure
  | some diff => exact poses_bind poses_raiseDifference fun p => poses_lowerDifference

/-! ## Products and quotients -/

theorem poses_raiseProduct : Poses bound.toNat (raiseProduct bound e a b) := by
  unfold raiseProduct
  split
  · refine poses_bind (Narrowed.poses_eval _) fun u => ?_
    dsimp only
    split
    · rename_i hwithin
      rw [withinBound_iff] at hwithin
      exact poses_shared hwithin.1 hwithin.2
    · exact poses_pure
  · exact poses_pure

theorem poses_lowerProduct : Poses bound.toNat (lowerProduct bound e a b) := by
  unfold lowerProduct
  split
  · dsimp only
    split
    · rename_i hwithin
      rw [withinBound_iff] at hwithin
      exact poses_shared hwithin.1 hwithin.2
    · exact poses_pure
  · exact poses_pure

theorem poses_narrowUnless {β : Type} {c : Prop} [Decidable c] {o : Option Interval}
    {f : Interval → Eval β} (hf : ∀ u, Poses k (f u)) :
    Poses k (if c then pure v >>= f else v.narrow o >>= f) := by
  split
  · exact poses_bind poses_pure hf
  · exact poses_bind poses_narrow hf

theorem poses_backwardMul : Poses bound.toNat (backwardMul bound r a b) := by
  unfold backwardMul
  split
  · exact poses_pure
  · refine poses_narrowUnless fun u => poses_narrowUnless fun w => ?_
    dsimp only
    split
    · exact poses_pure
    · exact poses_bind poses_raiseProduct fun p => poses_lowerProduct

theorem poses_backwardDiv : Poses k (backwardDiv r a b) := by
  unfold backwardDiv
  split
  · exact poses_pure
  cases mul? b r with
  | none => exact poses_pure
  | some p => exact poses_bind (Narrowed.poses_eval _) fun u => poses_pure

/-! ## Relations -/

theorem poses_excludeIf {β : Type} {strict : Bool} {f : Interval → Eval β}
    (hf : ∀ u, Poses k (f u)) :
    Poses k (if strict = true then (v.exclude e).eval >>= f else pure v >>= f) := by
  split
  · exact poses_bind (Narrowed.poses_eval _) hf
  · exact poses_bind poses_pure hf

theorem poses_backwardGreater {strict : Bool} :
    Poses (bound.toNat + 1) (backwardGreater bound strict a b) := by
  refine poses_bind (Narrowed.poses_eval _) fun u => poses_excludeIf fun u => ?_
  refine poses_bind (Narrowed.poses_eval _) fun w => poses_excludeIf fun w => ?_
  dsimp only
  split
  · exact poses_pure
  · rename_i hfew
    simp only [Bool.or_eq_true, Bool.not_eq_true', not_or, Bool.not_eq_false, withinBound_iff] at hfew
    obtain ⟨-, hpos, hle⟩ := hfew
    refine poses_bind (Eval.poses_choose ?_ ?_) fun i => ?_
    · split <;> omega
    · split <;> omega
    · refine poses_bind (Narrowed.poses_eval _) fun _ => ?_
      exact poses_bind (Narrowed.poses_eval _) fun _ => poses_pure

theorem poses_backwardLess {strict : Bool} :
    Poses (bound.toNat + 1) (backwardLess bound strict a b) :=
  poses_bind poses_backwardGreater fun _ => poses_pure

theorem poses_backwardEq : Poses bound.toNat (backwardEq bound a b) := by
  refine poses_bind (Narrowed.poses_eval _) fun m => ?_
  split
  · rename_i hwithin
    rw [withinBound_iff] at hwithin
    exact poses_bind (poses_chooseBelow hwithin.1 hwithin.2) fun o => poses_pure
  · exact poses_pure

/-- Two intervals with a word in common, neither of them a point at an end of the other. -/
structure Entangled (a b : Interval) : Prop where
  meet : (meet a b).isBottom = false
  left : ¬ (a.isPoint = true ∧ (a.lo = b.lo ∨ a.lo = b.hi))
  right : ¬ (b.isPoint = true ∧ (b.lo = a.lo ∨ b.lo = a.hi))

/-- Two operands that differ and are not entangled are told apart without a choice. -/
theorem poses_backwardNe (hk : bound.toNat + 1 ≤ k) (h : Entangled a b → 2 ≤ k) :
    Poses k (backwardNe bound a b) := by
  unfold backwardNe
  simp only [Bool.and_eq_true, Bool.or_eq_true, beq_iff_eq]
  split_ifs with hmeet hleft hright
  · exact poses_pure
  · exact poses_bind (Narrowed.poses_eval _) fun w => poses_pure
  · exact poses_bind (Narrowed.poses_eval _) fun u => poses_pure
  · have htwo : 2 ≤ k := h ⟨Bool.not_eq_true _ ▸ hmeet, hleft, hright⟩
    refine poses_bind (Eval.poses_choose (by omega) (by omega)) fun i => ?_
    split
    · exact poses_backwardGreater.mono hk
    · exact poses_backwardLess.mono hk

/-- Entangled operands that differ: the first question is which of them is the greater. -/
theorem asked_backwardNe (h : Entangled a b) (answers : List Int) :
    2 ∈ ((backwardNe bound a b).run.play answers).asked := by
  unfold backwardNe
  simp only [Bool.and_eq_true, Bool.or_eq_true, beq_iff_eq]
  rw [if_neg (Bool.eq_false_iff.mp h.meet), if_neg h.left, if_neg h.right]
  exact List.mem_cons_self

theorem poses_backwardRelation {rel : Relation} (hk : bound.toNat + 1 ≤ k)
    (h : rel = .ne → Entangled a b → 2 ≤ k) : Poses k (backwardRelation bound rel a b) := by
  cases rel with
  | eq => exact poses_backwardEq.mono (by omega)
  | ne => exact poses_backwardNe hk (h rfl)
  | sgt | ugt | sge | uge => exact poses_backwardGreater.mono hk
  | slt | ult | sle | ule => exact poses_backwardLess.mono hk

/-! ## Truth values -/

theorem toTristate_cases (r : Interval) :
    (∃ reason, r.toTristate = Eval.cancel reason) ∨ r.toTristate = pure .maybe ∨
      ∃ t, r.Says t := by
  unfold toTristate
  split_ifs with hbot hpoint hzero
  · exact Or.inl ⟨_, rfl⟩
  · refine Or.inr (Or.inr ⟨false, ?_⟩)
    obtain ⟨lo, hi⟩ := r
    obtain ⟨rfl, rfl⟩ := hpoint
    rfl
  · exact Or.inr (Or.inl rfl)
  · refine Or.inr (Or.inr ⟨true, Bool.not_eq_true _ ▸ hbot, ?_⟩)
    rw [contains_iff, Bound.toInt_zero] at hzero
    rw [mem_iff]
    omega

/-- The result of an equation or an inequation says that the operands differ, and they are
entangled. -/
structure TellsApart (tag : Tag) (r a b : Interval) : Prop where
  differ : (tag = .relation .ne ∧ r.Says true) ∨ (tag = .relation .eq ∧ r.Says false)
  entangled : Entangled a b

theorem TellsApart.backward_eq {tag : Tag} (h : TellsApart tag r a b) :
    backward bound tag r a b = backwardNe bound a b := by
  rcases h.differ with ⟨rfl, hr⟩ | ⟨rfl, hr⟩
  · exact hr.backward_eq
  · exact hr.backward_eq

theorem poses_backwardCompare {rel : Relation} (hk : bound.toNat + 1 ≤ k)
    (h : TellsApart (.relation rel) r a b → 2 ≤ k) :
    Poses k (backwardCompare bound rel r a b) := by
  rcases toTristate_cases r with ⟨reason, hr⟩ | hr | ⟨t, hr⟩
  · unfold backwardCompare
    rw [hr]
    exact Eval.poses_cancel
  · unfold backwardCompare
    rw [hr]
    exact poses_pure
  · show Poses _ (backward bound (.relation rel) r a b)
    rw [hr.backward_eq]
    refine poses_backwardRelation hk fun hne hab => h ⟨?_, hab⟩
    cases t with
    | true => exact Or.inl ⟨congrArg _ hne, hr⟩
    | false =>
        refine Or.inr ⟨congrArg _ ?_, hr⟩
        cases rel <;> first | rfl | cases hne

/-! ## Every operator -/

/-- **Every question of narrowing has at most one alternative more than the bound**, apart from
the one that tells two operands apart, which has two. -/
theorem poses_backward {tag : Tag} (hk : bound.toNat + 1 ≤ k) (h : TellsApart tag r a b → 2 ≤ k) :
    Poses k (backward bound tag r a b) := by
  cases tag with
  | arith op =>
      cases op with
      | add => exact poses_backwardAdd.mono hk
      | sub => exact poses_backwardSub.mono hk
      | mul => exact poses_backwardMul.mono (by omega)
      | sdiv | udiv => exact poses_backwardDiv
      | _ => exact poses_bind Eval.poses_note fun _ => poses_pure
  | relation rel => exact poses_backwardCompare hk h
  | cast c =>
      cases c with
      | zext | sext | trunc | zfit =>
          exact poses_bind (Narrowed.poses_eval _) fun _ => poses_pure
      | _ => exact poses_bind Eval.poses_note fun _ => poses_pure
  | _ => exact poses_bind Eval.poses_note fun _ => poses_pure

theorem TellsApart.two_mem_asked {tag : Tag} (h : TellsApart tag r a b) (answers : List Int) :
    2 ∈ ((backward bound tag r a b).run.play answers).asked := by
  rw [h.backward_eq]
  exact asked_backwardNe h.entangled answers

/-- **The choose bound caps every split, unless it is 0 and two operands have to be told
apart.**  Whatever is answered, no choice is made among no alternatives, and no question has
fewer than one.  A question has at most one alternative more than the bound, except exactly
where the bound is 0 and the operands are told apart; and with the bound 0 nothing at all is
asked, with the same exception. -/
theorem backward_questions_capped_iff (bound : UInt32) (tag : Tag) (r a b : Interval)
    (answers : List Int) :
    let play := (backward bound tag r a b).run.play answers
    ((∀ n, play.result ≠ .error (.misuse (.noAlternatives n))) ∧ ∀ n ∈ play.asked, 1 ≤ n) ∧
      ((∀ n ∈ play.asked, n ≤ bound.toNat + 1) ↔ ¬ (bound = 0 ∧ TellsApart tag r a b)) ∧
      (((backward 0 tag r a b).run.play answers).asked = [] ↔ ¬ TellsApart tag r a b) := by
  intro play
  have hany : Poses (bound.toNat + 2) (backward bound tag r a b) :=
    poses_backward (by omega) fun _ => by omega
  refine ⟨⟨fun n herr => ?_, fun n hn => ?_⟩, ⟨?_, fun h => ?_⟩, ⟨fun hnil h => ?_, fun h => ?_⟩⟩
  · have hsound := hany.sound.of_play answers
    rw [herr] at hsound
    exact hsound n rfl
  · have := hany.asks.of_play answers n hn
    omega
  · rintro hle ⟨rfl, h⟩
    exact absurd (hle 2 (h.two_mem_asked answers)) (by decide)
  · have hcapped : Poses (bound.toNat + 1) (backward bound tag r a b) := by
      refine poses_backward le_rfl fun hapart => ?_
      have hpos : bound.toNat ≠ 0 := fun h0 => h ⟨UInt32.toNat_inj.mp h0, hapart⟩
      omega
    exact fun n hn => (hcapped.asks.of_play answers n hn).2
  · have htwo : 2 ∈ ((backward 0 tag r a b).run.play answers).asked := h.two_mem_asked answers
    rw [hnil] at htwo
    cases htwo
  · have hnone : Poses 1 (backward 0 tag r a b) :=
      poses_backward le_rfl fun hapart => absurd hapart h
    exact hnone.asked_eq_nil answers

/-- With no choice allowed, two operands in 0..10 that differ are still put in order by one. -/
theorem backward_ne_asks_at_zero :
    ((backward 0 (.relation .ne) (point 1) ⟨0, 10⟩ ⟨0, 10⟩).run.play [0]).asked = [2] := by
  decide +kernel

end Interval

end Narrowing
