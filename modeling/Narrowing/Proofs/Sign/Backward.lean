/-
# Narrowing of signs keeps every pair

Given what is known of a comparison, the backward rules remove signs in two steps, and the
second step reads the operand that the first has just changed.  Two facts carry everything
that is said here of the rules.

A pair of members that satisfies the relation survives both steps (`keeps_backwardRelation`):
each step removes the signs that no member of the other operand goes with, and that remains
true of the operand the first step leaves, since it still has its half of the pair.

Where two sets have no such pair the rules give up (`exists_holds_or`).  There are only a few
ways to have none, since there are negative integers below any integer and positive ones above:
an order can fail only where nothing on the left is negative and nothing on the right positive,
and a difference only between two zeros.

So where narrowing returns, the sets it was given have such a pair, it is still there, and a
comparison forward of what is left cannot come to the opposite.
-/
import Narrowing.Proofs.Order.Leaf
import Narrowing.Proofs.Sign

namespace Narrowing

theorem Relation.negate_negate (rel : Relation) : rel.negate.negate = rel := by
  cases rel <;> rfl

namespace Sign

variable {a b r v w : Sign} {x y z : Int}

/-! ## Members of what is left -/

theorem mem_meet : x ∈ meet a b ↔ x ∈ a ∧ x ∈ b := by
  rcases lt_trichotomy x 0 with hx | rfl | hx
  · simp [mem_def, meet, hx, hx.ne, hx.not_gt]
  · simp [mem_def, meet]
  · simp [mem_def, meet, hx, hx.ne', hx.not_gt]

theorem mem_diff : x ∈ diff a b ↔ x ∈ a ∧ ¬ x ∈ b := by
  rcases lt_trichotomy x 0 with hx | rfl | hx
  · simp [mem_def, diff, hx, hx.ne, hx.not_gt]
  · simp [mem_def, diff]
  · simp [mem_def, diff, hx, hx.ne', hx.not_gt]

theorem mem_of_leq (h : a.leq b = true) (hx : x ∈ a) : x ∈ b := by
  obtain ⟨hneg, hzero, hpos⟩ := leq_iff.mp h
  exact hx.imp (And.imp_right hneg) (Or.imp (And.imp_right hzero) (And.imp_right hpos))

theorem exists_mem (h : a ≠ bot) : ∃ x : Int, x ∈ a := by
  obtain ⟨neg, zero, pos⟩ := a
  cases neg with
  | true => exact ⟨-1, Or.inl ⟨by decide, rfl⟩⟩
  | false =>
      cases zero with
      | true => exact ⟨0, Or.inr (Or.inl ⟨rfl, rfl⟩)⟩
      | false =>
          cases pos with
          | true => exact ⟨1, Or.inr (Or.inr ⟨by decide, rfl⟩)⟩
          | false => exact absurd rfl h

theorem nonBottom_of_mem {what : String} (h : x ∈ v) : nonBottom what v = pure v := by
  refine if_neg ?_
  rintro rfl
  exact not_mem_bot h

theorem describes_toTristate (h : v ≠ bot) :
    ∃ t, toTristate v = pure t ∧ t.Describes {x | x ∈ v} := by
  obtain ⟨x, hx⟩ := exists_mem h
  unfold toTristate
  rw [if_neg h]
  split_ifs with heqz hzero
  · subst heqz
    exact ⟨.no, rfl, Set.ext fun x => mem_eqz⟩
  · refine ⟨.maybe, rfl, Or.inr (Or.inl ⟨rfl, hzero⟩), ?_⟩
    have hrest : diff v eqz ≠ bot := by
      obtain ⟨_ | _, _ | _, _ | _⟩ := v <;> simp_all [diff, eqz, bot]
    obtain ⟨y, hy⟩ := exists_mem hrest
    obtain ⟨hyv, hne⟩ := mem_diff.mp hy
    exact ⟨y, hyv, fun h0 => hne (mem_eqz.mpr h0)⟩
  · refine ⟨.yes, rfl, ⟨x, hx⟩, fun h0 => hzero ?_⟩
    simpa [mem_def] using h0

theorem toTristate_of_mem (h : x ∈ v) : ∃ t, toTristate v = pure t ∧ t.Admits (x != 0) := by
  have hbot : v ≠ bot := by
    rintro rfl
    exact not_mem_bot h
  obtain ⟨t, ht, hdescribes⟩ := describes_toTristate hbot
  exact ⟨t, ht, hdescribes.admits h⟩

/-! ## A pair survives -/

/-- Two sets that still have two integers. -/
def Keeps (x y : Int) (p : Sign × Sign) : Prop := x ∈ p.1 ∧ y ∈ p.2

theorem Keeps.swap {p : Sign × Sign} (h : Keeps x y p) : Keeps y x p.swap := ⟨h.2, h.1⟩

/-- The strict order, or the other. -/
def Before (strict : Bool) (x y : Int) : Prop := if strict then x < y else x ≤ y

theorem Before.le {strict : Bool} (h : Before strict x y) : x ≤ y := by
  cases strict with
  | true => exact Int.le_of_lt h
  | false => exact h

/-- The first test of the rule for an order: what is before a member of `b` is negative. -/
theorem neg_of_before {strict : Bool} (h : Before strict x y)
    (hfar : (leq b ltz || (strict && leq b lez)) = true) (hy : y ∈ b) : x < 0 := by
  rw [Bool.or_eq_true, Bool.and_eq_true] at hfar
  rcases hfar with hltz | ⟨rfl, hlez⟩
  · exact h.le.trans_lt (mem_ltz.mp (mem_of_leq hltz hy))
  · exact lt_of_lt_of_le h (mem_lez.mp (mem_of_leq hlez hy))

theorem pos_of_before {strict : Bool} (h : Before strict x y)
    (hfar : (leq a gtz || (strict && leq a gez)) = true) (hx : x ∈ a) : 0 < y := by
  rw [Bool.or_eq_true, Bool.and_eq_true] at hfar
  rcases hfar with hgtz | ⟨rfl, hgez⟩
  · exact (mem_gtz.mp (mem_of_leq hgtz hx)).trans_le h.le
  · exact lt_of_le_of_lt (mem_gez.mp (mem_of_leq hgez hx)) h

theorem ends_diff_bind_of_mem {β : Type} {Q : β → Prop} {E : Failure → Prop} {what : String}
    {f : Sign → Eval β} (hx : x ∈ v) (hw : ¬ x ∈ w) (hf : ∀ u, x ∈ u → (f u).Ends Q E) :
    (nonBottom what (diff v w) >>= f).Ends Q E := by
  have hleft : x ∈ diff v w := mem_diff.mpr ⟨hx, hw⟩
  rw [nonBottom_of_mem hleft, pure_bind]
  exact hf _ hleft

section Survives

variable (hx : x ∈ a) (hy : y ∈ b)

include hx hy

theorem keeps_backwardEq (h : x = y) : (backwardEq a b).Ends (Keeps x y) fun _ => False := by
  subst h
  have hmeet : x ∈ meet a b := mem_meet.mpr ⟨hx, hy⟩
  unfold backwardEq
  rw [nonBottom_of_mem hmeet]
  exact Eval.ends_pure ⟨hmeet, hmeet⟩

theorem keeps_backwardNe (h : x ≠ y) : (backwardNe a b).Ends (Keeps x y) fun _ => False := by
  have hleft : ∀ b', y ∈ b' → Eval.Ends (Keeps x y) (fun _ => False)
      (if b' = eqz then nonBottom "ne" (diff a eqz) >>= fun a => pure (a, b')
        else pure a >>= fun a => pure (a, b')) := by
    intro b' hy
    split
    · subst b'
      refine ends_diff_bind_of_mem hx ?_ fun a' hx => Eval.ends_pure ⟨hx, hy⟩
      rw [mem_eqz] at hy ⊢
      omega
    · exact Eval.ends_pure ⟨hx, hy⟩
  unfold backwardNe
  split
  · subst a
    refine ends_diff_bind_of_mem hy ?_ hleft
    rw [mem_eqz] at hx ⊢
    omega
  · exact hleft b hy

theorem keeps_backwardLess {strict : Bool} (h : Before strict x y) :
    (backwardLess strict a b).Ends (Keeps x y) fun _ => False := by
  -- what the second step is given still has `x`, and that is all it reads of the first
  have hright : ∀ a', x ∈ a' → Eval.Ends (Keeps x y) (fun _ => False)
      (if (leq a' gtz || (strict && leq a' gez)) = true then
          nonBottom "order" (diff b lez) >>= fun b => pure (a', b)
        else if leq a' gez = true then nonBottom "order" (diff b ltz) >>= fun b => pure (a', b)
        else pure b >>= fun b => pure (a', b)) := by
    intro a' hx
    split_ifs with hfar hnear
    · refine ends_diff_bind_of_mem hy ?_ fun b' hy => Eval.ends_pure ⟨hx, hy⟩
      rw [mem_lez]
      exact (pos_of_before h hfar hx).not_ge
    · refine ends_diff_bind_of_mem hy ?_ fun b' hy => Eval.ends_pure ⟨hx, hy⟩
      rw [mem_ltz]
      exact ((mem_gez.mp (mem_of_leq hnear hx)).trans h.le).not_gt
    · exact Eval.ends_pure ⟨hx, hy⟩
  unfold backwardLess
  split_ifs with hfar hnear
  · refine ends_diff_bind_of_mem hx ?_ hright
    rw [mem_gez]
    exact (neg_of_before h hfar hy).not_ge
  · refine ends_diff_bind_of_mem hx ?_ hright
    rw [mem_gtz]
    exact (h.le.trans (mem_lez.mp (mem_of_leq hnear hy))).not_gt
  · exact hright a hx

theorem keeps_backwardRelation {rel : Relation} (h : rel.holds? x y = some true) :
    (backwardRelation rel a b).Ends (Keeps x y) fun _ => False := by
  cases rel with
  | eq => exact keeps_backwardEq hx hy (beq_iff_eq.mp (Option.some.inj h))
  | ne => exact keeps_backwardNe hx hy (bne_iff_ne.mp (Option.some.inj h))
  | slt | sle =>
      refine keeps_backwardLess hx hy ?_
      simpa [Relation.holds?, Before] using h
  | sgt | sge =>
      refine Eval.ends_bind ((keeps_backwardLess hy hx ?_).imp fun p hp => Eval.ends_pure hp.swap)
      simpa [Relation.holds?, Before] using h
  | ult | ule | ugt | uge => cases h

end Survives

/-! ## No pair, no result -/

theorem exists_lt_or (ha : a ≠ bot) (hb : b ≠ bot) :
    (∃ x ∈ a, ∃ y ∈ b, x < y) ∨ (a.neg = false ∧ b.pos = false) := by
  by_cases hneg : a.neg = true
  · obtain ⟨y, hy⟩ := exists_mem hb
    refine Or.inl ⟨min (-1) (y - 1), Or.inl ⟨?_, hneg⟩, y, hy, ?_⟩ <;> omega
  by_cases hpos : b.pos = true
  · obtain ⟨x, hx⟩ := exists_mem ha
    refine Or.inl ⟨x, hx, max 1 (x + 1), Or.inr (Or.inr ⟨?_, hpos⟩), ?_⟩ <;> omega
  · exact Or.inr ⟨Bool.eq_false_of_not_eq_true hneg, Bool.eq_false_of_not_eq_true hpos⟩

theorem sure_diff_bind_of_bot {β : Type} {Q : β → Prop} {what : String} {f : Sign → Eval β}
    (h : diff v w = bot) : (nonBottom what (diff v w) >>= f).Sure Q := by
  rw [h]
  exact Eval.sure_bind Eval.sure_cancel

theorem exists_before_or (strict : Bool) (ha : a ≠ bot) (hb : b ≠ bot) :
    (∃ x ∈ a, ∃ y ∈ b, Before strict x y) ∨ (backwardLess strict a b).Sure fun _ => False := by
  rcases exists_lt_or ha hb with ⟨x, hx, y, hy, hlt⟩ | ⟨hneg, hpos⟩
  · refine Or.inl ⟨x, hx, y, hy, ?_⟩
    cases strict with
    | true => exact hlt
    | false => exact Int.le_of_lt hlt
  by_cases hzero : strict = false ∧ a.zero = true ∧ b.zero = true
  · obtain ⟨rfl, hza, hzb⟩ := hzero
    exact Or.inl ⟨0, Or.inr (Or.inl ⟨rfl, hza⟩), 0, Or.inr (Or.inl ⟨rfl, hzb⟩), Int.le_refl 0⟩
  -- what is left of `a` after the first step would have to be negative, or zero beside a zero
  refine Or.inr ?_
  have hlez : leq b lez = true := leq_iff.mpr ⟨fun _ => rfl, fun _ => rfl, by simp [hpos]⟩
  unfold backwardLess
  split_ifs with hfar
  · exact sure_diff_bind_of_bot (by simp [diff, gez, bot, hneg])
  · have hnear : b.zero = true ∧ strict = false := by
      simpa [leq_iff, ltz, lez, hpos] using hfar
    have hza : a.zero = false := by
      simpa [hnear.1, hnear.2] using hzero
    exact sure_diff_bind_of_bot (by simp [diff, gtz, bot, hneg, hza])

theorem exists_ne_or (ha : a ≠ bot) (hb : b ≠ bot) :
    (∃ x ∈ a, ∃ y ∈ b, x ≠ y) ∨ (a = eqz ∧ b = eqz) := by
  rcases exists_lt_or ha hb with ⟨x, hx, y, hy, hlt⟩ | ⟨hna, hpb⟩
  · exact Or.inl ⟨x, hx, y, hy, hlt.ne⟩
  rcases exists_lt_or hb ha with ⟨y, hy, x, hx, hlt⟩ | ⟨hnb, hpa⟩
  · exact Or.inl ⟨x, hx, y, hy, hlt.ne'⟩
  refine Or.inr ?_
  have heqz {c : Sign} (hc : c ≠ bot) (hneg : c.neg = false) (hpos : c.pos = false) : c = eqz := by
    obtain ⟨neg, zero, pos⟩ := c
    obtain rfl : neg = false := hneg
    obtain rfl : pos = false := hpos
    cases zero with
    | true => rfl
    | false => exact absurd rfl hc
  exact ⟨heqz ha hna hpa, heqz hb hnb hpb⟩

/-- The relations that signs decide. -/
def decided : List Relation := [.eq, .ne, .slt, .sle, .sgt, .sge]

theorem exists_holds_or {rel : Relation} (hrel : rel ∈ decided) (ha : a ≠ bot) (hb : b ≠ bot) :
    (∃ x ∈ a, ∃ y ∈ b, rel.holds? x y = some true) ∨
      (backwardRelation rel a b).Sure fun _ => False := by
  have hswap {strict : Bool} (h : (backwardLess strict b a).Sure fun _ => False) :
      Eval.Sure (fun _ => False) (do return (← backwardLess strict b a).swap) :=
    Eval.sure_bind (h.mono fun _ hf => hf.elim)
  cases rel with
  | eq =>
      by_cases hmeet : meet a b = bot
      · refine Or.inr ?_
        show (nonBottom "eq" (meet a b) >>= fun m => pure (m, m)).Sure _
        rw [hmeet]
        exact Eval.sure_bind Eval.sure_cancel
      · obtain ⟨x, hx⟩ := exists_mem hmeet
        exact Or.inl ⟨x, (mem_meet.mp hx).1, x, (mem_meet.mp hx).2, by simp [Relation.holds?]⟩
  | ne =>
      rcases exists_ne_or ha hb with ⟨x, hx, y, hy, hne⟩ | ⟨rfl, rfl⟩
      · exact Or.inl ⟨x, hx, y, hy, by simp [Relation.holds?, hne]⟩
      · exact Or.inr (sure_diff_bind_of_bot rfl)
  | slt | sle =>
      refine (exists_before_or _ ha hb).imp_left ?_
      rintro ⟨x, hx, y, hy, h⟩
      exact ⟨x, hx, y, hy, by simpa [Relation.holds?, Before] using h⟩
  | sgt | sge =>
      refine (exists_before_or _ hb ha).imp ?_ hswap
      rintro ⟨y, hy, x, hx, h⟩
      exact ⟨x, hx, y, hy, by simpa [Relation.holds?, Before] using h⟩
  | ult | ule | ugt | uge => simp [decided] at hrel

/-! ## From a result that is known -/

theorem toTristate_of_truth_mem {t : Bool} (h : (if t then 1 else 0 : Int) ∈ v) :
    ∃ s, toTristate v = pure s ∧ s.Admits t := by
  obtain ⟨s, hs, htruth⟩ := toTristate_of_mem h
  refine ⟨s, hs, ?_⟩
  cases t <;> exact htruth

/-- The rule for a relation, by what its result is known to be. -/
def backwardFrom (t : Tristate) (rel : Relation) (a b : Sign) : Eval (Sign × Sign) :=
  match t with
  | .yes => backwardRelation rel a b
  | .no => backwardRelation rel.negate a b
  | .maybe | .invalid => pure (a, b)

theorem backward_relation_eq {rel : Relation} (hrel : rel ∈ decided) :
    backward (.relation rel) r a b = toTristate r >>= fun t => backwardFrom t rel a b := by
  cases rel with
  | ult | ule | ugt | uge => simp [decided] at hrel
  | _ => rfl

theorem keeps_backward_relation {rel : Relation} (hrel : rel ∈ decided) (hx : x ∈ a) (hy : y ∈ b)
    (hz : rel.eval? x y = some z) (hr : z ∈ r) :
    (backward (.relation rel) r a b).Ends (Keeps x y) fun _ => False := by
  obtain ⟨t, ht, rfl⟩ := Option.map_eq_some_iff.mp hz
  obtain ⟨s, hs, htruth⟩ := toTristate_of_truth_mem hr
  rw [backward_relation_eq hrel, hs, pure_bind]
  cases s with
  | yes => exact keeps_backwardRelation hx hy (htruth ▸ ht)
  | no =>
      have hnot := Relation.holds?_negate ht
      rw [htruth] at hnot
      exact keeps_backwardRelation hx hy hnot
  | maybe | invalid => exact Eval.ends_pure ⟨hx, hy⟩

theorem keeps_backward_sext (hx : x ∈ a) (hy : y ∈ b) (hr : x ∈ r) :
    (backward (.cast .sext) r a b).Ends (Keeps x y) fun _ => False := by
  have hmeet : x ∈ meet a r := mem_meet.mpr ⟨hx, hr⟩
  show (nonBottom "sext" (meet a r) >>= fun m => pure (m, b)).Ends _ _
  rw [nonBottom_of_mem hmeet]
  exact Eval.ends_pure ⟨hmeet, hy⟩

theorem exists_below {tag : Tag} (h : (backward tag r a b).Ends (Keeps x y) fun _ => False)
    (answers : List Int) :
    ∃ a' b', ((backward tag r a b).run.play answers).result = .ok (a', b') ∧
      a'.leq a = true ∧ x ∈ a' ∧ b'.leq b = true ∧ y ∈ b' := by
  have hboth := ((ends_backward tag r a b).and h).mono (fun _ => id) fun _ hfail => hfail.2
  obtain ⟨⟨a', b'⟩, hok, hunder, hkeeps⟩ := (hboth.of_play answers).exists_ok
  exact ⟨a', b', hok, hunder.1, hkeeps.1, hunder.2, hkeeps.2⟩

/-- From a definite result, what is left has a pair with that result. -/
theorem sure_backward_relation {rel : Relation} (hrel : rel ∈ decided) (ha : a ≠ bot)
    (hb : b ≠ bot) {t : Bool} (ht : toTristate r = pure (.ofBool t)) :
    (backward (.relation rel) r a b).Sure fun p =>
      ∃ x ∈ p.1, ∃ y ∈ p.2, rel.holds? x y = some t := by
  have hpairs {rel' : Relation} (hrel' : rel' ∈ decided) :
      (backwardRelation rel' a b).Sure fun p =>
        ∃ x ∈ p.1, ∃ y ∈ p.2, rel'.holds? x y = some true := by
    rcases exists_holds_or hrel' ha hb with ⟨x, hx, y, hy, h⟩ | hnone
    · exact (keeps_backwardRelation hx hy h).sure.mono fun p hp => ⟨x, hp.1, y, hp.2, h⟩
    · exact hnone.mono fun p hp => hp.elim
  rw [backward_relation_eq hrel, ht, pure_bind]
  cases t with
  | true => exact hpairs hrel
  | false =>
      have hnegate : rel.negate ∈ decided := by
        revert hrel
        cases rel <;> decide
      refine (hpairs hnegate).mono ?_
      rintro p ⟨x, hx, y, hy, h⟩
      exact ⟨x, hx, y, hy, rel.negate_negate ▸ Relation.holds?_negate h⟩

theorem binary_relation_of_pair {rel : Relation} (hx : x ∈ a) (hy : y ∈ b) {t : Bool}
    (h : rel.holds? x y = some t) :
    ∃ v s, binary (.relation rel) a b = pure v ∧ toTristate v = pure s ∧ s ≠ .ofBool (!t) := by
  have hmem := mem_compareSigned hx hy (congrArg (Option.map _) h)
  have hcompare : compare rel a b = compareSigned rel a b := by
    cases rel with
    | ult | ule | ugt | uge => cases h
    | _ => rfl
  obtain ⟨s, hs, htruth⟩ := toTristate_of_truth_mem hmem
  refine ⟨_, s, rfl, hcompare ▸ hs, ?_⟩
  rintro rfl
  cases t <;> cases htruth

/-- **Narrowing of signs keeps every pair.**  Take two integers and sets with their signs.  From
the result of comparing the two, or the first one again under an extension, in any set of signs
that has it, narrowing returns sets that are no larger and still have the signs of both.  And
from a definite result, whatever sets it is given, it never returns two whose comparison comes
to the opposite. -/
theorem backward_keeps_pairs (r a b : Sign) :
    (∀ rel ∈ decided, ∀ x y z : Int, x ∈ a → y ∈ b → rel.eval? x y = some z → z ∈ r →
      ∀ answers, ∃ a' b',
        ((backward (.relation rel) r a b).run.play answers).result = .ok (a', b') ∧
          a'.leq a = true ∧ x ∈ a' ∧ b'.leq b = true ∧ y ∈ b') ∧
    (∀ x y : Int, x ∈ a → y ∈ b → x ∈ r →
      ∀ answers, ∃ a' b',
        ((backward (.cast .sext) r a b).run.play answers).result = .ok (a', b') ∧
          a'.leq a = true ∧ x ∈ a' ∧ b'.leq b = true ∧ y ∈ b') ∧
    (a ≠ bot → b ≠ bot → ∀ rel ∈ decided, ∀ t, toTristate r = pure (.ofBool t) →
      ∀ answers a' b',
        ((backward (.relation rel) r a b).run.play answers).result = .ok (a', b') →
          ∃ v s, binary (.relation rel) a' b' = pure v ∧ toTristate v = pure s ∧
            s ≠ .ofBool (!t)) := by
  refine ⟨?_, ?_, ?_⟩
  · intro rel hrel x y z hx hy hz hr answers
    exact exists_below (keeps_backward_relation hrel hx hy hz hr) answers
  · intro x y hx hy hr answers
    exact exists_below (keeps_backward_sext hx hy hr) answers
  · intro ha hb rel hrel t ht answers a' b' hok
    obtain ⟨x, hx, y, hy, h⟩ := (sure_backward_relation hrel ha hb ht).of_play hok
    exact binary_relation_of_pair hx hy h

/-- That `x ≤ y` fails, of any `x` and of `y` not negative, leaves 5 and 0; and whatever it
leaves, a comparison does not come to `x ≤ y` again.  Of -3, extended to something not positive,
the sign is kept. -/
theorem backward_keeps_pairs_above :
    (∃ a' b', ((backward (.relation .sle) eqz top gez).run.play []).result = .ok (a', b') ∧
      a'.leq top = true ∧ 5 ∈ a' ∧ b'.leq gez = true ∧ 0 ∈ b') ∧
    (∃ a' b', ((backward (.cast .sext) lez nez gez).run.play []).result = .ok (a', b') ∧
      a'.leq nez = true ∧ -3 ∈ a' ∧ b'.leq gez = true ∧ 0 ∈ b') ∧
    ∃ v s, binary (.relation .sle) gtz gez = pure v ∧ toTristate v = pure s ∧ s ≠ .yes := by
  refine ⟨?_, ?_, ?_⟩
  · exact (backward_keeps_pairs eqz top gez).1 .sle (by decide) 5 0 0 mem_top
      (mem_gez.mpr (by decide)) rfl (mem_eqz.mpr rfl) []
  · exact (backward_keeps_pairs lez nez gez).2.1 (-3) 0 (Or.inl ⟨by decide, rfl⟩)
      (mem_gez.mpr (by decide)) (mem_lez.mpr (by decide)) []
  · exact (backward_keeps_pairs eqz top gez).2.2 (by decide) (by decide) .sle (by decide) false rfl
      [] gtz gez rfl

end Sign

end Narrowing
