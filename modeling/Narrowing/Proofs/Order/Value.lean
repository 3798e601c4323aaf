/-
# Narrowing values of any domain

Narrowing brings three values into their common domain and narrows there.  It
fails for a reason of that domain, or because there is no way into it, and never
for a reason of the graph: values know nothing of handles.

Where the three already share a domain, and the table has the domain joined with
itself to itself, nothing is coerced, and what is left of each operand is below
what it was.
-/
import Narrowing.Lattice
import Narrowing.Proofs.Order.Leaf

namespace Narrowing

/-- A failure that comes from the values at hand. -/
def Failure.OfValues : Failure → Prop
  | .misuse (.undefinedJoin _ _) | .misuse (.noCoercion _ _) => True
  | err => err.IsLocal

theorem Failure.IsLocal.ofValues {err : Failure} (h : err.IsLocal) : err.OfValues := by
  unfold OfValues
  split
  · trivial
  · trivial
  · exact h

namespace Eval

variable {α : Type} {Q : α → Prop} {e : Eval α}

theorem Ends.ofValues (h : Ends Q Failure.IsLocal e) : Ends Q Failure.OfValues e :=
  h.mono (fun _ => id) fun _ => Failure.IsLocal.ofValues

theorem Ends.wrap {β : Type} {E : Failure → Prop} {Q : β → Prop} {f : α → β}
    (h : Ends (fun a => Q (f a)) E e) : Ends Q E (do return f (← e)) :=
  ends_bind (h.imp fun _ ha => ends_pure ha)

end Eval

/-! ## The order -/

/-- The order of each domain; two exact words compare only when they are the same. -/
inductive Value.Leq : Value → Value → Prop
  | constant (c : Constant) : Leq (.constant c) (.constant c)
  | sign {a b : Sign} : a.leq b = true → Leq (.sign a) (.sign b)
  | zero {a b : Zero} : a.leq b = true → Leq (.zero a) (.zero b)
  | interval {a b : Interval} : a.leq b = true → Leq (.interval a) (.interval b)
  | words {a b : WordRange} : a.leq b = true → Leq (.words a) (.words b)

namespace Value

variable {a b c v : Value}

theorem Leq.refl (v : Value) : v.Leq v := by
  cases v with
  | constant c => exact .constant c
  | sign s => exact .sign (Sign.leq_refl s)
  | zero z => exact .zero (Zero.leq_refl z)
  | interval i => exact .interval (Interval.leq_refl i)
  | words r => exact .words (WordRange.leq_refl r)

theorem Leq.trans (hab : a.Leq b) (hbc : b.Leq c) : a.Leq c := by
  cases hab with
  | constant => exact hbc
  | sign h =>
      cases hbc with
      | sign h' => exact .sign (Sign.leq_trans h h')
  | zero h =>
      cases hbc with
      | zero h' => exact .zero (Zero.leq_trans h h')
  | interval h =>
      cases hbc with
      | interval h' => exact .interval (Interval.leq_trans h h')
  | words h =>
      cases hbc with
      | words h' => exact .words (WordRange.leq_trans h h')

theorem Leq.domain_eq (h : a.Leq b) : a.domain = b.domain := by
  cases h <;> rfl

def width? : Value → Option UInt8
  | words r => some r.width
  | _ => none

theorem Leq.width?_eq (h : a.Leq b) : a.width? = b.width? := by
  cases h with
  | words h => exact congrArg some (WordRange.width_eq h)
  | _ => rfl

theorem assume_leq (v : Value) (expected : Bool) : (v.assume expected).left.Leq v := by
  cases v with
  | constant c =>
      show ((c.assume expected).map Value.constant).left.Leq _
      unfold Constant.assume
      split
      · exact .constant c
      · exact .constant c
  | sign s => exact .sign (s.assume_leq expected)
  | zero z => exact .zero (z.assume_leq expected)
  | interval i => exact .interval (i.assume_leq expected)
  | words r => exact .words (r.assume_leq expected)

/-! ## Coercions -/

theorem domain_eq_constant : v.domain = .constant ↔ ∃ c, v = .constant c := by
  cases v <;> simp [domain]

theorem domain_eq_sign : v.domain = .sign ↔ ∃ s, v = .sign s := by
  cases v <;> simp [domain]

theorem domain_eq_zero : v.domain = .zero ↔ ∃ z, v = .zero z := by
  cases v <;> simp [domain]

theorem domain_eq_interval : v.domain = .interval ↔ ∃ i, v = .interval i := by
  cases v <;> simp [domain]

theorem domain_eq_words : v.domain = .words ↔ ∃ r, v = .words r := by
  cases v <;> simp [domain]

theorem coerce_self (v : Value) : v.coerce v.domain = pure v := by
  cases v <;> rfl

theorem ends_refuse {α : Type} {Q : α → Prop} {d : Domain} :
    (v.refuse d).Ends Q Failure.OfValues :=
  Eval.ends_misuse trivial

theorem ends_liftValue {c : Constant} : c.liftValue.Ends (fun _ => True) Failure.IsLocal := by
  unfold Constant.liftValue
  split_ifs
  · exact Eval.ends_misuse rfl
  · exact Eval.ends_pure trivial
  · exact Eval.ends_pure trivial
  · exact Eval.ends_misuse rfl

theorem ends_toConstant : v.toConstant.Ends (fun _ => True) Failure.OfValues := by
  cases v with
  | constant c => exact Eval.ends_pure trivial
  | _ => exact ends_refuse

theorem ends_toSign : v.toSign.Ends (fun _ => True) Failure.OfValues := by
  cases v with
  | constant c => exact ends_liftValue.ofValues.wrap
  | sign s => exact Eval.ends_pure trivial
  | zero z => exact Eval.ends_pure trivial
  | _ => exact ends_refuse

theorem ends_toZero : v.toZero.Ends (fun _ => True) Failure.OfValues := by
  cases v with
  | constant c => exact ends_liftValue.ofValues.wrap
  | zero z => exact Eval.ends_pure trivial
  | _ => exact ends_refuse

theorem ends_toInterval : v.toInterval.Ends (fun _ => True) Failure.OfValues := by
  cases v with
  | constant c => exact ends_liftValue.ofValues.wrap
  | sign s =>
      show s.toInterval.Ends _ _
      unfold Sign.toInterval
      split
      · exact Eval.ends_cancel_local.ofValues
      · exact Eval.ends_pure trivial
  | zero z =>
      show z.toInterval.Ends _ _
      unfold Zero.toInterval
      split_ifs
      · exact Eval.ends_cancel_local.ofValues
      · exact Eval.ends_pure trivial
      · exact Eval.ends_pure trivial
  | interval i => exact Eval.ends_pure trivial
  | words r => exact ends_refuse

theorem ends_toWords : v.toWords.Ends (fun _ => True) Failure.OfValues := by
  cases v with
  | constant c => exact Eval.ends_pure trivial
  | words r => exact Eval.ends_pure trivial
  | _ => exact ends_refuse

theorem ends_coerce {d : Domain} : (v.coerce d).Ends (fun _ => True) Failure.OfValues := by
  cases d with
  | constant => exact ends_toConstant.wrap
  | sign => exact ends_toSign.wrap
  | zero => exact ends_toZero.wrap
  | interval => exact ends_toInterval.wrap
  | words => exact ends_toWords.wrap

end Value

/-! ## Operators -/

theorem Constant.ends_meet (a b : Constant) :
    (binary .meet a b).Ends (· = a) Failure.IsLocal := by
  show (if _ then _ else if a = b then pure a else Eval.cancel "constant meet").Ends _ _
  split
  · exact Eval.ends_misuse rfl
  split
  · exact Eval.ends_pure rfl
  · exact Eval.ends_cancel_local

namespace Lattice

variable {l : Lattice} {r a b : Value}

theorem ends_join {d d' : Domain} : (l.join d d').Ends (fun _ => True) Failure.OfValues := by
  unfold join join?
  split
  · exact Eval.ends_pure trivial
  · exact Eval.ends_misuse trivial

/-- A rule of one domain: the three values are brought there, and its two results are wrapped. -/
theorem ends_ruleIn {α : Type} {read : Value → Eval α} {rule : α → α → α → Eval (α × α)}
    {wrap : α → Value} {Q : α → α → α × α → Prop}
    (hread : ∀ v, (read v).Ends (fun _ => True) Failure.OfValues)
    (hrule : ∀ r a b, (rule r a b).Ends (Q a b) Failure.IsLocal) :
    Eval.Ends (fun _ => True) Failure.OfValues (do
      let x ← read a
      let y ← read b
      let p ← rule (← read r) x y
      return (wrap p.1, wrap p.2)) := by
  refine Eval.ends_bind ((hread a).imp fun x _ => ?_)
  refine Eval.ends_bind ((hread b).imp fun y _ => ?_)
  refine Eval.ends_bind ((hread r).imp fun z _ => ?_)
  exact Eval.ends_bind ((hrule z x y).ofValues.imp fun p _ => Eval.ends_pure trivial)

theorem ends_backwardIn (l : Lattice) (tag : Tag) (d : Domain) (a b r : Value) :
    (l.backwardIn tag d a b r).Ends (fun _ => True) Failure.OfValues := by
  cases d with
  | constant =>
      refine Eval.ends_bind (Value.ends_toConstant.imp fun x _ => ?_)
      refine Eval.ends_bind (Value.ends_toConstant.imp fun y _ => ?_)
      exact Eval.ends_bind (Value.ends_toConstant.imp fun _ _ => Eval.ends_pure trivial)
  | sign => exact ends_ruleIn (fun _ => Value.ends_toSign) (Sign.ends_backward tag)
  | zero => exact ends_ruleIn (fun _ => Value.ends_toZero) (Zero.ends_backward tag)
  | interval =>
      exact ends_ruleIn (fun _ => Value.ends_toInterval) (Interval.ends_backward l.bound tag)
  | words => exact ends_ruleIn (fun _ => Value.ends_toWords) (WordRange.ends_backward tag)

theorem ends_backward (l : Lattice) (tag : Tag) (r a b : Value) :
    (l.backward tag r a b).Ends (fun _ => True) Failure.OfValues := by
  refine Eval.ends_bind (ends_join.imp fun _ _ => ?_)
  exact Eval.ends_bind (ends_join.imp fun d _ => ends_backwardIn l tag d a b r)

theorem ends_backwardCast (l : Lattice) (tag : Tag) (r a : Value) :
    (l.backwardCast tag r a).Ends (fun _ => True) Failure.OfValues := by
  refine Eval.ends_bind (ends_join.imp fun d _ => ?_)
  refine Eval.ends_bind (Value.ends_coerce.imp fun x _ => ?_)
  exact Eval.ends_bind ((ends_backwardIn l tag d x x r).imp fun _ _ => Eval.ends_pure trivial)

theorem ends_meetIn {α : Type} {read : Value → Eval α} {meet : α → α → Eval α} {wrap : α → Value}
    {Q : α → α → Prop} (hread : ∀ v, (read v).Ends (fun _ => True) Failure.OfValues)
    (hmeet : ∀ a b, (meet a b).Ends (Q a) Failure.IsLocal) :
    Eval.Ends (fun _ => True) Failure.OfValues (do return wrap (← meet (← read a) (← read b))) := by
  refine Eval.ends_bind ((hread a).imp fun x _ => ?_)
  refine Eval.ends_bind ((hread b).imp fun y _ => ?_)
  exact Eval.ends_bind ((hmeet x y).ofValues.imp fun _ _ => Eval.ends_pure trivial)

theorem ends_meet (l : Lattice) (a b : Value) :
    (l.binary .meet a b).Ends (fun _ => True) Failure.OfValues := by
  refine Eval.ends_bind (ends_join.imp fun d _ => ?_)
  refine Eval.ends_bind (Eval.ends_note ?_)
  cases d with
  | constant => exact ends_meetIn (fun _ => Value.ends_toConstant) Constant.ends_meet
  | sign => exact ends_meetIn (fun _ => Value.ends_toSign) Sign.ends_meet
  | zero => exact ends_meetIn (fun _ => Value.ends_toZero) Zero.ends_meet
  | interval => exact ends_meetIn (fun _ => Value.ends_toInterval) Interval.ends_meet
  | words => exact ends_meetIn (fun _ => Value.ends_toWords) WordRange.ends_binary_meet

/-! ## Operators on values of one domain -/

section OneDomain

variable {d : Domain} (hd : l.options.joins.cell d d = some d)

include hd

theorem join_self : l.join d d = pure d := by
  unfold join join?
  rw [show l.options.joins.lookup (some d) (some d) = some d from hd]

omit hd in
theorem sure_backwardIn {tag : Tag} (hr : r.domain = d) (ha : a.domain = d) (hb : b.domain = d) :
    (l.backwardIn tag d a b r).Sure fun p =>
      p.1.Leq a ∧ ((tag = .relation .eq → a.width? = b.width?) → p.2.Leq b) := by
  subst ha
  cases a with
  | constant a =>
      obtain ⟨b, rfl⟩ := Value.domain_eq_constant.mp hb
      obtain ⟨r, rfl⟩ := Value.domain_eq_constant.mp hr
      exact Eval.sure_pure ⟨.refl _, fun _ => .refl _⟩
  | sign a =>
      obtain ⟨b, rfl⟩ := Value.domain_eq_sign.mp hb
      obtain ⟨r, rfl⟩ := Value.domain_eq_sign.mp hr
      show Eval.Sure _ (Sign.backward tag r a b >>= fun p => pure (Value.sign p.1, Value.sign p.2))
      exact Eval.sure_bind ((Sign.ends_backward tag r a b).sure.mono fun p hp =>
        Eval.sure_pure ⟨.sign hp.1, fun _ => .sign hp.2⟩)
  | zero a =>
      obtain ⟨b, rfl⟩ := Value.domain_eq_zero.mp hb
      obtain ⟨r, rfl⟩ := Value.domain_eq_zero.mp hr
      show Eval.Sure _ (Zero.backward tag r a b >>= fun p => pure (Value.zero p.1, Value.zero p.2))
      exact Eval.sure_bind ((Zero.ends_backward tag r a b).sure.mono fun p hp =>
        Eval.sure_pure ⟨.zero hp.1, fun _ => .zero hp.2⟩)
  | interval a =>
      obtain ⟨b, rfl⟩ := Value.domain_eq_interval.mp hb
      obtain ⟨r, rfl⟩ := Value.domain_eq_interval.mp hr
      show Eval.Sure _ (Interval.backward l.bound tag r a b >>= fun p =>
        pure (Value.interval p.1, Value.interval p.2))
      exact Eval.sure_bind ((Interval.ends_backward l.bound tag r a b).sure.mono fun p hp =>
        Eval.sure_pure ⟨.interval hp.1, fun _ => .interval hp.2⟩)
  | words a =>
      obtain ⟨b, rfl⟩ := Value.domain_eq_words.mp hb
      obtain ⟨r, rfl⟩ := Value.domain_eq_words.mp hr
      show Eval.Sure _ (WordRange.backward tag r a b >>= fun p => pure (Value.words p.1, Value.words p.2))
      exact Eval.sure_bind ((WordRange.ends_backward tag r a b).sure.mono fun p hp =>
        Eval.sure_pure ⟨.words hp.1, fun hwidth =>
          .words (hp.2 fun htag => Option.some.inj (hwidth htag))⟩)

/-- **Narrowing leaves operands below what they were**, where all values share a domain. -/
theorem sure_backward {tag : Tag} (hr : r.domain = d) (ha : a.domain = d) (hb : b.domain = d)
    (hwidth : tag = .relation .eq → a.width? = b.width?) :
    (l.backward tag r a b).Sure fun p => p.1.Leq a ∧ p.2.Leq b := by
  unfold backward
  simp only [hr, ha, hb, join_self hd, pure_bind]
  exact (sure_backwardIn hr ha hb).mono fun p hp => ⟨hp.1, hp.2 hwidth⟩

theorem sure_backwardCast (tag : Tag) (hr : r.domain = d) (ha : a.domain = d) :
    (l.backwardCast tag r a).Sure fun v => v.Leq a := by
  unfold backwardCast
  have hcoerce : a.coerce d = pure a := ha ▸ Value.coerce_self a
  simp only [hr, ha, join_self hd, pure_bind, hcoerce]
  exact Eval.sure_bind ((sure_backwardIn hr ha ha).mono fun p hp => Eval.sure_pure hp.1)

theorem sure_meet (ha : a.domain = d) (hb : b.domain = d) :
    (l.binary .meet a b).Sure fun v => v.Leq a := by
  unfold binary
  simp only [ha, hb, join_self hd, pure_bind]
  refine Eval.sure_bind (Eval.sure_note ?_)
  subst ha
  cases a with
  | constant a =>
      obtain ⟨b, rfl⟩ := Value.domain_eq_constant.mp hb
      show Eval.Sure _ (Constant.binary .meet a b >>= fun m => pure (Value.constant m))
      exact Eval.sure_bind ((Constant.ends_meet a b).sure.mono fun m hm =>
        Eval.sure_pure (hm ▸ .refl _))
  | sign a =>
      obtain ⟨b, rfl⟩ := Value.domain_eq_sign.mp hb
      show Eval.Sure _ (Sign.binary .meet a b >>= fun m => pure (Value.sign m))
      exact Eval.sure_bind ((Sign.ends_meet a b).sure.mono fun m hm => Eval.sure_pure (.sign hm))
  | zero a =>
      obtain ⟨b, rfl⟩ := Value.domain_eq_zero.mp hb
      show Eval.Sure _ (Zero.binary .meet a b >>= fun m => pure (Value.zero m))
      exact Eval.sure_bind ((Zero.ends_meet a b).sure.mono fun m hm => Eval.sure_pure (.zero hm))
  | interval a =>
      obtain ⟨b, rfl⟩ := Value.domain_eq_interval.mp hb
      show Eval.Sure _ (Interval.binary .meet a b >>= fun m => pure (Value.interval m))
      exact Eval.sure_bind ((Interval.ends_meet a b).sure.mono fun m hm =>
        Eval.sure_pure (.interval hm))
  | words a =>
      obtain ⟨b, rfl⟩ := Value.domain_eq_words.mp hb
      show Eval.Sure _ (WordRange.binary .meet a b >>= fun m => pure (Value.words m))
      exact Eval.sure_bind ((WordRange.ends_binary_meet a b).sure.mono fun m hm =>
        Eval.sure_pure (.words hm))

end OneDomain

end Lattice

end Narrowing
