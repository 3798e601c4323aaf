/-
# What an operator fails for

An operator on values can fail for a reason of the domain it is carried out in, or
because there is no such domain: two domains have no join, or a value does not lead
into the one that was found.  Here the two are told apart.  In a leaf domain every
operator fails for a reason of its own, and so does a coercion along which domains
lead (`Domain.canCoerce`).
-/
import Narrowing.Proofs.Order.Value

namespace Narrowing

/-- A failure that is about domains: two without a join, or a value that cannot be expressed
in one. -/
def Failure.BlamesDomains : Failure → Prop
  | .misuse (.undefinedJoin _ _) | .misuse (.noCoercion _ _) => True
  | _ => False

theorem Failure.IsLocal.not_blamesDomains {err : Failure} (h : err.IsLocal) :
    ¬ err.BlamesDomains := by
  intro hblames
  unfold BlamesDomains at hblames
  split at hblames
  · cases h
  · cases h
  · exact hblames

namespace Eval

variable {α : Type} {Q : α → Prop} {e : Eval α}

theorem Ends.fair (h : Ends Q Failure.IsLocal e) : Ends Q (fun err => ¬ err.BlamesDomains) e :=
  h.mono (fun _ => id) fun _ => Failure.IsLocal.not_blamesDomains

theorem ends_fault_local {op : String} {cause : Defect} :
    Ends Q Failure.IsLocal (fault op cause) := ends_fault trivial

end Eval

/-! ## Leaf domains -/

namespace Constant

theorem ends_arith (op : Arith) (a b : Constant) :
    (arith op a b).Ends (fun _ => True) Failure.IsLocal := by
  cases op with
  | udiv | sdiv | urem | srem =>
      show Eval.Ends _ _ (if _ then _ else _)
      split
      · exact Eval.ends_fault_local
      · exact Eval.ends_pure trivial
  | _ => exact Eval.ends_pure trivial

theorem ends_binary (tag : Tag) (a b : Constant) :
    (binary tag a b).Ends (fun _ => True) Failure.IsLocal := by
  unfold binary
  split
  · exact Eval.ends_misuse rfl
  split
  · split
    · exact Eval.ends_pure trivial
    · exact Eval.ends_misuse rfl
  · split
    · exact Eval.ends_pure trivial
    · exact Eval.ends_cancel_local
  split
  · exact Eval.ends_misuse rfl
  split
  · exact ends_arith _ a b
  · exact Eval.ends_pure trivial
  · exact Eval.ends_misuse rfl

theorem ends_cast (tag : Tag) (a : Constant) (width : UInt8) :
    (a.cast tag width).Ends (fun _ => True) Failure.IsLocal := by
  cases tag with
  | cast c =>
      cases c with
      | inttoptr | ptrtoint => exact Eval.ends_pure trivial
      | _ =>
          show Eval.Ends _ _ (if _ then _ else _)
          split
          · exact Eval.ends_misuse rfl
          · exact Eval.ends_pure trivial
  | _ => exact Eval.ends_misuse rfl

theorem ends_extract (a : Constant) (start stop : UInt8) :
    (a.extract start stop).Ends (fun _ => True) Failure.IsLocal := by
  unfold extract
  split
  · exact Eval.ends_misuse rfl
  · exact Eval.ends_pure trivial

theorem ends_concat (a b : Constant) : (a.concat b).Ends (fun _ => True) Failure.IsLocal := by
  unfold concat
  split
  · exact Eval.ends_misuse rfl
  · exact Eval.ends_pure trivial

end Constant

namespace Sign

theorem ends_divide (op : Arith) (f : Sgn → Sgn → Sign) (a b : Sign) :
    (divide op f a b).Ends (fun _ => True) Failure.IsLocal := by
  unfold divide
  split
  · exact Eval.ends_fault_local
  split
  · exact Eval.ends_pure trivial
  · exact Eval.ends_pure trivial

theorem ends_binary (tag : Tag) (a b : Sign) :
    (binary tag a b).Ends (fun _ => True) Failure.IsLocal := by
  cases tag with
  | join | relation rel | float op => exact Eval.ends_pure trivial
  | meet => exact (ends_meet a b).imp fun _ _ => trivial
  | arith op =>
      cases op with
      | sdiv | udiv | srem | urem => exact ends_divide _ _ a b
      | _ => exact Eval.ends_pure trivial
  | _ => exact Eval.ends_misuse rfl

theorem ends_cast (tag : Tag) (a : Sign) : (a.cast tag).Ends (fun _ => True) Failure.IsLocal := by
  unfold cast
  split
  all_goals first | exact Eval.ends_pure trivial | exact Eval.ends_misuse rfl

theorem ends_anyRange (start stop : Int64) :
    (anyRange start stop).Ends (fun _ => True) Failure.IsLocal := by
  unfold anyRange
  split_ifs
  · exact Eval.ends_cancel_local
  · exact Eval.ends_pure trivial
  · exact Eval.ends_pure trivial

theorem ends_lower (v : Sign) : v.lower.Ends (fun _ => True) Failure.IsLocal := by
  unfold lower
  dsimp only
  split
  · exact Eval.ends_bind Eval.ends_cancel_local
  · exact Eval.ends_bind (Eval.ends_choose_local fun _ _ => Eval.ends_pure trivial)

end Sign

namespace Zero

theorem ends_divide (op : Arith) (a b : Zero) :
    (divide op a b).Ends (fun _ => True) Failure.IsLocal := by
  unfold divide
  split
  · exact Eval.ends_fault_local
  · exact Eval.ends_pure trivial

theorem ends_binary (tag : Tag) (a b : Zero) :
    (binary tag a b).Ends (fun _ => True) Failure.IsLocal := by
  by_cases hmeet : tag = .meet
  · rw [hmeet]
    exact (ends_meet a b).imp fun _ _ => trivial
  unfold binary
  split
  · exact Eval.ends_cancel_local
  cases tag with
  | join | relation rel | float op => exact Eval.ends_pure trivial
  | meet => exact absurd rfl hmeet
  | arith op =>
      cases op with
      | sdiv | udiv | srem | urem => exact ends_divide _ a b
      | _ => exact Eval.ends_pure trivial
  | _ => exact Eval.ends_misuse rfl

theorem ends_cast (tag : Tag) (a : Zero) : (a.cast tag).Ends (fun _ => True) Failure.IsLocal := by
  unfold cast
  split
  all_goals first | exact Eval.ends_pure trivial | exact Eval.ends_misuse rfl

theorem ends_anyRange (start stop : Int64) :
    (anyRange start stop).Ends (fun _ => True) Failure.IsLocal := by
  unfold anyRange
  split_ifs
  · exact Eval.ends_cancel_local
  all_goals exact Eval.ends_pure trivial

theorem ends_load (p : Zero) : p.load.Ends (fun _ => True) Failure.IsLocal := by
  unfold load
  split
  · exact Eval.ends_pure trivial
  · exact Eval.ends_fault_local

theorem ends_lower (v : Zero) : v.lower.Ends (fun _ => True) Failure.IsLocal := by
  unfold lower
  split
  · exact Eval.ends_pure trivial
  · exact Eval.ends_pure trivial
  · exact Eval.ends_bind (Eval.ends_choose_local fun _ _ => Eval.ends_pure trivial)
  · exact Eval.ends_cancel_local

end Zero

namespace Interval

theorem ends_make (lo hi : Bound) : (make lo hi).Ends (fun _ => True) Failure.IsLocal := by
  unfold make
  dsimp only
  split
  · exact Eval.ends_cancel_local
  · exact Eval.ends_pure trivial

theorem ends_binary (tag : Tag) (a b : Interval) :
    (binary tag a b).Ends (fun _ => True) Failure.IsLocal := by
  cases tag with
  | join | relation rel => exact Eval.ends_pure trivial
  | meet => exact ends_make _ _
  | arith op =>
      show (settle _ (arith? op a b)).Ends _ _
      unfold settle
      split
      · exact Eval.ends_cancel_local
      · exact ends_make _ _
  | _ => exact Eval.ends_misuse rfl

theorem ends_cast (tag : Tag) (a : Interval) :
    (a.cast tag).Ends (fun _ => True) Failure.IsLocal := by
  unfold cast
  split
  · exact Eval.ends_pure trivial
  · exact Eval.ends_misuse rfl

theorem ends_lower (bound : UInt32) (v : Interval) :
    (v.lower bound).Ends (fun _ => True) Failure.IsLocal := by
  unfold lower
  dsimp only
  split
  · exact Eval.ends_bind Eval.ends_cancel_local
  · exact Eval.ends_bind (ends_chooseBelow.imp fun _ _ => Eval.ends_pure trivial)

end Interval

namespace WordRange

theorem ends_divide (a b : WordRange) : (divide a b).Ends (fun _ => True) Failure.IsLocal := by
  unfold divide
  split
  · exact Eval.ends_cancel_local
  · exact Eval.ends_pure trivial

theorem ends_remainder (a b : WordRange) :
    (remainder a b).Ends (fun _ => True) Failure.IsLocal := by
  unfold remainder
  split
  · exact Eval.ends_cancel_local
  · exact Eval.ends_pure trivial

theorem ends_signedDivision {rule : WordRange → WordRange → Eval WordRange} {a b : WordRange}
    (hrule : (rule a b).Ends (fun _ => True) Failure.IsLocal) :
    (signedDivision rule a b).Ends (fun _ => True) Failure.IsLocal := by
  unfold signedDivision
  split_ifs
  · exact hrule
  · exact Eval.ends_cancel_local
  · exact Eval.ends_pure trivial

theorem ends_binary (tag : Tag) (a b : WordRange) :
    (binary tag a b).Ends (fun _ => True) Failure.IsLocal := by
  unfold binary
  split
  · exact Eval.ends_misuse rfl
  cases tag with
  | join | relation rel => exact Eval.ends_pure trivial
  | meet => exact (ends_meet a b).imp fun _ _ => trivial
  | arith op =>
      cases op with
      | udiv => exact ends_divide a b
      | urem => exact ends_remainder a b
      | sdiv => exact ends_signedDivision (ends_divide a b)
      | srem => exact ends_signedDivision (ends_remainder a b)
      | _ => exact Eval.ends_pure trivial
  | _ => exact Eval.ends_misuse rfl

theorem ends_cast (tag : Tag) (a : WordRange) (width : UInt8) :
    (a.cast tag width).Ends (fun _ => True) Failure.IsLocal := by
  unfold cast
  split
  · exact Eval.ends_pure trivial
  · exact Eval.ends_pure trivial
  · exact Eval.ends_misuse rfl

theorem ends_anyRange (start stop : UInt64) (width : UInt8) :
    (anyRange start stop width).Ends (fun _ => True) Failure.IsLocal := by
  unfold anyRange
  dsimp only
  split
  · exact Eval.ends_cancel_local
  · exact Eval.ends_pure trivial

theorem ends_lower (bound : UInt32) (v : WordRange) :
    (v.lower bound).Ends (fun _ => True) Failure.IsLocal :=
  Eval.ends_bind (Eval.ends_choose_local fun _ _ => Eval.ends_pure trivial)

end WordRange

/-! ## Values

Reading a value in a domain is refused only where its own domain does not lead there. -/

namespace Value

variable {v : Value} {d : Domain}

theorem ends_toConstant_local (h : v.domain.canCoerce .constant = true) :
    v.toConstant.Ends (fun _ => True) Failure.IsLocal := by
  cases v with
  | constant c => exact Eval.ends_pure trivial
  | _ => cases h

theorem ends_toSign_local (h : v.domain.canCoerce .sign = true) :
    v.toSign.Ends (fun _ => True) Failure.IsLocal := by
  cases v with
  | constant c => exact ends_liftValue.wrap
  | sign s => exact Eval.ends_pure trivial
  | zero z => exact Eval.ends_pure trivial
  | _ => cases h

theorem ends_toZero_local (h : v.domain.canCoerce .zero = true) :
    v.toZero.Ends (fun _ => True) Failure.IsLocal := by
  cases v with
  | constant c => exact ends_liftValue.wrap
  | zero z => exact Eval.ends_pure trivial
  | _ => cases h

theorem ends_toInterval_local (h : v.domain.canCoerce .interval = true) :
    v.toInterval.Ends (fun _ => True) Failure.IsLocal := by
  cases v with
  | constant c => exact ends_liftValue.wrap
  | sign s =>
      show s.toInterval.Ends _ _
      unfold Sign.toInterval
      split
      · exact Eval.ends_cancel_local
      · exact Eval.ends_pure trivial
  | zero z =>
      show z.toInterval.Ends _ _
      unfold Zero.toInterval
      split_ifs
      · exact Eval.ends_cancel_local
      · exact Eval.ends_pure trivial
      · exact Eval.ends_pure trivial
  | interval i => exact Eval.ends_pure trivial
  | words r => cases h

theorem ends_toWords_local (h : v.domain.canCoerce .words = true) :
    v.toWords.Ends (fun _ => True) Failure.IsLocal := by
  cases v with
  | constant c => exact Eval.ends_pure trivial
  | words r => exact Eval.ends_pure trivial
  | _ => cases h

theorem ends_coerce_local (h : v.domain.canCoerce d = true) :
    (v.coerce d).Ends (fun w => w.domain = d) Failure.IsLocal := by
  cases d with
  | constant => exact ((ends_toConstant_local h).imp fun _ _ => rfl).wrap
  | sign => exact ((ends_toSign_local h).imp fun _ _ => rfl).wrap
  | zero => exact ((ends_toZero_local h).imp fun _ _ => rfl).wrap
  | interval => exact ((ends_toInterval_local h).imp fun _ _ => rfl).wrap
  | words => exact ((ends_toWords_local h).imp fun _ _ => rfl).wrap

theorem ends_lower (bound : UInt32) (v : Value) (width : UInt8) :
    (v.lower bound width).Ends (fun _ => True) Failure.IsLocal := by
  cases v with
  | constant c => exact Eval.ends_pure trivial
  | sign s => exact (Sign.ends_lower s).wrap
  | zero z => exact (Zero.ends_lower z).wrap
  | interval i => exact (Interval.ends_lower bound i).wrap
  | words r => exact WordRange.ends_lower bound r

theorem ends_toTristate (v : Value) : v.toTristate.Ends (fun _ => True) Failure.IsLocal := by
  cases v with
  | constant c => exact Eval.ends_pure trivial
  | sign s => exact Sign.ends_toTristate
  | zero z => exact Zero.ends_toTristate
  | interval i => exact Interval.ends_toTristate
  | words r => exact Eval.ends_pure trivial

end Value

end Narrowing
