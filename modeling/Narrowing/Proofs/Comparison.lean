/-
# Comparing words and comparing what domains make of them

Two words are compared exactly, by their bits, or they are brought into a domain and compared
there.  The second answer may be open; where it is not, it should be the first.

A domain of integers takes a word in as the integer that `Constant.liftValue` reads: the
signed reading, except that a single bit is read as 0 or 1.  The exact comparison of two
words is about the signed reading at every width, and there a set bit is -1.  The two
readings tell the same words apart, so equations agree at all widths.  They order words
alike at all widths but one: of two different bits the set one is the greater for the one and
the lesser for the other.  A domain that decides the order of 0 and 1, as signs and
intervals do, then comes to the opposite.  Zero-ness leaves an order open wherever a word is
not zero, and a word range does as soon as a word has its highest bit set, so that neither
ever decides against the exact answer.
-/
import Narrowing.Proofs.Interval.Relations
import Narrowing.Proofs.Lattice
import Narrowing.Proofs.Order.Value
import Narrowing.Proofs.Settings
import Narrowing.Proofs.Sign.Backward
import Narrowing.Proofs.WordRange
import Narrowing.Proofs.Zero.Words

namespace Narrowing

/-! ## Answers that do not contradict -/

namespace Tristate

variable {t : Tristate} {b : Bool}

/-- Undetermined, or the truth. -/
def Agrees (t : Tristate) (b : Bool) : Prop := t = .maybe ∨ t = .ofBool b

instance : Decidable (t.Agrees b) := inferInstanceAs (Decidable (_ ∨ _))

theorem Admits.agrees (h : t.Admits b) (ht : t ≠ .invalid) : t.Agrees b := by
  cases t with
  | no => exact Or.inr (congrArg ofBool h).symm
  | yes => exact Or.inr (congrArg ofBool h).symm
  | maybe => exact Or.inl rfl
  | invalid => exact absurd rfl ht

theorem not_agrees_not : ¬ (ofBool !b).Agrees b := by
  cases b <;> decide

theorem not_ofBool (b : Bool) : (ofBool b).not = .ofBool !b := by
  cases b <;> rfl

end Tristate

/-! ## The two readings of a word -/

namespace Constant

variable {x y : Constant} {w : UInt8} {rel : Relation}

/-- The integer that other domains take a word for. -/
def reading (c : Constant) : Int64 := if c.width = 1 then (c.bits &&& 1).toInt64 else c.signed

theorem width_bounds (hw : w ∈ [1, 8, 16, 32, 64]) : 1 ≤ w ∧ w ≤ 64 := by
  simp only [List.mem_cons, List.not_mem_nil, or_false] at hw
  rcases hw with rfl | rfl | rfl | rfl | rfl <;> decide

theorem IsWord.liftValue_eq (hx : x.IsWord w) (hw : w ∈ [1, 8, 16, 32, 64]) :
    x.liftValue = pure x.reading := by
  unfold liftValue reading
  rw [hx.kind, hx.width]
  simp only [List.mem_cons, List.not_mem_nil, or_false] at hw
  rcases hw with rfl | rfl | rfl | rfl | rfl <;> rfl

theorem IsWord.reading_eq_signed (hx : x.IsWord w) (hw : w ≠ 1) : x.reading = x.signed := by
  unfold reading
  rw [hx.width, if_neg hw]

/-- There are two words of one bit. -/
theorem IsWord.eq_bit (hx : x.IsWord 1) : x = .ofBool false ∨ x = .ofBool true := by
  obtain ⟨bits, kind, width⟩ := x
  obtain ⟨rfl, rfl, hmask⟩ := hx
  have hle : bits.toNat < 2 := (Word.le_mask_iff (w := 1) (by decide)).mp hmask
  obtain h | h : bits.toNat = 0 ∨ bits.toNat = 1 := by omega
  · obtain rfl : bits = 0 := UInt64.toNat_inj.mp h
    exact Or.inl rfl
  · obtain rfl : bits = 1 := UInt64.toNat_inj.mp h
    exact Or.inr rfl

theorem IsWord.reading_eq_zero_iff (hw : w ∈ [1, 8, 16, 32, 64]) (hx : x.IsWord w) :
    x.reading = 0 ↔ x.low w.toNat = 0#w.toNat := by
  by_cases hbit : w = 1
  · subst hbit
    rcases hx.eq_bit with rfl | rfl <;> decide
  · obtain ⟨hw0, hw⟩ := width_bounds hw
    rw [hx.reading_eq_signed hbit, low_eq_zero_iff_signed hw0 hw hx.width]

theorem holds?_signed (hw0 : 1 ≤ w) (hw : w ≤ 64) (hx : x.width = w) (hy : y.width = w)
    (hrel : rel ∈ [.eq, .ne, .slt, .sle, .sgt, .sge]) :
    rel.holds? x.signed.toInt y.signed.toInt = some (compare rel x y) := by
  have heq : x.signed.toInt = y.signed.toInt ↔ x.unsigned = y.unsigned := by
    rw [← toInt_low hw0 hw hx, ← toInt_low hw0 hw hy, BitVec.toInt_inj, ← BitVec.toNat_inj,
      toNat_low hw hx, toNat_low hw hy, UInt64.toNat_inj]
  cases rel with
  | eq => exact congrArg some (Bool.eq_iff_iff.mpr (by simpa [compare] using heq))
  | ne => exact congrArg some (Bool.eq_iff_iff.mpr (by simpa [compare] using not_congr heq))
  | slt | sgt => exact congrArg some (decide_eq_decide.mpr Int64.lt_iff_toInt_lt.symm)
  | sle | sge => exact congrArg some (decide_eq_decide.mpr Int64.le_iff_toInt_le.symm)
  | ult | ule | ugt | uge => simp at hrel

theorem binary_eq_compare (hx : x.IsWord w) (hy : y.IsWord w) :
    binary (.relation rel) x y = pure (.ofBool (compare rel x y)) := by
  simp [binary, hx.kind, hy.kind, hx.width, hy.width]

theorem toTristate_ofBool (b : Bool) : (ofBool b).toTristate = .ofBool b := by
  cases b <;> rfl

/-- An order of two different words of one bit, which the two readings put the other way round. -/
structure Reversed (w : UInt8) (rel : Relation) (x y : Constant) : Prop where
  bit : w = 1
  ne : x ≠ y
  order : rel ∈ [.slt, .sle, .sgt, .sge]

instance : Decidable (Reversed w rel x y) :=
  decidable_of_iff (w = 1 ∧ x ≠ y ∧ rel ∈ [.slt, .sle, .sgt, .sge])
    ⟨fun h => ⟨h.1, h.2.1, h.2.2⟩, fun h => ⟨h.bit, h.ne, h.order⟩⟩

/-- The exact comparison is that of the readings, or the opposite where they are reversed. -/
theorem holds?_reading (hw : w ∈ [1, 8, 16, 32, 64]) (hx : x.IsWord w) (hy : y.IsWord w)
    (hrel : rel ∈ [.eq, .ne, .slt, .sle, .sgt, .sge]) :
    rel.holds? x.reading.toInt y.reading.toInt =
      some (if Reversed w rel x y then !compare rel x y else compare rel x y) := by
  by_cases hbit : w = 1
  · subst hbit
    rcases hx.eq_bit with rfl | rfl <;> rcases hy.eq_bit with rfl | rfl <;> revert rel <;> decide
  · obtain ⟨hw0, hw⟩ := width_bounds hw
    rw [if_neg fun h => hbit h.bit, hx.reading_eq_signed hbit, hy.reading_eq_signed hbit]
    exact holds?_signed hw0 hw hx.width hy.width hrel

end Constant

/-! ## Comparisons of what is read -/

theorem Sign.ne_invalid_of_toTristate {v : Sign} {t : Tristate} (h : v.toTristate = pure t) :
    t ≠ .invalid := by
  have hends : v.toTristate.Ends (fun s => s ≠ .invalid) fun _ => True := by
    unfold toTristate
    split_ifs
    · exact Eval.ends_cancel trivial
    all_goals exact Eval.ends_pure nofun
  rw [h] at hends
  exact hends.of_play []

theorem Sign.exists_truth_lift {p q : Int64} {rel : Relation} {b : Bool}
    (h : rel.holds? p.toInt q.toInt = some b) :
    ∃ t, (compare rel (lift p) (lift q)).toTristate = pure t ∧ t.Agrees b := by
  have hmem := mem_compareSigned (Value.mem_lift_sign rfl) (Value.mem_lift_sign rfl)
    (congrArg (Option.map _) h)
  have hcompare : compare rel (lift p) (lift q) = compareSigned rel (lift p) (lift q) := by
    cases rel with
    | ult | ule | ugt | uge => cases h
    | _ => rfl
  obtain ⟨t, ht, hadmits⟩ := toTristate_of_truth_mem hmem
  exact ⟨t, hcompare ▸ ht, hadmits.agrees (ne_invalid_of_toTristate ht)⟩

namespace Interval

variable {p q : Int64}

theorem less_point : less (point p) (point q) = .ofBool (p.toInt < q.toInt) := by
  by_cases hlt : p.toInt < q.toInt
  · rw [decide_eq_true hlt]
    exact less_eq_yes_iff.mpr hlt
  · rw [decide_eq_false hlt]
    exact less_eq_no_iff.mpr ⟨not_lt.mp hlt, not_lt.mp hlt⟩

theorem equal_point : equal (point p) (point q) = .ofBool (p.toInt == q.toInt) := by
  by_cases heq : p.toInt = q.toInt
  · rw [beq_iff_eq.mpr heq]
    exact equal_eq_yes_iff.mpr ⟨⟨rfl, rfl⟩, heq⟩
  · rw [beq_eq_false_iff_ne.mpr heq]
    exact equal_eq_no le_rfl le_rfl (lt_or_gt_of_ne heq)

theorem compare_point {rel : Relation} {b : Bool} (h : rel.holds? p.toInt q.toInt = some b) :
    compare rel (point p) (point q) = .ofBool b := by
  cases rel with
  | eq => exact Option.some.inj h ▸ equal_point
  | ne => exact Option.some.inj h ▸ (congrArg _ equal_point).trans (Tristate.not_ofBool _)
  | slt => exact Option.some.inj h ▸ less_point
  | sgt => exact Option.some.inj h ▸ less_point
  | sle => exact Option.some.inj h ▸ not_lt_eq_le q.toInt p.toInt ▸
      (congrArg _ less_point).trans (Tristate.not_ofBool _)
  | sge => exact Option.some.inj h ▸ not_lt_eq_le p.toInt q.toInt ▸
      (congrArg _ less_point).trans (Tristate.not_ofBool _)
  | ult | ule | ugt | uge => cases h

theorem truth_point {rel : Relation} {b : Bool} (h : rel.holds? p.toInt q.toInt = some b) :
    (ofTristate (compare rel (point p) (point q))).toTristate = pure (.ofBool b) := by
  rw [compare_point h]
  cases b <;> rfl

end Interval

theorem Zero.ne_invalid_of_toTristate {v : Zero} {t : Tristate} (h : v.toTristate = pure t) :
    t ≠ .invalid := by
  have hends : v.toTristate.Ends (fun s => s ≠ .invalid) fun _ => True := by
    obtain ⟨_ | _, _ | _⟩ := v
    · exact Eval.ends_cancel trivial
    all_goals exact Eval.ends_pure nofun
  rw [h] at hends
  exact hends.of_play []

/-- The zero-ness of two words, compared: an order is settled by two zeros alone. -/
theorem Zero.exists_truth_lift {x y : Constant} {w : UInt8} (hw : w ∈ [1, 8, 16, 32, 64])
    (hx : x.IsWord w) (hy : y.IsWord w) (rel : Relation) :
    ∃ t, (compare rel (lift x.reading) (lift y.reading)).toTristate = pure t ∧
      t.Agrees (Constant.compare rel x y) := by
  obtain ⟨hw0, hw64⟩ := Constant.width_bounds hw
  have hhas {c : Constant} (hc : c.IsWord w) : (lift c.reading).Has (c.low w.toNat) := by
    refine (mem_congr ?_).mp (Value.mem_lift_zero rfl)
    rw [natCast_toNat_eq_zero, ← hc.reading_eq_zero_iff hw, ← Int64.toInt_inj]
    rfl
  have hcompare := has_compare (hhas hx) (hhas hy) rel
  rw [← Constant.compare_eq_words hw0 hw64 hx.width hy.width] at hcompare
  obtain ⟨t, ht, hadmits⟩ := toTristate_of_has_ofBool hcompare
  exact ⟨t, ht, hadmits.agrees (ne_invalid_of_toTristate ht)⟩

theorem WordRange.truth_lift {x y : Constant} (hw0 : 1 ≤ x.width) (hw : x.width ≤ 64)
    (hxy : x.width = y.width) (rel : Relation) :
    (ofTristate (compare rel (lift x) (lift y))).toTristate.Agrees (Constant.compare rel x y) := by
  have hholds {c : Constant} (hc : c.width ≤ 64) : (lift c).Holds c :=
    (holds_iff hc).mpr ⟨rfl, le_rfl, le_rfl, Constant.toNat_unsigned_lt hc rfl⟩
  have hadmits := compare_admits hw0 hw hxy (hholds hw) (hholds (hxy ▸ hw)) rel
  generalize compare rel (lift x) (lift y) = t at hadmits
  generalize Constant.compare rel x y = b at hadmits
  cases t with
  | no =>
      obtain rfl : b = false := hadmits
      exact Or.inr rfl
  | yes =>
      obtain rfl : b = true := hadmits
      exact Or.inr rfl
  | maybe | invalid => exact Or.inl rfl

/-! ## Comparisons in a domain -/

namespace Lattice

variable {l : Lattice} {d : Domain} {rel : Relation} {x y : Constant} {w : UInt8} {t : Tristate}

/-- Bring two words into a domain, and compare them there. -/
def comparedIn (l : Lattice) (d : Domain) (rel : Relation) (x y : Constant) : Eval Tristate := do
  let a ← (Value.constant x).coerce d
  let b ← (Value.constant y).coerce d
  (← l.binary (.relation rel) a b).toTristate

/-- What a domain makes of a word. -/
def taken (d : Domain) (c : Constant) : Value :=
  match d with
  | .constant => .constant c
  | .sign => .sign (.lift c.reading)
  | .zero => .zero (.lift c.reading)
  | .interval => .interval (.point c.reading)
  | .words => .words (.lift c)

/-- What a domain makes of the comparison of two words. -/
def comparison (d : Domain) (rel : Relation) (x y : Constant) : Value :=
  match d with
  | .constant => .constant (.ofBool (Constant.compare rel x y))
  | .sign => .sign (Sign.compare rel (.lift x.reading) (.lift y.reading))
  | .zero => .zero (Zero.compare rel (.lift x.reading) (.lift y.reading))
  | .interval =>
    .interval (.ofTristate (Interval.compare rel (.point x.reading) (.point y.reading)))
  | .words => .words (.ofTristate (WordRange.compare rel (.lift x) (.lift y)))

theorem coerce_eq_taken (hw : w ∈ [1, 8, 16, 32, 64]) (hx : x.IsWord w) (d : Domain) :
    (Value.constant x).coerce d = pure (taken d x) := by
  have hread := hx.liftValue_eq hw
  cases d with
  | constant | words => rfl
  | sign =>
      show ((x.liftValue >>= fun p => pure (Sign.lift p)) >>= fun s => pure (Value.sign s)) = _
      rw [hread]
      rfl
  | zero =>
      show ((x.liftValue >>= fun p => pure (Zero.lift p)) >>= fun z => pure (Value.zero z)) = _
      rw [hread]
      rfl
  | interval =>
      show ((x.liftValue >>= fun p => pure (Interval.point p)) >>= fun i =>
        pure (Value.interval i)) = _
      rw [hread]
      rfl

theorem binary_taken (hl : l.options.joins.validate = .ok ()) (hx : x.IsWord w) (hy : y.IsWord w)
    (d : Domain) : l.binary (.relation rel) (taken d x) (taken d y) =
      Eval.note (.dispatch (.relation rel) d) >>= fun _ => pure (comparison d rel x y) := by
  have hwidth : ¬ x.width ≠ y.width := not_not_intro (hx.width.trans hy.width.symm)
  unfold binary
  have hdomain (c : Constant) : (taken d c).domain = d := by cases d <;> rfl
  rw [hdomain, hdomain, join_self (JoinTable.cell_self hl d), pure_bind]
  refine bind_congr fun _ => ?_
  cases d with
  | sign | interval => rfl
  | constant =>
      show (Constant.binary (.relation rel) x y >>= fun c => pure (Value.constant c)) = _
      rw [Constant.binary_eq_compare hx hy]
      rfl
  | zero =>
      show (Zero.binary (.relation rel) (.lift x.reading) (.lift y.reading) >>= fun z =>
        pure (Value.zero z)) = _
      unfold Zero.binary
      rw [if_neg (not_or_intro (Zero.lift_ne_bottom _) (Zero.lift_ne_bottom _))]
      rfl
  | words =>
      show (WordRange.binary (.relation rel) (.lift x) (.lift y) >>= fun r =>
        pure (Value.words r)) = _
      have hlift : ¬ (WordRange.lift x).width ≠ (WordRange.lift y).width := hwidth
      unfold WordRange.binary
      rw [if_neg hlift]
      rfl

theorem ends_comparedIn (hl : l.options.joins.validate = .ok ()) (hw : w ∈ [1, 8, 16, 32, 64])
    (hx : x.IsWord w) (hy : y.IsWord w) (ht : (comparison d rel x y).toTristate = pure t) :
    (l.comparedIn d rel x y).Ends (fun s => s = t) fun _ => False := by
  unfold comparedIn
  rw [coerce_eq_taken hw hx, coerce_eq_taken hw hy, pure_bind, pure_bind, binary_taken hl hx hy]
  refine Eval.ends_bind (Eval.ends_bind (Eval.ends_note (Eval.ends_pure ?_)))
  rw [ht]
  exact Eval.ends_pure rfl

/-- Signs and intervals decide the order of two bits, and against the exact answer. -/
theorem truth_of_reversed (h : Constant.Reversed w rel x y) (hx : x.IsWord w) (hy : y.IsWord w)
    (hd : d = .sign ∨ d = .interval) :
    (comparison d rel x y).toTristate = pure (.ofBool !Constant.compare rel x y) := by
  rcases hd with rfl | rfl
  · obtain ⟨rfl, hne, horder⟩ := h
    simp only [List.mem_cons, List.not_mem_nil, or_false] at horder
    rcases hx.eq_bit with rfl | rfl
    · obtain rfl := hy.eq_bit.resolve_left (Ne.symm hne)
      rcases horder with rfl | rfl | rfl | rfl <;> rfl
    · obtain rfl := hy.eq_bit.resolve_right (Ne.symm hne)
      rcases horder with rfl | rfl | rfl | rfl <;> rfl
  · have hread := Constant.holds?_reading (by rw [h.bit]; decide) hx hy
      (List.mem_cons_of_mem _ (List.mem_cons_of_mem _ h.order))
    rw [if_pos h] at hread
    exact Interval.truth_point hread

/-- In a domain that the words are not reversed for, the answer is the exact one or open. -/
theorem exists_truth (hw : w ∈ [1, 8, 16, 32, 64]) (hx : x.IsWord w) (hy : y.IsWord w)
    (hrel : rel ∈ [.eq, .ne, .slt, .sle, .sgt, .sge]) (hd : d ≠ .constant)
    (h : ¬ (Constant.Reversed w rel x y ∧ (d = .sign ∨ d = .interval))) :
    ∃ t, (comparison d rel x y).toTristate = pure t ∧ t.Agrees (Constant.compare rel x y) := by
  have hread := Constant.holds?_reading hw hx hy hrel
  obtain ⟨hw0, hw64⟩ := Constant.width_bounds hw
  cases d with
  | constant => exact absurd rfl hd
  | sign =>
      rw [if_neg fun hrev => h ⟨hrev, Or.inl rfl⟩] at hread
      exact Sign.exists_truth_lift hread
  | zero => exact Zero.exists_truth_lift hw hx hy rel
  | interval =>
      rw [if_neg fun hrev => h ⟨hrev, Or.inr rfl⟩] at hread
      exact ⟨_, Interval.truth_point hread, Or.inr rfl⟩
  | words =>
      have hwords := WordRange.truth_lift (hx.width ▸ hw0) (hx.width ▸ hw64)
        (hx.width.trans hy.width.symm) rel
      exact ⟨_, rfl, hwords⟩

/-- **A comparison in a domain contradicts the exact one for an order of two different bits, and
nowhere else.**  Take two words of 1, 8, 16, 32 or 64 bits, an equation, an inequation or a
signed order, and a domain other than that of the words themselves.  The exact comparison
returns, and so does the comparison of what the domain makes of the words, with one answer
whatever is asked; and it is open or the exact one, except exactly where signs or intervals
are asked for the order of two different words of one bit. -/
theorem comparedIn_agrees_iff (l : Lattice) (hl : l.options.joins.validate = .ok ())
    (hw : w ∈ [1, 8, 16, 32, 64]) (hx : x.IsWord w) (hy : y.IsWord w)
    (hrel : rel ∈ [.eq, .ne, .slt, .sle, .sgt, .sge])
    (hd : d ∈ [.sign, .zero, .interval, .words]) :
    ∃ c t, Constant.binary (.relation rel) x y = pure c ∧
      (∀ answers, ((l.comparedIn d rel x y).run.play answers).result = .ok t) ∧
      ((t = .maybe ∨ t = c.toTristate) ↔
        ¬ (w = 1 ∧ x ≠ y ∧ rel ∈ [.slt, .sle, .sgt, .sge] ∧ (d = .sign ∨ d = .interval))) := by
  refine ⟨.ofBool (Constant.compare rel x y), ?_⟩
  rw [Constant.toTristate_ofBool]
  have hexception : (w = 1 ∧ x ≠ y ∧ rel ∈ [.slt, .sle, .sgt, .sge] ∧
      (d = .sign ∨ d = .interval)) ↔ Constant.Reversed w rel x y ∧ (d = .sign ∨ d = .interval) :=
    ⟨fun h => ⟨⟨h.1, h.2.1, h.2.2.1⟩, h.2.2.2⟩, fun h => ⟨h.1.bit, h.1.ne, h.1.order, h.2⟩⟩
  rw [hexception]
  have hanswer {t : Tristate} (ht : (comparison d rel x y).toTristate = pure t)
      (answers : List Int) : ((l.comparedIn d rel x y).run.play answers).result = .ok t := by
    obtain ⟨_, hok, rfl⟩ := ((ends_comparedIn hl hw hx hy ht).of_play answers).exists_ok
    exact hok
  by_cases h : Constant.Reversed w rel x y ∧ (d = .sign ∨ d = .interval)
  · refine ⟨.ofBool !Constant.compare rel x y, Constant.binary_eq_compare hx hy, ?_, ?_⟩
    · exact hanswer (truth_of_reversed h.1 hx hy h.2)
    · exact iff_of_false Tristate.not_agrees_not (not_not_intro h)
  · have hconstant : d ≠ .constant := by
      rintro rfl
      simp at hd
    obtain ⟨t, ht, hagrees⟩ := exists_truth hw hx hy hrel hconstant h
    exact ⟨t, Constant.binary_eq_compare hx hy, hanswer ht, iff_of_true hagrees h⟩

/-- The least and the greatest word of sixty-four bits, which intervals take for the infinities,
and a byte above the sign bit in word ranges. -/
theorem comparedIn_agrees_iff_extremes :
    let l : Lattice := ⟨.standard, defaultChooseBound⟩
    (∃ c t, Constant.binary (.relation .sle) ⟨0x8000000000000000, .integer, 64⟩
        ⟨0x7FFFFFFFFFFFFFFF, .integer, 64⟩ = pure c ∧
      (∀ answers, ((l.comparedIn .interval .sle ⟨0x8000000000000000, .integer, 64⟩
        ⟨0x7FFFFFFFFFFFFFFF, .integer, 64⟩).run.play answers).result = .ok t) ∧
      (t = .maybe ∨ t = c.toTristate)) ∧
    ∃ c t, Constant.binary (.relation .sgt) ⟨200, .integer, 8⟩ ⟨100, .integer, 8⟩ = pure c ∧
      (∀ answers, ((l.comparedIn .words .sgt ⟨200, .integer, 8⟩ ⟨100, .integer, 8⟩).run.play
        answers).result = .ok t) ∧
      (t = .maybe ∨ t = c.toTristate) := by
  intro l
  have hl : l.options.joins.validate = .ok () := rfl
  have hleast : Constant.IsWord 64 ⟨0x8000000000000000, .integer, 64⟩ := ⟨rfl, rfl, by decide⟩
  have hgreatest : Constant.IsWord 64 ⟨0x7FFFFFFFFFFFFFFF, .integer, 64⟩ := ⟨rfl, rfl, by decide⟩
  have hhigh : Constant.IsWord 8 ⟨200, .integer, 8⟩ := ⟨rfl, rfl, by decide⟩
  have hlow : Constant.IsWord 8 ⟨100, .integer, 8⟩ := ⟨rfl, rfl, by decide⟩
  have hsle : Relation.sle ∈ [.eq, .ne, .slt, .sle, .sgt, .sge] := by decide
  have hsgt : Relation.sgt ∈ [.eq, .ne, .slt, .sle, .sgt, .sge] := by decide
  have hinterval : Domain.interval ∈ [.sign, .zero, .interval, .words] := by decide
  have hwords : Domain.words ∈ [.sign, .zero, .interval, .words] := by decide
  constructor
  · obtain ⟨c, t, hc, ht, hiff⟩ :=
      comparedIn_agrees_iff l hl (by decide) hleast hgreatest hsle hinterval
    exact ⟨c, t, hc, ht, hiff.mpr fun h => absurd h.1 (by decide)⟩
  · obtain ⟨c, t, hc, ht, hiff⟩ := comparedIn_agrees_iff l hl (by decide) hhigh hlow hsgt hwords
    exact ⟨c, t, hc, ht, hiff.mpr fun h => absurd h.1 (by decide)⟩

/-- The bit 1 is below the bit 0 as a signed word, and above it as an interval. -/
theorem comparedIn_contradicts_bit :
    Constant.binary (.relation .slt) (.ofBool true) (.ofBool false) = pure (.ofBool true) ∧
      ((Lattice.comparedIn ⟨.standard, defaultChooseBound⟩ .interval .slt (.ofBool true)
        (.ofBool false)).run.play []).result = .ok .no := by
  exact ⟨rfl, rfl⟩

end Lattice

end Narrowing
