/-
# Ranges and the words in them

An integer of a machine type is created in two ways: as one that lies between two ends,
or as a single one.  The ends go straight into the domain of the unknown values; a single
integer stays an exact word until it is compared, and is then read with its sign.  Here
the two are held against each other: is a range, compared with an integer between its
ends, ever found to differ from it?

Each leaf domain settles this by its own `contains`.  What is left are the readings.  The
ends of an unsigned type are never negative, but from the sign bit on its words are, so
these are not found in ranges made for them.  Signed types agree with their words in every
domain; but word ranges know no sign, and one that would have to wrap around gives up
the path.
-/
import Narrowing.Graph.Integer
import Narrowing.Proofs.Graph.Nodes
import Narrowing.Proofs.Lattice
import Narrowing.Proofs.Settings
import Narrowing.Proofs.Word

namespace Narrowing

/-! ## Leaf domains -/

namespace Sign

variable {start stop : Int64}

theorem exists_lift_eq_single (x : Int64) : ∃ s, lift x = single s := by
  unfold lift
  split_ifs
  · exact ⟨.neg, rfl⟩
  · exact ⟨.pos, rfl⟩
  · exact ⟨.zero, rfl⟩

theorem truth_eq_lift {v : Sign} (hv : v ≠ bot) (x : Int64) :
    ∃ t, toTristate (compare .eq v (lift x)) = pure t ∧ (t ≠ .no ↔ v.contains x = true) := by
  unfold contains
  obtain ⟨s, hs⟩ := exists_lift_eq_single x
  rw [hs]
  obtain ⟨neg, zero, pos⟩ := v
  cases neg <;> cases zero <;> cases pos <;> cases s <;>
    first | exact absurd rfl hv | exact ⟨_, rfl, by decide⟩

theorem anyRange_of_le (h : start ≤ stop) : ∃ v, anyRange start stop = pure v ∧ v ≠ bot ∧
    ∀ x, start ≤ x → x ≤ stop → v.contains x = true := by
  unfold anyRange contains lift
  simp only [Int64.le_iff_toInt_le, Int64.lt_iff_toInt_lt, Int64.toInt_zero] at h ⊢
  rw [if_neg (by omega)]
  split_ifs with hacross <;> refine ⟨_, rfl, by decide, fun x hx hx' => ?_⟩ <;> split_ifs <;>
    first | omega | decide

end Sign

namespace Zero

variable {start stop : Int64}

theorem truth_eq_lift {v : Zero} (hv : v ≠ bottom) (x : Int64) :
    ∃ t, toTristate (compare .eq v (lift x)) = pure t ∧ (t ≠ .no ↔ v.contains x = true) := by
  unfold contains lift
  obtain ⟨zero, nonzero⟩ := v
  cases zero <;> cases nonzero <;> cases x != 0 <;>
    first | exact absurd rfl hv | exact ⟨_, rfl, by decide⟩

theorem anyRange_of_le (h : start ≤ stop) : ∃ v, anyRange start stop = pure v ∧ v ≠ bottom ∧
    ∀ x, start ≤ x → x ≤ stop → v.contains x = true := by
  unfold anyRange contains lift
  simp only [Int64.le_iff_toInt_le, Int64.lt_iff_toInt_lt, ← Int64.toInt_inj,
    Int64.toInt_zero] at h ⊢
  rw [if_neg (by omega)]
  split_ifs with hzeros hside <;> refine ⟨_, rfl, by decide, fun x hx hx' => ?_⟩
  · obtain rfl : x = 0 := by
      rw [← Int64.toInt_inj, Int64.toInt_zero]
      omega
    rfl
  · have hne : x ≠ 0 := by
      rintro rfl
      rw [Int64.toInt_zero] at hx hx'
      omega
    rw [bne_iff_ne.mpr hne]
    rfl
  · cases x != 0 <;> rfl

end Zero

namespace Interval

theorem truth_eq_point (v : Interval) (x : Bound) :
    ∃ t, toTristate (ofTristate (compare .eq v (point x))) = pure t ∧
      (t ≠ .no ↔ v.contains x = true) := by
  have hlo := Bound.toInt_greater v.lo x
  have hhi := Bound.toInt_lesser v.hi x
  show ∃ t, toTristate (ofTristate (equal v (point x))) = pure t ∧ _
  unfold equal isBottom isPoint meet contains point
  simp only [Bool.and_eq_true, beq_iff_eq, decide_eq_true_eq, Int64.le_iff_toInt_le,
    Int64.lt_iff_toInt_lt, ← Int64.toInt_inj]
  split_ifs with hsame hempty
  · exact ⟨.yes, rfl, iff_of_true nofun (by omega)⟩
  · exact ⟨.no, rfl, iff_of_false (· rfl) (by omega)⟩
  · exact ⟨.maybe, rfl, iff_of_true nofun (by omega)⟩

end Interval

namespace WordRange

theorem truth_eq_lift (v : WordRange) (c : Constant) :
    toTristate (ofTristate (compare .eq v (lift c))) ≠ .no ↔ v.contains c.unsigned = true := by
  show toTristate (ofTristate (equal v (lift c))) ≠ .no ↔ _
  unfold equal isPoint contains lift
  simp only [Bool.and_eq_true, Bool.or_eq_true, beq_iff_eq, decide_eq_true_eq,
    UInt64.le_iff_toNat_le, UInt64.lt_iff_toNat_lt, ← UInt64.toNat_inj]
  split_ifs with hsame hapart
  · exact iff_of_true (by decide) (by omega)
  · exact iff_of_false (by decide) (by omega)
  · exact iff_of_true (by decide) (by omega)

end WordRange

/-! ## Values of any domain -/

namespace Value

/-- Whether a word is one of those that a value stands for, in the reading of its domain. -/
def covers : Value → Constant → Bool
  | constant d, c => d == c
  | sign s, c => s.contains c.signed
  | zero z, c => z.contains c.signed
  | interval i, c => i.contains c.signed
  | words r, c => r.contains c.unsigned

/-- A value that is not exact and can be compared with words of a width. -/
def Comparable (width : UInt8) : Value → Prop
  | constant _ => False
  | sign s => s ≠ .bot
  | zero z => z ≠ .bottom
  | interval _ => True
  | words r => r.width = width

end Value

namespace Lattice

variable {l : Lattice} {c : Constant} {r : Value} {u : Domain} {start stop : Int64} {width : UInt8}

/-- A value is found to differ from a word just when it does not cover it. -/
theorem ends_equal (hl : l.options.joins = .standard) (hkind : c.kind = .integer)
    (hw : c.width = 8 ∨ c.width = 16 ∨ c.width = 32 ∨ c.width = 64)
    (hr : r.Comparable c.width) : (l.binary (.relation .eq) r (.constant c)).Ends
      (fun v => ∃ t, v.toTristate = pure t ∧ (t ≠ .no ↔ r.covers c = true)) fun _ => False := by
  have hjoin : l.join r.domain .constant = pure r.domain := by
    unfold join join?
    rw [hl]
    cases r <;> rfl
  have hread := Constant.liftValue_eq hkind hw
  show Eval.Ends _ _ (l.join r.domain .constant >>= _)
  rw [hjoin, pure_bind]
  refine Eval.ends_bind (Eval.ends_note ?_)
  cases r with
  | constant d => exact hr.elim
  | sign s =>
      show Eval.Ends _ _ ((c.liftValue >>= fun x => pure (Sign.lift x)) >>= fun b =>
        Sign.binary (.relation .eq) s b >>= fun v => pure (Value.sign v))
      rw [hread]
      exact Eval.ends_pure (Sign.truth_eq_lift hr c.signed)
  | zero z =>
      show Eval.Ends _ _ ((c.liftValue >>= fun x => pure (Zero.lift x)) >>= fun b =>
        Zero.binary (.relation .eq) z b >>= fun v => pure (Value.zero v))
      rw [hread, pure_bind, pure_bind]
      unfold Zero.binary
      rw [if_neg (not_or_intro hr (Zero.lift_ne_bottom _))]
      exact Eval.ends_pure (Zero.truth_eq_lift hr c.signed)
  | interval i =>
      show Eval.Ends _ _ ((c.liftValue >>= fun x => pure (Interval.point x)) >>= fun b =>
        Interval.binary (.relation .eq) i b >>= fun v => pure (Value.interval v))
      rw [hread]
      exact Eval.ends_pure (Interval.truth_eq_point i c.signed)
  | words v =>
      show Eval.Ends _ _ (WordRange.binary (.relation .eq) v (.lift c) >>= fun v =>
        pure (Value.words v))
      have hwidth : ¬ v.width ≠ (WordRange.lift c).width := not_not_intro hr
      unfold WordRange.binary
      rw [if_neg hwidth]
      exact Eval.ends_pure ⟨_, rfl, WordRange.truth_eq_lift v c⟩

theorem anyRange_interval (hu : l.options.unknown = some .interval) (h : start ≤ stop) :
    l.anyRange start stop width = pure (.interval ⟨start, stop⟩) := by
  have hsome : (⟨start, stop⟩ : Interval).isBottom = false :=
    decide_eq_false (Int64.not_lt.mpr h)
  unfold anyRange Interval.make
  rw [hu]
  show ((if (⟨start, stop⟩ : Interval).isBottom = true then _ else _) >>= _) = _
  rw [hsome]
  rfl

/-- Where words are read with their sign, a range covers every word between its ends. -/
theorem ends_anyRange_of_le (hu : l.options.unknown = some u) (hexact : u ≠ .constant)
    (hwords : u ≠ .words) (h : start ≤ stop) : (l.anyRange start stop width).Ends
      (fun r => r.Comparable width ∧ ∀ c : Constant, start ≤ c.signed → c.signed ≤ stop →
        r.covers c = true) fun _ => False := by
  cases u with
  | constant => exact absurd rfl hexact
  | words => exact absurd rfl hwords
  | sign =>
      obtain ⟨v, hv, hsome, hall⟩ := Sign.anyRange_of_le h
      unfold anyRange
      rw [hu]
      show Eval.Ends _ _ (Sign.anyRange start stop >>= fun v => pure (Value.sign v))
      rw [hv]
      exact Eval.ends_pure ⟨hsome, fun c => hall c.signed⟩
  | zero =>
      obtain ⟨v, hv, hsome, hall⟩ := Zero.anyRange_of_le h
      unfold anyRange
      rw [hu]
      show Eval.Ends _ _ (Zero.anyRange start stop >>= fun v => pure (Value.zero v))
      rw [hv]
      exact Eval.ends_pure ⟨hsome, fun c => hall c.signed⟩
  | interval =>
      rw [anyRange_interval hu h]
      refine Eval.ends_pure ⟨trivial, fun c hlo hhi => ?_⟩
      exact Bool.and_eq_true_iff.mpr ⟨decide_eq_true hlo, decide_eq_true hhi⟩

end Lattice

/-! ## Machine integers -/

namespace Word

variable {w : UInt8}

theorem toNat_ofInt_and_mask (x : Int) (hw : w ≤ 64) :
    (((Int64.ofInt x).toUInt64 &&& mask w).toNat : Int) = x % 2 ^ w.toNat := by
  have hbits : (Int64.ofInt x).toUInt64.toNat = (x % (2 ^ 64 : Nat)).toNat := BitVec.toNat_ofInt x
  have hdvd : ((2 : Int) ^ w.toNat) ∣ ((2 ^ 64 : Nat) : Int) :=
    pow_dvd_pow 2 (toNat_width hw)
  rw [toNat_and_mask hw, hbits, Int.natCast_emod,
    Int.toNat_of_nonneg (Int.emod_nonneg _ (by decide))]
  push_cast
  exact Int.emod_emod_of_dvd x hdvd

end Word

namespace IntType

variable {t : IntType} {x : Int}

theorem width_of_mem (ht : t ∈ all) :
    t.width = 8 ∨ t.width = 16 ∨ t.width = 32 ∨ t.width = 64 := by
  revert t
  decide

theorem width_bounds (ht : t ∈ all) : 1 ≤ t.width ∧ t.width ≤ 64 := by
  revert t
  decide

theorem exists_width (ht : t ∈ all) : ∃ v, t.width.toNat = v + 1 ∧ v ≤ 63 := by
  refine ⟨t.width.toNat - 1, ?_, ?_⟩ <;> revert t <;> decide

theorem contains_signed (hs : t.signed = true) : t.contains x = true ↔
    -2 ^ (t.width.toNat - 1) ≤ x ∧ x < 2 ^ (t.width.toNat - 1) := by
  unfold contains least greatest
  rw [if_pos hs, if_pos hs, Bool.and_eq_true_iff, decide_eq_true_iff, decide_eq_true_iff,
    Int.le_sub_one_iff, Nat.pow_eq]
  push_cast
  rfl

theorem contains_unsigned (hs : t.signed = false) : t.contains x = true ↔
    0 ≤ x ∧ x < 2 ^ t.width.toNat := by
  have hsigned : ¬ t.signed = true := by rw [hs]; decide
  unfold contains least greatest
  rw [if_neg hsigned, if_neg hsigned, Bool.and_eq_true_iff, decide_eq_true_iff, decide_eq_true_iff,
    Int.le_sub_one_iff, Nat.pow_eq]
  push_cast
  rfl

theorem contains_of_between (hstart : t.contains start = true) (hstop : t.contains stop = true)
    (hlo : start ≤ x) (hhi : x ≤ stop) : t.contains x = true := by
  unfold contains at *
  simp only [Bool.and_eq_true, decide_eq_true_eq] at *
  omega

theorem kind_word (t : IntType) (x : Int) : (t.word x).kind = .integer := by
  unfold word
  split <;> rfl

theorem width_word (t : IntType) (x : Int) : (t.word x).width = t.width := by
  unfold word
  split <;> rfl

theorem toNat_ofNat (ht : t ∈ all) (hs : t.signed = false) (hx : t.contains x = true) :
    ((UInt64.ofNat x.toNat).toNat : Int) = x := by
  obtain ⟨h0, hlt⟩ := (contains_unsigned hs).mp hx
  have hpow : (2 : Int) ^ t.width.toNat ≤ 2 ^ 64 :=
    pow_le_pow_right₀ (by decide) (Word.toNat_width (width_bounds ht).2)
  rw [UInt64.toNat_ofNat', Nat.mod_eq_of_lt (by omega), Int.toNat_of_nonneg h0]

theorem toInt_signed_word (ht : t ∈ all) (hx : t.contains x = true) :
    (t.word x).signed.toInt = x.bmod (2 ^ t.width.toNat) := by
  obtain ⟨hw0, hw⟩ := width_bounds ht
  have hpow : (2 : Int) ^ t.width.toNat = ((2 ^ t.width.toNat : Nat) : Int) := by push_cast; rfl
  cases hs : t.signed with
  | true =>
      unfold word
      rw [if_pos hs, Constant.toInt_signed hw0 hw]
      show Int.bmod (((Int64.ofInt x).toUInt64 &&& Word.mask t.width) &&& Word.mask t.width).toNat
        (2 ^ t.width.toNat) = _
      rw [Word.toNat_and_mask hw, Int.natCast_emod, Word.toNat_ofInt_and_mask x hw, hpow,
        Int.emod_emod, Int.emod_bmod]
  | false =>
      unfold word
      rw [if_neg (by rw [hs]; decide), Constant.signed_ofBits _ hw0 hw, toNat_ofNat ht hs hx]

theorem toInt_signed_word_of_signed (ht : t ∈ all) (hs : t.signed = true)
    (hx : t.contains x = true) : (t.word x).signed.toInt = x := by
  obtain ⟨v, hv, -⟩ := exists_width ht
  obtain ⟨hlo, hhi⟩ := (contains_signed hs).mp hx
  rw [hv, Nat.add_sub_cancel] at hlo hhi
  rw [toInt_signed_word ht hx, hv]
  rw [Int.bmod_eq_of_le] <;> push_cast <;> rw [pow_succ] <;> omega

/-- The words of an unsigned type are negative from the sign bit on. -/
theorem toInt_signed_word_of_unsigned (ht : t ∈ all) (hs : t.signed = false)
    (hx : t.contains x = true) : (t.word x).signed.toInt =
      if x < 2 ^ (t.width.toNat - 1) then x else x - 2 ^ t.width.toNat := by
  obtain ⟨v, hv, -⟩ := exists_width ht
  obtain ⟨hlo, hhi⟩ := (contains_unsigned hs).mp hx
  rw [toInt_signed_word ht hx, Int.bmod_def]
  rw [hv] at hhi ⊢
  rw [Nat.add_sub_cancel]
  push_cast
  rw [Int.emod_eq_of_lt hlo hhi, pow_succ]
  have hhalf : ((2 : Int) ^ v * 2 + 1) / 2 = 2 ^ v := by omega
  rw [hhalf]

theorem toInt_ofInt (ht : t ∈ all) (hs : t.signed = true) (hx : t.contains x = true) :
    (Int64.ofInt x).toInt = x := by
  obtain ⟨v, hv, hle⟩ := exists_width ht
  obtain ⟨hlo, hhi⟩ := (contains_signed hs).mp hx
  rw [hv, Nat.add_sub_cancel] at hlo hhi
  have hpow : (2 : Int) ^ v ≤ 2 ^ 63 := pow_le_pow_right₀ (by decide) hle
  rw [Int64.toInt_ofInt]
  exact Bound.bmod_of_word (by omega) (by omega)

/-- The low bits of an integer of a signed type: below zero, the width is counted round. -/
theorem toNat_low_bits (ht : t ∈ all) (hs : t.signed = true) (hx : t.contains x = true) :
    (((Int64.ofInt x).toUInt64 &&& Word.mask t.width).toNat : Int) =
      if x < 0 then x + 2 ^ t.width.toNat else x := by
  obtain ⟨v, hv, -⟩ := exists_width ht
  obtain ⟨hlo, hhi⟩ := (contains_signed hs).mp hx
  rw [hv, Nat.add_sub_cancel] at hlo hhi
  rw [Word.toNat_ofInt_and_mask x (width_bounds ht).2, hv, pow_succ]
  split_ifs with hneg
  · rw [← Int.add_emod_right, Int.emod_eq_of_lt (by omega) (by omega)]
  · rw [Int.emod_eq_of_lt (by omega) (by omega)]

theorem toNat_unsigned_word (ht : t ∈ all) (hs : t.signed = true) (hx : t.contains x = true) :
    ((t.word x).unsigned.toNat : Int) = if x < 0 then x + 2 ^ t.width.toNat else x := by
  have hw := (width_bounds ht).2
  rw [← toNat_low_bits ht hs hx, Word.toNat_and_mask hw]
  unfold word Constant.ofInt64
  rw [if_pos hs, Constant.toNat_unsigned_ofBits _ hw]

end IntType

theorem Lattice.toInt_saturate (x : UInt64) {limit : Int64} (h : 0 ≤ limit.toInt) :
    (saturate x limit).toInt = min (x.toNat : Int) limit.toInt := by
  have hlimit : (limit.toUInt64.toNat : Int) = limit.toInt := by
    rw [Word.toNat_toUInt64 (Int.toNat_of_nonneg h).symm, Int.toNat_of_nonneg h]
  have hword := limit.toInt_lt
  unfold saturate
  split_ifs with hlt <;> rw [UInt64.lt_iff_toNat_lt] at hlt
  · omega
  · rw [Word.toInt64_of_lt (by omega)]
    omega

/-! ## Ranges of integers -/

/-- Over intervals, the ends of an unsigned type are read as they are; only those of the longest
type are ever cut. -/
theorem Lattice.anyURange_interval {l : Lattice} {t : IntType} {start stop : Int}
    (hu : l.options.unknown = some .interval) (ht : t ∈ IntType.all) (hs : t.signed = false)
    (hstart : t.contains start = true) (hstop : t.contains stop = true) (hle : start ≤ stop) :
    ∃ i : Interval, i.lo.toInt = min start (2 ^ 63 - 2) ∧ i.hi.toInt = min stop (2 ^ 63 - 1) ∧
      l.anyURange (.ofNat start.toNat) (.ofNat stop.toNat) t.width = pure (.interval i) := by
  let i : Interval := ⟨saturate (.ofNat start.toNat) (Int64.maxValue - 1),
    saturate (.ofNat stop.toNat) Int64.maxValue⟩
  have hmin : i.lo.toInt = min start (2 ^ 63 - 2) := by
    rw [toInt_saturate _ (by decide), IntType.toNat_ofNat ht hs hstart]
    rfl
  have hmax : i.hi.toInt = min stop (2 ^ 63 - 1) := by
    rw [toInt_saturate _ (by decide), IntType.toNat_ofNat ht hs hstop]
    rfl
  refine ⟨i, hmin, hmax, ?_⟩
  unfold anyURange
  rw [hu]
  refine anyRange_interval hu (Int64.le_iff_toInt_le.mpr ?_)
  show i.lo.toInt ≤ i.hi.toInt
  omega

namespace WordRange

variable {t : IntType} {start stop x : Int}

/-- Between a negative end and another there is no word range. -/
theorem anyRange_across (ht : t ∈ IntType.all) (hs : t.signed = true)
    (hstart : t.contains start = true) (hstop : t.contains stop = true) (hneg : start < 0)
    (hpos : 0 ≤ stop) : anyRange (Int64.ofInt start).toUInt64 (Int64.ofInt stop).toUInt64 t.width =
      Eval.cancel "bvinterval empty range" := by
  obtain ⟨v, hv, -⟩ := IntType.exists_width ht
  have hlo := IntType.toNat_low_bits ht hs hstart
  have hhi := IntType.toNat_low_bits ht hs hstop
  rw [IntType.contains_signed hs] at hstart hstop
  rw [hv, Nat.add_sub_cancel] at hstart hstop
  rw [if_pos hneg, hv, pow_succ] at hlo
  rw [if_neg (by omega)] at hhi
  unfold anyRange
  rw [if_pos (UInt64.lt_iff_toNat_lt.mpr (by omega))]

/-- Two ends with the same sign are in order, and so is all that lies between. -/
theorem anyRange_same_sign (ht : t ∈ IntType.all) (hs : t.signed = true)
    (hstart : t.contains start = true) (hstop : t.contains stop = true)
    (hsame : ¬ (start < 0 ∧ 0 ≤ stop)) (hlo : start ≤ x) (hhi : x ≤ stop) :
    ∃ v, anyRange (Int64.ofInt start).toUInt64 (Int64.ofInt stop).toUInt64 t.width = pure v ∧
      v.width = t.width ∧ v.contains (t.word x).unsigned = true := by
  have hx : t.contains x = true := IntType.contains_of_between hstart hstop hlo hhi
  -- negative integers are all moved up by the width, so that their order stays
  have hword := IntType.toNat_unsigned_word ht hs hx
  have hfirst := IntType.toNat_low_bits ht hs hstart
  have hlast := IntType.toNat_low_bits ht hs hstop
  have hbelow : (Int64.ofInt start).toUInt64 &&& Word.mask t.width ≤ (t.word x).unsigned := by
    rw [UInt64.le_iff_toNat_le]
    split_ifs at hfirst hword <;> omega
  have habove : (t.word x).unsigned ≤ (Int64.ofInt stop).toUInt64 &&& Word.mask t.width := by
    rw [UInt64.le_iff_toNat_le]
    split_ifs at hlast hword <;> omega
  refine ⟨_, if_neg ?_, rfl, ?_⟩
  · exact UInt64.not_lt.mpr (UInt64.le_trans hbelow habove)
  · exact Bool.and_eq_true_iff.mpr ⟨decide_eq_true hbelow, decide_eq_true habove⟩

end WordRange

namespace Graph

variable {e : Engine} {g : Graph} {t : IntType} {start stop x : Int} {n : Node}

theorem ends_compute_equal {a b : Handle} {m : Node} {c : Constant}
    (hjoins : e.lattice.options.joins = .standard) (hkind : c.kind = .integer)
    (hw : c.width = 8 ∨ c.width = 16 ∨ c.width = 32 ∨ c.width = 64) (ha : g.node? a = some n)
    (hb : g.node? b = some m) (hm : m.value.primary = .constant c)
    (hn : n.value.primary.Comparable c.width) :
    (g.compute e (.binary (.relation .eq) a b)).Ends (fun r => ∃ answer,
      r.value.primary.toTristate = pure answer ∧
      (answer ≠ .no ↔ n.value.primary.covers c = true)) fun _ => False := by
  show Eval.Ends _ _ (g.value a >>= fun x => g.value b >>= fun y =>
    (e.lattice.binary (.relation .eq) x.primary y.primary >>= fun v =>
      pure (⟨.relation .eq, v⟩ : Tagged)) >>= fun v => pure (⟨v, a, b⟩ : Node))
  rw [value_eq ha, value_eq hb, pure_bind, pure_bind, hm]
  exact ends_node_of (Lattice.ends_equal hjoins hkind hw hn)

/-- The truth of a node is that of its value, if truth is taken from the values at all. -/
theorem ends_toTristate {h : Handle} {answer : Tristate} (hn : g.node? h = some n)
    (hanswer : n.value.primary.toTristate = pure answer) :
    (g.toTristate e h).Ends (fun found => found = answer) fun _ => e.strategy ≠ .primary := by
  unfold toTristate Engine.toTristate
  rw [value_eq hn, pure_bind]
  cases hstrategy : e.strategy with
  | primary =>
      show n.value.primary.toTristate.Ends _ _
      rw [hanswer]
      exact Eval.ends_pure rfl
  | tag | disabled => exact Eval.ends_misuse nofun

/-- Create a value between two integers of a type and one integer of it, and ask whether the two
are equal. -/
def mayEqual (e : Engine) (t : IntType) (start stop x : Int) : Action Graph Tristate := do
  let range ← make e (t.between start stop)
  let single ← make e (t.exactly x)
  let equal ← make e (.binary (.relation .eq) range single)
  (← get).toTristate e equal

/-- The two are found to differ just when the range does not cover the word. -/
theorem ends_mayEqual {P : Prop} (hjoins : e.lattice.options.joins = .standard)
    (hlift : e.lattice.options.lift = some .constant) (ht : t ∈ IntType.all)
    (hrange : (g.compute e (t.between start stop)).Ends (fun n =>
      n.value.primary.Comparable t.width ∧ (n.value.primary.covers (t.word x) = true ↔ P))
      fun _ => False) :
    (mayEqual e t start stop x).Ends (fun answer _ => answer ≠ .no ↔ P)
      (fun _ _ => e.strategy ≠ .primary) g := by
  have hkind := IntType.kind_word t x
  have hw := IntType.width_of_mem ht
  rw [← IntType.width_word t x] at hrange hw
  refine Action.ends_bind (ends_make (hrange.mono (fun n hn => ?_) nofun))
  let single : Node := ⟨⟨.lift, .constant (t.word x)⟩, .none, .none⟩
  have hsingle : (g.push n).compute e (t.exactly x) = pure single := by
    show ((Lattice.lift _ (t.word x) >>= fun v => pure (⟨.lift, v⟩ : Tagged)) >>= _) = _
    unfold Lattice.lift
    rw [hlift]
    rfl
  have hfirst : ((g.push n).push single).node? (.ofNat g.size) = some n := by
    rw [node?_push, if_neg, node?_push_self]
    intro h
    have hsize : (g.push n).size = g.size + 1 := Array.size_push ..
    have := Int.ofNat.inj (congrArg Handle.index h)
    omega
  have hsecond : ((g.push n).push single).node? (.ofNat (g.push n).size) = some single :=
    node?_push_self
  refine Action.ends_bind (ends_make ?_)
  rw [hsingle]
  refine Eval.ends_pure (Action.ends_bind (ends_make ((ends_compute_equal hjoins hkind hw hfirst
    hsecond rfl hn.1).mono (fun r hr => ?_) nofun)))
  obtain ⟨answer, hanswer, hiff⟩ := hr
  refine Action.ends_bind (Action.ends_get (Action.ends_lift ?_))
  refine (ends_toTristate (n := r) node?_push_self hanswer).imp ?_
  rintro _ rfl
  exact hiff.trans hn.2

/-! ## Unsigned types -/

/-- Over intervals, the ends of an unsigned type are read as they are, and a word with its sign. -/
theorem ends_between_unsigned (hu : e.lattice.options.unknown = some .interval)
    (ht : t ∈ IntType.all) (hs : t.signed = false) (hstart : t.contains start = true)
    (hstop : t.contains stop = true) (hlo : start ≤ x) (hhi : x ≤ stop) :
    (g.compute e (t.between start stop)).Ends (fun n => n.value.primary.Comparable t.width ∧
      (n.value.primary.covers (t.word x) = true ↔ x < 2 ^ (t.width.toNat - 1)))
      fun _ => False := by
  have hx : t.contains x = true := IntType.contains_of_between hstart hstop hlo hhi
  obtain ⟨i, hmin, hmax, hrange⟩ := Lattice.anyURange_interval hu ht hs hstart hstop (hlo.trans hhi)
  unfold IntType.between
  rw [if_neg (by rw [hs]; decide)]
  refine ends_node_of (Q := fun v => v.Comparable t.width ∧ (v.covers (t.word x) = true ↔ _)) ?_
  rw [hrange]
  refine Eval.ends_pure ⟨trivial, ?_⟩
  show (decide (i.lo ≤ (t.word x).signed) && decide ((t.word x).signed ≤ i.hi)) = true ↔ _
  rw [Bool.and_eq_true_iff, decide_eq_true_iff, decide_eq_true_iff, Int64.le_iff_toInt_le,
    Int64.le_iff_toInt_le, hmin, hmax, IntType.toInt_signed_word_of_unsigned ht hs hx]
  obtain ⟨v, hv, hle⟩ := IntType.exists_width ht
  have hpow : (2 : Int) ^ v ≤ 2 ^ 63 := pow_le_pow_right₀ (by decide) hle
  have hbelow := ((IntType.contains_unsigned hs).mp hx).2
  have hzero := ((IntType.contains_unsigned hs).mp hstart).1
  rw [hv, pow_succ] at hbelow
  rw [hv, Nat.add_sub_cancel, pow_succ]
  split_ifs with hhalf <;> omega

/-- **Unsigned ranges lack the words with a sign bit.**  Where constants are words and unknown
values are intervals, take any integer between two others of an unsigned type.  Whatever is
answered, the value between the two is found to differ from the integer just when this reaches the
sign bit of the type. -/
theorem mayEqual_unsigned_iff (he : e.lattice.options = .standard)
    (hstrategy : e.strategy = .primary) (ht : t ∈ IntType.all) (hs : t.signed = false)
    (hstart : t.contains start = true) (hstop : t.contains stop = true) (hlo : start ≤ x)
    (hhi : x ≤ stop) (g : Graph) (answers : List Int) :
    ∃ answer, (((mayEqual e t start stop x).run g).play answers).result.1 = .ok answer ∧
      (answer ≠ .no ↔ x < 2 ^ (t.width.toNat - 1)) := by
  have hends := ends_mayEqual (g := g) (by rw [he]; rfl) (by rw [he]; rfl) ht
    (ends_between_unsigned (by rw [he]; rfl) ht hs hstart hstop hlo hhi)
  exact ((hends.mono (fun _ _ => id) fun _ _ h => h hstrategy).meets answers).exists_ok

/-- A byte from 100 to 250 may be 120. -/
theorem mayEqual_unsigned_iff_byte :
    let e : Engine := ⟨⟨.standard, defaultChooseBound⟩, .primary⟩
    ∀ answers, ∃ answer, (((mayEqual e ⟨false, 8⟩ 100 250 120).run .empty).play answers).result.1 =
      .ok answer ∧ answer ≠ .no := by
  intro e answers
  have hstart : IntType.contains ⟨false, 8⟩ 100 = true := rfl
  have hstop : IntType.contains ⟨false, 8⟩ 250 = true := rfl
  have hlo : (100 : Int) ≤ 120 := by decide
  obtain ⟨answer, hanswer, hiff⟩ := mayEqual_unsigned_iff (e := e) rfl rfl (by decide) rfl hstart
    hstop hlo (by decide) .empty answers
  exact ⟨answer, hanswer, hiff.mpr (by decide)⟩

/-- A byte from 100 to 250 is found to differ from 200. -/
theorem mayEqual_unsigned_no :
    let e : Engine := ⟨⟨.standard, defaultChooseBound⟩, .primary⟩
    let byte : IntType := ⟨false, 8⟩
    byte ∈ IntType.all ∧ byte.contains 100 = true ∧ byte.contains 250 = true ∧
      (((mayEqual e byte 100 250 200).run .empty).play []).result.1 = .ok .no := by
  decide +kernel

/-! ## Signed types -/

/-- A signed range that gives up the path. -/
theorem ends_between_across (hu : e.lattice.options.unknown = some .words)
    (ht : t ∈ IntType.all) (hs : t.signed = true) (hstart : t.contains start = true)
    (hstop : t.contains stop = true) (hneg : start < 0) (hpos : 0 ≤ stop) :
    (g.compute e (t.between start stop)).Ends (fun _ => False) (fun err => err = .cancelled) := by
  unfold IntType.between
  rw [if_pos hs]
  refine ends_node_of (Q := fun _ => False) ?_
  unfold Lattice.anyRange
  rw [hu]
  show Eval.Ends _ _ (WordRange.anyRange _ _ _ >>= fun v => pure (Value.words v))
  rw [WordRange.anyRange_across ht hs hstart hstop hneg hpos]
  exact Eval.ends_bind (Eval.ends_cancel rfl)

theorem ends_between_signed {u : Domain} (hu : e.lattice.options.unknown = some u)
    (hexact : u ≠ .constant) (ht : t ∈ IntType.all) (hs : t.signed = true)
    (hstart : t.contains start = true) (hstop : t.contains stop = true) (hlo : start ≤ x)
    (hhi : x ≤ stop) (hsame : ¬ (u = .words ∧ start < 0 ∧ 0 ≤ stop)) :
    (g.compute e (t.between start stop)).Ends (fun n => n.value.primary.Comparable t.width ∧
      (n.value.primary.covers (t.word x) = true ↔ True)) fun _ => False := by
  unfold IntType.between
  rw [if_pos hs]
  refine ends_node_of (Q := fun v => v.Comparable t.width ∧ (v.covers (t.word x) = true ↔ True)) ?_
  by_cases hwords : u = .words
  · subst hwords
    obtain ⟨v, hv, hwidth, hcontains⟩ := WordRange.anyRange_same_sign ht hs hstart hstop
      (fun h => hsame ⟨rfl, h⟩) hlo hhi
    unfold Lattice.anyRange
    rw [hu]
    show Eval.Ends _ _ (WordRange.anyRange _ _ _ >>= fun v => pure (Value.words v))
    rw [hv]
    exact Eval.ends_pure ⟨hwidth, iff_true_intro hcontains⟩
  · have hx : t.contains x = true := IntType.contains_of_between hstart hstop hlo hhi
    have hfirst := IntType.toInt_ofInt ht hs hstart
    have hlast := IntType.toInt_ofInt ht hs hstop
    have hword := IntType.toInt_signed_word_of_signed ht hs hx
    refine (Lattice.ends_anyRange_of_le hu hexact hwords ?_).imp fun v hv =>
      ⟨hv.1, iff_true_intro (hv.2 (t.word x) ?_ ?_)⟩
    · rw [Int64.le_iff_toInt_le, hfirst, hlast]
      omega
    · rw [Int64.le_iff_toInt_le, hfirst, hword]
      exact hlo
    · rw [Int64.le_iff_toInt_le, hlast, hword]
      exact hhi

end Graph

namespace Settings

variable {s : Settings} {st : Setup} {t : IntType} {start stop x : Int}

/-- **Signed ranges around zero have no word range.**  Let exact words be lifted as they are, and
let joins be the standard ones.  Take any integer between two others of a signed type.  Whatever
is answered, the value between the two is created, and is not found to differ from the integer;
but if unknown values are word ranges and zero lies above the lower end and not above the upper
one, the path is given up. -/
theorem signed_range_unless_across (hsetup : s.setup = .ok st)
    (hjoins : st.engine.lattice.options.joins = .standard)
    (hlift : s.domains.lift = Domain.constant.name) (ht : t ∈ IntType.all)
    (hs : t.signed = true) (hstart : t.contains start = true) (hstop : t.contains stop = true)
    (hlo : start ≤ x) (hhi : x ≤ stop) (g : Graph) (answers : List Int) :
    let across := s.domains.unknown = Domain.words.name ∧ start < 0 ∧ 0 ≤ stop
    let range := (((Graph.make st.engine (t.between start stop)).run g).play answers).result.1
    let truth := (((Graph.mayEqual st.engine t start stop x).run g).play answers).result.1
    (across → range = .error .cancelled ∧ truth = .error .cancelled) ∧
    (¬ across → range = .ok (.ofNat g.size) ∧ truth ≠ .ok .no ∧
      (st.engine.strategy = .primary → ∃ answer, truth = .ok answer)) := by
  obtain ⟨lift, u, hl, hany, hol, hu, -, hvalid⟩ :=
    DomainSettings.options_eq_ok (options_of_setup hsetup)
  have hexact := DomainOptions.unknown_ne_constant hvalid hu
  rw [hlift] at hl
  obtain rfl : Domain.constant = lift := Except.ok.inj hl
  intro across range truth
  constructor
  · rintro ⟨hwords, hneg, hpos⟩
    rw [hwords] at hany
    obtain rfl : Domain.words = u := Except.ok.inj hany
    have hcancel := Graph.ends_between_across (g := g) hu ht hs hstart hstop hneg hpos
    have hrange : (Graph.make st.engine (t.between start stop)).Ends (fun _ _ => False)
        (fun err _ => err = .cancelled) g :=
      Graph.ends_make (hcancel.mono (fun _ => id) fun _ => id)
    have htruth : (Graph.mayEqual st.engine t start stop x).Ends (fun _ _ => False)
        (fun err _ => err = .cancelled) g :=
      Action.ends_bind (hrange.mono (fun _ _ => False.elim) fun _ _ => id)
    obtain ⟨_, hrange, rfl⟩ := (hrange.meets answers).exists_error
    obtain ⟨_, htruth, rfl⟩ := (htruth.meets answers).exists_error
    exact ⟨hrange, htruth⟩
  · intro hsame
    have hnot : ¬ (u = .words ∧ start < 0 ∧ 0 ≤ stop) := by
      rintro ⟨rfl, hsides⟩
      exact hsame ⟨DomainSettings.name_of_domain hany, hsides⟩
    have hcompute := Graph.ends_between_signed (g := g) hu hexact ht hs hstart hstop hlo hhi hnot
    have hrange : (Graph.make st.engine (t.between start stop)).Ends (fun h _ => h = .ofNat g.size)
        (fun _ _ => False) g :=
      Graph.ends_make (hcompute.mono (fun _ _ => rfl) fun _ => id)
    have htruth := Graph.ends_mayEqual hjoins hol ht hcompute
    obtain ⟨_, hrange, rfl⟩ := (hrange.meets answers).exists_ok
    refine ⟨hrange, fun hno => ?_, fun hprimary => ?_⟩
    · have hmeets : Eval.Meets _ _ truth := htruth.meets answers
      rw [hno] at hmeets
      exact hmeets.mpr trivial rfl
    · obtain ⟨answer, hanswer, -⟩ :=
        ((htruth.mono (fun _ _ => id) fun _ _ h => h hprimary).meets answers).exists_ok
      exact ⟨answer, hanswer⟩

/-- Settings under which unknown values are word ranges. -/
def unsignedRanges : Settings :=
  { standard with domains := { standard.domains with unknown := Domain.words.name } }

/-- Over word ranges, a byte from -100 to -1 may be -7. -/
theorem signed_range_unless_across_byte :
    ∃ st, unsignedRanges.setup = .ok st ∧ ∀ answers, ∃ answer, answer ≠ .no ∧
      (((Graph.mayEqual st.engine ⟨true, 8⟩ (-100) (-1) (-7)).run .empty).play answers).result.1 =
        .ok answer := by
  obtain ⟨st, hsetup⟩ : ∃ st, unsignedRanges.setup = .ok st := ⟨_, rfl⟩
  have hjoins : st.engine.lattice.options.joins = .standard := by
    obtain rfl := Except.ok.inj hsetup
    rfl
  have hprimary : st.engine.strategy = .primary := by
    obtain rfl := Except.ok.inj hsetup
    rfl
  refine ⟨st, hsetup, fun answers => ?_⟩
  have hstart : IntType.contains ⟨true, 8⟩ (-100) = true := rfl
  have hstop : IntType.contains ⟨true, 8⟩ (-1) = true := rfl
  have hlo : (-100 : Int) ≤ -7 := by decide
  obtain ⟨-, hno, htruth⟩ := (signed_range_unless_across hsetup hjoins rfl (by decide) rfl hstart
    hstop hlo (by decide) .empty answers).2 (by decide)
  obtain ⟨answer, hanswer⟩ := htruth hprimary
  exact ⟨answer, fun h => hno (h ▸ hanswer), hanswer⟩

/-- Over word ranges, there is no value for a byte from -1 to 1. -/
theorem signed_range_across_cancelled :
    ∃ st, unsignedRanges.setup = .ok st ∧ st.engine.lattice.options.joins = .standard ∧
      (((Graph.make st.engine (IntType.between ⟨true, 8⟩ (-1) 1)).run .empty).play []).result.1 =
        .error .cancelled :=
  ⟨_, rfl, rfl, by decide +kernel⟩

end Settings

end Narrowing
