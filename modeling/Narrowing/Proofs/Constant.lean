/-
# Exact words are bit vectors

A constant of `w` bits is the bit vector of its low `w` bits, whatever stands above them.
Read so, every operator on two constants of one width is the operator on bit vectors, at
every width from one to sixty-four.  Below sixty-four the operators work in longer words and
cut the result off, and there is one question about each of them: do the low bits of its
result hang on anything but the low bits of its operands?

There are two ways in which they do not, one for each reading of a word.  For an unsigned
operator the long result and the exact one are the same number modulo `2 ^ w`
(`ofBits_eq_ofWord`).  For a signed one they are the same integer modulo `2 ^ w`, in the
balanced range (`ofInt64_eq_ofWord`): the least word divided by -1 leaves the range at every
width, and comes back to itself at every width.

A shift by the width or more is decided apart, and agrees: it leaves zeros, or copies of the
sign bit.
-/
import Narrowing.Proofs.Dialogue
import Narrowing.Proofs.Word

namespace Narrowing

/-! ## Operators on bit vectors -/

/-- The operator on bit vectors of one width.  Signed division goes toward zero, and the
amount of a shift is unsigned. -/
def Arith.onWords {n : Nat} : Arith → BitVec n → BitVec n → BitVec n
  | add, x, y => x + y
  | sub, x, y => x - y
  | mul, x, y => x * y
  | udiv, x, y => x / y
  | urem, x, y => x % y
  | sdiv, x, y => x.sdiv y
  | srem, x, y => x.srem y
  | and, x, y => x &&& y
  | or, x, y => x ||| y
  | xor, x, y => x ^^^ y
  | shl, x, y => x <<< y
  | lshr, x, y => x >>> y
  | ashr, x, y => x.sshiftRight' y

/-- Whether the operator divides, so that its second operand must not be zero. -/
def Arith.divides : Arith → Bool
  | sdiv | udiv | srem | urem => true
  | _ => false

/-- The relation between bit vectors of one width. -/
def Relation.onWords {n : Nat} : Relation → BitVec n → BitVec n → Bool
  | eq, x, y => x == y
  | ne, x, y => x != y
  | slt, x, y => x.slt y
  | sle, x, y => x.sle y
  | sgt, x, y => y.slt x
  | sge, x, y => y.sle x
  | ult, x, y => x.ult y
  | ule, x, y => x.ule y
  | ugt, x, y => y.ult x
  | uge, x, y => y.ule x

namespace Constant

variable {a b c : Constant} {w : UInt8}

/-- No bit is set above the width. -/
def Masked (c : Constant) : Prop := c.bits ≤ Word.mask c.width

instance : Decidable c.Masked := inferInstanceAs (Decidable (c.bits ≤ Word.mask c.width))

/-- The integer word of a width, with no bit set above it. -/
structure IsWord (w : UInt8) (c : Constant) : Prop where
  kind : c.kind = .integer
  width : c.width = w
  masked : c.Masked

def low (c : Constant) (n : Nat) : BitVec n := c.bits.toBitVec.setWidth n

/-- The integer constant with the bits of a bit vector. -/
def ofWord (w : UInt8) (x : BitVec w.toNat) : Constant :=
  ⟨UInt64.ofBitVec (x.setWidth 64), .integer, w⟩

/-! ## The two readings -/

theorem toNat_low (hw : w ≤ 64) (hc : c.width = w) : (c.low w.toNat).toNat = c.unsigned.toNat := by
  subst hc
  rw [toNat_unsigned hw]
  exact BitVec.toNat_setWidth _ _

theorem toInt_low (hw0 : 1 ≤ w) (hw : w ≤ 64) (hc : c.width = w) :
    (c.low w.toNat).toInt = c.signed.toInt := by
  subst hc
  rw [toInt_signed hw0 hw, BitVec.toInt_eq_toNat_bmod, toNat_low hw rfl]

theorem low_eq_zero_iff (hw : w ≤ 64) (hc : c.width = w) :
    c.low w.toNat = 0#w.toNat ↔ c.unsigned = 0 := by
  rw [← BitVec.toNat_inj, ← UInt64.toNat_inj, toNat_low hw hc, BitVec.toNat_zero]
  rfl

theorem low_eq_zero_iff_signed (hw0 : 1 ≤ w) (hw : w ≤ 64) (hc : c.width = w) :
    c.low w.toNat = 0#w.toNat ↔ c.signed = 0 := by
  rw [← BitVec.toInt_inj, ← Int64.toInt_inj, toInt_low hw0 hw hc, BitVec.toInt_zero]
  rfl

theorem toNat_bits_ofWord (hw : w ≤ 64) (x : BitVec w.toNat) :
    (ofWord w x).bits.toNat = x.toNat := by
  have hlt : x.toNat < 2 ^ 64 :=
    x.isLt.trans_le (Nat.pow_le_pow_right (by decide) (Word.toNat_width hw))
  exact (BitVec.toNat_setWidth 64 x).trans (Nat.mod_eq_of_lt hlt)

theorem toNat_unsigned_ofWord (hw : w ≤ 64) (x : BitVec w.toNat) :
    (ofWord w x).unsigned.toNat = x.toNat := by
  rw [toNat_unsigned hw, toNat_bits_ofWord hw]
  exact Nat.mod_eq_of_lt x.isLt

theorem ofWord_masked (hw : w ≤ 64) (x : BitVec w.toNat) : (ofWord w x).Masked := by
  refine (Word.le_mask_iff hw).mpr ?_
  rw [toNat_bits_ofWord hw]
  exact x.isLt

/-- The low bits of a word are the bit vector that the word is modulo `2 ^ w`. -/
theorem ofBits_eq_ofWord {bits : UInt64} {x : BitVec w.toNat} (hw : w ≤ 64)
    (h : bits.toNat % 2 ^ w.toNat = x.toNat) : ofBits bits w = ofWord w x := by
  have hbits : bits &&& Word.mask w = (ofWord w x).bits := by
    rw [← UInt64.toNat_inj, Word.toNat_and_mask hw, toNat_bits_ofWord hw, h]
  exact congrArg (Constant.mk · .integer w) hbits

theorem ofBits_eq_ofWord_of_eq {bits : UInt64} {x : BitVec w.toNat} (hw : w ≤ 64)
    (h : bits.toNat = x.toNat) : ofBits bits w = ofWord w x :=
  ofBits_eq_ofWord hw (by rw [h, Nat.mod_eq_of_lt x.isLt])

/-- The low bits of a signed word are the bit vector that the integer is, balanced. -/
theorem ofInt64_eq_ofWord {z : Int64} {x : BitVec w.toNat} (hw : w ≤ 64)
    (h : z.toInt.bmod (2 ^ w.toNat) = x.toInt) : ofInt64 z w = ofWord w x := by
  have hlow : z.toBitVec.setWidth w.toNat = x := by
    rw [← BitVec.signExtend_eq_setWidth_of_le _ (Word.toNat_width hw), ← BitVec.toInt_inj, ← h]
    exact BitVec.toInt_signExtend_eq_toInt_bmod_of_le _ (Word.toNat_width hw)
  refine ofBits_eq_ofWord hw ?_
  rw [← hlow]
  exact (BitVec.toNat_setWidth _ _).symm

theorem ofInt64_eq_ofWord_of_eq {z : Int64} {x : BitVec w.toNat} (hw : w ≤ 64)
    (h : z.toInt = x.toInt) : ofInt64 z w = ofWord w x :=
  ofInt64_eq_ofWord hw (by rw [h, BitVec.toInt_bmod_cancel])

/-! ## Operators on the unsigned reading -/

theorem two_pow_dvd (hw : w ≤ 64) : 2 ^ w.toNat ∣ 2 ^ 64 := Nat.pow_dvd_pow 2 (Word.toNat_width hw)

theorem toNat_unsigned_lt (hw : w ≤ 64) (hc : c.width = w) : c.unsigned.toNat < 2 ^ w.toNat :=
  toNat_low hw hc ▸ (c.low w.toNat).isLt

theorem ofBits_add (hw : w ≤ 64) (ha : a.width = w) (hb : b.width = w) :
    ofBits (a.unsigned + b.unsigned) w = ofWord w (a.low _ + b.low _) := by
  refine ofBits_eq_ofWord hw ?_
  rw [UInt64.toNat_add, Nat.mod_mod_of_dvd _ (two_pow_dvd hw), BitVec.toNat_add, toNat_low hw ha,
    toNat_low hw hb]

theorem ofBits_sub (hw : w ≤ 64) (ha : a.width = w) (hb : b.width = w) :
    ofBits (a.unsigned - b.unsigned) w = ofWord w (a.low _ - b.low _) := by
  refine ofBits_eq_ofWord hw ?_
  have hlt := toNat_unsigned_lt hw hb
  -- the two differences borrow from different powers, one a multiple of the other
  obtain ⟨k, hk⟩ : ∃ k, 2 ^ 64 = 2 ^ w.toNat * k + 2 ^ w.toNat := by
    refine ⟨2 ^ (64 - w.toNat) - 1, ?_⟩
    rw [← Nat.mul_succ, Nat.succ_eq_add_one, Nat.sub_add_cancel Nat.one_le_two_pow, ← Nat.pow_add,
      Nat.add_sub_cancel' (Word.toNat_width hw)]
  have hborrow : 2 ^ 64 - b.unsigned.toNat + a.unsigned.toNat =
      2 ^ w.toNat * k + (2 ^ w.toNat - b.unsigned.toNat + a.unsigned.toNat) := by omega
  rw [UInt64.toNat_sub, Nat.mod_mod_of_dvd _ (two_pow_dvd hw), hborrow, Nat.mul_add_mod,
    BitVec.toNat_sub, toNat_low hw ha, toNat_low hw hb]

theorem ofBits_mul (hw : w ≤ 64) (ha : a.width = w) (hb : b.width = w) :
    ofBits (a.unsigned * b.unsigned) w = ofWord w (a.low _ * b.low _) := by
  refine ofBits_eq_ofWord hw ?_
  rw [UInt64.toNat_mul, Nat.mod_mod_of_dvd _ (two_pow_dvd hw), BitVec.toNat_mul, toNat_low hw ha,
    toNat_low hw hb]

theorem ofBits_shl (hw : w ≤ 64) (ha : a.width = w) (hb : b.width = w) :
    ofBits (if w.toUInt64 ≤ b.unsigned then 0 else Word.shl a.unsigned b.unsigned) w =
      ofWord w (a.low _ <<< b.low w.toNat) := by
  refine ofBits_eq_ofWord hw ?_
  rw [BitVec.shiftLeft_eq', BitVec.toNat_shiftLeft, toNat_low hw ha, toNat_low hw hb,
    Nat.shiftLeft_eq]
  split
  case isTrue h =>
      have hle : w.toNat ≤ b.unsigned.toNat := by
        rw [UInt64.le_iff_toNat_le, UInt8.toNat_toUInt64] at h
        exact h
      rw [UInt64.toNat_zero, Nat.zero_mod]
      exact (Nat.mod_eq_zero_of_dvd (Dvd.dvd.mul_left (Nat.pow_dvd_pow 2 hle) _)).symm
  case isFalse h =>
      rw [Word.toNat_shl, Nat.mod_mod_of_dvd _ (two_pow_dvd hw)]

theorem ofBits_lshr (hw : w ≤ 64) (ha : a.width = w) (hb : b.width = w) :
    ofBits (if w.toUInt64 ≤ b.unsigned then 0 else Word.shr a.unsigned b.unsigned) w =
      ofWord w (a.low _ >>> b.low w.toNat) := by
  refine ofBits_eq_ofWord_of_eq hw ?_
  rw [BitVec.ushiftRight_eq', BitVec.toNat_ushiftRight, toNat_low hw ha, toNat_low hw hb,
    Nat.shiftRight_eq_div_pow]
  split
  case isTrue h =>
      have hlt : a.unsigned.toNat < 2 ^ b.unsigned.toNat := by
        rw [UInt64.le_iff_toNat_le, UInt8.toNat_toUInt64] at h
        exact (toNat_unsigned_lt hw ha).trans_le (Nat.pow_le_pow_right (by decide) h)
      exact (Nat.div_eq_of_lt hlt).symm
  case isFalse h =>
      exact Word.toNat_shr _ _

/-! ## Operators on the signed reading -/

theorem ofInt64_sdiv (hw0 : 1 ≤ w) (hw : w ≤ 64) (ha : a.width = w) (hb : b.width = w) :
    ofInt64 (a.signed / b.signed) w = ofWord w ((a.low _).sdiv (b.low _)) := by
  refine ofInt64_eq_ofWord hw ?_
  rw [Int64.toInt_div, Int.bmod_bmod_of_dvd (two_pow_dvd hw), BitVec.toInt_sdiv,
    toInt_low hw0 hw ha, toInt_low hw0 hw hb]

theorem ofInt64_srem (hw0 : 1 ≤ w) (hw : w ≤ 64) (ha : a.width = w) (hb : b.width = w) :
    ofInt64 (a.signed % b.signed) w = ofWord w ((a.low _).srem (b.low _)) := by
  refine ofInt64_eq_ofWord_of_eq hw ?_
  rw [Int64.toInt_mod, BitVec.toInt_srem, toInt_low hw0 hw ha, toInt_low hw0 hw hb]

/-- From the width less one on, a shift leaves nothing but the sign. -/
theorem div_two_pow_of_le {x : Int} {n k : Nat} (hl : -2 ^ n ≤ x) (hu : x < 2 ^ n) (hk : n ≤ k) :
    x / 2 ^ k = x / 2 ^ n := by
  have hpow : (2 : Int) ^ n ≤ 2 ^ k := pow_le_pow_right₀ (by decide) hk
  rcases lt_or_ge x 0 with hneg | hpos
  · rw [Int.ediv_eq_neg_one_of_neg_of_le hneg (by omega),
      Int.ediv_eq_neg_one_of_neg_of_le hneg (by omega)]
  · rw [Int.ediv_eq_zero_of_lt hpos hu, Int.ediv_eq_zero_of_lt hpos (by omega)]

theorem ofInt64_ashr (hw0 : 1 ≤ w) (hw : w ≤ 64) (ha : a.width = w) (hb : b.width = w) :
    ofInt64 (Word.sar a.signed (if w.toUInt64 ≤ b.unsigned then w.toUInt64 - 1 else b.unsigned)) w =
      ofWord w ((a.low _).sshiftRight' (b.low w.toNat)) := by
  refine ofInt64_eq_ofWord_of_eq hw ?_
  rw [BitVec.toInt_sshiftRight', Int.shiftRight_eq_div_pow, toInt_low hw0 hw ha, toNat_low hw hb,
    Word.toInt_sar]
  split
  case isTrue h =>
      have hlast : (w.toUInt64 - 1).toNat = w.toNat - 1 := by
        rw [UInt64.toNat_sub_of_le, UInt8.toNat_toUInt64]
        · rfl
        · exact UInt64.le_iff_toNat_le.mpr (UInt8.le_iff_toNat_le.mp hw0)
      rw [UInt64.le_iff_toNat_le, UInt8.toNat_toUInt64] at h
      rw [hlast, ← toInt_low hw0 hw ha]
      push_cast
      exact (div_two_pow_of_le (BitVec.le_toInt _) BitVec.toInt_lt (by omega)).symm
  case isFalse h =>
      push_cast
      rfl

/-! ## Every operator -/

theorem arith_eq_words (hw0 : 1 ≤ w) (hw : w ≤ 64) (ha : a.width = w) (hb : b.width = w)
    (op : Arith) :
    arith op a b =
      if op.divides = true ∧ b.low w.toNat = 0#w.toNat then Eval.fault op.name .divisionByZero
      else pure (ofWord w (op.onWords (a.low _) (b.low _))) := by
  have hua := toNat_low hw ha
  have hub := toNat_low hw hb
  have hunsigned := (low_eq_zero_iff hw hb).symm
  have hsigned := (low_eq_zero_iff_signed hw0 hw hb).symm
  cases op <;>
    simp only [arith, Arith.divides, Arith.onWords, ha, hunsigned, hsigned, Bool.false_eq_true,
      false_and, true_and, if_false]
  case add => rw [ofBits_add hw ha hb]
  case sub => rw [ofBits_sub hw ha hb]
  case mul => rw [ofBits_mul hw ha hb]
  case sdiv => rw [ofInt64_sdiv hw0 hw ha hb]
  case srem => rw [ofInt64_srem hw0 hw ha hb]
  case shl => rw [ofBits_shl hw ha hb]
  case lshr => rw [ofBits_lshr hw ha hb]
  case ashr => rw [ofInt64_ashr hw0 hw ha hb]
  -- none of the rest leaves the width
  case udiv =>
      rw [ofBits_eq_ofWord_of_eq hw]
      rw [UInt64.toNat_div, BitVec.toNat_udiv, hua, hub]
  case urem =>
      rw [ofBits_eq_ofWord_of_eq hw]
      rw [UInt64.toNat_mod, BitVec.toNat_umod, hua, hub]
  case and =>
      rw [ofBits_eq_ofWord_of_eq hw]
      rw [UInt64.toNat_and, BitVec.toNat_and, hua, hub]
  case or =>
      rw [ofBits_eq_ofWord_of_eq hw]
      rw [UInt64.toNat_or, BitVec.toNat_or, hua, hub]
  case xor =>
      rw [ofBits_eq_ofWord_of_eq hw]
      rw [UInt64.toNat_xor, BitVec.toNat_xor, hua, hub]

theorem compare_eq_words (hw0 : 1 ≤ w) (hw : w ≤ 64) (ha : a.width = w) (hb : b.width = w)
    (rel : Relation) : compare rel a b = rel.onWords (a.low w.toNat) (b.low w.toNat) := by
  have heq : a.unsigned = b.unsigned ↔ a.low w.toNat = b.low w.toNat := by
    rw [← UInt64.toNat_inj, ← BitVec.toNat_inj, toNat_low hw ha, toNat_low hw hb]
  cases rel <;>
    simp only [compare, Relation.onWords, BitVec.slt_eq_decide, BitVec.sle_eq_decide,
      BitVec.ult_eq_decide, BitVec.ule_eq_decide, toInt_low hw0 hw ha, toInt_low hw0 hw hb,
      toNat_low hw ha, toNat_low hw hb, Int64.lt_iff_toInt_lt, Int64.le_iff_toInt_le,
      UInt64.lt_iff_toNat_lt, UInt64.le_iff_toNat_le]
  case eq => exact Bool.eq_iff_iff.mpr (by simpa using heq)
  case ne => exact Bool.eq_iff_iff.mpr (by simpa using not_congr heq)

theorem ofBool_eq_ofWord (t : Bool) : ofBool t = ofWord 1 (BitVec.ofBool t) := by
  cases t <;> rfl

theorem binary_arith (hw0 : 1 ≤ w) (hw : w ≤ 64) (ha : a.width = w) (hb : b.width = w)
    (hka : a.kind ≠ .float) (hkb : b.kind ≠ .float) (op : Arith) :
    binary (.arith op) a b =
      if op.divides = true ∧ b.low w.toNat = 0#w.toNat then Eval.fault op.name .divisionByZero
      else pure (ofWord w (op.onWords (a.low _) (b.low _))) := by
  rw [← arith_eq_words hw0 hw ha hb]
  simp only [binary, hka, hkb, ha, hb, or_self, if_false, ne_eq, not_true]

theorem eq_of_binary_arith (hw0 : 1 ≤ w) (hw : w ≤ 64) (ha : a.width = w) (hb : b.width = w)
    (hka : a.kind ≠ .float) (hkb : b.kind ≠ .float) {op : Arith} {answers : List Int}
    (h : ((binary (.arith op) a b).run.play answers).result = .ok c) :
    c = ofWord w (op.onWords (a.low _) (b.low _)) := by
  rw [binary_arith hw0 hw ha hb hka hkb] at h
  split at h
  · cases h
  · exact (Except.ok.inj h).symm

theorem binary_relation (hw0 : 1 ≤ w) (hw : w ≤ 64) (ha : a.width = w) (hb : b.width = w)
    (hka : a.kind ≠ .float) (hkb : b.kind ≠ .float) (rel : Relation) :
    binary (.relation rel) a b =
      pure (ofWord 1 (BitVec.ofBool (rel.onWords (a.low w.toNat) (b.low _)))) := by
  rw [← compare_eq_words hw0 hw ha hb, ← ofBool_eq_ofWord]
  simp only [binary, hka, hkb, ha, hb, or_self, if_false, ne_eq, not_true]

/-! ## Every change of width -/

theorem ofBits_fit (hw : w ≤ 64) (ha : a.width = w) {width : UInt8} (hwidth : width ≤ 64) :
    ofBits a.unsigned width = ofWord width ((a.low w.toNat).setWidth width.toNat) := by
  refine ofBits_eq_ofWord hwidth ?_
  rw [BitVec.toNat_setWidth, toNat_low hw ha]

theorem ofInt64_sext (hw0 : 1 ≤ w) (hw : w ≤ 64) (ha : a.width = w) {width : UInt8}
    (hwidth : width ≤ 64) :
    ofInt64 a.signed width = ofWord width ((a.low w.toNat).signExtend width.toNat) := by
  refine ofInt64_eq_ofWord hwidth ?_
  rw [← toInt_low hw0 hw ha]
  exact (BitVec.toInt_ofInt _).symm

theorem cast_fit (ha : a.kind ≠ .float) (hw : w ≤ 64) (haw : a.width = w) {width : UInt8}
    (hwidth : width ≤ 64) {k : Cast} (hk : k ∈ [Cast.zext, .trunc, .zfit]) :
    cast (.cast k) a width =
      pure { ofWord width ((a.low w.toNat).setWidth width.toNat) with kind := a.kind } := by
  rw [← ofBits_fit hw haw hwidth]
  simp only [List.mem_cons, List.not_mem_nil, or_false] at hk
  rcases hk with rfl | rfl | rfl <;> exact if_neg ha

theorem cast_sext (ha : a.kind ≠ .float) (hw0 : 1 ≤ w) (hw : w ≤ 64) (haw : a.width = w)
    {width : UInt8} (hwidth : width ≤ 64) :
    cast (.cast .sext) a width =
      pure (ofWord width ((a.low w.toNat).signExtend width.toNat)) := by
  rw [← ofInt64_sext hw0 hw haw hwidth]
  exact if_neg ha

/-! ## At the edges of a width -/

theorem toInt_neg_one {n : Nat} (hn : 0 < n) : (-1#n).toInt = -1 := by
  rw [BitVec.neg_one_eq_allOnes, BitVec.toInt_allOnes, if_pos hn]

theorem srem_neg_one {n : Nat} (hn : 0 < n) (x : BitVec n) : x.srem (-1#n) = 0#n := by
  rw [← BitVec.toInt_inj, BitVec.toInt_srem, toInt_neg_one hn, Int.tmod_neg, Int.tmod_one,
    BitVec.toInt_zero]

theorem sshiftRight_of_le {n k : Nat} (hk : n ≤ k) (x : BitVec n) :
    x.sshiftRight k = if x.msb then BitVec.allOnes n else 0#n := by
  ext i hi
  rw [BitVec.getElem_sshiftRight, dif_neg (by omega)]
  cases x.msb <;> simp

section Edges

variable (hw0 : 1 ≤ w) (hw : w ≤ 64) (ha : a.width = w) (hb : b.width = w)
  (hka : a.kind ≠ .float) (hkb : b.kind ≠ .float)

include hw0 hw ha hb hka hkb

theorem binary_of_least (hleast : a.low w.toNat = BitVec.intMin _)
    (hone : b.low w.toNat = -1#w.toNat) :
    binary (.arith .sdiv) a b = pure (ofWord w (BitVec.intMin _)) ∧
      binary (.arith .srem) a b = pure (ofWord w 0#_) := by
  have hn : 0 < w.toNat := UInt8.le_iff_toNat_le.mp hw0
  have hne : b.low w.toNat ≠ 0#w.toNat := by
    intro h
    have hint := toInt_neg_one hn
    rw [← hone, h, BitVec.toInt_zero] at hint
    exact absurd hint (by decide)
  rw [binary_arith hw0 hw ha hb hka hkb, binary_arith hw0 hw ha hb hka hkb,
    if_neg fun h => hne h.2, if_neg fun h => hne h.2]
  simp only [Arith.onWords, hleast, hone, BitVec.intMin_sdiv_neg_one, srem_neg_one hn, and_self]

theorem binary_shift_of_le (hle : w.toNat ≤ (b.low w.toNat).toNat) :
    binary (.arith .shl) a b = pure (ofWord w 0#_) ∧
      binary (.arith .lshr) a b = pure (ofWord w 0#_) ∧
      binary (.arith .ashr) a b =
        pure (ofWord w (if (a.low w.toNat).msb then BitVec.allOnes _ else 0#_)) := by
  simp only [binary_arith hw0 hw ha hb hka hkb, Arith.divides, Bool.false_eq_true, false_and,
    if_false, Arith.onWords]
  rw [BitVec.shiftLeft_eq', BitVec.shiftLeft_eq_zero hle, BitVec.ushiftRight_eq',
    BitVec.ushiftRight_eq_zero hle]
  exact ⟨rfl, rfl, by rw [BitVec.sshiftRight', sshiftRight_of_le hle]⟩

end Edges

/-! ## The whole domain -/

/-- Two words of one width, whatever stands above it, are two bit vectors: operators,
relations and changes of width all agree, and only a division by zero has no result.  The
least word divided by -1 is itself, and a shift by the width or more leaves zeros or copies
of the sign.  No result has bits above its width. -/
theorem exact_on_words (hw0 : 1 ≤ w) (hw : w ≤ 64) (ha : a.width = w) (hb : b.width = w)
    (hka : a.kind ≠ .float) (hkb : b.kind ≠ .float) :
    (∀ op : Arith, binary (.arith op) a b =
      if op.divides = true ∧ b.low w.toNat = 0#w.toNat then Eval.fault op.name .divisionByZero
      else pure (ofWord w (op.onWords (a.low _) (b.low _)))) ∧
    (∀ rel : Relation, binary (.relation rel) a b =
      pure (ofWord 1 (BitVec.ofBool (rel.onWords (a.low w.toNat) (b.low _))))) ∧
    (a.low w.toNat = BitVec.intMin _ → b.low w.toNat = -1#w.toNat →
      binary (.arith .sdiv) a b = pure (ofWord w (BitVec.intMin _)) ∧
      binary (.arith .srem) a b = pure (ofWord w 0#_)) ∧
    (w.toNat ≤ (b.low w.toNat).toNat →
      binary (.arith .shl) a b = pure (ofWord w 0#_) ∧
      binary (.arith .lshr) a b = pure (ofWord w 0#_) ∧
      binary (.arith .ashr) a b =
        pure (ofWord w (if (a.low w.toNat).msb then BitVec.allOnes _ else 0#_))) ∧
    (∀ width : UInt8, 1 ≤ width → width ≤ 64 →
      (∀ k ∈ [Cast.zext, .trunc, .zfit], cast (.cast k) a width =
        pure { ofWord width ((a.low w.toNat).setWidth _) with kind := a.kind }) ∧
      cast (.cast .sext) a width = pure (ofWord width ((a.low w.toNat).signExtend _))) ∧
    (∀ op : Arith, (binary (.arith op) a b).Sure Masked) ∧
    (∀ rel : Relation, (binary (.relation rel) a b).Sure Masked) ∧
    (∀ width : UInt8, 1 ≤ width → width ≤ 64 → ∀ k ∈ [Cast.zext, .sext, .trunc, .zfit],
      (cast (.cast k) a width).Sure Masked) := by
  have harith := binary_arith hw0 hw ha hb hka hkb
  have hrel := binary_relation hw0 hw ha hb hka hkb
  refine ⟨harith, hrel, ?_, ?_, ?_, ?_, ?_, ?_⟩
  · intro hleast hone
    exact binary_of_least hw0 hw ha hb hka hkb hleast hone
  · intro hle
    exact binary_shift_of_le hw0 hw ha hb hka hkb hle
  · intro width _ hwidth
    exact ⟨fun k hk => cast_fit hka hw ha hwidth hk, cast_sext hka hw0 hw ha hwidth⟩
  · intro op
    rw [harith]
    split
    · exact Eval.sure_fault
    · exact Eval.sure_pure (ofWord_masked hw _)
  · intro rel
    rw [hrel]
    exact Eval.sure_pure (ofWord_masked (by decide) _)
  · intro width _ hwidth k hk
    by_cases hsext : k = .sext
    · rw [hsext, cast_sext hka hw0 hw ha hwidth]
      exact Eval.sure_pure (ofWord_masked hwidth _)
    · rw [cast_fit hka hw ha hwidth (by simpa [hsext] using hk)]
      exact Eval.sure_pure (ofWord_masked hwidth _)

/-- The least byte by -1, with other bits above both: the quotient and the shift. -/
theorem exact_on_words_least_byte :
    let a : Constant := ⟨0xf80, .integer, 8⟩
    let b : Constant := ⟨0x1ff, .pointer, 8⟩
    (a.low 8 = 0x80#8 ∧ b.low 8 = -1#8) ∧
      binary (.arith .sdiv) a b = pure ⟨0x80, .integer, 8⟩ ∧
      binary (.arith .srem) a b = pure ⟨0, .integer, 8⟩ ∧
      binary (.arith .ashr) a b = pure ⟨0xff, .integer, 8⟩ := by
  obtain ⟨-, -, hleast, hshift, -⟩ :=
    exact_on_words (a := ⟨0xf80, .integer, 8⟩) (b := ⟨0x1ff, .pointer, 8⟩) (w := 8)
      (by decide) (by decide) rfl rfl (by decide) (by decide)
  have hdiv := hleast (by decide) (by decide)
  exact ⟨by decide, hdiv.1, hdiv.2, (hshift (by decide)).2.2⟩

end Constant

end Narrowing
