/-
# Members picked from a range

To pick a member of an interval is to ask for one of the integers in it.  The member is
returned as a word of the width asked for, and a node is added for it, with the one
integer that intervals read the word as.  So an integer changes hands three times, and
the node should hold the integer that was picked.

A range may be narrowed before that.  An assumption that succeeds leaves of every interval
a part that is not empty, whatever the other operands are, since nothing joins with an
interval but to an interval.  So a range of a machine type stays between the ends that it
was created with, and its members are integers of the type.  From these to their words
nothing is lost.  But words are read with a sign, and this gives an integer back for a
signed type always, for an unsigned one only below the sign bit.
-/
import Narrowing.Proofs.Constant
import Narrowing.Proofs.Graph.Compute
import Narrowing.Proofs.Graph.Domains
import Narrowing.Proofs.Graph.Ranges
import Narrowing.Proofs.Picking

namespace Narrowing

/-! ## What narrowing leaves of an interval -/

namespace Value

variable {u v w : Value} {i : Interval}

/-- Of an interval there is left an interval that is a part of it. -/
def Shrinks (v w : Value) : Prop := ∀ i, v.interval? = some i → ∃ j, w.interval? = some j ∧ i.Part j

theorem Shrinks.refl (v : Value) : v.Shrinks v := fun i hi => ⟨i, hi, .refl i⟩

theorem Shrinks.trans (huv : u.Shrinks v) (hvw : v.Shrinks w) : u.Shrinks w := by
  intro i hi
  obtain ⟨j, hj, hij⟩ := huv i hi
  obtain ⟨k, hk, hjk⟩ := hvw j hj
  exact ⟨k, hk, hij.trans hjk⟩

theorem domain_of_interval? (h : v.interval? = some i) : v.domain = .interval :=
  domain_eq_interval.mpr ⟨i, interval?_eq_some_iff.mp h⟩

theorem shrinks_of_domain_ne (h : v.domain ≠ .interval) : v.Shrinks w :=
  fun _ hi => absurd (domain_of_interval? hi) h

theorem assume_shrinks {expected : Bool} (h : (v.assume expected).conflict = none) :
    v.Shrinks (v.assume expected).left := by
  intro i hi
  obtain rfl := interval?_eq_some_iff.mp hi
  exact ⟨_, rfl, Interval.assume_part h⟩

theorem sure_toInterval_self : v.toInterval.Sure fun x => ∀ i, v.interval? = some i → x = i := by
  cases v with
  | interval i => exact Eval.sure_pure fun _ => Option.some.inj
  | _ => exact Eval.sure_of_forall (fun _ => nofun) _

end Value

namespace Lattice

variable {l : Lattice} (ht : l.options.joins.Usable)

include ht in
theorem sure_join_interval {x y : Domain} (h : x = .interval ∨ y = .interval) :
    (l.join x y).Sure fun d => d = .interval := by
  unfold join join?
  cases hcell : l.options.joins.lookup (some x) (some y) with
  | none => exact Eval.sure_misuse
  | some d =>
      obtain ⟨hx, hy⟩ := ht.reach x y d hcell
      refine Eval.sure_pure ?_
      rcases h with rfl | rfl
      · exact beq_iff_eq.mp hx
      · exact beq_iff_eq.mp hy

theorem sure_backwardIn_shrinks (l : Lattice) (tag : Tag) (a b r : Value) :
    (l.backwardIn tag .interval a b r).Sure fun p => a.Shrinks p.1 ∧ b.Shrinks p.2 := by
  refine Eval.sure_bind (Value.sure_toInterval_self.mono fun x hx => ?_)
  refine Eval.sure_bind (Value.sure_toInterval_self.mono fun y hy => ?_)
  refine Eval.sure_bind (Eval.sure_of_forall (fun z => ?_) _)
  refine Eval.sure_bind ((Interval.ends_backward_parts l.bound tag z x y).sure.mono ?_)
  intro p hp
  refine Eval.sure_pure ⟨fun i hi => ⟨p.1, rfl, ?_⟩, fun i hi => ⟨p.2, rfl, ?_⟩⟩
  · exact hx i hi ▸ hp.1
  · exact hy i hi ▸ hp.2

include ht

theorem sure_backward_shrinks (tag : Tag) (r a b : Value) :
    (l.backward tag r a b).Sure fun p => a.Shrinks p.1 ∧ b.Shrinks p.2 := by
  by_cases h : a.domain = .interval ∨ b.domain = .interval
  · refine Eval.sure_bind ((sure_join_interval ht h).mono ?_)
    rintro _ rfl
    refine Eval.sure_bind ((sure_join_interval ht (Or.inl rfl)).mono ?_)
    rintro _ rfl
    exact sure_backwardIn_shrinks l tag a b r
  · obtain ⟨ha, hb⟩ := not_or.mp h
    refine Eval.sure_of_forall (fun p => ?_) _
    exact ⟨Value.shrinks_of_domain_ne ha, Value.shrinks_of_domain_ne hb⟩

theorem sure_backwardCast_shrinks (tag : Tag) (r a : Value) :
    (l.backwardCast tag r a).Sure a.Shrinks := by
  by_cases h : a.domain = .interval
  · refine Eval.sure_bind ((sure_join_interval ht (Or.inl h)).mono ?_)
    rintro _ rfl
    rw [← h, Value.coerce_self, pure_bind, h]
    exact Eval.sure_bind ((sure_backwardIn_shrinks l tag a a r).mono fun p hp =>
      Eval.sure_pure hp.1)
  · exact Eval.sure_of_forall (fun _ => Value.shrinks_of_domain_ne h) _

theorem sure_meet_shrinks (a b : Value) : (l.binary .meet a b).Sure a.Shrinks := by
  by_cases h : a.domain = .interval
  · refine Eval.sure_bind ((sure_join_interval ht (Or.inl h)).mono ?_)
    rintro _ rfl
    refine Eval.sure_bind (Eval.sure_note ?_)
    refine Eval.sure_bind (Value.sure_toInterval_self.mono fun x hx => ?_)
    refine Eval.sure_bind (Eval.sure_of_forall (fun y => ?_) _)
    refine Eval.sure_bind ((Interval.ends_meet_part x y).sure.mono ?_)
    intro m hm
    exact Eval.sure_pure fun i hi => ⟨m, rfl, hx i hi ▸ hm⟩
  · exact Eval.sure_of_forall (fun _ => Value.shrinks_of_domain_ne h) _

end Lattice

namespace Graph

variable {e : Engine} {g g' g₁ : Graph} {h k : Handle} {i : Interval} {n : Node}

def interval? (g : Graph) (h : Handle) : Option Interval :=
  (g.node? h).bind fun n => n.value.primary.interval?

theorem interval?_eq_some_iff : g.interval? h = some i ↔
    ∃ n, g.node? h = some n ∧ n.value.primary = .interval i := by
  unfold interval?
  rw [Option.bind_eq_some_iff]
  simp only [Value.interval?_eq_some_iff]

/-- Of every interval of a graph there is left a part. -/
def Shrinks (g g' : Graph) : Prop :=
  ∀ h i, g.interval? h = some i → ∃ j, g'.interval? h = some j ∧ i.Part j

theorem Shrinks.refl (g : Graph) : Shrinks g g := fun _ i hi => ⟨i, hi, .refl i⟩

theorem Shrinks.trans (hg : Shrinks g g') (hg' : Shrinks g' g₁) : Shrinks g g₁ := by
  intro h i hi
  obtain ⟨j, hj, hij⟩ := hg h i hi
  obtain ⟨k, hk, hjk⟩ := hg' h j hj
  exact ⟨k, hk, hij.trans hjk⟩

theorem shrinks_push : Shrinks g (g.push n) := by
  intro h i hi
  refine ⟨i, ?_, .refl i⟩
  obtain ⟨m, hm, hv⟩ := interval?_eq_some_iff.mp hi
  refine interval?_eq_some_iff.mpr ⟨m, ?_, hv⟩
  rw [node?_push_of_before (before_of_node? hm), hm]

/-- A value that is left of the one at a handle. -/
def Remains (g : Graph) (k : Handle) (v : Value) : Prop :=
  ∃ n, g.node? k = some n ∧ n.value.primary.Shrinks v

theorem Remains.trans {v w : Value} (hv : g.Remains k v) (hw : v.Shrinks w) : g.Remains k w := by
  obtain ⟨n, hn, hs⟩ := hv
  exact ⟨n, hn, hs.trans hw⟩

/-- Narrowing from any node leaves a part of each interval. -/
theorem sound_remains (ht : e.lattice.options.joins.Usable) (g : Graph) :
    Sound e g.Remains (fun _ => True) (fun _ => True) (fun _ _ => True) g where
  missing _ _ := trivial
  step _ _ := {
    leaf := fun _ => trivial
    unknown := fun _ => trivial
    unsupported := fun _ => trivial
    binary := fun _ => ⟨trivial, trivial, fun _ ha hb =>
      (Lattice.sure_backward_shrinks ht _ _ _ _).ends.imp fun _ hp =>
        ⟨⟨ha.trans hp.1, hb.trans hp.2⟩, fun _ _ => trivial⟩⟩
    meet := fun _ _ _ _ ha _ => (Lattice.sure_meet_shrinks ht _ _).ends.imp fun _ hv => ha.trans hv
    cast := fun _ => ⟨trivial, fun _ ha =>
      (Lattice.sure_backwardCast_shrinks ht _ _ _).ends.imp fun _ hv =>
        ⟨ha.trans hv, fun _ => trivial⟩⟩ }

theorem Stays.shrinks (hg : Stays g.Remains g g') : Shrinks g g' := by
  intro h i hi
  obtain ⟨n, hn, hv⟩ := interval?_eq_some_iff.mp hi
  obtain ⟨n', hn', -⟩ := hg.alike.node? hn
  obtain ⟨m, hm, hs⟩ := hg.values h n' hn'
  obtain rfl : n = m := Option.some.inj (hn.symm.trans hm)
  obtain ⟨j, hj, hpart⟩ := hs i (Value.interval?_eq_some_iff.mpr hv)
  exact ⟨j, interval?_eq_some_iff.mpr ⟨n', hn', Value.interval?_eq_some_iff.mp hj⟩, hpart⟩

/-- **An assumption that succeeds leaves a part of every interval.** -/
theorem ends_assume_shrinks (ht : e.lattice.options.joins.Usable) (expected : Bool) :
    (assume e h expected).Ends (fun _ => Shrinks g) (fun _ _ => True) g := by
  have hstart : Stays g.Remains g g := ⟨.refl g, fun k n hn => ⟨n, hn, .refl _⟩⟩
  refine ((sound_remains ht g).ends_assume_fits ?_ trivial hstart).mono
    (fun _ _ hg => hg.shrinks) fun _ _ => id
  exact fun n hn hfits => ⟨n, hn, Value.assume_shrinks hfits⟩

/-! ## Operations that succeed -/

/-- The graphs that operations lead to which succeed, one after another, with any answers. -/
inductive Leads (e : Engine) (g : Graph) : Graph → Prop
  | start : Leads e g g
  | make {g₁ : Graph} {k : Handle} (m : Make Handle) (answers : List Int) : Leads e g g₁ →
    (((Graph.make e m).run g₁).play answers).result.1 = .ok k →
    Leads e g (((Graph.make e m).run g₁).play answers).result.2
  | lower {g₁ : Graph} {p : Constant × Handle} (h : Handle) (width : UInt8) (answers : List Int) :
    Leads e g g₁ → (((Graph.lower e h width).run g₁).play answers).result.1 = .ok p →
    Leads e g (((Graph.lower e h width).run g₁).play answers).result.2
  | assume {g₁ : Graph} (h : Handle) (expected : Bool) (answers : List Int) : Leads e g g₁ →
    (((Graph.assume e h expected).run g₁).play answers).result.1 = .ok () →
    Leads e g (((Graph.assume e h expected).run g₁).play answers).result.2

theorem ends_make_shrinks (e : Engine) (g : Graph) (m : Make Handle) :
    (make e m).Ends (fun _ => Shrinks g) (fun _ _ => True) g :=
  ends_make (Eval.sure_of_forall (fun _ => shrinks_push) _).ends

theorem ends_lower_shrinks (e : Engine) (g : Graph) (h : Handle) (width : UInt8) :
    (lower e h width).Ends (fun _ => Shrinks g) (fun _ _ => True) g := by
  refine Action.ends_bind (Action.ends_get (Action.ends_bind (Action.ends_lift ?_)))
  refine (Eval.sure_of_forall (fun v => ?_) _).ends
  refine Action.ends_bind (Action.ends_lift (Eval.sure_of_forall (fun p => ?_) _).ends)
  exact shrinks_push

theorem shrinks_of_result {α : Type} {act : Action Graph α} {a : α} {answers : List Int}
    (hact : act.Ends (fun _ => Shrinks g) (fun _ _ => True) g)
    (hresult : ((act.run g).play answers).result.1 = .ok a) :
    Shrinks g ((act.run g).play answers).result.2 := by
  have hmeets := hact.meets answers
  rw [hresult] at hmeets
  exact hmeets

/-- **Operations that succeed leave a part of every interval.** -/
theorem Leads.shrinks (ht : e.lattice.options.joins.Usable) (hg : Leads e g g') :
    Shrinks g g' := by
  induction hg with
  | start => exact .refl g
  | make m answers _ hresult ih =>
      exact ih.trans (shrinks_of_result (ends_make_shrinks e _ m) hresult)
  | lower h width answers _ hresult ih =>
      exact ih.trans (shrinks_of_result (ends_lower_shrinks e _ h width) hresult)
  | assume h expected answers _ hresult ih =>
      exact ih.trans (shrinks_of_result (ends_assume_shrinks ht expected) hresult)

end Graph

/-! ## Members of an interval -/

namespace Interval

variable {i j : Interval}

theorem Part.ends (h : i.Part j) (hi : i.lo.toInt ≤ i.hi.toInt) :
    i.lo.toInt ≤ j.lo.toInt ∧ j.lo.toInt ≤ j.hi.toInt ∧ j.hi.toInt ≤ i.hi.toInt := by
  have hj := isBottom_eq_false_iff.mp (h.nonempty (isBottom_eq_false_iff.mpr hi))
  rcases leq_iff.mp h.leq with hempty | hends
  · omega
  · exact ⟨hends.1, hj, hends.2⟩

end Interval

/-! ## Integers of a type -/

namespace IntType

variable {t : IntType} {x start stop : Int} {m : Int64}

theorem bounds_of_short (hw : t.width ≤ 32) (hx : t.contains x = true) :
    -2 ^ 32 ≤ x ∧ x ≤ 2 ^ 32 := by
  have hwidth : t.width.toNat ≤ 32 := UInt8.le_iff_toNat_le.mp hw
  have hpow {n : Nat} (hn : n ≤ 32) : (2 : Int) ^ n ≤ 2 ^ 32 := pow_le_pow_right₀ (by decide) hn
  cases hs : t.signed with
  | true =>
      have := hpow (Nat.le_trans (Nat.sub_le _ 1) hwidth)
      rw [contains_signed hs] at hx
      omega
  | false =>
      have := hpow hwidth
      rw [contains_unsigned hs] at hx
      omega

theorem ofInt64_eq_word (hm : t.contains m.toInt = true) :
    Constant.ofInt64 m t.width = t.word m.toInt := by
  unfold word
  split
  · rw [Int64.ofInt_toInt]
  · rename_i hs
    obtain ⟨h0, -⟩ := (contains_unsigned (Bool.not_eq_true _ ▸ hs)).mp hm
    have hbits : m.toUInt64 = UInt64.ofNat m.toInt.toNat := by
      rw [← Word.toNat_toUInt64 (Int.toNat_of_nonneg h0).symm, UInt64.ofNat_toNat]
    rw [← hbits]
    rfl

/-- The word of an integer of an unsigned type has the bits of the integer. -/
theorem toNat_unsigned_word_of_unsigned (ht : t ∈ all) (hs : t.signed = false)
    (hx : t.contains x = true) : ((t.word x).unsigned.toNat : Int) = x := by
  have hlt := ((contains_unsigned hs).mp hx).2
  unfold word
  rw [if_neg (by rw [hs]; decide), Constant.toNat_unsigned_ofBits _ (width_bounds ht).2,
    Int.natCast_emod, toNat_ofNat ht hs hx]
  push_cast
  exact Int.emod_eq_of_lt ((contains_unsigned hs).mp hx).1 hlt

/-- Of a range of integers of a type, the word of a member is read as a member, unless the type
is unsigned and the word has the sign bit. -/
theorem contains_reading_iff {i : Interval} (ht : t ∈ all) (hlo : t.contains i.lo.toInt = true)
    (hhi : t.contains i.hi.toInt = true) (hm : i.contains m = true) :
    i.contains (Constant.ofInt64 m t.width).signed = true ↔
      t.signed = true ∨ (Constant.ofInt64 m t.width).unsigned.toNat < 2 ^ (t.width.toNat - 1) := by
  rw [Interval.contains_iff] at hm ⊢
  have hx := contains_of_between hlo hhi hm.1 hm.2
  rw [ofInt64_eq_word hx]
  cases hs : t.signed with
  | true =>
      rw [toInt_signed_word_of_signed ht hs hx]
      exact iff_of_true hm (Or.inl rfl)
  | false =>
      have hword := toNat_unsigned_word_of_unsigned ht hs hx
      have hpow : ((2 ^ (t.width.toNat - 1) : Nat) : Int) = 2 ^ (t.width.toNat - 1) := by
        push_cast
        rfl
      rw [contains_unsigned hs] at hlo hx
      rw [toInt_signed_word_of_unsigned ht hs ((contains_unsigned hs).mpr hx)]
      split_ifs with hhalf
      · exact iff_of_true hm (Or.inr (by omega))
      · -- from the sign bit on, the reading is below zero, and so below the range
        refine iff_of_false (by omega) ?_
        rintro (hsigned | hbelow)
        · cases hsigned
        · omega

end IntType

/-- A word is its signed reading, modulo the width. -/
theorem Constant.toNat_unsigned_eq_emod {c : Constant} (hw0 : 1 ≤ c.width) (hw : c.width ≤ 64) :
    (c.unsigned.toNat : Int) = c.signed.toInt % 2 ^ c.width.toNat := by
  have hlt := toNat_unsigned_lt hw rfl
  have hpow : (2 : Int) ^ c.width.toNat = ((2 ^ c.width.toNat : Nat) : Int) := by push_cast; rfl
  rw [toInt_signed hw0 hw, hpow, Int.bmod_emod, ← Int.natCast_emod, Nat.mod_eq_of_lt hlt]

/-! ## Picking a member -/

namespace Engine

variable {e : Engine} {v : Tagged} {i : Interval} {width : UInt8}

/-- A member is picked, as a word, and with it the integer that its word is read as. -/
theorem always_lower_interval (he : e.lattice.options = .standard) (hv : v.primary = .interval i)
    (hi : i.Within (2 ^ 62)) (hle : i.lo.toInt ≤ i.hi.toInt)
    (hw : width = 8 ∨ width = 16 ∨ width = 32 ∨ width = 64) :
    (e.lower v width).Always fun p => ∃ m, i.contains m = true ∧ p.1 = .ofInt64 m width ∧
      p.2.primary = .interval (.point p.1.signed) := by
  unfold lower
  rw [hv]
  refine Eval.always_bind (Eval.always_bind ((Interval.always_lower _ hi hle).mono ?_))
  intro m hm
  refine Eval.always_pure ?_
  have hjoin : e.lattice.join? (some .constant) (some .interval) = pure .interval := by
    unfold Lattice.join?
    rw [he]
    rfl
  show Eval.Always _ ((e.lattice.join? (some .constant) (some .interval) >>= fun d =>
    (Value.constant (.ofInt64 m width)).coerce d) >>= _)
  rw [hjoin, pure_bind]
  show Eval.Always _ (((Constant.liftValue _ >>= fun x => pure (Interval.point x)) >>= fun j =>
    pure (Value.interval j)) >>= _)
  rw [Constant.liftValue_eq rfl hw]
  exact Eval.always_pure ⟨m, hm, rfl, rfl⟩

end Engine

namespace Graph

variable {e : Engine} {g : Graph} {h : Handle} {i : Interval} {t : IntType} {start stop : Int}

theorem all_lower_interval {width : UInt8} (he : e.lattice.options = .standard)
    (hh : g.interval? h = some i) (hi : i.Within (2 ^ 62)) (hle : i.lo.toInt ≤ i.hi.toInt)
    (hw : width = 8 ∨ width = 16 ∨ width = 32 ∨ width = 64) :
    (lower e h width).All .inRange (fun r g' => ∃ c k m, r = .ok (c, k) ∧ i.contains m = true ∧
      c = .ofInt64 m width ∧ g'.interval? k = some (.point c.signed)) g := by
  obtain ⟨n, hn, hv⟩ := interval?_eq_some_iff.mp hh
  refine Action.all_bind.mpr (Action.all_get ?_)
  refine Action.all_lift_always (P := fun v => v = n.value) ?_ ?_
  · rw [value_eq hn]
    exact Eval.always_pure rfl
  rintro _ rfl
  refine Action.all_lift_always (Engine.always_lower_interval he hv hi hle hw) ?_
  rintro p ⟨m, hm, hc, hp⟩
  refine ⟨p.1, .ofNat g.size, m, rfl, hm, hc, interval?_eq_some_iff.mpr ?_⟩
  exact ⟨⟨p.2, h, .none⟩, node?_push_self, hp⟩

theorem run_make_of_compute {m : Make Handle} {n : Node} (hm : g.compute e m = pure n) :
    (make e m).run g = .done (.ok (.ofNat g.size), g.push n) := by
  show ((liftM (g.compute e m) : Action Graph Node) >>= add).run g = _
  rw [hm]
  rfl

/-- A range of a type of at most 32 bits has the ends it is created with. -/
theorem compute_between (he : e.lattice.options = .standard) (ht : t ∈ IntType.all)
    (hw : t.width ≤ 32) (hstart : t.contains start = true) (hstop : t.contains stop = true)
    (hle : start ≤ stop) : ∃ i : Interval, i.lo.toInt = start ∧ i.hi.toInt = stop ∧
      g.compute e (t.between start stop) = pure ⟨⟨.any, .interval i⟩, .none, .none⟩ := by
  have hu : e.lattice.options.unknown = some .interval := by
    rw [he]
    rfl
  cases hs : t.signed with
  | true =>
      have hlo := IntType.toInt_ofInt ht hs hstart
      have hhi := IntType.toInt_ofInt ht hs hstop
      refine ⟨⟨Int64.ofInt start, Int64.ofInt stop⟩, hlo, hhi, ?_⟩
      unfold IntType.between
      rw [if_pos hs]
      show (e.lattice.anyRange _ _ _ >>= _) >>= _ = _
      rw [Lattice.anyRange_interval hu (Int64.le_iff_toInt_le.mpr (by omega))]
      rfl
  | false =>
      have hlast := IntType.bounds_of_short hw hstop
      obtain ⟨i, hlo, hhi, hrange⟩ := Lattice.anyURange_interval hu ht hs hstart hstop hle
      refine ⟨i, by omega, by omega, ?_⟩
      unfold IntType.between
      rw [if_neg (by rw [hs]; decide)]
      show (e.lattice.anyURange _ _ _ >>= _) >>= _ = _
      rw [hrange]
      rfl

/-- **The node of a picked member holds it, unless the member has the sign bit of an unsigned
type.**  Where constants are words and unknown values are intervals, create a value between two
integers of a type of at most 32 bits, and let any operations follow that succeed.  Whatever is
picked of what they leave of it, a member is returned as a word, and a node is added with an interval
of one integer, which is the word modulo the width.  This integer is a member just when the type is
signed or the word is below the sign bit. -/
theorem lower_between_iff (he : e.lattice.options = .standard) (ht : t ∈ IntType.all)
    (hw : t.width ≤ 32) (hstart : t.contains start = true) (hstop : t.contains stop = true)
    (hle : start ≤ stop) (g : Graph) (made : List Int) :
    ∃ h g₁, (((make e (t.between start stop)).run g).play made).result = (.ok h, g₁) ∧
      ∀ g₂, Leads e g₁ g₂ → ∃ i, g₂.interval? h = some i ∧
        ∀ answers, Dialogue.Fit .inRange answers (((lower e h t.width).run g₂).play answers).asked →
          ∃ c k g₃ p, (((lower e h t.width).run g₂).play answers).result = (.ok (c, k), g₃) ∧
            g₃.interval? k = some (.point p) ∧ c.width = t.width ∧
            (c.unsigned.toNat : Int) = p.toInt % 2 ^ t.width.toNat ∧
            (i.contains p = true ↔
              t.signed = true ∨ c.unsigned.toNat < 2 ^ (t.width.toNat - 1)) := by
  obtain ⟨i₀, hlo, hhi, hcompute⟩ := compute_between (g := g) he ht hw hstart hstop hle
  refine ⟨_, _, by rw [run_make_of_compute hcompute]; rfl, fun g₂ hleads => ?_⟩
  have hjoins : e.lattice.options.joins.Usable := by
    rw [he]
    exact JoinTable.full_standard.usable rfl
  -- what is left of the range lies between the same ends
  obtain ⟨i, hi, hpart⟩ := hleads.shrinks hjoins (.ofNat g.size) i₀
    (interval?_eq_some_iff.mpr ⟨_, node?_push_self, rfl⟩)
  obtain ⟨hlow, hsome, hhigh⟩ := hpart.ends (by omega)
  refine ⟨i, hi, fun answers hfit => ?_⟩
  have hfirst := IntType.contains_of_between hstart hstop (x := i.lo.toInt) (by omega) (by omega)
  have hlast := IntType.contains_of_between hstart hstop (x := i.hi.toInt) (by omega) (by omega)
  have hwithin : i.Within (2 ^ 62) := by
    have := IntType.bounds_of_short hw hfirst
    have := IntType.bounds_of_short hw hlast
    exact ⟨by omega, by omega⟩
  obtain ⟨c, k, m, hresult, hm, rfl, hnode⟩ := Dialogue.All.of_fit
    (all_lower_interval he hi hwithin hsome (IntType.width_of_mem ht)) hfit
  refine ⟨_, k, _, _, Prod.ext hresult rfl, hnode, rfl, ?_, ?_⟩
  · obtain ⟨hw0, hw64⟩ := IntType.width_bounds ht
    exact Constant.toNat_unsigned_eq_emod hw0 hw64
  · exact IntType.contains_reading_iff ht hfirst hlast hm

/-- Of a byte from -100 to 100 that is below 0, only members are picked, and each is the member of
its node. -/
theorem lower_between_iff_narrowed :
    let e : Engine := ⟨⟨.standard, defaultChooseBound⟩, .primary⟩
    let g₁ := (((make e (IntType.between ⟨true, 8⟩ (-100) 100)).run .empty).play []).result.2
    let g₂ := (((make e (.lift (.ofInt64 0 8))).run g₁).play []).result.2
    let g₃ := (((make e (.binary (.relation .slt) ⟨0⟩ ⟨1⟩)).run g₂).play []).result.2
    let g₄ := (((assume e ⟨2⟩ true).run g₃).play []).result.2
    g₄.interval? ⟨0⟩ = some ⟨-100, -1⟩ ∧ ∀ answers,
      Dialogue.Fit .inRange answers (((lower e ⟨0⟩ 8).run g₄).play answers).asked →
      ∃ c k g₅ p, (((lower e ⟨0⟩ 8).run g₄).play answers).result = (.ok (c, k), g₅) ∧
        g₅.interval? k = some (.point p) ∧ Interval.contains ⟨-100, -1⟩ p = true := by
  intro e g₁ g₂ g₃ g₄
  have hleads : Leads e g₁ g₄ := by
    refine .assume ⟨2⟩ true [] (.make (.binary (.relation .slt) ⟨0⟩ ⟨1⟩) [] (k := ⟨2⟩)
      (.make (.lift (.ofInt64 0 8)) [] (k := ⟨1⟩) .start ?_) ?_) ?_
    · decide +kernel
    · decide +kernel
    · decide +kernel
  have hstart : IntType.contains ⟨true, 8⟩ (-100) = true := rfl
  have hstop : IntType.contains ⟨true, 8⟩ 100 = true := rfl
  obtain ⟨h, g₁', hmake, hall⟩ := lower_between_iff (e := e) rfl (by decide) (by decide) hstart hstop
    (by decide) .empty []
  obtain rfl : (⟨0⟩ : Handle) = h := Except.ok.inj (congrArg Prod.fst hmake)
  obtain rfl : g₁ = g₁' := congrArg Prod.snd hmake
  have hleft : g₄.interval? ⟨0⟩ = some ⟨-100, -1⟩ := by decide +kernel
  obtain ⟨i, hi, hpick⟩ := hall g₄ hleads
  obtain rfl : ⟨-100, -1⟩ = i := Option.some.inj (hleft.symm.trans hi)
  refine ⟨hleft, fun answers hfit => ?_⟩
  obtain ⟨c, k, g₅, p, hresult, hnode, -, -, hcontains⟩ := hpick answers hfit
  exact ⟨c, k, g₅, p, hresult, hnode, hcontains.mpr (Or.inl rfl)⟩

/-- Of the byte 200 alone, the node that is added for its only member has -56. -/
theorem lower_between_reads_sign :
    let e : Engine := ⟨⟨.standard, defaultChooseBound⟩, .primary⟩
    let byte : IntType := ⟨false, 8⟩
    let g := (((make e (byte.between 200 200)).run .empty).play []).result.2
    let picked := ((lower e ⟨0⟩ 8).run g).play []
    byte ∈ IntType.all ∧ byte.contains 200 = true ∧ g.interval? ⟨0⟩ = some ⟨200, 200⟩ ∧
      picked.asked = [] ∧ picked.result.1 = .ok (.ofInt64 200 8, ⟨1⟩) ∧
      picked.result.2.interval? ⟨1⟩ = some (.point (-56)) ∧
      Interval.contains ⟨200, 200⟩ (-56) = false := by
  decide +kernel

end Graph

end Narrowing
