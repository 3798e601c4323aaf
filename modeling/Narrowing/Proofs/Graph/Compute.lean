/-
# A step of computation carries the integers on

What an assumption does to a graph that has an integer at every node, a step of
computation does too: it keeps them, and puts the integer that the step gives at
the new node.  The ends of the new interval are not known to be moderate at this
point, so the integers are first only carried (`Carries`); with moderate ends
they are allowed for again.
-/
import Narrowing.Proofs.Graph.Assume

namespace Narrowing

/-- The integers that a step of computation may give, from those of its operands: the signed
reading of a word of 8 to 64 bits, any integer of a range, the result of an exact operator. -/
def Make.Yields {ρ : Type} (value? : ρ → Option Int) : Make ρ → Int → Prop
  | lift c, z => c.kind = .integer ∧ 8 ≤ c.width ∧ c.width ≤ 64 ∧ z = c.signed.toInt
  | anyRange start stop _, z => start.toInt ≤ z ∧ z ≤ stop.toInt
  | binary tag a b, z =>
    tag.isExact = true ∧ ∃ x y, value? a = some x ∧ value? b = some y ∧ tag.Gives x y z
  | _, _ => False

/-- The operands may be looked up elsewhere. -/
theorem Make.can_resolve {ρ σ : Type} {look : ρ → Eval σ} {value? : ρ → Option Int}
    {value?' : σ → Option Int}
    (hlook : ∀ a x, value? a = some x → (look a).Can fun k => value?' k = some x) {m : Make ρ}
    {z : Int} (hm : m.Yields value? z) :
    (m.resolve look).Can fun m' => m'.Yields value?' z := by
  cases m with
  | lift c => exact Eval.can_pure hm
  | anyRange start stop width => exact Eval.can_pure hm
  | binary tag a b =>
      obtain ⟨htag, x, y, hx, hy, hz⟩ := hm
      refine Eval.can_bind ((hlook a x hx).mono ?_)
      intro j hj
      refine Eval.can_bind ((hlook b y hy).mono ?_)
      intro k hk
      exact Eval.can_pure ⟨htag, x, y, hj, hk, hz⟩
  | _ => exact hm.elim

/-- An integer word of some width is read with its sign, or not at all. -/
theorem Constant.liftValue_cases {c : Constant} (hkind : c.kind = .integer) (hwidth : 8 ≤ c.width) :
    c.liftValue = pure c.signed ∨ ∃ r, c.liftValue = Eval.misuse r := by
  have hbit : c.width ≠ 1 := by
    intro h
    rw [h] at hwidth
    exact absurd hwidth (by decide)
  unfold liftValue
  rw [hkind, if_neg nofun, if_neg hbit]
  split
  · exact Or.inl rfl
  · exact Or.inr ⟨_, rfl⟩

namespace Tag

variable {tag : Tag}

theorem isPlain_of_exact (h : tag.isExact = true) : tag.isPlain = true := by
  cases tag with
  | arith op => cases op <;> first | rfl | cases h
  | relation rel => cases rel <;> first | rfl | cases h
  | _ => cases h

theorem relates_of_gives {x y z : Int} (h : tag.isExact = true) (hz : tag.Gives x y z) :
    tag.Relates x y z := by
  cases tag with
  | arith op => cases op <;> first | exact hz | cases h
  | relation rel => exact hz
  | _ => cases h

theorem opClass_of_exact (h : tag.isExact = true) :
    tag.opClass = .binary ∨ tag.opClass = .compare := by
  cases tag with
  | arith op => exact Or.inl rfl
  | relation rel => exact Or.inr rfl
  | _ => cases h

end Tag

/-! ## Nodes with an integer -/

/-- A node stands behind its operands, its operator relates their integers to its own, and its
own is in its interval. -/
structure Node.Carries (ν : Handle → Int) (h : Handle) (n : Node) : Prop where
  founded : n.Founded h
  satisfied : n.Satisfied ν h
  holds : ∃ i, n.value.primary = .interval i ∧ ν h ∈ i

theorem Node.Carries.congr {ν ν' : Handle → Int} {h : Handle} {n : Node} (hn : n.Carries ν h)
    (hbefore : ∀ k, k.Before h → ν' k = ν k) (hh : ν' h = ν h) : n.Carries ν' h := by
  refine ⟨hn.founded, ?_, hh.symm ▸ hn.holds⟩
  have hfounded := hn.founded
  have hsat := hn.satisfied
  unfold Node.Founded at hfounded
  unfold Node.Satisfied at *
  cases htag : n.value.tag with
  | arith op =>
      rw [htag] at hfounded hsat
      rwa [hbefore _ hfounded.2.1, hbefore _ hfounded.2.2, hh]
  | relation rel =>
      rw [htag] at hfounded hsat
      rwa [hbefore _ hfounded.2.1, hbefore _ hfounded.2.2, hh]
  | cast c =>
      rw [htag] at hfounded hsat
      cases c with
      | inttoptr | ptrtoint => exact hfounded.elim
      | _ =>
          show ν' h = ν' n.left
          rw [hbefore _ hfounded.2, hh]
          exact hsat
  | _ => trivial

def Value.interval? : Value → Option Interval
  | interval i => some i
  | _ => none

theorem Value.interval?_eq_some_iff {v : Value} {i : Interval} :
    v.interval? = some i ↔ v = .interval i := by
  cases v with
  | interval j => exact ⟨fun h => Option.some.inj h ▸ rfl, fun h => Value.interval.inj h ▸ rfl⟩
  | _ => exact ⟨nofun, nofun⟩

namespace Graph

variable {e : Engine} {ν : Handle → Int} {g g' : Graph} {h : Handle} {n : Node} {z : Int}

/-- All ends are finite and at most `k` in magnitude. -/
def Within (k : Int) (g : Graph) : Prop :=
  ∀ h n i, g.node? h = some n → n.value.primary = .interval i → i.Within k

theorem within_iff {k : Int} : g.Within k ↔
    ∀ n ∈ g.nodes.toList, ∀ i ∈ n.value.primary.interval?, i.Within k := by
  constructor
  · intro h n hn i hi
    obtain ⟨j, hj⟩ := List.mem_iff_getElem?.mp hn
    rw [Array.getElem?_toList] at hj
    exact h (.ofNat j) n i (node?_eq_some_iff.mpr ⟨Int.natCast_nonneg j, hj⟩)
      (Value.interval?_eq_some_iff.mp hi)
  · intro h k n i hn hi
    obtain ⟨-, hget⟩ := node?_eq_some_iff.mp hn
    exact h n (Array.mem_toList_iff.mpr (Array.mem_of_getElem? hget)) i
      (Value.interval?_eq_some_iff.mpr hi)

instance (k : Int) (g : Graph) : Decidable (g.Within k) := decidable_of_iff _ within_iff.symm

/-- The integers at the nodes are a concrete execution. -/
def Carries (ν : Handle → Int) (g : Graph) : Prop := ∀ h n, g.node? h = some n → n.Carries ν h

theorem Carries.allows (hg : g.Carries ν) (hwithin : g.Within (2 ^ 60)) : g.Allows ν where
  founded h n hn := (hg h n hn).founded
  satisfied h n hn := (hg h n hn).satisfied
  fits h n hn := by
    obtain ⟨i, hi, hmem⟩ := (hg h n hn).holds
    exact ⟨i, hi, hwithin h n i hn hi, hmem⟩

theorem Allows.carries (hg : g.Allows ν) : g.Carries ν := by
  intro h n hn
  obtain ⟨i, hi, -, hmem⟩ := hg.fits h n hn
  exact ⟨hg.founded h n hn, hg.satisfied h n hn, i, hi, hmem⟩

def integer? (ν : Handle → Int) (g : Graph) (h : Handle) : Option Int :=
  (g.node? h).map fun _ => ν h

theorem integer?_eq_some_iff : g.integer? ν h = some z ↔ (∃ n, g.node? h = some n) ∧ ν h = z := by
  unfold integer?
  rw [Option.map_eq_some_iff]
  exact ⟨fun ⟨n, hn, hz⟩ => ⟨⟨n, hn⟩, hz⟩, fun ⟨⟨n, hn⟩, hz⟩ => ⟨n, hn, hz⟩⟩

theorem Alike.integer? (hlike : Alike g g') (hz : g.integer? ν h = some z) :
    g'.integer? ν h = some z := by
  obtain ⟨⟨n, hn⟩, hz⟩ := integer?_eq_some_iff.mp hz
  obtain ⟨n', hn', -⟩ := hlike.node? hn
  exact integer?_eq_some_iff.mpr ⟨⟨n', hn'⟩, hz⟩

/-! ## New nodes -/

/-- The integers at the nodes, with one more at the next. -/
def extend (ν : Handle → Int) (g : Graph) (z : Int) : Handle → Int :=
  Function.update ν (.ofNat g.size) z

theorem extend_new : g.extend ν z (.ofNat g.size) = z := Function.update_self _ _ _

theorem extend_of_before (hh : h.Before (.ofNat g.size)) : g.extend ν z h = ν h := by
  refine Function.update_of_ne ?_ _ _
  rintro rfl
  exact Int.lt_irrefl _ hh.2

theorem Carries.push (hg : g.Carries ν) (hn : n.Carries (g.extend ν z) (.ofNat g.size)) :
    (g.push n).Carries (g.extend ν z) := by
  intro h n' hn'
  rw [node?_push] at hn'
  split at hn'
  · subst h
    obtain rfl := Option.some.inj hn'
    exact hn
  · have hh := before_of_node? hn'
    refine (hg h n' hn').congr (fun k hk => extend_of_before ?_) (extend_of_before hh)
    exact ⟨hk.1, hk.2.trans hh.2⟩

theorem integer?_push (hz : g.integer? ν h = some z) {z' : Int} :
    (g.push n).integer? (g.extend ν z') h = some z := by
  obtain ⟨⟨m, hm⟩, hz⟩ := integer?_eq_some_iff.mp hz
  have hh := before_of_node? hm
  refine integer?_eq_some_iff.mpr ⟨⟨m, ?_⟩, (extend_of_before hh).trans hz⟩
  rw [node?_push, if_neg]
  · exact hm
  · rintro rfl
    exact Int.lt_irrefl _ hh.2

theorem integer?_push_new : (g.push n).integer? (g.extend ν z) (.ofNat g.size) = some z :=
  integer?_eq_some_iff.mpr ⟨⟨n, node?_push_self⟩, extend_new⟩

/-! ## Steps of computation -/

theorem carries_leaf {tag : Tag} (htag : tag = .lift ∨ tag = .any) {i : Interval} (hz : z ∈ i) :
    Node.Carries (g.extend ν z) (.ofNat g.size) ⟨⟨tag, .interval i⟩, .none, .none⟩ := by
  rcases htag with rfl | rfl
  · exact ⟨trivial, trivial, i, rfl, extend_new.symm ▸ hz⟩
  · exact ⟨trivial, trivial, i, rfl, extend_new.symm ▸ hz⟩

theorem can_compute_lift (he : e.OverIntervals) {c : Constant} (hkind : c.kind = .integer)
    (hwidth : 8 ≤ c.width) : (∃ r, g.compute e (.lift c) = Eval.misuse r) ∨
      (g.compute e (.lift c)).Can fun n =>
        n.Carries (g.extend ν c.signed.toInt) (.ofNat g.size) := by
  have hcompute : g.compute e (.lift c) = do
      let w ← c.liftValue
      return ⟨⟨.lift, .interval (.point w)⟩, .none, .none⟩ := by
    unfold compute Engine.lift Lattice.lift
    rw [he.lift]
    simp only [Value.coerce?, Value.coerce, Value.toInterval, bind_assoc, pure_bind]
  rw [hcompute]
  rcases Constant.liftValue_cases hkind hwidth with hvalue | ⟨r, hvalue⟩
  · rw [hvalue]
    exact Or.inr (Eval.can_pure (carries_leaf (Or.inl rfl) ⟨Or.inr le_rfl, Or.inr le_rfl⟩))
  · rw [hvalue]
    exact Or.inl ⟨r, rfl⟩

theorem can_compute_anyRange (he : e.OverIntervals) {start stop : Int64} {width : UInt8}
    (hlo : start.toInt ≤ z) (hhi : z ≤ stop.toInt) :
    (g.compute e (.anyRange start stop width)).Can fun n =>
      n.Carries (g.extend ν z) (.ofNat g.size) := by
  have hmem : z ∈ (⟨start, stop⟩ : Interval) := ⟨Or.inr hlo, Or.inr hhi⟩
  have hmake : Interval.make start stop = pure ⟨start, stop⟩ := if_neg (Interval.not_isBottom hmem)
  unfold compute Engine.anyRange Lattice.anyRange
  rw [he.unknown]
  dsimp only
  rw [hmake]
  exact Eval.can_pure (carries_leaf (Or.inr rfl) hmem)

theorem can_compute_binary (he : e.OverIntervals) (hg : g.Allows ν) {tag : Tag} {a b : Handle}
    {x y : Int} (htag : tag.isExact = true) (ha : g.integer? ν a = some x)
    (hb : g.integer? ν b = some y) (hz : tag.Gives x y z) :
    (g.compute e (.binary tag a b)).Can fun n =>
      n.Carries (g.extend ν z) (.ofNat g.size) := by
  obtain ⟨⟨na, hna⟩, rfl⟩ := integer?_eq_some_iff.mp ha
  obtain ⟨⟨nb, hnb⟩, rfl⟩ := integer?_eq_some_iff.mp hb
  obtain ⟨i, hi, hiw, hx⟩ := hg.fits a na hna
  obtain ⟨j, hj, hjw, hy⟩ := hg.fits b nb hnb
  have hbefore := before_of_node? hna
  have hbefore' := before_of_node? hnb
  have hclass := Tag.opClass_of_exact htag
  have hplain := Tag.isPlain_of_exact htag
  have hvalue : (e.binary tag na.value nb.value).Can fun t =>
      t.tag = tag ∧ ∃ v, t.primary = .interval v ∧ z ∈ v := by
    have hbinary := Interval.can_binary htag hiw hjw (by omega) hx hy hz
    unfold Engine.binary
    rw [hi, hj, Lattice.binary_interval he.joins]
    rcases hclass with hclass | hclass <;> rw [hclass]
    all_goals
      exact Eval.can_bind (Eval.can_bind (Eval.can_note (Eval.can_bind (hbinary.mono fun v hv =>
        Eval.can_pure (Eval.can_pure ⟨rfl, v, rfl, hv⟩)))))
  refine Eval.can_bind (can_value hna (Eval.can_bind (can_value hnb ?_)))
  refine Eval.can_bind (hvalue.mono ?_)
  rintro ⟨_, _⟩ ⟨rfl, v, rfl, hv⟩
  refine Eval.can_pure ⟨?_, ?_, v, rfl, extend_new.symm ▸ hv⟩
  · unfold Node.Founded
    rw [Tag.backwardRule_of_plain hplain, if_neg]
    · exact ⟨hplain, hbefore, hbefore'⟩
    · rcases hclass with hclass | hclass <;> rw [hclass] <;> exact nofun
  · unfold Node.Satisfied
    rw [extend_of_before hbefore, extend_of_before hbefore', extend_new]
    exact Tag.relates_of_gives htag hz

/-- A step of computation is refused, or it can come to a node with the integer it gives. -/
theorem can_compute (he : e.OverIntervals) (hg : g.Allows ν) {m : Make Handle}
    (hm : m.Yields (g.integer? ν) z) : (∃ r, g.compute e m = Eval.misuse r) ∨
      (g.compute e m).Can fun n => n.Carries (g.extend ν z) (.ofNat g.size) := by
  cases m with
  | lift c =>
      obtain ⟨hkind, hwidth, -, rfl⟩ := hm
      exact can_compute_lift he hkind hwidth
  | anyRange start stop width => exact Or.inr (can_compute_anyRange he hm.1 hm.2)
  | binary tag a b =>
      obtain ⟨htag, x, y, hx, hy, hz⟩ := hm
      exact Or.inr (can_compute_binary he hg htag hx hy hz)
  | _ => exact hm.elim

end Graph

end Narrowing
