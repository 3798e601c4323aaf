/-
# What an assumption leaves of a graph

An assumption changes values and nothing else: the nodes stay, with their
operators and operands, whatever is answered and however the assumption ends.
And it stays inside every set of values that narrowing does not lead out of.

From this follows the shape of the graphs over intervals.  Operands stand before
their node, and every value is an interval.
-/
import Narrowing.Proofs.Graph.Descent
import Narrowing.Proofs.Interval.Backward

namespace Narrowing

/-! ## Narrowing stays inside closed sets of values -/

/-- Narrowing does not lead out of a set of values. -/
structure Engine.ClosedUnder (e : Engine) (D : Value → Prop) : Prop where
  backward : ∀ tag {r a b : Value}, D r → D a → D b →
    (e.lattice.backward tag r a b).Sure fun p => D p.1 ∧ D p.2
  cast : ∀ tag {r a : Value}, D r → D a → (e.lattice.backwardCast tag r a).Sure D
  meet : ∀ {a b : Value}, D a → D b → (e.lattice.binary .meet a b).Sure D
  assume : ∀ {v : Value} (t : Bool), D v → D (v.assume t).left

namespace Graph

variable {e : Engine} {D : Value → Prop}

theorem sound_of_closed (he : e.ClosedUnder D) (g : Graph) :
    Sound e (fun _ => D) (fun _ => True) (fun _ => True) (fun _ _ => True) g where
  missing _ _ := trivial
  step _ _ := {
    leaf := fun _ => trivial
    unknown := fun _ => trivial
    unsupported := fun _ => trivial
    binary := fun _ => ⟨trivial, trivial, fun hr ha hb =>
      (he.backward _ hr ha hb).ends.imp fun _ hp => ⟨hp, fun _ _ => trivial⟩⟩
    meet := fun _ _ _ _ ha hb => (he.meet ha hb).ends
    cast := fun _ => ⟨trivial, fun hr ha =>
      (he.cast _ hr ha).ends.imp fun _ hv => ⟨hv, fun _ => trivial⟩⟩ }

/-- Whatever is answered and however it ends, an assumption leaves the same nodes, with values
of the set. -/
theorem all_assume (he : e.ClosedUnder D) (h : Handle) (expected : Bool) (g : Graph)
    (hg : g.Values D) :
    (assume e h expected).All .anything (fun _ g' => Alike g g' ∧ g'.Values D) g := by
  have hends := (sound_of_closed he g).ends_assume trivial ⟨.refl g, hg⟩
    (fun n hn => ⟨he.assume expected (hg h n hn), fun _ _ => trivial⟩)
  refine Action.All.mono hends ?_
  rintro (err | _) g' hg'
  · exact ⟨hg'.1.alike, hg'.1.values⟩
  · exact ⟨hg'.alike, hg'.values⟩

end Graph

/-! ## Engines over intervals -/

/-- Constants and unknown values are intervals, and the join table, the standard one or any other
that passes its check, keeps them so. -/
structure Engine.OverIntervals (e : Engine) : Prop where
  joins : e.lattice.options.joins.cell .interval .interval = some .interval
  lift : e.lattice.options.lift = some .interval
  unknown : e.lattice.options.unknown = some .interval

namespace Lattice

variable {l : Lattice} (hl : l.options.joins.cell .interval .interval = some .interval)
  (tag : Tag) (r a b : Interval)

include hl

theorem join_interval : l.join .interval .interval = pure .interval := by
  unfold join join?
  rw [show l.options.joins.lookup (some .interval) (some .interval) = some .interval from hl]

theorem backward_interval : l.backward tag (.interval r) (.interval a) (.interval b) = do
    let p ← Interval.backward l.bound tag r a b
    return (.interval p.1, .interval p.2) := by
  unfold backward
  simp only [Value.domain, join_interval hl, pure_bind]
  rfl

theorem backwardCast_interval : l.backwardCast tag (.interval r) (.interval a) = do
    let p ← Interval.backward l.bound tag r a a
    return .interval p.1 := by
  unfold backwardCast
  simp only [Value.domain, join_interval hl, pure_bind]
  show (Interval.backward l.bound tag r a a >>= fun p =>
    pure (Value.interval p.1, Value.interval p.2)) >>= (fun p => pure p.1) = _
  rw [bind_assoc]
  rfl

theorem binary_interval : l.binary tag (.interval a) (.interval b) = do
    Eval.note (.dispatch tag .interval)
    return .interval (← Interval.binary tag a b) := by
  unfold binary
  simp only [Value.domain, join_interval hl, pure_bind]
  rfl

end Lattice

def Value.IsInterval (v : Value) : Prop := ∃ i, v = .interval i

namespace Engine

variable {e : Engine}

theorem OverIntervals.closed (he : e.OverIntervals) : e.ClosedUnder Value.IsInterval where
  backward := by
    rintro tag _ _ _ ⟨r, rfl⟩ ⟨a, rfl⟩ ⟨b, rfl⟩
    rw [Lattice.backward_interval he.joins]
    exact Eval.sure_bind (Eval.sure_of_forall (fun p => Eval.sure_pure ⟨⟨_, rfl⟩, _, rfl⟩) _)
  cast := by
    rintro tag _ _ ⟨r, rfl⟩ ⟨a, rfl⟩
    rw [Lattice.backwardCast_interval he.joins]
    exact Eval.sure_bind (Eval.sure_of_forall (fun p => Eval.sure_pure ⟨_, rfl⟩) _)
  meet := by
    rintro _ _ ⟨a, rfl⟩ ⟨b, rfl⟩
    rw [Lattice.binary_interval he.joins]
    exact Eval.sure_bind (Eval.sure_note (Eval.sure_bind
      (Eval.sure_of_forall (fun p => Eval.sure_pure ⟨_, rfl⟩) _)))
  assume := by
    rintro _ t ⟨i, rfl⟩
    exact ⟨_, rfl⟩

theorem sure_interval {t : Eval Interval} :
    Eval.Sure Value.IsInterval (do return Value.interval (← t)) :=
  Eval.sure_bind (Eval.sure_of_forall (fun i => Eval.sure_pure ⟨i, rfl⟩) t)

theorem OverIntervals.sure_lift (he : e.OverIntervals) {c : Constant} :
    (e.lattice.lift c).Sure Value.IsInterval := by
  unfold Lattice.lift
  rw [he.lift]
  exact sure_interval

theorem OverIntervals.sure_any (he : e.OverIntervals) {width : UInt8} :
    (e.lattice.any width).Sure Value.IsInterval := by
  unfold Lattice.any
  rw [he.unknown]
  exact Eval.sure_pure ⟨_, rfl⟩

theorem OverIntervals.sure_anyRange (he : e.OverIntervals) {start stop : Int64} {width : UInt8} :
    (e.lattice.anyRange start stop width).Sure Value.IsInterval := by
  unfold Lattice.anyRange
  rw [he.unknown]
  exact sure_interval

theorem OverIntervals.sure_anyURange (he : e.OverIntervals) {start stop : UInt64} {width : UInt8} :
    (e.lattice.anyURange start stop width).Sure Value.IsInterval := by
  unfold Lattice.anyURange
  rw [he.unknown]
  exact he.sure_anyRange

theorem OverIntervals.sure_binary (he : e.OverIntervals) {tag : Tag} {a b : Tagged}
    (ha : a.primary.IsInterval) (hb : b.primary.IsInterval) :
    (e.binary tag a b).Sure fun t => t.tag = tag ∧ tag.opClass ≠ .cast ∧ t.primary.IsInterval := by
  obtain ⟨i, hi⟩ := ha
  obtain ⟨j, hj⟩ := hb
  unfold binary
  rw [hi, hj, Lattice.binary_interval he.joins]
  have hvalue : Eval.Sure Value.IsInterval (do
      Eval.note (.dispatch tag .interval)
      return Value.interval (← Interval.binary tag i j)) :=
    Eval.sure_bind (Eval.sure_note sure_interval)
  cases hclass : tag.opClass with
  | binary | compare | float =>
      exact Eval.sure_bind (hvalue.mono fun v hv => Eval.sure_pure ⟨rfl, nofun, hv⟩)
  | _ => exact Eval.sure_misuse

theorem sure_cast {tag : Tag} {a : Tagged} {width : UInt8} (ha : a.primary.IsInterval) :
    (cast tag a width).Sure fun t => t.tag = tag ∧ tag.opClass = .cast ∧ t.primary.IsInterval := by
  obtain ⟨i, hi⟩ := ha
  unfold cast
  rw [hi]
  cases hclass : tag.opClass with
  | cast =>
      exact Eval.sure_bind (Eval.sure_bind (Eval.sure_note (sure_interval.mono fun v hv =>
        Eval.sure_pure ⟨rfl, rfl, hv⟩)))
  | _ => exact Eval.sure_misuse

end Engine

/-! ## Graphs made of intervals -/

/-- The operators whose nodes are narrowed by sound rules over the integers, or not at all. -/
def Tag.isPlain : Tag → Bool
  | arith .add | arith .sub | arith .mul | arith .srem => true
  | arith .and | arith .or | arith .xor | arith .shl | arith .ashr => true
  | relation .eq | relation .ne => true
  | relation .slt | relation .sle | relation .sgt | relation .sge => true
  | cast .zext | cast .sext | cast .trunc | cast .zfit => true
  | _ => false

theorem Tag.backwardRule_of_plain {tag : Tag} (h : tag.isPlain = true) :
    tag.backwardRule = if tag.opClass = .cast then .cast else .binary := by
  cases tag with
  | cast c => cases c <;> first | rfl | cases h
  | arith op => rfl
  | relation rel => rfl
  | _ => cases h

/-- A step of computation that creates a value, or applies a plain operator. -/
def Make.IsPlain {ρ : Type} : Make ρ → Prop
  | lift _ | any _ | anyRange _ _ _ | anyURange _ _ _ => True
  | binary tag _ _ | cast tag _ _ => tag.isPlain = true
  | _ => False

/-- The operands that narrowing reads stand before the node, and its operator is plain. -/
def Node.Founded (h : Handle) (n : Node) : Prop :=
  match n.value.tag.backwardRule with
  | .leaf => True
  | .binary => n.value.tag.isPlain = true ∧ n.left.Before h ∧ n.right.Before h
  | .cast => n.value.tag.isPlain = true ∧ n.left.Before h
  | .unknown | .unsupported => False

theorem Node.Founded.of_frame {h : Handle} {n n' : Node} (hn : n.Founded h)
    (hframe : n'.frame = n.frame) : n'.Founded h := by
  simp only [frame, Prod.mk.injEq] at hframe
  unfold Founded
  rw [hframe.1, hframe.2.1, hframe.2.2]
  exact hn

namespace Graph

variable {e : Engine} {g g' : Graph} {h : Handle} {n : Node}

/-- A graph of intervals in which operands stand before their nodes. -/
structure Founded (g : Graph) : Prop where
  nodes : ∀ h n, g.node? h = some n → n.Founded h
  values : g.Values Value.IsInterval

theorem founded_empty : empty.Founded where
  nodes _ _ hn := nomatch node?_empty.symm.trans hn
  values _ _ hn := nomatch node?_empty.symm.trans hn

theorem Founded.of_alike (hg : g.Founded) (hlike : Alike g g')
    (hvalues : g'.Values Value.IsInterval) : g'.Founded where
  nodes h n' hn' := by
    have := hlike h
    rw [hn'] at this
    obtain ⟨n, hn, hframe⟩ := Option.map_eq_some_iff.mp this.symm
    exact (hg.nodes h n hn).of_frame hframe.symm
  values := hvalues

theorem Founded.push (hg : g.Founded) (hn : n.Founded (.ofNat g.size))
    (hv : n.value.primary.IsInterval) : (g.push n).Founded where
  nodes h n' hn' := by
    rw [node?_push] at hn'
    split at hn'
    · obtain rfl := Option.some.inj hn'
      subst h
      exact hn
    · exact hg.nodes h n' hn'
  values h n' hn' := by
    rw [node?_push] at hn'
    split at hn'
    · obtain rfl := Option.some.inj hn'
      exact hv
    · exact hg.values h n' hn'

theorem sure_leaf {t : Eval Tagged}
    (ht : t.Sure fun t => t.tag.backwardRule = .leaf ∧ t.primary.IsInterval) :
    Eval.Sure (fun n => n.Founded h ∧ n.value.primary.IsInterval)
      (do return (⟨← t, .none, .none⟩ : Node)) := by
  refine Eval.sure_bind (ht.mono fun v hv => Eval.sure_pure ⟨?_, hv.2⟩)
  unfold Node.Founded
  rw [hv.1]
  trivial

theorem sure_compute (he : e.OverIntervals) (hg : g.Founded) {m : Make Handle} (hm : m.IsPlain) :
    (g.compute e m).Sure fun n => n.Founded (.ofNat g.size) ∧ n.value.primary.IsInterval := by
  cases m with
  | lift c => exact sure_leaf (Eval.sure_bind (he.sure_lift.mono fun _ hv => Eval.sure_pure ⟨rfl, hv⟩))
  | any width =>
      exact sure_leaf (Eval.sure_bind (he.sure_any.mono fun _ hv => Eval.sure_pure ⟨rfl, hv⟩))
  | anyRange start stop width =>
      exact sure_leaf (Eval.sure_bind (he.sure_anyRange.mono fun _ hv => Eval.sure_pure ⟨rfl, hv⟩))
  | anyURange start stop width =>
      exact sure_leaf (Eval.sure_bind (he.sure_anyURange.mono fun _ hv => Eval.sure_pure ⟨rfl, hv⟩))
  | binary tag a b =>
      refine Eval.sure_bind (sure_value.mono ?_)
      intro x hx
      refine Eval.sure_bind (sure_value.mono ?_)
      intro y hy
      obtain ⟨na, hna, rfl⟩ := hx
      obtain ⟨nb, hnb, rfl⟩ := hy
      refine Eval.sure_bind ((he.sure_binary (hg.values a na hna) (hg.values b nb hnb)).mono
        fun t ht => Eval.sure_pure ⟨?_, ht.2.2⟩)
      obtain ⟨rfl, hclass, -⟩ := ht
      unfold Node.Founded
      rw [Tag.backwardRule_of_plain hm, if_neg hclass]
      exact ⟨hm, before_of_node? hna, before_of_node? hnb⟩
  | cast tag a width =>
      refine Eval.sure_bind (sure_value.mono ?_)
      intro x hx
      obtain ⟨na, hna, rfl⟩ := hx
      refine Eval.sure_bind ((Engine.sure_cast (hg.values a na hna)).mono fun t ht =>
        Eval.sure_pure ⟨?_, ht.2.2⟩)
      obtain ⟨rfl, hclass, -⟩ := ht
      unfold Node.Founded
      rw [Tag.backwardRule_of_plain hm, if_pos hclass]
      exact ⟨hm, before_of_node? hna⟩
  | extract | concat | load | loadAt => exact hm.elim

theorem all_make (he : e.OverIntervals) (hg : g.Founded) {m : Make Handle} (hm : m.IsPlain) :
    (make e m).All .anything (fun _ g' => g'.Founded) g := by
  refine Action.all_bind.mpr (Action.all_get ?_)
  refine Action.all_lift_bind (sure_compute he hg hm) ?_ fun _ => hg
  intro n hn
  exact hg.push hn.1 hn.2

/-- A graph that comes from plain steps of computation and assumptions, in any order, with any
answers and whether or not they succeed. -/
inductive Built (e : Engine) : Graph → Prop
  | empty : Built e .empty
  | make {g : Graph} (m : Make Handle) (answers : List Int) : Built e g → m.IsPlain →
    Built e (((Graph.make e m).run g).play answers).result.2
  | assume {g : Graph} (h : Handle) (expected : Bool) (answers : List Int) : Built e g →
    Built e (((Graph.assume e h expected).run g).play answers).result.2

theorem Built.founded (he : e.OverIntervals) (hg : Built e g) : g.Founded := by
  induction hg with
  | empty => exact founded_empty
  | make m answers _ hm ih => exact Dialogue.all_play (all_make he ih hm) answers
  | @assume g h expected answers _ ih =>
      have := Dialogue.all_play (all_assume he.closed h expected g ih.values) answers
      exact ih.of_alike this.1 this.2

end Graph

end Narrowing
