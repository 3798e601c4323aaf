/-
# Graphs stay well formed

A graph is worked on by any number of operations, in any order, with any
arguments and answers, and an operation that fails leaves behind what it had done.
Whatever has happened, each node has a known operator, its operands stand before
it, and there are as many of them as its rule of narrowing reads.

So to assume something of a node that is there never comes upon a handle of no node
or an unknown operator.  And narrowing ends by itself: it follows operands, which
stand before their node, so a node at place `n` leads to at most `n` others below
one another, and the bound on the steps is never met.
-/
import Narrowing.Graph.History
import Narrowing.Proofs.Graph.Frame
import Narrowing.Proofs.Order.Value

namespace Narrowing

/-! ## Operations and the graphs they lead to -/

/-- An operation on a graph and its saved states. -/
inductive Operation where
  | make (m : Make Handle)
  | store (p v : Handle)
  | lower (h : Handle) (width : UInt8)
  | assume (h : Handle) (expected : Bool)
  | save
  | restore (i : Nat)
  | clear

namespace History

def onGraph {α : Type} (act : Action Graph α) : Action History α :=
  act.within History.graph fun g s => { s with graph := g }

/-- Carry out an operation.  To restore a state that was not saved does nothing. -/
def perform (e : Engine) : Operation → Action History Unit
  | .make m => do
    let _ ← onGraph (Graph.make e m)
  | .store p v => do (← get).graph.store e p v
  | .lower h width => do
    let _ ← onGraph (Graph.lower e h width)
  | .assume h expected => onGraph (Graph.assume e h expected)
  | .save => modify save
  | .restore i => modify fun s => (s.restore? i).getD s
  | .clear => modify clear

/-- The state that operations lead to, each held against answers of its own; whether they fail
makes no difference. -/
def after (e : Engine) (s : History) : List (Operation × List Int) → History
  | [] => s
  | (op, answers) :: rest => after e (((perform e op).run s).play answers).result.2 rest

end History

/-- What is true of the empty graph and stays true when a graph is worked on. -/
structure Graph.Invariant (e : Engine) (J : Graph → Prop) : Prop where
  empty : J .empty
  make : ∀ {g : Graph} (m : Make Handle), J g → (g.compute e m).Sure fun n => J (g.push n)
  lower : ∀ {g : Graph} {h : Handle} {n : Node} (width : UInt8), J g → g.node? h = some n →
    (e.lower n.value width).Sure fun p => J (g.push ⟨p.2, h, .none⟩)
  assume : ∀ {g : Graph} (h : Handle) (expected : Bool), J g →
    (Graph.assume e h expected).Ends (fun _ => J) (fun _ => J) g

namespace Graph.Invariant

variable {e : Engine} {J : Graph → Prop} {g : Graph}

theorem ends_make (hJ : Invariant e J) (m : Make Handle) (hg : J g) :
    (Graph.make e m).Ends (fun _ => J) (fun _ => J) g := by
  refine Action.ends_bind (Action.ends_get ?_)
  refine Action.ends_bind (Action.ends_lift ((hJ.make m hg).ends.mono ?_ fun _ _ => hg))
  intro n hn
  exact hn

theorem ends_lower (hJ : Invariant e J) (h : Handle) (width : UInt8) (hg : J g) :
    (Graph.lower e h width).Ends (fun _ => J) (fun _ => J) g := by
  refine Action.ends_bind (Action.ends_get ?_)
  refine Action.ends_bind (Action.ends_lift (ends_value.mono ?_ fun _ _ => hg))
  rintro _ ⟨n, hn, rfl⟩
  refine Action.ends_bind (Action.ends_lift ((hJ.lower width hg hn).ends.mono ?_ fun _ _ => hg))
  intro p hp
  exact hp

end Graph.Invariant

namespace History

variable {e : Engine} {J : Graph → Prop} {s : History}

/-- The graph in hand and all the saved ones have a property. -/
structure All (J : Graph → Prop) (s : History) : Prop where
  graph : J s.graph
  saved : ∀ g ∈ s.saved, J g

theorem ends_onGraph {α : Type} {act : Action Graph α} (hs : s.All J)
    (hact : act.Ends (fun _ => J) (fun _ => J) s.graph) :
    (onGraph act).Ends (fun _ => All J) (fun _ => All J) s :=
  Action.ends_within (hact.mono (fun _ _ hg => ⟨hg, hs.saved⟩) fun _ _ hg => ⟨hg, hs.saved⟩)

theorem All.save (hs : s.All J) : s.save.All J where
  graph := hs.graph
  saved g hg := by
    rcases Array.mem_push.mp hg with hg | rfl
    · exact hs.saved g hg
    · exact hs.graph

theorem All.restore (hs : s.All J) (i : Nat) : ((s.restore? i).getD s).All J := by
  unfold restore?
  cases hi : s.saved[i]? with
  | none => exact hs
  | some g => exact ⟨hs.saved g (Array.mem_of_getElem? hi), hs.saved⟩

/-- One operation keeps an invariant, whether or not it succeeds. -/
theorem ends_perform (hJ : Graph.Invariant e J) (op : Operation) (hs : s.All J) :
    (perform e op).Ends (fun _ => All J) (fun _ => All J) s := by
  cases op with
  | make m => exact Action.ends_bind (ends_onGraph hs (hJ.ends_make m hs.graph))
  | store p v =>
      refine Action.ends_bind (Action.ends_get (Action.ends_lift ?_))
      exact (Eval.sure_of_forall (fun _ => hs) _).ends.mono (fun _ => id) fun _ _ => hs
  | lower h width => exact Action.ends_bind (ends_onGraph hs (hJ.ends_lower h width hs.graph))
  | assume h expected => exact ends_onGraph hs (hJ.assume h expected hs.graph)
  | save => exact Action.ends_modify hs.save
  | restore i => exact Action.ends_modify (hs.restore i)
  | clear => exact Action.ends_modify ⟨hJ.empty, hs.saved⟩

/-- All operations together keep an invariant. -/
theorem All.after (hJ : Graph.Invariant e J) (hs : s.All J) (ops : List (Operation × List Int)) :
    (after e s ops).All J := by
  induction ops generalizing s with
  | nil => exact hs
  | cons op ops ih => exact ih ((ends_perform hJ op.1 hs).of_play op.2)

theorem all_empty (hJ : Graph.Invariant e J) : History.empty.All J where
  graph := hJ.empty
  saved _ hg := absurd hg (Array.not_mem_empty _)

end History

/-! ## Well-formed nodes -/

/-- A node with a known operator, whose operands stand before it, as many as its rule reads. -/
structure Node.WellFormed (h : Handle) (n : Node) : Prop where
  valid : n.value.tag.isValid = true
  known : n.value.tag ≠ .unknown
  left : n.left = .none ∨ n.left.Before h
  right : n.right = .none ∨ n.right.Before h
  binary : n.value.tag.backwardRule = .binary → n.left.Before h ∧ n.right.Before h
  cast : n.value.tag.backwardRule = .cast → n.left.Before h

namespace Tag

variable {tag : Tag}

theorem known_of_opClass (h : tag.opClass ≠ .special) : tag.isValid = true ∧ tag ≠ .unknown := by
  cases tag with
  | unknown => exact absurd rfl h
  | beyond code => exact absurd rfl h
  | _ => exact ⟨rfl, nofun⟩

theorem backwardRule_of_cast (h : tag.opClass = .cast) : tag.backwardRule ≠ .binary := by
  cases tag with
  | cast c => cases c <;> exact nofun
  | _ => cases h

theorem backwardRule_ne_unknown (h : tag ≠ .unknown) : tag.backwardRule ≠ .unknown := by
  cases tag with
  | unknown => exact absurd rfl h
  | cast c => cases c <;> exact nofun
  | float op => cases op <;> exact nofun
  | _ => exact nofun

end Tag

namespace Node

variable {h : Handle} {n n' : Node}

theorem WellFormed.of_frame (hn : n.WellFormed h) (hframe : n'.frame = n.frame) :
    n'.WellFormed h := by
  simp only [frame, Prod.mk.injEq] at hframe
  obtain ⟨htag, hleft, hright⟩ := hframe
  constructor
  · rw [htag]
    exact hn.valid
  · rw [htag]
    exact hn.known
  · rw [hleft]
    exact hn.left
  · rw [hright]
    exact hn.right
  · rw [htag, hleft, hright]
    exact hn.binary
  · rw [htag, hleft]
    exact hn.cast

/-- A new value, a member picked, or the result of an operator that nothing is narrowed through. -/
theorem wellFormed_of_rule (hvalid : n.value.tag.isValid = true)
    (hrule : n.value.tag.backwardRule = .leaf ∨ n.value.tag.backwardRule = .unsupported)
    (hleft : n.left = .none ∨ n.left.Before h) (hright : n.right = .none ∨ n.right.Before h) :
    n.WellFormed h where
  valid := hvalid
  known htag := by
    rw [htag] at hrule
    rcases hrule with hrule | hrule <;> cases hrule
  left := hleft
  right := hright
  binary hbinary := by
    rw [hbinary] at hrule
    rcases hrule with hrule | hrule <;> cases hrule
  cast hcast := by
    rw [hcast] at hrule
    rcases hrule with hrule | hrule <;> cases hrule

end Node

namespace Engine

variable {e : Engine} {tag : Tag} {a b : Tagged}

theorem sure_tag_binary :
    (e.binary tag a b).Sure fun t => t.tag = tag ∧ tag.opClass ≠ .special := by
  unfold binary
  cases hclass : tag.opClass with
  | binary | compare | float => exact Eval.sure_map (fun _ => ⟨rfl, nofun⟩) _
  | _ => exact Eval.sure_misuse

theorem sure_tag_cast {width : UInt8} :
    (cast tag a width).Sure fun t => t.tag = tag ∧ tag.opClass = .cast := by
  unfold cast
  cases hclass : tag.opClass with
  | cast => exact Eval.sure_map (fun _ => ⟨rfl, rfl⟩) _
  | _ => exact Eval.sure_misuse

end Engine

namespace Graph

variable {e : Engine} {g g' : Graph} {h : Handle} {n : Node}

def WellFormed (g : Graph) : Prop := ∀ h n, g.node? h = some n → n.WellFormed h

theorem wellFormed_empty : empty.WellFormed := fun _ _ hn => nomatch node?_empty.symm.trans hn

theorem WellFormed.of_alike (hg : g.WellFormed) (hlike : Alike g g') : g'.WellFormed := by
  intro h n' hn'
  obtain ⟨n, hn, hframe⟩ := hlike.symm.node? hn'
  exact (hg h n hn).of_frame hframe.symm

theorem WellFormed.push (hg : g.WellFormed) (hn : n.WellFormed (.ofNat g.size)) :
    (g.push n).WellFormed := by
  intro h n' hn'
  rw [node?_push] at hn'
  split at hn'
  · obtain rfl := Option.some.inj hn'
    subst h
    exact hn
  · exact hg h n' hn'

theorem sure_wellFormed_leaf {t : Eval Tagged} {tag : Tag} (htag : tag = .lift ∨ tag = .any)
    (ht : t.Sure fun v => v.tag = tag) :
    Eval.Sure (fun n => n.WellFormed h) (do return (⟨← t, .none, .none⟩ : Node)) := by
  refine Eval.sure_bind (ht.mono fun v hv => Eval.sure_pure ?_)
  subst hv
  refine Node.wellFormed_of_rule ?_ (Or.inl ?_) (Or.inl rfl) (Or.inl rfl)
  · rcases htag with htag | htag <;> rw [htag] <;> rfl
  · rcases htag with htag | htag <;> rw [htag] <;> rfl

theorem sure_wellFormed_memory {t : Eval Value} {op : MemoryOp} {l r : Handle}
    (hl : l = .none ∨ l.Before h) (hr : r = .none ∨ r.Before h) :
    Eval.Sure (fun n => n.WellFormed h)
      (do return (⟨← (do return ⟨.memory op, ← t⟩ : Eval Tagged), l, r⟩ : Node)) := by
  refine Eval.sure_bind (Eval.sure_map ?_ t)
  intro v
  exact Eval.sure_pure (Node.wellFormed_of_rule rfl (Or.inr rfl) hl hr)

theorem sure_wellFormed_compute (e : Engine) (g : Graph) (m : Make Handle) :
    (g.compute e m).Sure fun n => n.WellFormed (.ofNat g.size) := by
  have hbefore : ∀ a, (g.value a).Sure fun _ => a.Before (.ofNat g.size) := fun a =>
    sure_value.mono fun _ ⟨_, hn, _⟩ => before_of_node? hn
  have htag : ∀ (tag : Tag) (t : Eval Value),
      Eval.Sure (fun v : Tagged => v.tag = tag) (do return ⟨tag, ← t⟩) := by
    intro tag t
    refine Eval.sure_map ?_ t
    exact fun _ => rfl
  cases m with
  | lift c => exact sure_wellFormed_leaf (Or.inl rfl) (htag .lift _)
  | any width => exact sure_wellFormed_leaf (Or.inr rfl) (htag .any _)
  | anyRange start stop width => exact sure_wellFormed_leaf (Or.inr rfl) (htag .any _)
  | anyURange start stop width => exact sure_wellFormed_leaf (Or.inr rfl) (htag .any _)
  | binary tag a b =>
      refine Eval.sure_bind ((hbefore a).mono fun x ha => ?_)
      refine Eval.sure_bind ((hbefore b).mono fun y hb => ?_)
      refine Eval.sure_bind (Engine.sure_tag_binary.mono fun t ht => Eval.sure_pure ?_)
      obtain ⟨rfl, hclass⟩ := ht
      obtain ⟨hvalid, hknown⟩ := Tag.known_of_opClass hclass
      exact ⟨hvalid, hknown, Or.inr ha, Or.inr hb, fun _ => ⟨ha, hb⟩, fun _ => ha⟩
  | cast tag a width =>
      refine Eval.sure_bind ((hbefore a).mono fun x ha => ?_)
      refine Eval.sure_bind (Engine.sure_tag_cast.mono fun t ht => Eval.sure_pure ?_)
      obtain ⟨rfl, hclass⟩ := ht
      obtain ⟨hvalid, hknown⟩ := Tag.known_of_opClass (ne_of_eq_of_ne hclass nofun)
      exact ⟨hvalid, hknown, Or.inr ha, Or.inl rfl,
        fun hrule => absurd hrule (Tag.backwardRule_of_cast hclass), fun _ => ha⟩
  | extract a start stop =>
      exact Eval.sure_bind ((hbefore a).mono fun x ha =>
        sure_wellFormed_memory (Or.inr ha) (Or.inl rfl))
  | concat a b width =>
      refine Eval.sure_bind ((hbefore a).mono fun x ha => ?_)
      exact Eval.sure_bind ((hbefore b).mono fun y hb =>
        sure_wellFormed_memory (Or.inr ha) (Or.inr hb))
  | load p width =>
      exact Eval.sure_bind ((hbefore p).mono fun x hp =>
        sure_wellFormed_memory (Or.inr hp) (Or.inl rfl))
  | loadAt p index width =>
      refine Eval.sure_bind ((hbefore p).mono fun x hp => ?_)
      exact Eval.sure_bind ((hbefore index).mono fun y hi =>
        sure_wellFormed_memory (Or.inr hp) (Or.inr hi))

theorem invariant_wellFormed (e : Engine) : Invariant e WellFormed where
  empty := wellFormed_empty
  make m hg := (sure_wellFormed_compute e _ m).mono fun _ hn => hg.push hn
  lower width hg hn := by
    refine Eval.sure_bind (Eval.sure_of_forall (fun c => ?_) _)
    refine Eval.sure_map ?_ _
    intro w
    refine hg.push ?_
    exact Node.wellFormed_of_rule rfl (Or.inl rfl) (Or.inr (before_of_node? hn)) (Or.inl rfl)
  assume h expected hg :=
    (ends_assume_alike e _ h expected).mono (fun _ _ => hg.of_alike) fun _ _ => hg.of_alike

end Graph

/-! ## Assumptions on well-formed graphs -/

/-- A failure that is about the graph: a handle of no node, or a node without an operator. -/
def Failure.BlamesGraph : Failure → Prop
  | .misuse (.notInGraph _ _) | .misuse (.unknownTagAt _) => True
  | _ => False

theorem Failure.OfValues.not_blamesGraph {err : Failure} (h : err.OfValues) : ¬ err.BlamesGraph := by
  intro hblames
  unfold BlamesGraph at hblames
  split at hblames
  · cases h
  · cases h
  · exact hblames

namespace Graph

variable {e : Engine} {g : Graph} {h : Handle}

/-- A handle of the graph among the first `i`. -/
def Among (g : Graph) (i : Nat) (h : Handle) : Prop :=
  h.Before (.ofNat i) ∧ h.Before (.ofNat g.size)

theorem Among.operand {i : Nat} {k : Handle} (hh : g.Among (i + 1) h) (hk : k.Before h) :
    g.Among i k := by
  obtain ⟨⟨h0, hi⟩, -, hsize⟩ := hh
  obtain ⟨hk0, hkh⟩ := hk
  refine ⟨⟨hk0, ?_⟩, hk0, Int.lt_trans hkh hsize⟩
  change h.index < ((i + 1 : Nat) : Int) at hi
  show k.index < (i : Int)
  omega

theorem sound_wellFormed (e : Engine) (hg : g.WellFormed) :
    Sound e (fun _ _ => True) (fun err => ¬ err.BlamesGraph) (fun _ => True) g.Among g where
  missing hk hnone := by
    obtain ⟨n, hn⟩ := exists_node?_iff.mpr hk.2
    exact nomatch hnone.symm.trans hn
  step := by
    intro i k n hk hn
    have hwf := hg k n hn
    constructor
    · exact fun _ => trivial
    · exact fun hrule => absurd hrule (Tag.backwardRule_ne_unknown hwf.known)
    · exact fun _ => id
    · intro hrule
      obtain ⟨hl, hr⟩ := hwf.binary hrule
      refine ⟨hk.operand hl, hk.operand hr, fun _ _ _ => ?_⟩
      exact (e.lattice.ends_backward _ _ _ _).mono
        (fun _ _ => ⟨⟨trivial, trivial⟩, fun _ _ => trivial⟩) fun _ => Failure.OfValues.not_blamesGraph
    · intro _ _ a b _ _
      exact (e.lattice.ends_meet a b).mono (fun _ => id) fun _ => Failure.OfValues.not_blamesGraph
    · intro hrule
      refine ⟨hk.operand (hwf.cast hrule), fun _ _ => ?_⟩
      exact (e.lattice.ends_backwardCast _ _ _).mono (fun _ _ => ⟨trivial, fun _ => trivial⟩)
        fun _ => Failure.OfValues.not_blamesGraph

section Assume

variable {expected : Bool} (hg : g.WellFormed) (hh : h.Before (.ofNat g.size))

theorem assumable : Assumable (fun _ _ => True) (fun err => ¬ err.BlamesGraph) g h expected :=
  fun _ _ => ⟨trivial, fun _ _ => id⟩

theorem not_among_zero (k : Handle) : ¬ g.Among 0 k := fun hk => not_lt.mpr hk.1.1 hk.1.2

include hh in
theorem among_place : g.Among (h.index.toNat + 1) h := by
  refine ⟨⟨hh.1, ?_⟩, hh⟩
  show h.index < ((h.index.toNat + 1 : Nat) : Int)
  omega

include hg hh

/-- An assumption about a node that is there never fails because of the graph. -/
theorem not_blamesGraph_of_assume {err : Failure} (answers : List Int)
    (herr : (((assume e h expected).run g).play answers).result.1 = .error err) :
    ¬ err.BlamesGraph := by
  have hends : (assume e h expected).Ends (fun _ _ => True) (fun err _ => ¬ err.BlamesGraph) g := by
    rw [assume_eq_assumeBy]
    refine ((sound_wellFormed e hg).ends_assumeBy ?_ (among_place hh)
      ⟨.refl g, fun _ _ _ => trivial⟩ assumable).mono (fun _ _ _ => trivial) fun _ _ => And.right
    exact fun k _ hk _ => absurd hk (not_among_zero k)
  have hmeets := Dialogue.all_play hends answers
  rw [herr] at hmeets
  exact hmeets

/-- The bound on the steps is never met: past the place of the node, neither a greater bound nor
what would happen there makes a difference. -/
theorem run_assumeBy_eq (stop : Handle → Action Graph Unit) {steps : Nat}
    (hsteps : h.index < steps) :
    (assumeBy e stop steps h expected).run g = (assume e h expected).run g := by
  obtain ⟨j, rfl⟩ : ∃ j, steps = j + (h.index.toNat + 1) := by
    have := hh.1
    exact ⟨steps - (h.index.toNat + 1), by omega⟩
  have hshift : assumeBy e stop (j + (h.index.toNat + 1)) h expected =
      assumeBy e (narrowFrom e stop j) (h.index.toNat + 1) h expected := by
    unfold assumeBy
    rw [narrowFrom_add]
  rw [hshift, assume_eq_assumeBy]
  exact (sound_wellFormed e hg).run_assumeBy_congr not_among_zero (among_place hh)
    ⟨.refl g, fun _ _ _ => trivial⟩ assumable

end Assume

end Graph

namespace History

/-- **Graphs stay well formed.**  After any operations on a graph, in any order, with any arguments
and any answers, and whether or not they succeed, every node is well formed.  And to assume
something of a node that is there never fails with a handle of no node or an unknown operator,
and ends by itself: no bound on its steps from the place of the node on is ever met. -/
theorem after_wellFormed (e : Engine) (ops : List (Operation × List Int)) :
    let g := (after e .empty ops).graph
    g.WellFormed ∧ ∀ (h : Handle) (expected : Bool), h.Before (.ofNat g.size) →
      (∀ answers err, (((Graph.assume e h expected).run g).play answers).result.1 = .error err →
        ¬ err.BlamesGraph) ∧
      ∀ stop (steps : Nat), h.index < steps →
        (Graph.assumeBy e stop steps h expected).run g = (Graph.assume e h expected).run g := by
  have hinv := Graph.invariant_wellFormed e
  have hg := ((all_empty hinv).after hinv ops).graph
  refine ⟨hg, fun h expected hh => ⟨fun answers err => ?_, fun stop steps => ?_⟩⟩
  · exact Graph.not_blamesGraph_of_assume hg hh answers
  · exact Graph.run_assumeBy_eq hg hh stop

/-- Two of these operations are refused, a saved state without the comparison is brought back and
left again; three steps are enough to assume the comparison once more. -/
theorem after_wellFormed_comparison :
    let e : Engine := ⟨⟨.standard, defaultChooseBound⟩, .primary⟩
    let compare : Operation := .make (.binary (.relation .slt) ⟨0⟩ ⟨1⟩)
    let g := (after e .empty [(.make (.lift (.ofInt64 5 8)), []), (.make (.anyRange 0 9 8), []),
      (.save, []), (compare, []), (.assume ⟨7⟩ true, []), (.make (.cast .unknown ⟨0⟩ 8), []),
      (.restore 0, []), (compare, []), (.assume ⟨2⟩ true, [])]).graph
    g.size = 3 ∧ ∀ stop, (Graph.assumeBy e stop 3 ⟨2⟩ true).run g =
      (Graph.assume e ⟨2⟩ true).run g := by
  intro e compare g
  have hsize : g.size = 3 := by decide +kernel
  have hbefore : (⟨2⟩ : Handle).Before (.ofNat g.size) := by
    rw [hsize]
    exact ⟨by decide, by decide⟩
  exact ⟨hsize, fun stop => ((after_wellFormed e _).2 ⟨2⟩ true hbefore).2 stop 3 (by decide)⟩

end History

end Narrowing
