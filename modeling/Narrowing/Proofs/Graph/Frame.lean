/-
# What an assumption leaves alone

An assumption about a node narrows what the node was computed from, and follows
operands through every operator but three: a lifted constant, an unknown value and
a picked member are where it stops.  All other nodes are left alone, and of the
nodes it does reach only the values change, whatever is answered and at whatever
node it fails.
-/
import Narrowing.Proofs.Graph.Descent

namespace Narrowing

theorem Tag.backwardRule_eq_leaf {tag : Tag} :
    tag.backwardRule = .leaf ↔ tag ∈ [.lift, .any, .lower] := by
  cases tag with
  | cast c => cases c <;> simp [backwardRule]
  | float op => cases op <;> simp [backwardRule, FloatOp.isConversion]
  | _ => simp [backwardRule]

namespace Graph

/-- A handle that is reached from another by following operands, through nodes that are neither
lifted nor unknown nor picked. -/
inductive Reaches (g : Graph) (h : Handle) : Handle → Prop
  | self : Reaches g h h
  | left {k : Handle} {n : Node} : Reaches g h k → g.node? k = some n →
    n.value.tag ∉ [Tag.lift, .any, .lower] → Reaches g h n.left
  | right {k : Handle} {n : Node} : Reaches g h k → g.node? k = some n →
    n.value.tag ∉ [Tag.lift, .any, .lower] → Reaches g h n.right

variable {g g' : Graph} {h k : Handle} {n : Node}

theorem Reaches.of_rule (hk : Reaches g h k) (hn : g.node? k = some n)
    (hrule : n.value.tag.backwardRule ≠ .leaf) : Reaches g h n.left ∧ Reaches g h n.right :=
  have htag := fun hleaf => hrule (Tag.backwardRule_eq_leaf.mpr hleaf)
  ⟨.left hk hn htag, .right hk hn htag⟩

/-- The nodes that are not reached have the values they had. -/
def Untouched (g : Graph) (h k : Handle) (v : Value) : Prop :=
  ¬ Reaches g h k → ∃ n, g.node? k = some n ∧ n.value.primary = v

/-- Narrowing from a node stays with the nodes it reaches. -/
theorem sound_untouched (e : Engine) (g : Graph) (h : Handle) :
    Sound e (g.Untouched h) (fun _ => True) (fun _ => True) (fun _ => Reaches g h) g where
  missing _ _ := trivial
  step := by
    intro _ k n hk hn
    have hany : ∀ {α : Type} {Q : α → Prop} (t : Eval α), (∀ a, Q a) → t.Ends Q fun _ => True :=
      fun t hQ => (Eval.sure_of_forall hQ t).ends
    constructor
    · exact fun _ => trivial
    · exact fun _ => trivial
    · exact fun _ => trivial
    · intro hrule
      obtain ⟨hl, hr⟩ := hk.of_rule hn (hrule ▸ nofun)
      refine ⟨hl, hr, fun _ _ _ => hany _ fun p => ⟨⟨?_, ?_⟩, fun _ _ => trivial⟩⟩
      · exact fun hnot => absurd hl hnot
      · exact fun hnot => absurd hr hnot
    · intro hrule _ _ _ _ _
      obtain ⟨hl, -⟩ := hk.of_rule hn (hrule ▸ nofun)
      exact hany _ fun _ hnot => absurd hl hnot
    · intro hrule
      obtain ⟨hl, -⟩ := hk.of_rule hn (hrule ▸ nofun)
      exact ⟨hl, fun _ _ => hany _ fun _ => ⟨fun hnot => absurd hl hnot, fun _ => trivial⟩⟩

/-- **An assumption changes only values, and only of nodes it reaches**, however it ends. -/
theorem ends_assume_untouched (e : Engine) (g : Graph) (h : Handle) (expected : Bool) :
    (assume e h expected).Ends (fun _ => Stays (g.Untouched h) g)
      (fun _ => Stays (g.Untouched h) g) g := by
  have hstart : Stays (g.Untouched h) g g := ⟨.refl g, fun k n hn _ => ⟨n, hn, rfl⟩⟩
  refine ((sound_untouched e g h).ends_assume .self hstart ?_).mono (fun _ _ => id) fun _ _ => And.left
  exact fun n _ => ⟨fun hnot => absurd .self hnot, fun _ _ => trivial⟩

theorem Stays.node?_eq (hg : Stays (g.Untouched h) g g') (hk : ¬ Reaches g h k) :
    g'.node? k = g.node? k := by
  cases hn' : g'.node? k with
  | none => exact (hg.missing hn').symm
  | some n' =>
      obtain ⟨n, hn, hvalue⟩ := hg.values k n' hn' hk
      obtain ⟨m, hm, hframe⟩ := hg.alike.symm.node? hn'
      obtain rfl : n = m := Option.some.inj (hn.symm.trans hm)
      rw [hn]
      simp only [Node.frame, Prod.mk.injEq] at hframe
      obtain ⟨⟨tag, primary⟩, left, right⟩ := n
      obtain ⟨⟨tag', primary'⟩, left', right'⟩ := n'
      simp_all

theorem ends_assume_alike (e : Engine) (g : Graph) (h : Handle) (expected : Bool) :
    (assume e h expected).Ends (fun _ => Alike g) (fun _ => Alike g) g :=
  (ends_assume_untouched e g h expected).mono (fun _ _ hg => hg.alike) fun _ _ hg => hg.alike

end Graph

end Narrowing
