/-
# The nodes of a graph

A graph is read through `node?`: what a new value of a node, or a new node, does to
it is said once here.  Two graphs are alike when they differ in values only.
-/
import Narrowing.Graph.Backward
import Narrowing.Proofs.Dialogue

namespace Narrowing

/-- What a node is but for its value. -/
def Node.frame (n : Node) : Tag × Handle × Handle := (n.value.tag, n.left, n.right)

/-- The first of two handles is that of an earlier node. -/
def Handle.Before (k h : Handle) : Prop := 0 ≤ k.index ∧ k.index < h.index

namespace Graph

variable {g g' : Graph} {h k : Handle} {n : Node} {v : Tagged}

/-! ## Nodes -/

theorem node?_eq_some_iff : g.node? h = some n ↔ 0 ≤ h.index ∧ g.nodes[h.index.toNat]? = some n :=
  Option.ite_none_right_eq_some

theorem node?_empty : empty.node? h = none := by
  unfold node?
  split
  · rfl
  · rfl

theorem node?_setValue (hk : 0 ≤ k.index) : (g.setValue k v).node? h =
    (g.node? h).map fun n => if h = k then { n with value := v } else n := by
  unfold node? setValue
  split
  · rename_i hh
    have hplace : k.index.toNat = h.index.toNat ↔ h = k := by
      rw [Handle.mk.injEq]
      omega
    simp only [Array.getElem?_modify, hplace]
    split
    · rfl
    · exact Option.map_id'.symm
  · rfl

theorem node?_setValues {l r : Handle} {x y : Tagged} (hl : 0 ≤ l.index) (hr : 0 ≤ r.index) :
    ((g.setValue l x).setValue r y).node? h = (g.node? h).map fun n =>
      if h = r then { n with value := y } else if h = l then { n with value := x } else n := by
  rw [node?_setValue hr, node?_setValue hl, Option.map_map]
  congr 1
  funext n
  simp only [Function.comp_apply]
  split_ifs <;> rfl

theorem node?_push : (g.push n).node? h = if h = .ofNat g.size then some n else g.node? h := by
  unfold node? push
  simp only [Array.getElem?_push]
  by_cases hh : 0 ≤ h.index
  · have hplace : h.index.toNat = g.nodes.size ↔ h = .ofNat g.size := by
      rw [Handle.mk.injEq]
      show _ ↔ h.index = (g.nodes.size : Int)
      omega
    rw [if_pos hh, if_pos hh]
    simp only [hplace]
  · rw [if_neg hh, if_neg hh, if_neg]
    rintro rfl
    exact hh (Int.natCast_nonneg _)

theorem node?_push_self : (g.push n).node? (.ofNat g.size) = some n := by
  rw [node?_push, if_pos rfl]

theorem before_of_node? (hn : g.node? h = some n) : h.Before (.ofNat g.size) := by
  obtain ⟨h0, hget⟩ := node?_eq_some_iff.mp hn
  obtain ⟨hlt, -⟩ := Array.getElem?_eq_some_iff.mp hget
  refine ⟨h0, ?_⟩
  show h.index < (g.nodes.size : Int)
  omega

theorem exists_node?_iff : (∃ n, g.node? h = some n) ↔ h.Before (.ofNat g.size) := by
  constructor
  · rintro ⟨n, hn⟩
    exact before_of_node? hn
  · rintro ⟨h0, hlt⟩
    change h.index < (g.nodes.size : Int) at hlt
    have hsize : h.index.toNat < g.nodes.size := by omega
    exact ⟨_, node?_eq_some_iff.mpr ⟨h0, Array.getElem?_eq_getElem hsize⟩⟩

theorem exists_node?_of_before (hn : g.node? h = some n) (hk : k.Before h) :
    ∃ m, g.node? k = some m :=
  exists_node?_iff.mpr ⟨hk.1, Int.lt_trans hk.2 (before_of_node? hn).2⟩

theorem node_eq (hn : g.node? h = some n) : g.node h = pure n := by
  unfold node
  rw [hn]

theorem value_eq (hn : g.node? h = some n) : g.value h = pure n.value := by
  unfold value
  rw [node_eq hn]
  rfl

/-- A node is read when it is there, and the reading is refused when it is not. -/
theorem ends_node : (g.node h).Ends (fun n => g.node? h = some n)
    fun err => g.node? h = none ∧ err = .misuse (.notInGraph h g.size) := by
  unfold node
  cases hn : g.node? h with
  | none => exact Eval.ends_misuse ⟨rfl, rfl⟩
  | some n => exact Eval.ends_pure rfl

theorem ends_value : (g.value h).Ends (fun v => ∃ n, g.node? h = some n ∧ n.value = v)
    fun err => g.node? h = none ∧ err = .misuse (.notInGraph h g.size) :=
  Eval.ends_bind (ends_node.imp fun n hn => Eval.ends_pure ⟨n, hn, rfl⟩)

theorem ends_node_of {t : Eval Value} {tag : Tag} {l r : Handle} {Q : Value → Prop}
    {E : Failure → Prop} (ht : t.Ends Q E) : Eval.Ends (fun n => Q n.value.primary) E
      (do return (⟨← (do return ⟨tag, ← t⟩ : Eval Tagged), l, r⟩ : Node)) := by
  refine Eval.ends_bind (Eval.ends_bind (ht.imp fun v hv => ?_))
  exact Eval.ends_pure (Eval.ends_pure hv)

theorem ends_make {e : Engine} {m : Make Handle} {Q : Handle → Graph → Prop}
    {E : Failure → Graph → Prop}
    (hm : (g.compute e m).Ends (fun n => Q (.ofNat g.size) (g.push n)) fun err => E err g) :
    (make e m).Ends Q E g := by
  refine Action.ends_bind (Action.ends_get (Action.ends_bind (Action.ends_lift ?_)))
  exact hm

theorem sure_value : (g.value h).Sure fun v => ∃ n, g.node? h = some n ∧ n.value = v :=
  ends_value.sure

theorem can_node {Q : Node → Prop} (hn : g.node? h = some n) (hQ : Q n) : (g.node h).Can Q := by
  rw [node_eq hn]
  exact Eval.can_pure hQ

theorem can_value {Q : Tagged → Prop} (hn : g.node? h = some n) (hQ : Q n.value) :
    (g.value h).Can Q :=
  Eval.can_bind (can_node hn (Eval.can_pure hQ))

/-! ## Graphs that differ in values only -/

/-- Two graphs with the same nodes, but for their values. -/
def Alike (g g' : Graph) : Prop := ∀ h, (g'.node? h).map Node.frame = (g.node? h).map Node.frame

theorem Alike.refl (g : Graph) : Alike g g := fun _ => rfl

theorem Alike.trans {g₁ g₂ g₃ : Graph} (h : Alike g₁ g₂) (h' : Alike g₂ g₃) : Alike g₁ g₃ :=
  fun k => (h' k).trans (h k)

theorem Alike.symm (h : Alike g g') : Alike g' g := fun k => (h k).symm

/-- Every value of the graph belongs to a set. -/
def Values (D : Value → Prop) (g : Graph) : Prop :=
  ∀ h n, g.node? h = some n → D n.value.primary

theorem node?_nonneg (hn : g.node? h = some n) : 0 ≤ h.index := (node?_eq_some_iff.mp hn).1

theorem alike_setValue (hn : g.node? k = some n) (hv : v.tag = n.value.tag) :
    Alike g (g.setValue k v) := by
  intro h
  rw [node?_setValue (node?_nonneg hn), Option.map_map]
  by_cases hk : h = k
  · subst hk
    rw [hn]
    simp [Node.frame, hv]
  · simp [hk, Function.comp_def]

theorem Alike.node? (h : Alike g g') (hn : g.node? k = some n) :
    ∃ n', g'.node? k = some n' ∧ n'.frame = n.frame := by
  have := h k
  rw [hn] at this
  exact Option.map_eq_some_iff.mp this

theorem Alike.size_eq (hlike : Alike g g') : g'.size = g.size := by
  have hle : ∀ {g g' : Graph}, Alike g g' → g.size ≤ g'.size := by
    intro g g' hlike
    by_contra hlt
    obtain ⟨n, hn⟩ := exists_node?_iff.mpr (⟨Int.natCast_nonneg _, by
      show ((g'.size : Nat) : Int) < (g.size : Nat)
      omega⟩ : (Handle.ofNat g'.size).Before (.ofNat g.size))
    obtain ⟨n', hn', -⟩ := hlike.node? hn
    exact Int.lt_irrefl _ (before_of_node? hn').2
  exact Nat.le_antisymm (hle hlike.symm) (hle hlike)

theorem alike_setValues {l r : Handle} {nx ny : Node} {x y : Tagged} (hx : g.node? l = some nx)
    (hy : g.node? r = some ny) (hxt : x.tag = nx.value.tag) (hyt : y.tag = ny.value.tag) :
    Alike g ((g.setValue l x).setValue r y) := by
  have hfirst := alike_setValue hx hxt
  obtain ⟨n', hn', hframe⟩ := hfirst.node? hy
  have htag : n'.value.tag = ny.value.tag := congrArg Prod.fst hframe
  exact hfirst.trans (alike_setValue hn' (hyt.trans htag.symm))

theorem Values.push {D : Value → Prop} (hg : g.Values D) (hn : D n.value.primary) :
    (g.push n).Values D := by
  intro h m hm
  rw [node?_push] at hm
  split at hm
  · exact Option.some.inj hm ▸ hn
  · exact hg h m hm

end Graph

end Narrowing
