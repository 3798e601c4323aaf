/-
# Narrowing, one node after another

`propagate` narrows the operands of a node and goes on with each of them.  Here
this is taken apart into a step, which narrows at one node and answers the handles
to go on with, and a run, which repeats the step.  What the step keeps, the run
keeps, whatever is answered and however the run ends.

An invariant `P` says what the value at each handle may be.  It is all that a run
needs to know: operators and operands never change, so which node comes next is
read off the graph that the run started from.
-/
import Narrowing.Proofs.Graph.Nodes

namespace Narrowing

namespace Graph

/-- Narrow the operands of a node, and answer which handles to go on with. -/
def narrowAt (e : Engine) (h : Handle) : Action Graph (List Handle) := do
  let n ← (← get).node h
  match n.value.tag.backwardRule with
  | .leaf => return []
  | .unknown => Action.misuse (.unknownTagAt h)
  | .unsupported => Action.misuse (.noBackwardRule n.value.tag)
  | .binary =>
    let x ← (← get).value n.left
    let y ← (← get).value n.right
    let (x, y) ← e.narrowOperands n.value x y (n.left == n.right)
    modify fun g => (g.setValue n.left x).setValue n.right y
    return if n.left ≠ n.right then [n.left, n.right] else [n.left]
  | .cast =>
    let x ← (← get).value n.left
    let x ← e.backwardCast n.value x
    modify fun g => g.setValue n.left x
    return [n.left]

theorem mem_operands {k l r : Handle} : k ∈ (if l ≠ r then [l, r] else [l]) ↔ k = l ∨ k = r := by
  by_cases h : l = r
  · simp [h]
  · simp [h]

/-- Narrow from a node on; at the handles that `steps` steps lead to, do `stop`. -/
def narrowFrom (e : Engine) (stop : Handle → Action Graph Unit) :
    (steps : Nat) → Handle → Action Graph Unit
  | 0, h => stop h
  | steps + 1, h => do
    let next ← narrowAt e h
    next.forM (narrowFrom e stop steps)

/-- `propagate` is the run that does nothing when the steps are used up. -/
theorem propagate_eq_narrowFrom (e : Engine) (steps : Nat) (h : Handle) :
    propagate e steps h = narrowFrom e (fun _ => pure ()) steps h := by
  induction steps generalizing h with
  | zero => rfl
  | succ steps ih =>
      unfold propagate narrowFrom narrowAt
      simp only [bind_assoc]
      refine bind_congr fun g => bind_congr fun n => ?_
      cases n.value.tag.backwardRule with
      | leaf => rfl
      | unknown => rfl
      | unsupported => rfl
      | binary =>
          simp only [bind_assoc, pure_bind]
          refine bind_congr fun g => bind_congr fun x => bind_congr fun g => bind_congr fun y =>
            bind_congr fun p => bind_congr fun _ => ?_
          split
          · simp only [ih, List.forM, bind_pure_unit]
          · simp only [ih, List.forM, bind_pure_unit]
      | cast =>
          simp only [bind_assoc, pure_bind, ih, List.forM, bind_pure_unit]

end Graph

/-! ## One step -/

/-- What narrowing at a node has to do, said of values only: keep what `P` says of the operands
and of the node, fail with `E` at most, go on to handles in `W`, and come to `T` of the node
from `T` of these. -/
structure Node.Descends (e : Engine) (P : Handle → Value → Prop) (E : Failure → Prop)
    (T W : Handle → Prop) (h : Handle) (n : Node) : Prop where
  leaf : n.value.tag.backwardRule = .leaf → T h
  unknown : n.value.tag.backwardRule = .unknown → E (.misuse (.unknownTagAt h))
  unsupported : n.value.tag.backwardRule = .unsupported →
    E (.misuse (.noBackwardRule n.value.tag))
  binary : n.value.tag.backwardRule = .binary → W n.left ∧ W n.right ∧
    ∀ {r a b : Value}, P h r → P n.left a → P n.right b →
      (e.lattice.backward n.value.tag r a b).Ends
        (fun p => (P n.left p.1 ∧ P n.right p.2) ∧ (T n.left → T n.right → T h)) E
  meet : n.value.tag.backwardRule = .binary → n.left = n.right →
    ∀ {a b : Value}, P n.left a → P n.left b → (e.lattice.binary .meet a b).Ends (P n.left) E
  cast : n.value.tag.backwardRule = .cast → W n.left ∧
    ∀ {r a : Value}, P h r → P n.left a →
      (e.lattice.backwardCast n.value.tag r a).Ends (fun v => P n.left v ∧ (T n.left → T h)) E

section Descends

variable {e : Engine} {P : Handle → Value → Prop} {E : Failure → Prop} {T W : Handle → Prop}
  {h : Handle} {n : Node}

theorem Node.Descends.of_frame {n' : Node} (hn : n.Descends e P E T W h)
    (hframe : n'.frame = n.frame) : n'.Descends e P E T W h := by
  simp only [frame, Prod.mk.injEq] at hframe
  obtain ⟨htag, hleft, hright⟩ := hframe
  constructor
  all_goals rw [htag]
  · exact hn.leaf
  · exact hn.unknown
  · exact hn.unsupported
  · rw [hleft, hright]
    exact hn.binary
  · rw [hleft, hright]
    exact hn.meet
  · rw [hleft]
    exact hn.cast

/-- Both operands after narrowing: what they were but for their values, which `P` allows. -/
theorem Node.Descends.ends_narrowOperands (hn : n.Descends e P E T W h)
    (hrule : n.value.tag.backwardRule = .binary) {x y : Tagged} (hr : P h n.value.primary)
    (hx : P n.left x.primary) (hy : P n.right y.primary)
    (hsame : n.left = n.right → x.tag = y.tag) :
    (e.narrowOperands n.value x y (n.left == n.right)).Ends (fun p =>
      ((p.1.tag = x.tag ∧ P n.left p.1.primary) ∧ p.2.tag = y.tag ∧ P n.right p.2.primary) ∧
        (T n.left → T n.right → T h)) E := by
  refine Eval.ends_bind (Eval.ends_bind (((hn.binary hrule).2.2 hr hx hy).imp ?_))
  intro p hp
  obtain ⟨⟨hp₁, hp₂⟩, hT⟩ := hp
  refine Eval.ends_pure ?_
  dsimp only
  split
  · rename_i heq
    have heq := beq_iff_eq.mp heq
    have htag := hsame heq
    rw [← heq] at hp₂ ⊢
    refine Eval.ends_bind ?_
    unfold Engine.meetNarrowed
    split
    · exact Eval.ends_pure (Eval.ends_pure ⟨⟨⟨rfl, hp₁⟩, htag, hp₁⟩, heq ▸ hT⟩)
    · exact Eval.ends_bind ((hn.meet hrule heq hp₁ hp₂).imp fun m hm =>
        Eval.ends_pure (Eval.ends_pure ⟨⟨⟨rfl, hm⟩, htag, hm⟩, heq ▸ hT⟩))
  · exact Eval.ends_pure ⟨⟨⟨rfl, hp₁⟩, rfl, hp₂⟩, hT⟩

end Descends

namespace Graph

/-- A graph that differs from another in values only, which are as `P` says. -/
structure Stays (P : Handle → Value → Prop) (g g' : Graph) : Prop where
  alike : Alike g g'
  values : ∀ h n, g'.node? h = some n → P h n.value.primary

variable {e : Engine} {P : Handle → Value → Prop} {E : Failure → Prop} {T W : Handle → Prop}
  {g g' : Graph} {h : Handle} {n : Node}

theorem Stays.setValue {k : Handle} {v : Tagged} (hg : Stays P g g') (hn : g'.node? k = some n)
    (htag : v.tag = n.value.tag) (hv : P k v.primary) : Stays P g (g'.setValue k v) where
  alike := hg.alike.trans (alike_setValue hn htag)
  values h m hm := by
    rw [node?_setValue (node?_nonneg hn)] at hm
    obtain ⟨m', hm', rfl⟩ := Option.map_eq_some_iff.mp hm
    split
    · subst h
      exact hv
    · exact hg.values h m' hm'

theorem Stays.setValues {l r : Handle} {x y : Tagged} {nx ny : Node} (hg : Stays P g g')
    (hl : g'.node? l = some nx) (hr : g'.node? r = some ny) (hxt : x.tag = nx.value.tag)
    (hyt : y.tag = ny.value.tag) (hx : P l x.primary) (hy : P r y.primary) :
    Stays P g ((g'.setValue l x).setValue r y) := by
  obtain ⟨n', hn', hframe⟩ := (alike_setValue hl hxt).node? hr
  have htag : n'.value.tag = ny.value.tag := congrArg Prod.fst hframe
  exact (hg.setValue hl hxt hx).setValue hn' (hyt.trans htag.symm) hy

theorem Stays.missing (hg : Stays P g g') (hn : g'.node? h = none) : g.node? h = none := by
  have hlike := hg.alike h
  rw [hn] at hlike
  exact Option.map_eq_none_iff.mp hlike.symm

/-- One step keeps the invariant, and leads on to handles in `W`. -/
theorem ends_narrowAt (hmissing : ∀ k, k = h ∨ W k → g.node? k = none →
      E (.misuse (.notInGraph k g.size)))
    (hstep : ∀ n, g.node? h = some n → n.Descends e P E T W h) (hg : Stays P g g') :
    (narrowAt e h).Ends
      (fun next g'' => Stays P g g'' ∧ (∀ k ∈ next, W k) ∧ ((∀ k ∈ next, T k) → T h))
      (fun err g'' => Stays P g g'' ∧ E err) g' := by
  have hfail : ∀ k, k = h ∨ W k → ∀ err, g'.node? k = none ∧
      err = Failure.misuse (.notInGraph k g'.size) → Stays P g g' ∧ E err := by
    rintro k hk err ⟨hnone, rfl⟩
    rw [hg.alike.size_eq]
    exact ⟨hg, hmissing k hk (hg.missing hnone)⟩
  refine Action.ends_bind (Action.ends_get ?_)
  refine Action.ends_bind (Action.ends_lift (ends_node.mono ?_ (hfail h (Or.inl rfl))))
  intro n hn
  obtain ⟨n₀, hn₀, hframe⟩ := hg.alike.symm.node? hn
  have hdescends := (hstep n₀ hn₀).of_frame hframe.symm
  cases hrule : n.value.tag.backwardRule with
  | leaf => exact Action.ends_pure ⟨hg, nofun, fun _ => hdescends.leaf hrule⟩
  | unknown => exact Action.ends_misuse ⟨hg, hdescends.unknown hrule⟩
  | unsupported => exact Action.ends_misuse ⟨hg, hdescends.unsupported hrule⟩
  | binary =>
      obtain ⟨hl, hr, -⟩ := hdescends.binary hrule
      refine Action.ends_bind (Action.ends_get ?_)
      refine Action.ends_bind (Action.ends_lift (ends_value.mono ?_ (hfail n.left (Or.inr hl))))
      rintro _ ⟨nx, hnx, rfl⟩
      refine Action.ends_bind (Action.ends_get ?_)
      refine Action.ends_bind (Action.ends_lift (ends_value.mono ?_ (hfail n.right (Or.inr hr))))
      rintro _ ⟨ny, hny, rfl⟩
      have hsame : n.left = n.right → nx.value.tag = ny.value.tag := by
        intro heq
        rw [heq, hny] at hnx
        rw [Option.some.inj hnx]
      have hnarrow := hdescends.ends_narrowOperands hrule (hg.values _ _ hn)
        (hg.values _ _ hnx) (hg.values _ _ hny) hsame
      refine Action.ends_bind (Action.ends_lift (hnarrow.mono ?_ fun _ herr => ⟨hg, herr⟩))
      rintro p ⟨⟨⟨hxt, hx⟩, hyt, hy⟩, hT⟩
      refine Action.ends_bind (Action.ends_modify (Action.ends_pure ?_))
      refine ⟨hg.setValues hnx hny hxt hyt hx hy, ?_, ?_⟩
      · intro k hk
        rcases mem_operands.mp hk with rfl | rfl
        · exact hl
        · exact hr
      · intro hnext
        exact hT (hnext _ (mem_operands.mpr (Or.inl rfl))) (hnext _ (mem_operands.mpr (Or.inr rfl)))
  | cast =>
      obtain ⟨hl, hcast⟩ := hdescends.cast hrule
      refine Action.ends_bind (Action.ends_get ?_)
      refine Action.ends_bind (Action.ends_lift (ends_value.mono ?_ (hfail n.left (Or.inr hl))))
      rintro _ ⟨nx, hnx, rfl⟩
      have hnarrow := hcast (hg.values _ _ hn) (hg.values _ _ hnx)
      refine Action.ends_bind (Action.ends_lift (Eval.ends_bind (hnarrow.mono ?_ ?_)))
      · rintro v ⟨hv, hT⟩
        refine Eval.ends_pure (Action.ends_bind (Action.ends_modify (Action.ends_pure ?_)))
        exact ⟨hg.setValue hnx rfl hv, List.forall_mem_singleton.mpr hl,
          fun hnext => hT (hnext _ List.mem_cons_self)⟩
      · exact fun _ herr => ⟨hg, herr⟩

/-! ## A whole run -/

/-- What a run from any handle of `V` needs: each step is as `Descends` says, with one step less
to go, and a handle of no node is reported with `E` at most. -/
structure Sound (e : Engine) (P : Handle → Value → Prop) (E : Failure → Prop) (T : Handle → Prop)
    (V : Nat → Handle → Prop) (g : Graph) : Prop where
  missing : ∀ {i k}, V i k → g.node? k = none → E (.misuse (.notInGraph k g.size))
  step : ∀ {i k n}, V (i + 1) k → g.node? k = some n → n.Descends e P E T (V i) k

variable {V : Nat → Handle → Prop} {stop : Handle → Action Graph Unit}

theorem Sound.ends_narrowAt (hs : Sound e P E T V g) {i : Nat} (hh : V (i + 1) h)
    (hg : Stays P g g') : (narrowAt e h).Ends
      (fun next g'' => Stays P g g'' ∧ (∀ k ∈ next, V i k) ∧ ((∀ k ∈ next, T k) → T h))
      (fun err g'' => Stays P g g'' ∧ E err) g' := by
  refine Graph.ends_narrowAt ?_ (fun n hn => hs.step hh hn) hg
  rintro k (rfl | hk) hnone
  · exact hs.missing hh hnone
  · exact hs.missing hk hnone

/-- **What each step keeps, a run keeps**, to its end or to the step at which it fails. -/
theorem Sound.ends_narrowFrom (hs : Sound e P E T V g)
    (hstop : ∀ k g', V 0 k → Stays P g g' →
      (stop k).Ends (fun _ g'' => Stays P g g'' ∧ T k) (fun err g'' => Stays P g g'' ∧ E err) g')
    {steps : Nat} (hh : V steps h) (hg : Stays P g g') :
    (narrowFrom e stop steps h).Ends (fun _ g'' => Stays P g g'' ∧ T h)
      (fun err g'' => Stays P g g'' ∧ E err) g' := by
  induction steps generalizing h g' with
  | zero => exact hstop h g' hh hg
  | succ steps ih =>
      refine Action.ends_bind ((hs.ends_narrowAt hh hg).mono ?_ fun _ _ => id)
      rintro next g'' ⟨hg'', hnext, hT⟩
      refine (Action.ends_forM hg'' fun k hk g₁ hg₁ => ih (hnext k hk) hg₁).mono ?_ fun _ _ => id
      exact fun _ _ h => ⟨h.1, hT h.2⟩

/-- Where no handle is left when the steps are used up, it does not matter what happens then. -/
theorem Sound.run_narrowFrom_congr {stop' : Handle → Action Graph Unit} (hs : Sound e P E T V g)
    (hnone : ∀ k, ¬ V 0 k) {steps : Nat} (hh : V steps h) (hg : Stays P g g') :
    (narrowFrom e stop steps h).run g' = (narrowFrom e stop' steps h).run g' := by
  induction steps generalizing h g' with
  | zero => exact absurd hh (hnone h)
  | succ steps ih =>
      unfold narrowFrom
      rw [Action.run_bind, Action.run_bind]
      refine Dialogue.bind_congr_of_all (Dialogue.All.mono (hs.ends_narrowAt hh hg) ?_)
      rintro ⟨err | next, g''⟩ hnext
      · rfl
      · obtain ⟨hg'', hnext, -⟩ := hnext
        refine Action.run_forM_congr hg'' (fun k hk g₁ hg₁ => ih (hnext k hk) hg₁) fun k hk g₁ hg₁ => ?_
        refine (hs.ends_narrowFrom (fun k _ hk => absurd hk (hnone k)) (hnext k hk) hg₁).mono ?_ ?_
        · exact fun _ _ h => h.1
        · exact fun _ _ _ => trivial

theorem narrowFrom_add (e : Engine) (stop : Handle → Action Graph Unit) (i j : Nat) (h : Handle) :
    narrowFrom e stop (j + i) h = narrowFrom e (narrowFrom e stop j) i h := by
  induction i generalizing h with
  | zero => rfl
  | succ i ih =>
      show (narrowAt e h >>= fun next => next.forM (narrowFrom e stop (j + i))) = _
      rw [funext ih]
      rfl

/-! ## Assumptions -/

/-- Narrow a node to a truth value. -/
def assumeAt (h : Handle) (expected : Bool) : Action Graph Unit := do
  let v ← (← get).value h
  let n := Engine.assume v expected
  modify fun g => g.setValue h n.left
  let _ ← n.eval

/-- An assumption whose narrowing does `stop` after `steps` steps. -/
def assumeBy (e : Engine) (stop : Handle → Action Graph Unit) (steps : Nat) (h : Handle)
    (expected : Bool) : Action Graph Unit := do
  assumeAt h expected
  narrowFrom e stop steps h

theorem assume_eq_assumeBy (e : Engine) (h : Handle) (expected : Bool) :
    assume e h expected = assumeBy e (fun _ => pure ()) (h.index.toNat + 1) h expected := by
  unfold assume assumeBy assumeAt
  simp only [propagate_eq_narrowFrom, bind_assoc, pure_bind]

/-- What is left of the value of a node is put in its place, and then a conflict ends the path. -/
theorem ends_assumeAt_cases {expected : Bool} {Q : Unit → Graph → Prop}
    {F : Failure → Graph → Prop} (hmissing : g.node? h = none → F (.misuse (.notInGraph h g.size)) g)
    (hfits : ∀ n, g.node? h = some n → (n.value.primary.assume expected).conflict = none →
      Q () (g.setValue h ⟨n.value.tag, (n.value.primary.assume expected).left⟩))
    (hconflict : ∀ n reason, g.node? h = some n →
      (n.value.primary.assume expected).conflict = some reason →
      F .cancelled (g.setValue h ⟨n.value.tag, (n.value.primary.assume expected).left⟩)) :
    (assumeAt h expected).Ends Q F g := by
  refine Action.ends_bind (Action.ends_get ?_)
  refine Action.ends_bind (Action.ends_lift (ends_value.mono ?_ ?_))
  · rintro _ ⟨n, hn, rfl⟩
    refine Action.ends_bind (Action.ends_modify (Action.ends_bind (Action.ends_lift ?_)))
    show Eval.Ends _ _ (Narrowed.eval _)
    unfold Narrowed.eval
    split
    · rename_i hnone
      exact Eval.ends_pure (Action.ends_pure (hfits n hn hnone))
    · rename_i reason hreason
      exact Eval.ends_cancel (hconflict n reason hn hreason)
  · rintro _ ⟨hnone, rfl⟩
    exact hmissing hnone

/-- What an assumption needs of the node it is about: `P` allows what is left of its value, and
`E` a conflict where there is one. -/
def Assumable (P : Handle → Value → Prop) (E : Failure → Prop) (g : Graph) (h : Handle)
    (expected : Bool) : Prop :=
  ∀ n, g.node? h = some n → P h (n.value.primary.assume expected).left ∧
    ∀ reason, (n.value.primary.assume expected).conflict = some reason → E .cancelled

theorem ends_assumeAt {expected : Bool} (hg : Stays P g g)
    (hmissing : g.node? h = none → E (.misuse (.notInGraph h g.size)))
    (hassume : Assumable P E g h expected) :
    (assumeAt h expected).Ends (fun _ g' => Stays P g g')
      (fun err g' => Stays P g g' ∧ E err) g := by
  refine ends_assumeAt_cases (fun hnone => ⟨hg, hmissing hnone⟩) ?_ ?_
  · exact fun n hn _ => hg.setValue hn rfl (hassume n hn).1
  · exact fun n reason hn hreason =>
      ⟨hg.setValue hn rfl (hassume n hn).1, (hassume n hn).2 reason hreason⟩

/-- **What each step keeps, an assumption keeps**, however it ends. -/
theorem Sound.ends_assumeBy {expected : Bool} {steps : Nat} (hs : Sound e P E T V g)
    (hstop : ∀ k g', V 0 k → Stays P g g' →
      (stop k).Ends (fun _ g'' => Stays P g g'' ∧ T k) (fun err g'' => Stays P g g'' ∧ E err) g')
    (hh : V steps h) (hg : Stays P g g) (hassume : Assumable P E g h expected) :
    (assumeBy e stop steps h expected).Ends (fun _ g' => Stays P g g' ∧ T h)
      (fun err g' => Stays P g g' ∧ E err) g := by
  refine Action.ends_bind ((ends_assumeAt hg (hs.missing hh) hassume).mono ?_ fun _ _ => id)
  exact fun _ g' hg' => hs.ends_narrowFrom hstop hh hg'

theorem Sound.run_assumeBy_congr {stop' : Handle → Action Graph Unit} {expected : Bool}
    {steps : Nat} (hs : Sound e P E T V g) (hnone : ∀ k, ¬ V 0 k) (hh : V steps h)
    (hg : Stays P g g) (hassume : Assumable P E g h expected) :
    (assumeBy e stop steps h expected).run g = (assumeBy e stop' steps h expected).run g := by
  unfold assumeBy
  rw [Action.run_bind, Action.run_bind]
  refine Dialogue.bind_congr_of_all (Dialogue.All.mono (ends_assumeAt hg (hs.missing hh) hassume) ?_)
  rintro ⟨err | _, g'⟩ hg'
  · rfl
  · exact hs.run_narrowFrom_congr hnone hh hg'

/-- Every assumption, where `P` allows any narrowing from any handle. -/
theorem Sound.ends_assume {V : Handle → Prop} {expected : Bool}
    (hs : Sound e P E (fun _ => True) (fun _ => V) g) (hh : V h) (hg : Stays P g g)
    (hassume : Assumable P E g h expected) :
    (assume e h expected).Ends (fun _ g' => Stays P g g') (fun err g' => Stays P g g' ∧ E err) g := by
  rw [assume_eq_assumeBy]
  refine (hs.ends_assumeBy ?_ hh hg hassume).mono (fun _ _ h => h.1) fun _ _ => id
  exact fun _ _ _ hg' => Action.ends_pure ⟨hg', trivial⟩

/-! Where only assumptions that succeed matter, `P` need not allow what a conflict leaves. -/

section Fits

variable {expected : Bool} (hassume : ∀ n, g.node? h = some n →
  (n.value.primary.assume expected).conflict = none → P h (n.value.primary.assume expected).left)

include hassume

theorem ends_assumeAt_fits (hg : Stays P g g) :
    (assumeAt h expected).Ends (fun _ g' => Stays P g g') (fun _ _ => True) g := by
  refine ends_assumeAt_cases (fun _ => trivial) ?_ fun _ _ _ _ => trivial
  exact fun n hn hfits => hg.setValue hn rfl (hassume n hn hfits)

theorem Sound.ends_assume_fits {V : Handle → Prop}
    (hs : Sound e P (fun _ => True) (fun _ => True) (fun _ => V) g) (hh : V h) (hg : Stays P g g) :
    (assume e h expected).Ends (fun _ g' => Stays P g g') (fun _ _ => True) g := by
  rw [assume_eq_assumeBy]
  refine Action.ends_bind ((ends_assumeAt_fits hassume hg).mono ?_ fun _ _ => id)
  intro _ g' hg'
  refine (hs.ends_narrowFrom ?_ hh hg').mono (fun _ _ h => h.1) fun _ _ _ => trivial
  exact fun _ _ _ hg' => Action.ends_pure ⟨hg', trivial⟩

end Fits

end Graph

end Narrowing
