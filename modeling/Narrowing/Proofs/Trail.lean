/-
# The trail of a path

A path that has ended shows its answers and how it ended, but not the way it
took.  A trail holds the way: which branches were taken, and what the graph was
between the steps.  To keep one, a block is run beside it (`follow`), and nothing
else changes: without the trail the run is the run of the block (`follow_forget`).

The trail of a path that a report shows comes from its answers (`trail`).
-/
import Narrowing.Program
import Narrowing.Proofs.Dialogue

namespace Narrowing

/-- What happened on the way. -/
structure Trail where
  /-- whether each branch was taken, the first one first -/
  decisions : List Bool
  /-- the graphs between the steps -/
  graphs : List Graph

namespace Trail

def empty : Trail := ⟨[], []⟩

/-- Add the graph in hand to the trail, and a decision if one was made. -/
def record (decision : Option Bool) : Action (PathState × Trail) Unit :=
  modify fun x => (x.1, ⟨x.2.decisions ++ decision.toList, x.2.graphs ++ [x.1.graph]⟩)

end Trail

/-- Decide the condition that a name stands for. -/
def PathState.decideNamed (e : Engine) (condition : String) : Action PathState Bool := do
  let h ← (← get).lookup condition
  decide e h

/-- Run an action beside a second state, which it leaves alone. -/
def Action.beside {σ τ α : Type} (act : Action σ α) : Action (σ × τ) α :=
  Action.within Prod.fst (fun s x => (s, x.2)) act

namespace Block

/-- Run a block and keep a trail. -/
def follow (e : Engine) (patience : Nat) : Block → Action (PathState × Trail) Unit
  | done => pure ()
  | step s rest => do
    (s.run e).beside
    Trail.record none
    rest.follow e patience
  | branch condition yes no rest => do
    let taken ← (PathState.decideNamed e condition).beside
    Trail.record (some taken)
    bif taken then yes.follow e patience else no.follow e patience
    rest.follow e patience
  | loop rounds body rest => do
    Action.times (rounds.getD patience) (body.follow e patience)
    rest.follow e patience

/-- The trail of a block from nothing, under a list of answers. -/
def trail (e : Engine) (b : Block) (answers : List Int) : Trail :=
  (((b.follow e endless).run (.empty, .empty)).play answers).result.2.2

end Block

/-! ## Without the trail -/

namespace Action

variable {σ τ α β : Type}

/-- An action on two states does to the first what another action does to it. -/
def Shadows (act' : Action (σ × τ) α) (act : Action σ α) : Prop :=
  ∀ x, Dialogue.bind (act'.run x) (fun y => .done (y.1, y.2.1)) = act.run x.1

theorem shadows_beside (act : Action σ α) : Shadows (act.beside : Action (σ × τ) α) act := by
  intro x
  show Dialogue.bind (Dialogue.bind (act.run x.1) _) _ = _
  rw [Dialogue.bind_assoc]
  exact Dialogue.bind_done _

theorem shadows_pure (a : α) : Shadows (pure a : Action (σ × τ) α) (pure a) := fun _ => rfl

theorem Shadows.bind {act' : Action (σ × τ) α} {act : Action σ α} {f' : α → Action (σ × τ) β}
    {f : α → Action σ β} (h : Shadows act' act) (hf : ∀ a, Shadows (f' a) (f a)) :
    Shadows (act' >>= f') (act >>= f) := by
  intro x
  rw [run_bind, run_bind, ← h x, Dialogue.bind_assoc, Dialogue.bind_assoc]
  congr 1
  funext ⟨r, y⟩
  cases r with
  | ok a => exact hf a y
  | error err => rfl

theorem Shadows.modify_bind {g : σ × τ → σ × τ} {f' : PUnit → Action (σ × τ) α} {act : Action σ α}
    (hg : ∀ x, (g x).1 = x.1) (hf : Shadows (f' ⟨⟩) act) : Shadows (modify g >>= f') act := by
  intro x
  rw [← hg x]
  exact hf (g x)

theorem Shadows.times {act' : Action (σ × τ) Unit} {act : Action σ Unit} (h : Shadows act' act)
    (n : Nat) : Shadows (times n act') (times n act) := by
  induction n with
  | zero => exact shadows_pure ()
  | succ n ih => exact h.bind fun _ => ih

end Action

namespace Block

theorem run_branch (e : Engine) (patience : Nat) (condition : String) (yes no rest : Block) :
    (branch condition yes no rest).run e patience = (do
      let taken ← PathState.decideNamed e condition
      bif taken then yes.run e patience else no.run e patience
      rest.run e patience) := by
  unfold PathState.decideNamed
  rw [run]
  simp only [bind_assoc]
  congr 1
  funext s
  congr 1
  funext h
  congr 1
  funext taken
  cases taken with
  | true => rfl
  | false => rfl

theorem shadows_follow (e : Engine) (patience : Nat) (b : Block) :
    Action.Shadows (b.follow e patience) (b.run e patience) := by
  induction b with
  | done => exact Action.shadows_pure ()
  | step s rest ih =>
      exact (Action.shadows_beside _).bind fun _ => .modify_bind (fun _ => rfl) ih
  | branch condition yes no rest ihyes ihno ih =>
      rw [run_branch]
      refine (Action.shadows_beside _).bind fun taken => .modify_bind (fun _ => rfl) ?_
      cases taken with
      | true => exact ihyes.bind fun _ => ih
      | false => exact ihno.bind fun _ => ih
  | loop rounds body rest ihbody ih => exact (ihbody.times _).bind fun _ => ih

/-- The computation of a block is that of the block with its trail, without the trail. -/
theorem dialogue_eq_follow (e : Engine) (b : Block) (x : PathState × Trail) :
    b.dialogue e x.1 = Dialogue.bind ((b.follow e endless).run x)
      fun y => .done (y.1.map fun _ => y.2.1) := by
  unfold dialogue
  rw [← shadows_follow e endless b x, Dialogue.bind_assoc]
  rfl

end Block

/-! ## A trail only grows -/

namespace Trail

variable {R : ReplyRule} {α β : Type}

/-- Whatever happens, the graphs of the trail stay. -/
def Grows (R : ReplyRule) (act : Action (PathState × Trail) α) : Prop :=
  ∀ x, act.All R (fun _ y => x.2.graphs <+: y.2.graphs) x

theorem grows_beside (act : Action PathState α) : Grows R act.beside :=
  fun _ => Action.all_within.mpr (Dialogue.all_of_forall (fun _ => List.prefix_rfl) _)

theorem grows_record (decision : Option Bool) : Grows R (record decision) :=
  fun _ => Action.all_modify (List.prefix_append _ _)

theorem grows_pure (a : α) : Grows R (pure a) := fun _ => Action.all_pure List.prefix_rfl

theorem Grows.bind {act : Action (PathState × Trail) α} {f : α → Action (PathState × Trail) β}
    (h : Grows R act) (hf : ∀ a, Grows R (f a)) : Grows R (act >>= f) := by
  intro x
  refine Action.all_bind.mpr ((h x).mono ?_)
  intro r y hy
  cases r with
  | ok a => exact (hf a y).mono fun _ _ hz => hy.trans hz
  | error err => exact hy

theorem Grows.times {act : Action (PathState × Trail) Unit} (h : Grows R act) (n : Nat) :
    Grows R (Action.times n act) := by
  induction n with
  | zero => exact grows_pure ()
  | succ n ih => exact h.bind fun _ => ih

theorem grows_follow (e : Engine) (patience : Nat) (b : Block) : Grows R (b.follow e patience) := by
  induction b with
  | done => exact grows_pure ()
  | step s rest ih => exact (grows_beside _).bind fun _ => (grows_record none).bind fun _ => ih
  | branch condition yes no rest ihyes ihno ih =>
      refine (grows_beside _).bind fun taken => (grows_record _).bind ?_
      intro _
      cases taken with
      | true => exact ihyes.bind fun _ => ih
      | false => exact ihno.bind fun _ => ih
  | loop rounds body rest ihbody ih => exact (ihbody.times _).bind fun _ => ih

end Trail

end Narrowing
