/-
Evaluations and actions.

An evaluation is a dialogue that may also fail.  An action is an
evaluation that works on a state; the state it has reached stays visible
when it fails.
-/
import Narrowing.Dialogue

namespace Narrowing

/-- A computation that asks, notes, and may fail. -/
abbrev Eval := ExceptT Failure Dialogue

/-- An evaluation on a state of type `σ`, which survives a failure. -/
abbrev Action (σ : Type) := ExceptT Failure (StateT σ Dialogue)

namespace Eval

/-- Give up the path as infeasible. -/
def cancel {α : Type} (reason : String) : Eval α :=
  ExceptT.mk (.note (.cancelled reason) (.done (.error .cancelled)))

/-- Stop at a defect of the analysed program. -/
def fault {α : Type} (op : String) (cause : Defect) : Eval α :=
  ExceptT.mk (.done (.error (.fault ⟨op, cause⟩)))

def misuse {α : Type} (m : Misuse) : Eval α :=
  ExceptT.mk (.done (.error (.misuse m)))

/-- Refuse an operator that a domain does not implement. -/
def unsupported {α : Type} (domain : Domain) (op : Tag) : Eval α :=
  misuse (.unsupported domain.name op)

def note (e : Event) : Eval Unit :=
  ExceptT.mk (.note e (.done (.ok ())))

/-- Note that an operator left its operands as they were. -/
def imprecise (domain : Domain) (op : Tag) : Eval Unit :=
  note (.imprecise domain.name op)

/-- Have one of `n` alternatives chosen.  A single alternative is taken without a question. -/
def choose (n : Int) : Eval Nat :=
  if n ≤ 0 then misuse (.noAlternatives n)
  else if n = 1 then pure 0
  else ExceptT.mk (.ask n.toNat fun v =>
    .done (if 0 ≤ v ∧ v < n then .ok v.toNat
      else .error (.misuse (.answerOutOfRange v n.toNat))))

end Eval

namespace Action

/-- An evaluation that leaves the state alone. -/
def ofEval {σ α : Type} (e : Eval α) : Action σ α :=
  ExceptT.mk fun s => Dialogue.bind e.run fun r => .done (r, s)

instance {σ : Type} : MonadLift Eval (Action σ) := ⟨ofEval⟩

/-- Refuse an operation, leaving the state alone. -/
def misuse {σ α : Type} (m : Misuse) : Action σ α := ofEval (Eval.misuse m)

def times {σ : Type} : Nat → Action σ Unit → Action σ Unit
  | 0, _ => pure ()
  | n + 1, act => do
    act
    times n act

/-- Run an action on a part of a larger state. -/
def within {σ τ α : Type} (part : τ → σ) (put : σ → τ → τ) (act : Action σ α) : Action τ α :=
  ExceptT.mk fun t => Dialogue.bind (act.run (part t)) fun (r, s) => .done (r, put s t)

end Action

/-- What an assumption leaves of a value, and why nothing fits if that is so.  A value may
have been narrowed on the way to a conflict. -/
structure Narrowed (α : Type) where
  left : α
  conflict : Option String

namespace Narrowed

/-- A value that fits the assumption. -/
def fits {α : Type} (left : α) : Narrowed α := ⟨left, none⟩

/-- A conflict, and what is left of the value. -/
def conflicts {α : Type} (left : α) (reason : String) : Narrowed α := ⟨left, some reason⟩

/-- The narrowed value; a conflict gives up the path. -/
def eval {α : Type} (n : Narrowed α) : Eval α :=
  match n.conflict with
  | none => pure n.left
  | some reason => Eval.cancel reason

/-- Apply a function to what is left. -/
def map {α β : Type} (f : α → β) (n : Narrowed α) : Narrowed β := ⟨f n.left, n.conflict⟩

end Narrowed

/-- The number of alternatives that narrowing may have chosen among when none is set. -/
def defaultChooseBound : UInt32 := 200

/-- A choose bound as a signed word. -/
def boundWord (bound : UInt32) : Int64 := Int64.ofNat bound.toNat

/-- Whether `0 < n ≤ bound`. -/
def withinBound (bound : UInt32) (n : Int64) : Bool :=
  0 < n && n ≤ boundWord bound

end Narrowing
