/-
Sessions: evaluations held one after another against one list of answers.

The answers are used up over the whole session, and every answer after
the last one is 0.  A session may belong to a party that goes on after a
cancelled path; the cancellation is then turned into a refusal.
-/
import Narrowing.Eval

namespace Narrowing

/-- The state of a session between two evaluations. -/
structure Session where
  /-- the answers still to be given -/
  answers : List Int
  /-- whether the path is continued after a cancellation -/
  cancelReturns : Bool
  /-- how often the path was cancelled -/
  cancels : Nat

/-- What one evaluation of a session came to. -/
structure Reply (α : Type) where
  /-- the result, or why there is none -/
  result : Except Failure α
  /-- the number of alternatives of each question, in order -/
  asked : List Nat
  /-- the events noted, in order -/
  events : List Event

namespace Session

/-- A cancellation as it is seen in this session. -/
def settle {α : Type} (s : Session) : Except Failure α → Except Failure α
  | .error .cancelled =>
    .error (if s.cancelReturns then .misuse .cancelReturned else .cancelled)
  | r => r

def isCancelled {α : Type} : Except Failure α → Bool
  | .error .cancelled => true
  | _ => false

/-- Hold an evaluation with a state; the state is returned whatever the result. -/
def holdOn {σ α : Type} (s : Session) (act : Action σ α) (state : σ) :
    Reply α × σ × Session :=
  let p := (act.run state).play s.answers
  (⟨s.settle p.result.1, p.asked, p.events⟩, p.result.2,
    { s with
      answers := p.unused
      cancels := s.cancels + if isCancelled p.result.1 then 1 else 0 })

def hold {α : Type} (s : Session) (e : Eval α) : Reply α × Session :=
  let (reply, _, s') := s.holdOn (Action.ofEval e) ()
  (reply, s')

end Session

end Narrowing
