/-
Assumptions, and how they narrow the graph.

An assumption narrows one node.  From there the operands of the node are
narrowed by the rule of its operator, then the operands of these, down to
the leaves.  Operands stand before their node, so the narrowing of the
node at place `n` ends within `n + 1` steps.
-/
import Narrowing.Graph.Basic

namespace Narrowing

/-- How the operands of a node are narrowed. -/
inductive BackwardRule where
  /-- there are none -/
  | leaf
  /-- two operands -/
  | binary
  /-- one operand -/
  | cast
  /-- the operator is not known -/
  | unknown
  /-- the operator has no rule -/
  | unsupported
deriving DecidableEq

namespace Tag

/-- The rule of an operator. -/
def backwardRule : Tag → BackwardRule
  | unknown => .unknown
  | any | lift | lower => .leaf
  | arith _ | relation _ => .binary
  | cast .inttoptr | cast .ptrtoint => .unsupported
  | cast _ => .cast
  | float .fneg => .unsupported
  | float op => if op.isConversion then .cast else .binary
  | join | meet | memory _ | beyond _ => .unsupported

end Tag

namespace Engine

/-- Two narrowings of one operand, combined. -/
def meetNarrowed (e : Engine) (x y : Tagged) : Eval Tagged := do
  if x.primary = y.primary then return x
  else return ⟨x.tag, ← e.lattice.binary .meet x.primary y.primary⟩

/-- Narrow both operands of a node; an operand used twice is narrowed by both narrowings. -/
def narrowOperands (e : Engine) (r x y : Tagged) (same : Bool) : Eval (Tagged × Tagged) := do
  let (x, y) ← e.backward r x y
  if same then
    let m ← e.meetNarrowed x y
    return (m, m)
  else return (x, y)

end Engine

namespace Graph

/-- Narrow what a node was computed from, in at most `steps` steps. -/
def propagate (e : Engine) : (steps : Nat) → Handle → Action Graph Unit
  | 0, _ => pure ()
  | steps + 1, h => do
    let n ← (← get).node h
    match n.value.tag.backwardRule with
    | .leaf => return ()
    | .unknown => Action.misuse (.unknownTagAt h)
    | .unsupported => Action.misuse (.noBackwardRule n.value.tag)
    | .binary =>
      let x ← (← get).value n.left
      let y ← (← get).value n.right
      let (x, y) ← e.narrowOperands n.value x y (n.left == n.right)
      modify fun g => (g.setValue n.left x).setValue n.right y
      propagate e steps n.left
      if n.left ≠ n.right then propagate e steps n.right
    | .cast =>
      let x ← (← get).value n.left
      let x ← e.backwardCast n.value x
      modify fun g => g.setValue n.left x
      propagate e steps n.left

/-- Narrow a node to a truth value, and then everything it was computed from. -/
def assume (e : Engine) (h : Handle) (expected : Bool) : Action Graph Unit := do
  let v ← (← get).value h
  let n := Engine.assume v expected
  modify fun g => g.setValue h n.left
  let _ ← n.eval
  propagate e (h.index.toNat + 1) h

end Graph

end Narrowing
