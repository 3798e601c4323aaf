/-
Programs over the operator graph.

A program computes values and gives them names, branches on truth values,
repeats blocks, and observes what it sees.  It runs as an action on the
graph and the bindings of one path.
-/
import Narrowing.Bindings
import Narrowing.Graph.Backward

namespace Narrowing

/-- One step of a program.  Values are given by name. -/
inductive Step where
  /-- compute a value, and bind it if a name is given -/
  | make (m : Make String) (name : Option String)
  /-- bind a name to the value of another -/
  | bind (name value : String)
  /-- remove a binding -/
  | unbind (name : String)
  /-- write through a pointer -/
  | store (pointer value : String)
  /-- assume a truth value -/
  | assume (condition : String) (expected : Bool)
  /-- pick a member, observe it, and bind it if a name is given -/
  | lower (value : String) (width : UInt8) (name : Option String)
  /-- observe a value -/
  | observe (value : String)
  /-- observe a truth value -/
  | observeTruth (value : String)
  /-- observe all bindings -/
  | observeBindings

/-- A sequence of steps, branches and loops. -/
inductive Block where
  | done
  | step (s : Step) (rest : Block)
  /-- the condition is decided and assumed; then `yes` or `no` runs -/
  | branch (condition : String) (yes no : Block) (rest : Block)
  /-- the body runs a number of times, or without end -/
  | loop (rounds : Option Nat) (body : Block) (rest : Block)

/-- A program: an optional block that prepares the ground, and the block to explore. -/
structure Program where
  name : String
  setup : Option Block
  body : Block

/-- What one path has computed and bound so far. -/
structure PathState where
  graph : Graph
  bindings : Bindings

namespace PathState

def empty : PathState := ⟨.empty, .empty⟩

/-- The handle of a name that must be bound. -/
def lookup (s : PathState) (name : String) : Eval Handle :=
  match s.bindings.get? name with
  | some h => pure h
  | none => Eval.misuse (.unbound name)

def onGraph {α : Type} (act : Action Graph α) : Action PathState α :=
  Action.within PathState.graph (fun g s => { s with graph := g }) act

def bind (name : String) (h : Handle) : Action PathState Unit :=
  modify fun s => { s with bindings := s.bindings.set name h }

/-- Bind a name, if one is given. -/
def bind? (name : Option String) (h : Handle) : Action PathState Unit :=
  match name with
  | some n => bind n h
  | none => pure ()

def observe (text : String) : Action PathState Unit :=
  Action.ofEval (Eval.note (.observed text))

/-- Decide a condition, asking where it is open, and assume what was decided. -/
def decide (e : Engine) (condition : Handle) : Action PathState Bool := do
  let t ← (← get).graph.toTristate e condition
  let taken ← t.lower
  onGraph (Graph.assume e condition taken)
  return taken

end PathState

namespace Step

def run (e : Engine) : Step → Action PathState Unit
  | make m name => do
    let s ← get
    let m ← m.resolve s.lookup
    PathState.bind? name (← PathState.onGraph (Graph.make e m))
  | bind name value => do
    PathState.bind name (← (← get).lookup value)
  | unbind name => PathState.bind name .none
  | store pointer value => do
    let s ← get
    let p ← s.lookup pointer
    s.graph.store e p (← s.lookup value)
  | assume condition expected => do
    let h ← (← get).lookup condition
    PathState.onGraph (Graph.assume e h expected)
  | lower value width name => do
    let h ← (← get).lookup value
    let (c, w) ← PathState.onGraph (Graph.lower e h width)
    PathState.observe c.text
    PathState.bind? name w
  | observe value => do
    let s ← get
    PathState.observe (← s.graph.trace (← s.lookup value))
  | observeTruth value => do
    let s ← get
    PathState.observe (← s.graph.toTristate e (← s.lookup value)).name
  | observeBindings => do
    (← get).bindings.lines.forM PathState.observe

end Step

namespace Block

/-- Run a block.  A loop without end runs `patience` rounds; a path that has not ended by
then goes on behind the loop. -/
def run (e : Engine) (patience : Nat) : Block → Action PathState Unit
  | done => pure ()
  | step s rest => do
    s.run e
    rest.run e patience
  | branch condition yes no rest => do
    let h ← (← get).lookup condition
    if ← PathState.decide e h then yes.run e patience else no.run e patience
    rest.run e patience
  | loop rounds body rest => do
    Action.times (rounds.getD patience) (body.run e patience)
    rest.run e patience

/-- The rounds that are taken for endless: more than a path can make. -/
def endless : Nat := Nat.pow 2 62

/-- The computation of a block from a state: the bindings it ends with. -/
def dialogue (e : Engine) (b : Block) (s : PathState) : Dialogue (Except Failure PathState) :=
  Dialogue.bind ((b.run e endless).run s) fun (r, s') => .done (r.map fun _ => s')

end Block

end Narrowing
