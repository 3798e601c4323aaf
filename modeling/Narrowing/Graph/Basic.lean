/-
The operator graph.

A graph lists the values computed on one path, each with the operands it
was computed from.  Operands stand before what is computed from them.
-/
import Narrowing.Tagged

namespace Narrowing

/-- A value and its operands; a missing operand is `Handle.none`. -/
structure Node where
  value : Tagged
  left : Handle
  right : Handle
deriving DecidableEq

/-- The values of one path, in the order of their computation. -/
structure Graph where
  nodes : Array Node
deriving DecidableEq

/-- A way to compute a new value from earlier ones, named by `ρ`. -/
inductive Make (ρ : Type) where
  | lift (c : Constant)
  | any (width : UInt8)
  | anyRange (start stop : Int64) (width : UInt8)
  | anyURange (start stop : UInt64) (width : UInt8)
  | binary (tag : Tag) (a b : ρ)
  | cast (tag : Tag) (a : ρ) (width : UInt8)
  | extract (a : ρ) (start stop : UInt8)
  | concat (a b : ρ) (width : UInt8)
  | load (p : ρ) (width : UInt8)
  | loadAt (p index : ρ) (width : UInt8)

namespace Make

/-- Look the operands up, the first one first. -/
def resolve {ρ σ : Type} (look : ρ → Eval σ) : Make ρ → Eval (Make σ)
  | lift c => pure (lift c)
  | any width => pure (any width)
  | anyRange start stop width => pure (anyRange start stop width)
  | anyURange start stop width => pure (anyURange start stop width)
  | binary tag a b => do return binary tag (← look a) (← look b)
  | cast tag a width => do return cast tag (← look a) width
  | extract a start stop => do return extract (← look a) start stop
  | concat a b width => do return concat (← look a) (← look b) width
  | load p width => do return load (← look p) width
  | loadAt p index width => do return loadAt (← look p) (← look index) width

end Make

namespace Graph

def empty : Graph := ⟨#[]⟩

def size (g : Graph) : Nat := g.nodes.size

def node? (g : Graph) (h : Handle) : Option Node :=
  if 0 ≤ h.index then g.nodes[h.index.toNat]? else none

/-- The node of a handle that must be there. -/
def node (g : Graph) (h : Handle) : Eval Node :=
  match g.node? h with
  | some n => pure n
  | none => Eval.misuse (.notInGraph h g.size)

/-- The value of a handle that must be there. -/
def value (g : Graph) (h : Handle) : Eval Tagged := do
  return (← g.node h).value

def setValue (g : Graph) (h : Handle) (v : Tagged) : Graph :=
  ⟨g.nodes.modify h.index.toNat fun n => { n with value := v }⟩

def push (g : Graph) (n : Node) : Graph := ⟨g.nodes.push n⟩

/-- The node that a step of computation gives. -/
def compute (e : Engine) (g : Graph) : Make Handle → Eval Node
  | .lift c => do return ⟨← e.lift c, .none, .none⟩
  | .any width => do return ⟨← e.any width, .none, .none⟩
  | .anyRange start stop width => do return ⟨← e.anyRange start stop width, .none, .none⟩
  | .anyURange start stop width => do return ⟨← e.anyURange start stop width, .none, .none⟩
  | .binary tag a b => do return ⟨← e.binary tag (← g.value a) (← g.value b), a, b⟩
  | .cast tag a width => do return ⟨← Engine.cast tag (← g.value a) width, a, .none⟩
  | .extract a start stop => do
    return ⟨← Engine.extract (← g.value a) start stop, a, .none⟩
  | .concat a b width => do return ⟨← e.concat (← g.value a) (← g.value b) width, a, b⟩
  | .load p width => do return ⟨← Engine.load (← g.value p) width, p, .none⟩
  | .loadAt p index width => do
    return ⟨← e.loadAt (← g.value p) (← g.value index) width, p, index⟩

/-- Add a node to the graph in hand, and answer its handle. -/
def add (n : Node) : Action Graph Handle := do
  let g ← get
  set (g.push n)
  return .ofNat g.size

/-- Carry out a step of computation. -/
def make (e : Engine) (m : Make Handle) : Action Graph Handle := do
  let n ← (← get).compute e m
  add n

/-- Write a value through a pointer. -/
def store (e : Engine) (g : Graph) (p v : Handle) : Eval Unit := do
  let pointer ← g.value p
  e.store pointer (← g.value v)

def toTristate (e : Engine) (g : Graph) (h : Handle) : Eval Tristate := do
  e.toTristate (← g.value h)

/-- Pick a member of a node, and add it as a node of its own. -/
def lower (e : Engine) (h : Handle) (width : UInt8) : Action Graph (Constant × Handle) := do
  let v ← (← get).value h
  let (c, w) ← e.lower v width
  return (c, ← add ⟨w, h, .none⟩)

/-- The one-line form of a node. -/
def trace (g : Graph) (h : Handle) : Eval String := do
  return (← g.value h).trace

def traces (g : Graph) : List String := g.nodes.toList.map fun n => n.value.trace

end Graph

end Narrowing
