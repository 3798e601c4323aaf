/-
Values with the operator that produced them.
-/
import Narrowing.Lattice

namespace Narrowing

/-- Which part of a tagged value answers for its truth. -/
inductive Strategy where
  | primary
  | tag
  | disabled
deriving DecidableEq

namespace Strategy

def name : Strategy → String
  | primary => "primary"
  | tag => "tag"
  | disabled => "disabled"

/-- The strategies in the order of their numbers. -/
def all : List Strategy := [primary, tag, disabled]

def ofName? (name : String) : Option Strategy := all.find? fun s => s.name == name

/-- The name of the strategy with a given number; other numbers are shown. -/
def nameOfCode (code : Nat) : String :=
  match all[code]? with
  | some s => s.name
  | none => "strategy(" ++ code.repr ++ ")"

end Strategy

/-- A value and the operator that produced it. -/
structure Tagged where
  tag : Tag
  primary : Value
deriving DecidableEq

namespace Tagged

/-- The written form as an application. -/
def text (v : Tagged) : String := v.tag.name ++ "(" ++ v.primary.text ++ ")"

/-- The written form on one line: operator, domain, value. -/
def trace (v : Tagged) : String := v.tag.name ++ " " ++ v.primary.text

end Tagged

/-- Everything that operators on tagged values depend on. -/
structure Engine where
  lattice : Lattice
  strategy : Strategy

namespace Engine

def lift (e : Engine) (c : Constant) : Eval Tagged := do
  return ⟨.lift, ← e.lattice.lift c⟩

/-- A value of which nothing is known. -/
def any (e : Engine) (width : UInt8) : Eval Tagged := do
  return ⟨.any, ← e.lattice.any width⟩

def anyRange (e : Engine) (start stop : Int64) (width : UInt8) : Eval Tagged := do
  return ⟨.any, ← e.lattice.anyRange start stop width⟩

def anyURange (e : Engine) (start stop : UInt64) (width : UInt8) : Eval Tagged := do
  return ⟨.any, ← e.lattice.anyURange start stop width⟩

def binary (e : Engine) (tag : Tag) (a b : Tagged) : Eval Tagged := do
  match tag.opClass with
  | .binary | .compare | .float => return ⟨tag, ← e.lattice.binary tag a.primary b.primary⟩
  | _ => Eval.misuse (.notBinary tag)

def cast (tag : Tag) (a : Tagged) (width : UInt8) : Eval Tagged := do
  match tag.opClass with
  | .cast => return ⟨tag, ← Lattice.cast tag a.primary width⟩
  | _ => Eval.misuse (.notCast tag)

def extract (a : Tagged) (start stop : UInt8) : Eval Tagged := do
  return ⟨.memory .extract, ← Lattice.extract a.primary start stop⟩

def concat (e : Engine) (a b : Tagged) (width : UInt8) : Eval Tagged := do
  return ⟨.memory .concat, ← e.lattice.concat a.primary b.primary width⟩

def load (p : Tagged) (width : UInt8) : Eval Tagged := do
  return ⟨.memory .load, ← Lattice.load p.primary width⟩

def loadAt (e : Engine) (p index : Tagged) (width : UInt8) : Eval Tagged := do
  return ⟨.memory .load, ← e.lattice.loadAt p.primary index.primary width⟩

def store (e : Engine) (p v : Tagged) : Eval Unit := e.lattice.store p.primary v.primary

/-- The truth value, as the strategy has it. -/
def toTristate (e : Engine) (v : Tagged) : Eval Tristate :=
  match e.strategy with
  | .primary => v.primary.toTristate
  | .tag => Eval.misuse .tagHasNoTruth
  | .disabled => Eval.misuse .truthDisabled

/-- Narrow to a truth value; the operator stays. -/
def assume (v : Tagged) (expected : Bool) : Narrowed Tagged :=
  (v.primary.assume expected).map fun p => { v with primary := p }

/-- Pick a member, and the value that holds it. -/
def lower (e : Engine) (v : Tagged) (width : UInt8) : Eval (Constant × Tagged) := do
  let c ← v.primary.lower e.lattice.bound width
  let w ← e.lattice.coerce (.constant c) (some v.primary.domain) .plain
  return (c, ⟨.lower, w⟩)

/-- Narrow the operands of `r` by the operator that produced it. -/
def backward (e : Engine) (r a b : Tagged) : Eval (Tagged × Tagged) := do
  let (x, y) ← e.lattice.backward r.tag r.primary a.primary b.primary
  return ({ a with primary := x }, { b with primary := y })

/-- Narrow the operand of a cast `r`. -/
def backwardCast (e : Engine) (r a : Tagged) : Eval Tagged := do
  return { a with primary := ← e.lattice.backwardCast r.tag r.primary a.primary }

end Engine

end Narrowing
