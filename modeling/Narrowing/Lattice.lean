/-
Operators on values of mixed domains.

An operator looks up the common domain of its operands, brings both into
it, and is carried out there.
-/
import Narrowing.Value

namespace Narrowing

/-- The role in which a value is used by another. -/
inductive Flavor where
  | plain
  | index
  | scalar
deriving DecidableEq

namespace Flavor

def name : Flavor → String
  | plain => "plain"
  | index => "index"
  | scalar => "scalar"

def ofName? (name : String) : Option Flavor :=
  [plain, index, scalar].find? fun f => f.name == name

end Flavor

/-- The domains in use, and the bound on choices. -/
structure Lattice where
  options : DomainOptions
  bound : UInt32

namespace Lattice

/-- The common domain of two domains that may be undefined. -/
def join? (l : Lattice) (a b : Option Domain) : Eval Domain :=
  match l.options.joins.lookup a b with
  | some d => pure d
  | none => Eval.misuse (.undefinedJoin a b)

def join (l : Lattice) (a b : Domain) : Eval Domain := l.join? (some a) (some b)

/-- What a value is joined with when a value of domain `target` uses it in a role. -/
def flavored (l : Lattice) (target : Option Domain) : Flavor → Option Domain
  | .plain => target
  | .index => target.bind l.options.index
  | .scalar => target.bind l.options.scalar

/-- A value as it is used by a value of domain `target` in a role. -/
def coerce (l : Lattice) (v : Value) (target : Option Domain) (flavor : Flavor) :
    Eval Value := do
  v.coerce (← l.join? (some v.domain) (l.flavored target flavor))

def lift (l : Lattice) (c : Constant) : Eval Value :=
  (Value.constant c).coerce? l.options.lift

def any (l : Lattice) (width : UInt8) : Eval Value :=
  match l.options.unknown with
  | some .sign => pure (.sign .top)
  | some .zero => pure (.zero .unknown)
  | some .interval => pure (.interval .top)
  | some .words => pure (.words (.top width))
  | d => Eval.misuse (.noUnknown d)

def anyRange (l : Lattice) (start stop : Int64) (width : UInt8) : Eval Value :=
  match l.options.unknown with
  | some .sign => do return .sign (← Sign.anyRange start stop)
  | some .zero => do return .zero (← Zero.anyRange start stop)
  | some .interval => do return .interval (← Interval.make start stop)
  | some .words => do
    return .words (← WordRange.anyRange start.toUInt64 stop.toUInt64 width)
  | d => Eval.misuse (.noRange d)

/-- An unsigned word as a signed one, at most `limit`. -/
def saturate (x : UInt64) (limit : Int64) : Int64 :=
  if limit.toUInt64 < x then limit else x.toInt64

/-- A value between two unsigned ends.  Where words are read with a sign, an end above all
signed words counts as plus infinity. -/
def anyURange (l : Lattice) (start stop : UInt64) (width : UInt8) : Eval Value :=
  match l.options.unknown with
  | some .words => do return .words (← WordRange.anyRange start stop width)
  | _ =>
    l.anyRange (saturate start (Int64.maxValue - 1)) (saturate stop Int64.maxValue) width

def binary (l : Lattice) (tag : Tag) (a b : Value) : Eval Value := do
  let d ← l.join a.domain b.domain
  Eval.note (.dispatch tag d)
  match d with
  | .constant => return .constant (← Constant.binary tag (← a.toConstant) (← b.toConstant))
  | .sign => return .sign (← Sign.binary tag (← a.toSign) (← b.toSign))
  | .zero => return .zero (← Zero.binary tag (← a.toZero) (← b.toZero))
  | .interval => return .interval (← Interval.binary tag (← a.toInterval) (← b.toInterval))
  | .words => return .words (← WordRange.binary tag (← a.toWords) (← b.toWords))

def cast (tag : Tag) (a : Value) (width : UInt8) : Eval Value := do
  Eval.note (.dispatch tag a.domain)
  match a with
  | .constant c => return .constant (← c.cast tag width)
  | .sign s => return .sign (← s.cast tag)
  | .zero z => return .zero (← z.cast tag)
  | .interval i => return .interval (← i.cast tag)
  | .words r => return .words (← r.cast tag width)

/-- The bits from `start` up to, not including, `stop`; only constants know single bits. -/
def extract (a : Value) (start stop : UInt8) : Eval Value :=
  match a with
  | .constant c => do return .constant (← c.extract start stop)
  | _ => Value.top a.domain (stop - start)

/-- `a` above `b` in one word of the given width. -/
def concat (l : Lattice) (a b : Value) (width : UInt8) : Eval Value := do
  match ← l.join a.domain b.domain with
  | .constant => return .constant (← a.word.concat b.word)
  | d => Value.top d width

/-- Read a word of the given width through a pointer. -/
def load (p : Value) (width : UInt8) : Eval Value :=
  match p with
  | .constant _ => Eval.unsupported .constant (.memory .load)
  | .zero z => do return .zero (← z.load)
  | _ => Value.top p.domain width

/-- Read through a pointer at an index.  No domain tracks offsets, so the index need only
have a common domain with the pointer. -/
def loadAt (l : Lattice) (p index : Value) (width : UInt8) : Eval Value := do
  let _ ← l.coerce index (some p.domain) .index
  load p width

/-- Write a value through a pointer. -/
def store (l : Lattice) (p v : Value) : Eval Unit := do
  let _ ← l.coerce v (some p.domain) .scalar
  match p with
  | .constant _ => Eval.unsupported .constant (.memory .store)
  | .zero z => z.store
  | _ => return ()

/-- Narrow two values, given in one domain, from the result of an operator on them. -/
def backwardIn (l : Lattice) (tag : Tag) (d : Domain) (a b r : Value) :
    Eval (Value × Value) := do
  match d with
  | .constant =>
    let x ← a.toConstant
    let y ← b.toConstant
    let _ ← r.toConstant
    -- a constant cannot become more exact
    return (.constant x, .constant y)
  | .sign =>
    let x ← a.toSign
    let y ← b.toSign
    let (x, y) ← Sign.backward tag (← r.toSign) x y
    return (.sign x, .sign y)
  | .zero =>
    let x ← a.toZero
    let y ← b.toZero
    let (x, y) ← Zero.backward tag (← r.toZero) x y
    return (.zero x, .zero y)
  | .interval =>
    let x ← a.toInterval
    let y ← b.toInterval
    let (x, y) ← Interval.backward l.bound tag (← r.toInterval) x y
    return (.interval x, .interval y)
  | .words =>
    let x ← a.toWords
    let y ← b.toWords
    let (x, y) ← WordRange.backward tag (← r.toWords) x y
    return (.words x, .words y)

/-- Narrow the operands of `r = a op b`; they stay in the common domain of all three. -/
def backward (l : Lattice) (tag : Tag) (r a b : Value) : Eval (Value × Value) := do
  let d ← l.join (← l.join a.domain b.domain) r.domain
  l.backwardIn tag d a b r

/-- Narrow the operand of a change of width. -/
def backwardCast (l : Lattice) (tag : Tag) (r a : Value) : Eval Value := do
  let d ← l.join a.domain r.domain
  let x ← a.coerce d
  let (x, _) ← l.backwardIn tag d x x r
  return x

end Lattice

end Narrowing
