/-
Values of any leaf domain, and the coercions between domains.

A coercion never loses a number: a constant is read as an integer first,
and every other step gives a larger set.
-/
import Narrowing.Interval.Backward
import Narrowing.JoinTable
import Narrowing.Sign
import Narrowing.WordRange
import Narrowing.Zero

namespace Narrowing

/-- A value of one of the five leaf domains. -/
inductive Value where
  | constant (c : Constant)
  | sign (s : Sign)
  | zero (z : Zero)
  | interval (i : Interval)
  | words (r : WordRange)
deriving DecidableEq

/-- The signs of a word of known zero-ness. -/
def Zero.toSign (z : Zero) : Sign := ⟨z.nonzero, z.zero, z.nonzero⟩

/-- The interval of a word of known zero-ness. -/
def Zero.toInterval (z : Zero) : Eval Interval :=
  if z = .bottom then Eval.cancel "coerce bottom"
  else if z = .isZero then pure (.point 0)
  else pure .top

/-- The interval of the numbers of a sign. -/
def Sign.toInterval (s : Sign) : Eval Interval :=
  if s = .bot then Eval.cancel "coerce bottom"
  else pure ⟨if s.neg then Bound.negInf else if s.zero then 0 else 1,
    if s.pos then Bound.posInf else if s.zero then 0 else -1⟩

namespace Value

def domain : Value → Domain
  | constant _ => .constant
  | sign _ => .sign
  | zero _ => .zero
  | interval _ => .interval
  | words _ => .words

/-- The written form, without the domain. -/
def payload : Value → String
  | constant c => c.text
  | sign s => s.text
  | zero z => z.text
  | interval i => i.text
  | words r => r.text

def text (v : Value) : String := v.domain.name ++ " " ++ v.payload

/-- The written form of a value that must belong to a given domain. -/
def payloadOf (v : Value) (wanted : Domain) : Eval String :=
  if v.domain = wanted then pure v.payload
  else Eval.misuse (.wrongPayload v.domain wanted)

/-- The word of a constant; a value of another domain has the empty word. -/
def word : Value → Constant
  | constant c => c
  | _ => ⟨0, .integer, 0⟩

def refuse {α : Type} (v : Value) (target : Domain) : Eval α :=
  Eval.misuse (.noCoercion (some v.domain) (some target))

def toConstant : Value → Eval Constant
  | constant c => pure c
  | v => v.refuse .constant

def toSign : Value → Eval Sign
  | sign s => pure s
  | constant c => do return Sign.lift (← c.liftValue)
  | zero z => pure z.toSign
  | v => v.refuse .sign

def toZero : Value → Eval Zero
  | zero z => pure z
  | constant c => do return Zero.lift (← c.liftValue)
  | v => v.refuse .zero

def toInterval : Value → Eval Interval
  | interval i => pure i
  | constant c => do return Interval.point (← c.liftValue)
  | zero z => z.toInterval
  | sign s => s.toInterval
  | v => v.refuse .interval

def toWords : Value → Eval WordRange
  | words r => pure r
  | constant c => pure (WordRange.lift c)
  | v => v.refuse .words

def coerce (v : Value) (target : Domain) : Eval Value :=
  match target with
  | .constant => do return constant (← v.toConstant)
  | .sign => do return sign (← v.toSign)
  | .zero => do return zero (← v.toZero)
  | .interval => do return interval (← v.toInterval)
  | .words => do return words (← v.toWords)

def coerce? (v : Value) : Option Domain → Eval Value
  | some target => v.coerce target
  | none => Eval.misuse (.noCoercion (some v.domain) none)

/-- The least precise value of a domain; constants have none. -/
def top (d : Domain) (width : UInt8) : Eval Value :=
  match d with
  | .constant => Eval.misuse (.noTop d)
  | .sign => pure (sign .top)
  | .zero => pure (zero .unknown)
  | .interval => pure (interval .top)
  | .words => pure (words (.top width))

def toTristate : Value → Eval Tristate
  | constant c => pure c.toTristate
  | sign s => s.toTristate
  | zero z => z.toTristate
  | interval i => i.toTristate
  | words r => pure r.toTristate

def assume (v : Value) (expected : Bool) : Narrowed Value :=
  match v with
  | constant c => (c.assume expected).map constant
  | sign s => (s.assume expected).map sign
  | zero z => (z.assume expected).map zero
  | interval i => (i.assume expected).map interval
  | words r => (r.assume expected).map words

/-- Pick a member, as a word of the given width. -/
def lower (bound : UInt32) (v : Value) (width : UInt8) : Eval Constant :=
  match v with
  | constant c => pure c
  | sign s => do return .ofInt64 (← s.lower) width
  | zero z => do return .ofInt64 (← z.lower) width
  | interval i => do return .ofInt64 (← i.lower bound) width
  | words r => r.lower bound

end Value

end Narrowing
