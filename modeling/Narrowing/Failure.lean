/-
How a computation can fail, and how a path can end.

Three things stop a computation: the path is infeasible (`cancelled`), the
analysed program has a defect on this path (`fault`), or an operation was
asked for something it does not offer (`misuse`).  A misuse is a cause;
`Misuse.message` is the only place that puts causes into words.
-/
import Narrowing.Tag
import Narrowing.Domain
import Narrowing.Handle
import Narrowing.Text.Quoted

namespace Narrowing

/-- What is wrong with the analysed program. -/
inductive Defect where
  | divisionByZero
  | nullDereference
deriving DecidableEq

namespace Defect

def message : Defect → String
  | divisionByZero => "division by zero"
  | nullDereference => "null pointer dereference"

end Defect

/-- A defect of the analysed program, at the operator that met it. -/
structure Fault where
  op : String
  cause : Defect
deriving DecidableEq

namespace Fault

def message (f : Fault) : String := f.op ++ ": " ++ f.cause.message

end Fault

/-- Why an operation was refused. -/
inductive Misuse where
  /-- a question with no alternatives -/
  | noAlternatives (n : Int)
  /-- an answer outside the alternatives of its question -/
  | answerOutOfRange (answer : Int) (n : Nat)
  /-- a cancelled path that was continued -/
  | cancelReturned
  /-- an operator that a domain does not implement -/
  | unsupported (domain : String) (op : Tag)
  /-- a floating-point word read as an integer -/
  | floatWitness
  /-- a word of a width that has no integer reading -/
  | unreadableWidth (width : UInt8)
  /-- the join of two different words -/
  | distinctConstants
  /-- an operator on words of two widths -/
  | widthMismatch (op : Tag) (left right : UInt8)
  /-- a slice outside its word -/
  | badSlice (start stop width : UInt8)
  /-- a concatenation of more than sixty-four bits -/
  | concatTooWide
  /-- an unknown value asked of the exact words -/
  | unconstrainedConstant
  /-- an operator on word ranges of two widths -/
  | rangeWidthMismatch (op : Tag)
  /-- two domains without a common one -/
  | undefinedJoin (left right : Option Domain)
  /-- a value that cannot be expressed in the wanted domain -/
  | noCoercion (source target : Option Domain)
  /-- a value read as one of another domain -/
  | wrongPayload (actual wanted : Domain)
  /-- an unknown value asked of a domain that has none -/
  | noUnknown (domain : Option Domain)
  /-- a range asked of a domain that has none -/
  | noRange (domain : Option Domain)
  /-- the least precise value of a domain that has none -/
  | noTop (domain : Domain)
  /-- a tag that is no binary operator -/
  | notBinary (op : Tag)
  /-- a tag that is no cast -/
  | notCast (op : Tag)
  /-- the truth value of an operator tag -/
  | tagHasNoTruth
  /-- a truth value where these are switched off -/
  | truthDisabled
  /-- a handle of no node -/
  | notInGraph (handle : Handle) (size : Nat)
  /-- a node without a known operator -/
  | unknownTagAt (handle : Handle)
  /-- an operator that nothing can be narrowed through -/
  | noBackwardRule (op : Tag)
  /-- a name that is not bound -/
  | unbound (name : String)
  /-- a refusal in the words of the caller -/
  | stated (domain op reason : String)
deriving DecidableEq

namespace Misuse

/-- The domain, the operation and the reason of a refusal, in words. -/
def parts : Misuse → String × String × String
  | noAlternatives n => ("", "choose", "non-positive alternative count " ++ n.repr)
  | answerOutOfRange answer n =>
    ("", "choose", "oracle answered " ++ answer.repr ++ " out of " ++ n.repr)
  | cancelReturned => ("", "cancel", "oracle returned from Cancel")
  | unsupported domain op => (domain, op.name, "unsupported")
  | floatWitness => ("constant", "lift_to", "float witness")
  | unreadableWidth width =>
    ("constant", "lift_to", "unsupported bit-width " ++ width.toNat.repr)
  | distinctConstants => ("constant", "join", "distinct constants have no common witness")
  | widthMismatch op left right =>
    ("constant", op.name, "width mismatch " ++ left.toNat.repr ++ "/" ++ right.toNat.repr)
  | badSlice start stop width =>
    ("constant", "extract", "bad range [" ++ start.toNat.repr ++ "," ++ stop.toNat.repr ++
      ") of i" ++ width.toNat.repr)
  | concatTooWide => ("constant", "concat", "result wider than 64 bits")
  | unconstrainedConstant => ("constant", "any", "a constant cannot be unconstrained")
  | rangeWidthMismatch op => (Domain.words.name, op.name, "width mismatch")
  | undefinedJoin left right =>
    ("multi", "join", "undefined join of " ++ Domain.title left ++ " and " ++ Domain.title right)
  | noCoercion source target =>
    ("multi", "coerce",
      "no coercion from " ++ Domain.title source ++ " to " ++ Domain.title target)
  | wrongPayload actual wanted =>
    ("multi", "payload", "value is " ++ actual.name ++ ", not " ++ wanted.name)
  | noUnknown domain => ("multi", "any", Domain.title domain ++ " cannot hold an unknown value")
  | noRange domain => ("multi", "any", Domain.title domain ++ " cannot hold a range")
  | noTop domain => ("multi", "top", domain.name ++ " has no top")
  | notBinary op => ("product", op.name, "not a binary operator")
  | notCast op => ("product", op.name, "not a cast")
  | tagHasNoTruth => ("product", "to_tristate", "an operator tag has no truth value")
  | truthDisabled => ("product", "to_tristate", "tristate conversion is disabled")
  | notInGraph handle size =>
    ("relational", "handle",
      handle.text ++ " is not in an arena of " ++ size.repr ++ " nodes")
  | unknownTagAt handle => ("relational", "backward", "unknown operator tag at " ++ handle.text)
  | noBackwardRule op => ("relational", "backward", "unsupported operator " ++ op.name)
  | unbound name => ("explore", "lookup", Text.quoted name ++ " is not bound")
  | stated domain op reason => (domain, op, reason)

/-- The written form; the domain is left out when it is empty. -/
def message (m : Misuse) : String :=
  let (domain, op, reason) := m.parts
  let place := if domain = "" then op else domain ++ " " ++ op
  "lamp fail: " ++ place ++ ": " ++ reason

end Misuse

/-- Why a computation stopped without a result. -/
inductive Failure where
  | cancelled
  | fault (f : Fault)
  | misuse (m : Misuse)
deriving DecidableEq

/-- How an explored path ended. -/
inductive Outcome where
  | completed
  | cancelled
  | faulted
  | bounded
deriving DecidableEq

namespace Outcome

def name : Outcome → String
  | completed => "completed"
  | cancelled => "cancelled"
  | faulted => "faulted"
  | bounded => "bounded"

def all : List Outcome := [completed, cancelled, faulted, bounded]

/-- The name of the outcome with a given number; other numbers are shown. -/
def nameOfCode (code : Nat) : String :=
  match all[code]? with
  | some o => o.name
  | none => "outcome(" ++ code.repr ++ ")"

end Outcome

end Narrowing
