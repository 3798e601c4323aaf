/-
Join tables: into which domain two operands are brought.

A table gives, for a pair of domains, the domain that both operands of an
operator are expressed in, or none.  A usable table is reflexive, and every
domain it names can be reached from both sides by coercion.
-/
import Narrowing.Domain

namespace Narrowing

namespace Domain

/-- Whether the values of one domain can be expressed in another. -/
def canCoerce (source target : Domain) : Bool :=
  match source with
  | constant => true
  | zero => target == zero || target == sign || target == interval
  | sign => target == sign || target == interval
  | interval => target == interval
  | words => target == words

/-- `canCoerce` for domains that may be undefined; nothing leads from or to an undefined one. -/
def canCoerce? : Option Domain → Option Domain → Bool
  | some source, some target => canCoerce source target
  | _, _ => false

end Domain

/-- The common domain of each pair of domains, where there is one. -/
structure JoinTable where
  cell : Domain → Domain → Option Domain

/-- Why a table or a choice of domains is not usable. -/
inductive DomainError where
  /-- a domain is not joined with itself to itself -/
  | notReflexive (domain : Domain) (found : Option Domain)
  /-- a join that cannot be reached from both sides -/
  | noCoercion (left right result : Domain)
  /-- constants are lifted into no domain -/
  | badLift
  /-- unknown values are drawn from a domain without them -/
  | badUnknown (found : Option Domain)
  /-- a role has no target for a domain -/
  | badFlavor (domain : Domain)
deriving DecidableEq

namespace DomainError

def showCell (a b : Domain) (r : Option Domain) : String :=
  "join(" ++ a.name ++ ", " ++ b.name ++ ") = " ++ Domain.title r

def message : DomainError → String
  | notReflexive d found => "join table is not reflexive: " ++ showCell d d found
  | noCoercion a b r =>
    "join result is not reachable by coercion: " ++ showCell a b (some r)
  | badLift => "unknown domain: lift domain " ++ Domain.all.length.repr
  | badUnknown found =>
    "unknown domain: any domain " ++ Domain.title found ++ " cannot hold an unknown value"
  | badFlavor d => "unknown domain: flavor target of " ++ d.name

end DomainError

namespace JoinTable

/-- The standard table.  The numeric domains are ordered by what they can express (constant,
zero, sign, interval), and word ranges meet only constants. -/
def standard : JoinTable where
  cell
    | .constant, d => some d
    | d, .constant => some d
    | .zero, .zero => some .zero
    | .sign, .sign | .zero, .sign | .sign, .zero => some .sign
    | .interval, .interval | .zero, .interval | .interval, .zero
    | .sign, .interval | .interval, .sign => some .interval
    | .words, .words => some .words
    | .words, _ | _, .words => none

/-- Assign one cell. -/
def put (t : JoinTable) (a b : Domain) (r : Option Domain) : JoinTable where
  cell x y := if x = a ∧ y = b then r else t.cell x y

/-- Assign the join of two domains, in both orders. -/
def set (t : JoinTable) (a b : Domain) (r : Option Domain) : JoinTable :=
  (t.put a b r).put b a r

/-- The join of two domains that may be undefined. -/
def lookup (t : JoinTable) (a b : Option Domain) : Option Domain := do
  t.cell (← a) (← b)

/-- Check one cell: its result must be reachable from both sides. -/
def checkCell (t : JoinTable) (a b : Domain) : Except DomainError Unit :=
  match t.cell a b with
  | none => pure ()
  | some r =>
    if a.canCoerce r && b.canCoerce r then pure () else throw (.noCoercion a b r)

/-- Check one row: the diagonal first, then every cell. -/
def checkRow (t : JoinTable) (a : Domain) : Except DomainError Unit := do
  if t.cell a a ≠ some a then throw (.notReflexive a (t.cell a a))
  Domain.all.forM fun b => t.checkCell a b

/-- Whether a table is usable, or the first reason why not. -/
def validate (t : JoinTable) : Except DomainError Unit :=
  Domain.all.forM t.checkRow

end JoinTable

/-- The domains that values are created in, and how they combine. -/
structure DomainOptions where
  /-- the common domain of two operands -/
  joins : JoinTable
  /-- the domain of lifted constants -/
  lift : Option Domain
  /-- the domain of unknown values -/
  unknown : Option Domain
  /-- for a memory domain, what an index is joined with -/
  index : Domain → Option Domain
  /-- for a memory domain, what a stored value is joined with -/
  scalar : Domain → Option Domain

namespace DomainOptions

/-- Constants stay constants, unknown values are intervals, and each role keeps the domain. -/
def standard : DomainOptions := ⟨.standard, some .constant, some .interval, some, some⟩

/-- Check that each role has a target for a domain. -/
def checkFlavors (o : DomainOptions) (d : Domain) : Except DomainError Unit :=
  if (o.index d).isNone || (o.scalar d).isNone then throw (.badFlavor d) else pure ()

/-- Whether the options are usable, or the first reason why not. -/
def validate (o : DomainOptions) : Except DomainError Unit := do
  o.joins.validate
  if o.lift.isNone then throw .badLift
  if o.unknown.isNone || o.unknown == some .constant then throw (.badUnknown o.unknown)
  Domain.all.forM o.checkFlavors

end DomainOptions

end Narrowing
