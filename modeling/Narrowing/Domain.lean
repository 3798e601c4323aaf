/-
The five leaf domains.

`none` in an `Option Domain` stands where a domain is undefined: an empty
cell of a join table, or a setting that names no domain.
-/
namespace Narrowing

/-- A leaf domain. -/
inductive Domain where
  | constant
  | sign
  | zero
  | interval
  | words
deriving DecidableEq

namespace Domain

def name : Domain → String
  | constant => "constant"
  | sign => "sign"
  | zero => "zero"
  | interval => "interval"
  | words => "bvinterval"

def all : List Domain := [constant, sign, zero, interval, words]

def ofCode? (code : Nat) : Option Domain := all[code]?

def ofName? (name : String) : Option Domain :=
  all.find? fun d => d.name == name

/-- The name of a domain that may be undefined. -/
def title : Option Domain → String
  | some d => d.name
  | none => "invalid"

end Domain

end Narrowing
