/-
Handles: the names of nodes in a graph.
-/
namespace Narrowing

/-- The place of a node in a graph; `Handle.none` stands for a missing operand. -/
structure Handle where
  index : Int
deriving DecidableEq

namespace Handle

def none : Handle := ⟨-1⟩

def ofNat (i : Nat) : Handle := ⟨i⟩

/-- The written form: a percent sign and the place, or an underscore for `none`. -/
def text (h : Handle) : String :=
  if h = none then "_" else "%" ++ h.index.repr

end Handle

end Narrowing
