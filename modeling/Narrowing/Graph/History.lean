/-
A graph with its saved states.

A graph can be saved at any time and brought back later; the saved states
are numbered from 0 and are never lost.
-/
import Narrowing.Graph.Backward

namespace Narrowing

/-- A graph in hand, and the graphs saved so far. -/
structure History where
  graph : Graph
  saved : Array Graph

namespace History

def empty : History := ⟨.empty, #[]⟩

def save (s : History) : History := { s with saved := s.saved.push s.graph }

/-- Bring a saved graph back. -/
def restore? (s : History) (i : Nat) : Option History :=
  s.saved[i]?.map fun g => { s with graph := g }

/-- Start again with the empty graph. -/
def clear (s : History) : History := { s with graph := .empty }

end History

end Narrowing
