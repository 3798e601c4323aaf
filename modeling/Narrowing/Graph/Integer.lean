/-
Machine integers in a graph.

The types of machine integers, and the steps that create values of them:
one integer, the integers between two, any of them.  Unsigned types are
created through the unsigned range, so that their ends are not read with a
sign.
-/
import Narrowing.Graph.Basic

namespace Narrowing

/-- A type of machine integers. -/
structure IntType where
  signed : Bool
  width : UInt8
deriving DecidableEq

namespace IntType

/-- The types of 8, 16, 32 and 64 bits, with and without sign. -/
def all : List IntType :=
  [⟨true, 8⟩, ⟨true, 16⟩, ⟨true, 32⟩, ⟨true, 64⟩,
    ⟨false, 8⟩, ⟨false, 16⟩, ⟨false, 32⟩, ⟨false, 64⟩]

/-- The written name, such as `i8` or `u64`. -/
def name (t : IntType) : String :=
  (if t.signed then "i" else "u") ++ t.width.toNat.repr

def ofName? (name : String) : Option IntType := all.find? fun t => t.name == name

def least (t : IntType) : Int := if t.signed then -Nat.pow 2 (t.width.toNat - 1) else 0

def greatest (t : IntType) : Int :=
  Nat.pow 2 (if t.signed then t.width.toNat - 1 else t.width.toNat) - (1 : Int)

def contains (t : IntType) (x : Int) : Bool := t.least ≤ x && x ≤ t.greatest

/-- The word of an integer of a type. -/
def word (t : IntType) (x : Int) : Constant :=
  if t.signed then .ofInt64 (Int64.ofInt x) t.width
  else .ofBits (UInt64.ofNat x.toNat) t.width

def exactly {ρ : Type} (t : IntType) (x : Int) : Make ρ := .lift (t.word x)

def unknown {ρ : Type} (t : IntType) : Make ρ := .any t.width

/-- The integers of a type between two of them. -/
def between {ρ : Type} (t : IntType) (start stop : Int) : Make ρ :=
  if t.signed then .anyRange (Int64.ofInt start) (Int64.ofInt stop) t.width
  else .anyURange (UInt64.ofNat start.toNat) (UInt64.ofNat stop.toNat) t.width

end IntType

def Make.anyBool {ρ : Type} : Make ρ := .anyRange 0 1 1

/-- Add a node for each of some bytes, and answer the handles. -/
def Graph.liftBytes (e : Engine) (bytes : List UInt8) : Action Graph (List Handle) :=
  bytes.mapM fun b => Graph.make e (.lift (.ofBits b.toUInt64 8))

end Narrowing
