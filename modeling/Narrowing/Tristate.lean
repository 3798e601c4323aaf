/-
Three-valued truth.

A truth value is false, true, or undetermined.  `invalid` is a value that
came from outside and is none of the three; it is never definite, and the
connectives read it as undetermined, but it can be told apart by `eq`.
-/
import Narrowing.Eval

namespace Narrowing

/-- A truth value that may be undetermined. -/
inductive Tristate where
  | no
  | yes
  | maybe
  | invalid
deriving DecidableEq

namespace Tristate

def ofBool : Bool → Tristate
  | true => yes
  | false => no

def name : Tristate → String
  | no => "false"
  | yes => "true"
  | maybe => "maybe"
  | invalid => "invalid"

def ofName? (name : String) : Option Tristate :=
  [no, yes, maybe, invalid].find? fun t => t.name == name

def ofCode : Nat → Tristate
  | 0 => no
  | 1 => yes
  | 2 => maybe
  | _ => invalid

/-- Negation; an undetermined value stays so. -/
def not : Tristate → Tristate
  | no => yes
  | yes => no
  | maybe | invalid => maybe

/-- Conjunction: false as soon as one side is false. -/
def and : Tristate → Tristate → Tristate
  | no, _ => no
  | _, no => no
  | yes, yes => yes
  | _, _ => maybe

/-- Disjunction: true as soon as one side is true. -/
def or : Tristate → Tristate → Tristate
  | yes, _ => yes
  | _, yes => yes
  | no, no => no
  | _, _ => maybe

/-- Agreement of two truth values; undetermined when one of them is. -/
def eq (s t : Tristate) : Tristate :=
  if s = maybe ∨ t = maybe then maybe else ofBool (s = t)

/-- The negation of agreement. -/
def ne (s t : Tristate) : Tristate := (s.eq t).not

/-- Settle on a boolean, asking when the value is not definite. -/
def lower : Tristate → Eval Bool
  | yes => pure true
  | no => pure false
  | maybe | invalid => do return (← Eval.choose 2) == 1

end Tristate

end Narrowing
