/-
Severities of log entries.
-/
namespace Narrowing

/-- The severity of a log entry, mildest first. -/
inductive Severity where
  | debug | info | warn | error | dpanic | panic | fatal
deriving DecidableEq

namespace Severity

def name : Severity → String
  | debug => "debug"
  | info => "info"
  | warn => "warn"
  | error => "error"
  | dpanic => "dpanic"
  | panic => "panic"
  | fatal => "fatal"

def all : List Severity := [debug, info, warn, error, dpanic, panic, fatal]

/-- The rank of a severity; a graver one has a higher rank. -/
def rank : Severity → Nat
  | debug => 0
  | info => 1
  | warn => 2
  | error => 3
  | dpanic => 4
  | panic => 5
  | fatal => 6

/-- Lower case, for the characters whose lower case is a plain letter:
the plain capitals, the dotted capital I and the kelvin sign. -/
def lowerChar (c : Char) : Char :=
  match c.toNat with
  | 0x130 => 'i'
  | 0x212A => 'k'
  | _ => c.toLower

/-- The severity with a given name, in any letter case; no name at all means `info`. -/
def ofName? (name : String) : Option Severity :=
  if name = "" then some info
  else all.find? fun s => s.name.toList == name.toList.map lowerChar

end Severity

end Narrowing
