/-
What a computation notes along the way.

Most events are log entries: each has a severity, a message and fields.
An observation is recorded but not logged.
-/
import Narrowing.Failure
import Narrowing.Severity

namespace Narrowing

/-- The value of a field of a log entry. -/
inductive Field where
  | text (s : String)
  | number (n : Int)
  | numbers (ns : List Int)
deriving DecidableEq

structure Entry where
  severity : Severity
  message : String
  fields : List (String × Field)
deriving DecidableEq

/-- Something noted by a computation or by the exploration of a program. -/
inductive Event where
  /-- the path was found infeasible -/
  | cancelled (reason : String)
  /-- an operator left its operands as they were -/
  | imprecise (domain : String) (op : Tag)
  /-- an operator was carried out in a domain -/
  | dispatch (op : Tag) (domain : Domain)
  /-- the program observed something -/
  | observed (text : String)
  /-- a path came to its end -/
  | explored (choices : List Int) (outcome : Outcome) (fault : Option Fault)
  /-- the budget of paths was used up -/
  | exhausted (paths : Nat)
  /-- the exploration came to its end -/
  | finished (paths : Nat) (count : Outcome → Nat)

namespace Event

/-- The log entry of an event, if it is logged. -/
def entry? : Event → Option Entry
  | cancelled reason => some ⟨.debug, "path cancelled", [("reason", .text reason)]⟩
  | imprecise domain op =>
    some ⟨.warn, "unsupported backward operation",
      [("domain", .text domain), ("op", .text op.name)]⟩
  | dispatch op domain =>
    some ⟨.debug, "dispatch", [("op", .text op.name), ("domain", .text domain.name)]⟩
  | observed _ => none
  | explored choices outcome fault =>
    some ⟨.debug, "path explored",
      [("choices", .numbers choices), ("outcome", .text outcome.name)] ++
      fault.toList.map fun f => ("error", .text f.message)⟩
  | exhausted paths => some ⟨.warn, "path budget exhausted", [("paths", .number paths)]⟩
  | finished paths count =>
    some ⟨.info, "exploration finished",
      ("paths", .number paths) ::
      Outcome.all.map fun o => (o.name, .number (count o))⟩

/-- The text of an observation. -/
def observation? : Event → Option String
  | observed text => some text
  | _ => none

/-- The entries of a list of events that are at least as grave as `floor`. -/
def entriesFrom (floor : Severity) (events : List Event) : List Entry :=
  (events.filterMap entry?).filter fun e => floor.rank ≤ e.severity.rank

end Event

end Narrowing
