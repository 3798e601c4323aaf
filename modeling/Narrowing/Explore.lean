/-
Exploration of all paths.

A program that asks questions is a tree of answers.  It is searched depth
first: each path replays the answers of the one before up to the deepest
question with an alternative left, takes the next alternative there, and
the first alternative at every later question.  A path that asks more than
`maxDepth` questions is cut, and at most `maxPaths` paths are made.

The search itself works on anything that takes turns: `turn` tells, for a
state, what is noted and whether a question or the end comes next.
-/
import Narrowing.ChoiceTree
import Narrowing.Program

namespace Narrowing

/-! ## Search -/

/-- One path of a search. -/
structure Walk (α : Type) where
  /-- the answers given, each with the number of its alternatives -/
  taken : List (Int × Nat)
  /-- the end, or none where the path was cut -/
  ending : Option α
  /-- the events noted -/
  events : List Event

namespace Walk

def choices {α : Type} (w : Walk α) : List Int := w.taken.map Prod.fst

end Walk

namespace Search

variable {σ α : Type}

/-- Walk one path: the replayed answers first, then always 0, with at most `depth` questions. -/
def walk (turn : σ → List Event × Turn σ α) : (depth : Nat) → (replayed : List Int) → σ → Walk α
  | depth, replayed, s =>
    match turn s, depth with
    | (events, .ends a), _ => ⟨[], some a, events⟩
    | (events, .asks _ _), 0 => ⟨[], none, events⟩
    | (events, .asks n reply), depth + 1 =>
      let answer := replayed.headD 0
      let w := walk turn depth replayed.tail (reply answer)
      ⟨(answer, n) :: w.taken, w.ending, events ++ w.events⟩

/-- The answers to replay next: the deepest one with an alternative left is raised and the
later ones are dropped. -/
def advance : List (Int × Nat) → Option (List Int)
  | [] => none
  | (answer, n) :: rest =>
    match advance rest with
    | some later => some (answer :: later)
    | none => if answer + 1 < n then some [answer + 1] else none

/-- Walk path after path, at most `budget` of them, until none is left or one is fatal.  The
second component tells whether the budget ran out. -/
def paths (turn : σ → List Event × Turn σ α) (start : σ) (depth : Nat) (fatal : α → Bool) :
    (budget : Nat) → (replayed : List Int) → List (Walk α) × Bool
  | 0, _ => ([], true)
  | budget + 1, replayed =>
    let w := walk turn depth replayed start
    if w.ending.any fatal then ([w], false)
    else match advance w.taken with
      | none => ([w], false)
      | some next =>
        let (ws, truncated) := paths turn start depth fatal budget next
        (w :: ws, truncated)

end Search

/-! ## Reports -/

/-- How a path ended. -/
structure PathResult where
  /-- the answers given; none for a setup that did not complete -/
  choices : Option (List Int)
  outcome : Outcome
  fault : Option Fault

/-- What the exploration of a program found. -/
structure Report where
  program : String
  paths : List PathResult
  /-- the bindings on which all completed paths agree -/
  common : Option Bindings
  /-- whether paths were left when the budget ran out -/
  truncated : Bool

namespace Report

def empty (program : String) : Report := ⟨program, [], none, false⟩

def count (r : Report) (o : Outcome) : Nat := (r.paths.filter fun p => p.outcome == o).length

/-- The tree of the choices, each path labelled with its outcome. -/
def tree (r : Report) : ChoiceTree :=
  r.paths.foldl (fun t p => t.insert (p.choices.getD []) p.outcome.name) .empty

end Report

/-- Why an exploration was given up. -/
inductive ExploreError where
  /-- the setup of a program asked a question -/
  | setupChoice (program : String)
  /-- the exploration was called off -/
  | interrupted
deriving DecidableEq

namespace ExploreError

def message : ExploreError → String
  | setupChoice program => program ++ ": setup must not make choices"
  | interrupted => "context canceled"

end ExploreError

/-- A report, what was observed, and why the exploration was given up if it was. -/
structure Exploration where
  report : Report
  observedInSetup : List String
  observed : List (List String)
  error : Option ExploreError

/-! ## Programs -/

structure Limits where
  maxDepth : Nat
  maxPaths : Nat

/-- When an exploration is called off: once this many paths are made, or not at all. -/
structure Interrupt where
  after : Option Nat

namespace Interrupt

/-- An exploration that is called off from the start, or not at all. -/
instance : Coe Bool Interrupt := ⟨fun b => ⟨if b then some 0 else none⟩⟩

/-- The number of paths that can be made. -/
def budget (i : Interrupt) (limits : Limits) : Nat :=
  match i.after with
  | none => limits.maxPaths
  | some n => min n limits.maxPaths

/-- Whether the exploration is called off no later than the paths run out. -/
def isWithin (i : Interrupt) (limits : Limits) : Bool := i.after.any (· ≤ limits.maxPaths)

end Interrupt

/-- The end of a walk over a program. -/
abbrev Ending := Except Failure PathState

namespace Explore

def misuse? : Option Ending → Option Misuse
  | some (.error (.misuse m)) => some m
  | _ => none

/-- Whether an end stops the whole exploration. -/
def isFatal (a : Ending) : Bool := (misuse? (some a)).isSome

/-- The outcome of a walk.  A refusal never gets here: it stops the exploration. -/
def outcome : Option Ending → Outcome
  | none => .bounded
  | some (.ok _) => .completed
  | some (.error (.fault _)) => .faulted
  | some (.error _) => .cancelled

def fault? : Option Ending → Option Fault
  | some (.error (.fault f)) => some f
  | _ => none

def bindings? : Option Ending → Option Bindings
  | some (.ok s) => some s.bindings
  | _ => none

def result (w : Walk Ending) : PathResult :=
  ⟨some w.choices, outcome w.ending, fault? w.ending⟩

/-- The events of a walk, and that it came to its end. -/
def pathEvents (w : Walk Ending) : List Event :=
  w.events ++ [.explored w.choices (outcome w.ending) (fault? w.ending)]

/-- The texts observed among some events. -/
def observations (events : List Event) : List String := events.filterMap Event.observation?

def walkBlock (e : Engine) (limits : Limits) (b : Block) (s : PathState) : Walk Ending :=
  Search.walk Dialogue.turn limits.maxDepth [] (b.dialogue e s)

/-- The report on a list of walks. -/
def report (program : String) (walks : List (Walk Ending)) (truncated : Bool) : Report where
  program := program
  paths := walks.map result
  common := (walks.map fun w => bindings? w.ending).foldl Bindings.join? none
  truncated := truncated

/-- Explore from a state on.  Before each path it is seen whether the exploration was called off,
and then whether the budget is used up. -/
def exploreFrom {σ : Type} (turn : σ → List Event × Turn σ Ending) (start : σ) (limits : Limits)
    (interrupt : Interrupt) (name : String) (observedInSetup : List String) :
    List Event × Except Misuse Exploration :=
  let (walks, unfinished) :=
    Search.paths turn start limits.maxDepth isFatal (interrupt.budget limits) []
  match walks.findSome? fun w => misuse? w.ending with
  | some m =>
    let finished := walks.takeWhile fun w => (misuse? w.ending).isNone
    let rest := walks.drop finished.length
    (finished.flatMap pathEvents ++ rest.flatMap Walk.events, .error m)
  | none =>
    let calledOff := unfinished && interrupt.isWithin limits
    let truncated := unfinished && !interrupt.isWithin limits
    let r := report name walks truncated
    let closing :=
      if calledOff then []
      else (if truncated then [.exhausted r.paths.length] else []) ++
        [.finished r.paths.length r.count]
    (walks.flatMap pathEvents ++ closing,
      .ok ⟨r, observedInSetup, walks.map fun w => observations w.events,
        if calledOff then some .interrupted else none⟩)

/-- Explore a body after a setup, which must not have asked; where the setup did not complete,
it is the only path. -/
def runAfter {σ : Type} (setup : Walk Ending) (turn : σ → List Event × Turn σ Ending)
    (body : PathState → σ) (limits : Limits) (interrupt : Interrupt) (name : String) :
    List Event × Except Misuse Exploration :=
  let seen := observations setup.events
  let giveUp (r : Report) (error : Option ExploreError) : Except Misuse Exploration :=
    .ok ⟨r, seen, [], error⟩
  match misuse? setup.ending with
  | some m => (setup.events, .error m)
  | none =>
    if !setup.taken.isEmpty then
      (setup.events, giveUp (.empty name) (some (.setupChoice name)))
    else match setup.ending with
      | some (.ok s) =>
        let (events, r) := exploreFrom turn (body s) limits interrupt name seen
        (setup.events ++ events, r)
      | ending =>
        (setup.events,
          giveUp ⟨name, [⟨none, outcome ending, fault? ending⟩], none, false⟩ none)

/-- Explore a program.  The setup runs once. -/
def run (e : Engine) (limits : Limits) (interrupt : Interrupt) (p : Program) :
    List Event × Except Misuse Exploration :=
  runAfter (walkBlock e limits (p.setup.getD .done) .empty) Dialogue.turn (p.body.dialogue e)
    limits interrupt p.name

end Explore

end Narrowing
