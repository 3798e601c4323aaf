/-
Dialogues: computations that ask questions.

A computation that may need a decision is a tree.  It is done with a
result, it notes an event and goes on, or it asks which of `n`
alternatives to take and goes on with the reply.  Nothing else happens
inside a dialogue, so what it can do is read off the tree: the answers
that lead to a result, the questions on the way, the events noted.

A reply is any integer: the tree itself says what becomes of a reply
outside the alternatives.
-/
import Narrowing.Event

namespace Narrowing

/-- A computation that may ask questions and note events. -/
inductive Dialogue (α : Type) where
  /-- the result is there -/
  | done (result : α)
  /-- an event is noted -/
  | note (event : Event) (rest : Dialogue α)
  /-- one of `n` alternatives is to be chosen -/
  | ask (n : Nat) (reply : Int → Dialogue α)

/-- What comes next: the end, or a question and what each reply leads to. -/
inductive Turn (σ α : Type) where
  | ends (result : α)
  | asks (n : Nat) (reply : Int → σ)

/-- The record of a dialogue held against a list of answers. -/
structure Played (α : Type) where
  /-- the result -/
  result : α
  /-- the answers that were not used -/
  unused : List Int
  /-- the number of alternatives of each question, in order -/
  asked : List Nat
  /-- the events noted, in order -/
  events : List Event

namespace Dialogue

/-- Continue with `f` wherever a dialogue is done. -/
def bind {α β : Type} : Dialogue α → (α → Dialogue β) → Dialogue β
  | done a, f => f a
  | note e rest, f => note e (rest.bind f)
  | ask n reply, f => ask n fun v => (reply v).bind f

instance : Monad Dialogue where
  pure := done
  bind := bind

/-- Everything noted up to the next question or the end. -/
def turn {α : Type} : Dialogue α → List Event × Turn (Dialogue α) α
  | done a => ([], .ends a)
  | note e rest => (e :: rest.turn.1, rest.turn.2)
  | ask n reply => ([], .asks n reply)

/-- Hold a dialogue against a list of answers; once these are used up every answer is 0. -/
def play {α : Type} : Dialogue α → List Int → Played α
  | done a, answers => ⟨a, answers, [], []⟩
  | note e rest, answers =>
    let p := rest.play answers
    { p with events := e :: p.events }
  | ask n reply, answers =>
    let p := (reply (answers.headD 0)).play answers.tail
    { p with asked := n :: p.asked }

@[simp] theorem pure_eq {α : Type} (a : α) : (pure a : Dialogue α) = done a := rfl

@[simp] theorem bind_eq {α β : Type} (d : Dialogue α) (f : α → Dialogue β) :
    d >>= f = d.bind f := rfl

theorem bind_done {α : Type} (d : Dialogue α) : d.bind done = d := by
  induction d with
  | done a => rfl
  | note e rest ih => simp [bind, ih]
  | ask n reply ih => simp [bind, ih]

theorem bind_assoc {α β γ : Type} (d : Dialogue α) (f : α → Dialogue β) (g : β → Dialogue γ) :
    (d.bind f).bind g = d.bind fun a => (f a).bind g := by
  induction d with
  | done a => rfl
  | note e rest ih => simp [bind, ih]
  | ask n reply ih => simp [bind, ih]

instance : LawfulMonad Dialogue :=
  LawfulMonad.mk' Dialogue bind_done (fun _ _ => rfl) bind_assoc

end Dialogue

end Narrowing
