/-
What a dialogue can and must come to.

A dialogue is a tree of questions, and there are two things to say about it:
that some answers lead to a wanted result (`Can`), and that all answers do
(`All`).  Both are relative to a rule that says which replies a question with
`n` alternatives admits.  Three rules are in use:

    inRange    one of the alternatives
    explored   one of the alternatives, or the first reply 0 in any case
    anything   every integer at all

Both statements go through `bind`, so a computation is taken apart in the order
in which it is written, and both are related to the scripted view `play`: a list
of answers is one way through the tree.

The second half carries `Can` and `All` over to evaluations and actions, where
a failure ends the computation.
-/
import Narrowing.Eval
import Mathlib.Data.List.Forall2

namespace Narrowing

/-- Which replies a question with `n` alternatives admits. -/
abbrev ReplyRule := Nat → Int → Prop

namespace ReplyRule

/-- One of the alternatives. -/
def inRange : ReplyRule := fun n v => 0 ≤ v ∧ v < n

/-- One of the alternatives, or the first reply whether or not it is one. -/
def explored : ReplyRule := fun n v => v = 0 ∨ inRange n v

/-- Every integer. -/
def anything : ReplyRule := fun _ _ => True

end ReplyRule

namespace Dialogue

variable {α β : Type} {R : ReplyRule} {P Q : α → Prop}

/-- Every way through the dialogue leads to a result with `P`. -/
def All (R : ReplyRule) (P : α → Prop) : Dialogue α → Prop
  | done a => P a
  | note _ rest => rest.All R P
  | ask n reply => ∀ v, R n v → (reply v).All R P

/-- Some way through the dialogue leads to a result with `P`. -/
def Can (R : ReplyRule) (P : α → Prop) : Dialogue α → Prop
  | done a => P a
  | note _ rest => rest.Can R P
  | ask n reply => ∃ v, R n v ∧ (reply v).Can R P

/-! ## Taking a dialogue apart -/

theorem all_bind {f : α → Dialogue β} {P : β → Prop} (d : Dialogue α) :
    (d.bind f).All R P ↔ d.All R fun a => (f a).All R P := by
  induction d with
  | done a => exact Iff.rfl
  | note e rest ih => exact ih
  | ask n reply ih => exact forall_congr' fun v => imp_congr Iff.rfl (ih v)

theorem can_bind {f : α → Dialogue β} {P : β → Prop} (d : Dialogue α) :
    (d.bind f).Can R P ↔ d.Can R fun a => (f a).Can R P := by
  induction d with
  | done a => exact Iff.rfl
  | note e rest ih => exact ih
  | ask n reply ih => exact exists_congr fun v => and_congr Iff.rfl (ih v)

theorem All.mono {d : Dialogue α} (h : d.All R P) (hPQ : ∀ a, P a → Q a) : d.All R Q := by
  induction d with
  | done a => exact hPQ a h
  | note e rest ih => exact ih h
  | ask n reply ih => exact fun v hv => ih v (h v hv)

theorem Can.mono {d : Dialogue α} (h : d.Can R P) (hPQ : ∀ a, P a → Q a) : d.Can R Q := by
  induction d with
  | done a => exact hPQ a h
  | note e rest ih => exact ih h
  | ask n reply ih =>
      obtain ⟨v, hv, hd⟩ := h
      exact ⟨v, hv, ih v hd⟩

theorem all_of_forall (h : ∀ a, P a) (d : Dialogue α) : d.All R P := by
  induction d with
  | done a => exact h a
  | note e rest ih => exact ih
  | ask n reply ih => exact fun v _ => ih v

theorem All.and {d : Dialogue α} (hP : d.All R P) (hQ : d.All R Q) :
    d.All R fun a => P a ∧ Q a := by
  induction d with
  | done a => exact ⟨hP, hQ⟩
  | note e rest ih => exact ih hP hQ
  | ask n reply ih => exact fun v hv => ih v (hP v hv) (hQ v hv)

/-- What holds on every way holds on one that exists; the rule for `All` may be the wider. -/
theorem Can.and_all {R' : ReplyRule} (hR : ∀ n v, R n v → R' n v) {d : Dialogue α}
    (hP : d.Can R P) (hQ : d.All R' Q) : d.Can R fun a => P a ∧ Q a := by
  induction d with
  | done a => exact ⟨hP, hQ⟩
  | note e rest ih => exact ih hP hQ
  | ask n reply ih =>
      obtain ⟨v, hv, hd⟩ := hP
      exact ⟨v, hv, ih v hd (hQ v (hR n v hv))⟩

/-- The way on which every reply is 0 is explored, so what holds on all explored ways holds
somewhere. -/
theorem All.exists_of_explored {d : Dialogue α} (h : d.All .explored P) : ∃ a, P a := by
  induction d with
  | done a => exact ⟨a, h⟩
  | note e rest ih => exact ih h
  | ask n reply ih => exact ih 0 (h 0 (Or.inl rfl))

/-- Two continuations that agree on every result there can be. -/
theorem bind_congr_of_all {f f' : α → Dialogue β} {d : Dialogue α}
    (h : d.All .anything fun a => f a = f' a) : d.bind f = d.bind f' := by
  induction d with
  | done a => exact h
  | note e rest ih => exact congrArg (note e) (ih h)
  | ask n reply ih => exact congrArg (ask n) (funext fun v => ih v (h v trivial))

/-- Every question on every way has `P` of the number of its alternatives. -/
def Asks (P : Nat → Prop) : Dialogue α → Prop
  | done _ => True
  | note _ rest => rest.Asks P
  | ask n reply => P n ∧ ∀ v, (reply v).Asks P

theorem Asks.bind {P : Nat → Prop} {f : α → Dialogue β} {d : Dialogue α} (hd : d.Asks P)
    (hf : ∀ a, (f a).Asks P) : (d.bind f).Asks P := by
  induction d with
  | done a => exact hf a
  | note e rest ih => exact ih hd
  | ask n reply ih => exact ⟨hd.1, fun v => ih v (hd.2 v)⟩

theorem Asks.mono {P P' : Nat → Prop} {d : Dialogue α} (hd : d.Asks P) (h : ∀ n, P n → P' n) :
    d.Asks P' := by
  induction d with
  | done a => trivial
  | note e rest ih => exact ih hd
  | ask n reply ih => exact ⟨h n hd.1, fun v => ih v (hd.2 v)⟩

/-! ## The scripted view -/

theorem Asks.of_play {P : Nat → Prop} {d : Dialogue α} (hd : d.Asks P) (answers : List Int) :
    ∀ n ∈ (d.play answers).asked, P n := by
  induction d generalizing answers with
  | done a => exact nofun
  | note e rest ih => exact ih hd answers
  | ask n reply ih => exact List.forall_mem_cons.mpr ⟨hd.1, ih _ (hd.2 _) _⟩

/-- Answers that fit the questions they were given to, one to one. -/
def Fit (R : ReplyRule) (answers : List Int) (asked : List Nat) : Prop :=
  List.Forall₂ (fun v n => R n v) answers asked

theorem all_play {d : Dialogue α} (h : d.All .anything P) (answers : List Int) :
    P (d.play answers).result := by
  induction d generalizing answers with
  | done a => exact h
  | note e rest ih => exact ih h answers
  | ask n reply ih => exact ih _ (h _ trivial) _

/-- What holds on every way holds on the one that fitting answers lead along. -/
theorem All.of_fit {d : Dialogue α} (h : d.All R P) {answers : List Int}
    (hfit : Fit R answers (d.play answers).asked) : P (d.play answers).result := by
  induction d generalizing answers with
  | done a => exact h
  | note e rest ih => exact ih h hfit
  | ask n reply ih =>
      cases hfit with
      | cons hv hrest => exact ih _ (h _ hv) hrest

theorem all_of_play {d : Dialogue α}
    (h : ∀ answers, Fit R answers (d.play answers).asked → P (d.play answers).result) :
    d.All R P := by
  induction d with
  | done a => exact h [] .nil
  | note e rest ih => exact ih h
  | ask n reply ih =>
      exact fun v hv => ih v fun answers hfit => h (v :: answers) (.cons hv hfit)

theorem play_map (f : α → β) (d : Dialogue α) (answers : List Int) :
    (d.bind fun a => done (f a)).play answers =
      ⟨f (d.play answers).result, (d.play answers).unused, (d.play answers).asked,
        (d.play answers).events⟩ := by
  induction d generalizing answers with
  | done a => rfl
  | note e rest ih => simp only [bind, play, ih]
  | ask n reply ih => simp only [bind, play, ih]

theorem can_iff_play {d : Dialogue α} :
    d.Can R P ↔ ∃ answers, Fit R answers (d.play answers).asked ∧ P (d.play answers).result := by
  induction d with
  | done a =>
      constructor
      · intro h
        exact ⟨[], .nil, h⟩
      · rintro ⟨_, _, h⟩
        exact h
  | note e rest ih => exact ih
  | ask n reply ih =>
      constructor
      · rintro ⟨v, hv, hd⟩
        obtain ⟨answers, hfit, hP⟩ := (ih v).mp hd
        exact ⟨v :: answers, .cons hv hfit, hP⟩
      · rintro ⟨answers, hfit, hP⟩
        cases hfit with
        | cons hv hrest => exact ⟨_, hv, (ih _).mpr ⟨_, hrest, hP⟩⟩

end Dialogue

/-! ## Evaluations

`Can` asks for a result and not only for the absence of a wrong one: an
evaluation that always fails can do nothing.  `Sure` is its counterpart for all
answers, and says nothing where there is no result.  `Ends` says both: what holds
of a result, and what of a failure.  `Always` allows no failure, as long as every
answer is one of the alternatives. -/

namespace Eval

variable {α β : Type} {Q : α → Prop}

/-- In-range answers exist under which the evaluation returns a result with `Q`. -/
def Can (Q : α → Prop) (e : Eval α) : Prop :=
  Dialogue.Can .inRange (fun r => ∃ a, r = .ok a ∧ Q a) e.run

/-- Whatever is answered, a result has `Q`. -/
def Sure (Q : α → Prop) (e : Eval α) : Prop :=
  Dialogue.All .anything (fun r => ∀ a, r = .ok a → Q a) e.run

/-- A result has `Q`, and a failure has `E`. -/
def Meets (Q : α → Prop) (E : Failure → Prop) : Except Failure α → Prop
  | .ok a => Q a
  | .error err => E err

/-- Whatever is answered, a result has `Q` and a failure has `E`. -/
def Ends (Q : α → Prop) (E : Failure → Prop) (e : Eval α) : Prop :=
  Dialogue.All .anything (Meets Q E) e.run

theorem Can.mono {Q' : α → Prop} {e : Eval α} (h : Can Q e) (hQ : ∀ a, Q a → Q' a) :
    Can Q' e :=
  Dialogue.Can.mono h fun _ ⟨a, ha, hq⟩ => ⟨a, ha, hQ a hq⟩

theorem Sure.mono {Q' : α → Prop} {e : Eval α} (h : Sure Q e) (hQ : ∀ a, Q a → Q' a) :
    Sure Q' e :=
  Dialogue.All.mono h fun _ hr a ha => hQ a (hr a ha)

theorem Sure.and {Q' : α → Prop} {e : Eval α} (h : Sure Q e) (h' : Sure Q' e) :
    Sure (fun a => Q a ∧ Q' a) e :=
  Dialogue.All.mono (Dialogue.All.and h h') fun _ hr a ha => ⟨hr.1 a ha, hr.2 a ha⟩

theorem sure_of_forall (h : ∀ a, Q a) (e : Eval α) : Sure Q e :=
  Dialogue.all_of_forall (fun _ a _ => h a) e.run

theorem can_pure {a : α} (h : Q a) : Can Q (pure a) := ⟨a, rfl, h⟩

theorem sure_pure {a : α} (h : Q a) : Sure Q (pure a) := fun _ hb => Except.ok.inj hb ▸ h

theorem sure_pure_iff {a : α} : Sure Q (pure a) ↔ Q a := ⟨fun h => h a rfl, sure_pure⟩

theorem can_bind {e : Eval α} {f : α → Eval β} {Q : β → Prop}
    (h : Can (fun a => Can Q (f a)) e) : Can Q (e >>= f) := by
  show Dialogue.Can _ _ (Dialogue.bind e.run _)
  rw [Dialogue.can_bind]
  refine Dialogue.Can.mono h ?_
  rintro _ ⟨a, rfl, hf⟩
  exact hf

theorem sure_bind {e : Eval α} {f : α → Eval β} {Q : β → Prop}
    (h : Sure (fun a => Sure Q (f a)) e) : Sure Q (e >>= f) := by
  show Dialogue.All _ _ (Dialogue.bind e.run _)
  rw [Dialogue.all_bind]
  refine Dialogue.All.mono h ?_
  intro r hr
  cases r with
  | ok a => exact hr a rfl
  | error x => exact fun b hb => nomatch hb

theorem sure_map {f : α → β} {Q : β → Prop} (h : ∀ a, Q (f a)) (e : Eval α) :
    Sure Q (do return f (← e)) := by
  refine sure_bind (sure_of_forall (fun a => ?_) e)
  exact sure_pure (h a)

theorem can_choose {n : Int} {Q : Nat → Prop} {i : Nat} (hi : (i : Int) < n) (h : Q i) :
    Can Q (choose n) := by
  unfold choose
  rw [if_neg (by omega)]
  by_cases h1 : n = 1
  · rw [if_pos h1]
    obtain rfl : i = 0 := by omega
    exact can_pure h
  · rw [if_neg h1]
    refine ⟨i, ⟨by omega, by omega⟩, i, ?_, h⟩
    show (if 0 ≤ (i : Int) ∧ (i : Int) < n then _ else _) = _
    rw [if_pos ⟨by omega, hi⟩]
    rfl

theorem can_note {x : Event} {Q : Unit → Prop} (h : Q ()) : Can Q (note x) := ⟨(), rfl, h⟩

theorem sure_note {x : Event} {Q : Unit → Prop} (h : Q ()) : Sure Q (note x) := fun _ _ => h

theorem sure_cancel {reason : String} : Sure Q (cancel reason) := fun _ h => nomatch h

theorem sure_fault {op : String} {cause : Defect} : Sure Q (fault op cause) := fun _ h => nomatch h

theorem sure_misuse {m : Misuse} : Sure Q (misuse m) := fun _ h => nomatch h

section Ends

variable {E : Failure → Prop} {e : Eval α}

theorem Meets.exists_ok {r : Except Failure α} (h : Meets Q (fun _ => False) r) :
    ∃ a, r = .ok a ∧ Q a := by
  cases r with
  | ok a => exact ⟨a, rfl, h⟩
  | error err => exact h.elim

theorem Meets.exists_error {r : Except Failure α} (h : Meets (fun _ => False) E r) :
    ∃ err, r = .error err ∧ E err := by
  cases r with
  | ok a => exact h.elim
  | error err => exact ⟨err, rfl, h⟩

theorem Ends.mono {Q' : α → Prop} {E' : Failure → Prop} (h : Ends Q E e) (hQ : ∀ a, Q a → Q' a)
    (hE : ∀ err, E err → E' err) : Ends Q' E' e := by
  refine Dialogue.All.mono h ?_
  rintro (err | a) hr
  · exact hE err hr
  · exact hQ a hr

theorem Ends.imp {Q' : α → Prop} (h : Ends Q E e) (hQ : ∀ a, Q a → Q' a) : Ends Q' E e :=
  h.mono hQ fun _ => id

theorem Ends.and {Q' : α → Prop} {E' : Failure → Prop} (h : Ends Q E e) (h' : Ends Q' E' e) :
    Ends (fun a => Q a ∧ Q' a) (fun err => E err ∧ E' err) e := by
  refine Dialogue.All.mono (Dialogue.All.and h h') ?_
  rintro (err | a) hr
  · exact hr
  · exact hr

theorem Ends.sure (h : Ends Q E e) : Sure Q e := by
  refine Dialogue.All.mono h ?_
  rintro _ hr a rfl
  exact hr

theorem Sure.ends (h : Sure Q e) : Ends Q (fun _ => True) e := by
  refine Dialogue.All.mono h ?_
  rintro (err | a) hr
  · trivial
  · exact hr a rfl

theorem ends_pure {a : α} (h : Q a) : Ends Q E (pure a) := h

theorem ends_bind {f : α → Eval β} {Q : β → Prop} (h : Ends (fun a => Ends Q E (f a)) E e) :
    Ends Q E (e >>= f) := by
  show Dialogue.All _ _ (Dialogue.bind e.run _)
  rw [Dialogue.all_bind]
  refine Dialogue.All.mono h ?_
  rintro (err | a) hr
  · exact hr
  · exact hr

theorem ends_note {x : Event} {Q : Unit → Prop} (h : Q ()) : Ends Q E (note x) := h

theorem ends_cancel {reason : String} (h : E .cancelled) : Ends Q E (cancel reason) := h

theorem ends_fault {op : String} {cause : Defect} (h : E (.fault ⟨op, cause⟩)) :
    Ends Q E (fault op cause) := h

theorem ends_misuse {m : Misuse} (h : E (.misuse m)) : Ends Q E (misuse m) := h

theorem ends_choose {n : Int} {Q : Nat → Prop} (hQ : ∀ i : Nat, (i : Int) < n → Q i)
    (hnone : n ≤ 0 → E (.misuse (.noAlternatives n)))
    (hrange : ∀ v k, E (.misuse (.answerOutOfRange v k))) : Ends Q E (choose n) := by
  unfold choose
  split
  · exact ends_misuse (hnone ‹_›)
  split
  · exact ends_pure (hQ 0 (by omega))
  · intro v _
    show Meets Q E (if _ then _ else _)
    split
    · exact hQ v.toNat (by omega)
    · exact hrange v n.toNat

/-- The outcome that a list of answers leads to. -/
theorem Ends.of_play (h : Ends Q E e) (answers : List Int) :
    Meets Q E (e.run.play answers).result := Dialogue.all_play h answers

end Ends

section Always

/-- Whichever alternatives are picked, the evaluation returns, with `Q` of the result. -/
def Always (Q : α → Prop) (e : Eval α) : Prop :=
  Dialogue.All .inRange (Meets Q fun _ => False) e.run

theorem Always.mono {Q' : α → Prop} {e : Eval α} (h : Always Q e) (hQ : ∀ a, Q a → Q' a) :
    Always Q' e := by
  refine Dialogue.All.mono h ?_
  rintro (err | a) hr
  · exact hr
  · exact hQ a hr

theorem always_pure {a : α} (h : Q a) : Always Q (pure a) := h

theorem always_bind {e : Eval α} {f : α → Eval β} {Q : β → Prop}
    (h : Always (fun a => Always Q (f a)) e) : Always Q (e >>= f) := by
  show Dialogue.All _ _ (Dialogue.bind e.run _)
  rw [Dialogue.all_bind]
  refine Dialogue.All.mono h ?_
  rintro (err | a) hr
  · exact hr.elim
  · exact hr

theorem always_choose {n : Int} {Q : Nat → Prop} (hn : 1 ≤ n)
    (hQ : ∀ i : Nat, (i : Int) < n → Q i) : Always Q (choose n) := by
  unfold choose
  rw [if_neg (by omega)]
  split
  · exact always_pure (hQ 0 (by omega))
  · rintro v ⟨h0, hlt⟩
    show Meets Q _ (if _ then _ else _)
    rw [if_pos ⟨h0, by omega⟩]
    exact hQ v.toNat (by omega)

end Always

/-- Answers that lead to a wanted result, each of them one of the alternatives. -/
theorem Can.exists_answers {e : Eval α} (h : Can Q e) : ∃ answers,
    Dialogue.Fit .inRange answers (e.run.play answers).asked ∧
      ∃ a, (e.run.play answers).result = .ok a ∧ Q a :=
  Dialogue.can_iff_play.mp h

theorem Sure.of_play {e : Eval α} (h : Sure Q e) {answers : List Int} {a : α}
    (ha : (e.run.play answers).result = .ok a) : Q a :=
  Dialogue.all_play h answers a ha

theorem bind_congr_of_sure {e : Eval α} {f f' : α → Eval β} (h : Sure (fun a => f a = f' a) e) :
    e >>= f = e >>= f' := by
  refine Dialogue.bind_congr_of_all (Dialogue.All.mono h ?_)
  intro r hr
  cases r with
  | ok a => exact hr a rfl
  | error err => rfl

section Asks

variable {P : Nat → Prop}

/-- Every question of the evaluation has `P` of the number of its alternatives. -/
def Asks (P : Nat → Prop) (e : Eval α) : Prop := Dialogue.Asks P e.run

theorem asks_pure {a : α} : Asks P (pure a : Eval α) := trivial

theorem asks_cancel {reason : String} : Asks P (cancel reason : Eval α) := trivial

theorem asks_note {x : Event} : Asks P (note x) := trivial

theorem Asks.mono {P' : Nat → Prop} {e : Eval α} (h : Asks P e) (hP : ∀ n, P n → P' n) :
    Asks P' e :=
  Dialogue.Asks.mono h hP

theorem asks_bind {e : Eval α} {f : α → Eval β} (he : Asks P e) (hf : ∀ a, Asks P (f a)) :
    Asks P (e >>= f) := by
  refine Dialogue.Asks.bind he ?_
  intro r
  cases r with
  | ok a => exact hf a
  | error err => trivial

theorem asks_choose {n : Int} (h : 2 ≤ n → P n.toNat) : Asks P (choose n) := by
  unfold choose
  split
  · trivial
  split
  · trivial
  · exact ⟨h (by omega), fun _ => trivial⟩

theorem Asks.of_play {e : Eval α} (h : Asks P e) (answers : List Int) :
    ∀ n ∈ (e.run.play answers).asked, P n :=
  Dialogue.Asks.of_play h answers

end Asks

end Eval

/-! ## Actions

The state an action has reached stays visible when it fails, so `All` speaks
about the outcome as a whole. -/

namespace Action

variable {σ α β : Type}

/-- In-range answers exist under which the action returns, with `Q` of the result and the
state. -/
def Can (Q : α → σ → Prop) (act : Action σ α) (s : σ) : Prop :=
  Dialogue.Can .inRange (fun x => ∃ a, x.1 = .ok a ∧ Q a x.2) (act.run s)

/-- Under all replies of a rule the action ends, well or badly, with `Q` of the outcome and
the state. -/
def All (R : ReplyRule) (Q : Except Failure α → σ → Prop) (act : Action σ α) (s : σ) : Prop :=
  Dialogue.All R (fun x => Q x.1 x.2) (act.run s)

/-- Whatever is answered, the action returns with `Q` or fails with `E`. -/
def Ends (Q : α → σ → Prop) (E : Failure → σ → Prop) (act : Action σ α) (s : σ) : Prop :=
  All .anything (fun r s' => Eval.Meets (fun a => Q a s') (fun err => E err s') r) act s

variable {R : ReplyRule} {s : σ}

theorem Can.mono {Q Q' : α → σ → Prop} {act : Action σ α} (h : Can Q act s)
    (hQ : ∀ a s', Q a s' → Q' a s') : Can Q' act s :=
  Dialogue.Can.mono h fun x ⟨a, ha, hq⟩ => ⟨a, ha, hQ a x.2 hq⟩

theorem All.mono {Q Q' : Except Failure α → σ → Prop} {act : Action σ α} (h : All R Q act s)
    (hQ : ∀ r s', Q r s' → Q' r s') : All R Q' act s :=
  Dialogue.All.mono h fun x hx => hQ x.1 x.2 hx

theorem run_bind (act : Action σ α) (f : α → Action σ β) :
    (act >>= f).run s = Dialogue.bind (act.run s) fun x =>
      match x.1 with
      | .ok a => (f a).run x.2
      | .error err => .done (.error err, x.2) := by
  show Dialogue.bind _ _ = Dialogue.bind _ _
  congr 1
  funext ⟨r, s'⟩
  cases r <;> rfl

theorem can_pure {Q : α → σ → Prop} {a : α} (h : Q a s) : Can Q (pure a) s := ⟨a, rfl, h⟩

theorem all_pure {Q : Except Failure α → σ → Prop} {a : α} (h : Q (.ok a) s) :
    All R Q (pure a) s := h

theorem can_bind {Q : β → σ → Prop} {act : Action σ α} {f : α → Action σ β}
    (h : Can (fun a s' => Can Q (f a) s') act s) : Can Q (act >>= f) s := by
  unfold Can
  rw [run_bind, Dialogue.can_bind]
  refine Dialogue.Can.mono h ?_
  rintro ⟨r, s'⟩ ⟨a, rfl, hf⟩
  exact hf

/-- A sequence: the first part may fail, and the second starts where it ended. -/
theorem all_bind {Q : Except Failure β → σ → Prop} {act : Action σ α} {f : α → Action σ β} :
    All R Q (act >>= f) s ↔
      All R (fun r s' => match r with
        | .ok a => All R Q (f a) s'
        | .error err => Q (.error err) s') act s := by
  unfold All
  rw [run_bind, Dialogue.all_bind]
  refine ⟨fun h => h.mono ?_, fun h => h.mono ?_⟩ <;>
  · rintro ⟨r, s'⟩ hx
    cases r <;> exact hx

theorem can_get {Q : σ → σ → Prop} (h : Q s s) : Can Q get s := ⟨s, rfl, h⟩

theorem all_get {Q : Except Failure σ → σ → Prop} (h : Q (.ok s) s) : All R Q get s := h

theorem can_modify {f : σ → σ} {Q : PUnit → σ → Prop} (h : Q ⟨⟩ (f s)) : Can Q (modify f) s :=
  ⟨⟨⟩, rfl, h⟩

theorem all_modify {f : σ → σ} {Q : Except Failure PUnit → σ → Prop} (h : Q (.ok ⟨⟩) (f s)) :
    All R Q (modify f) s := h

theorem can_lift {e : Eval α} {Q : α → σ → Prop} (h : e.Can fun a => Q a s) :
    Can Q (liftM e : Action σ α) s := by
  show Dialogue.Can _ _ (Dialogue.bind e.run _)
  rw [Dialogue.can_bind]
  refine Dialogue.Can.mono h ?_
  rintro _ ⟨a, rfl, hq⟩
  exact ⟨a, rfl, hq⟩

theorem all_lift {e : Eval α} {Q : Except Failure α → σ → Prop} :
    All R Q (liftM e : Action σ α) s ↔ Dialogue.All R (fun r => Q r s) e.run :=
  Dialogue.all_bind _

theorem can_within {τ : Type} {part : τ → σ} {put : σ → τ → τ} {act : Action σ α} {t : τ}
    {Q : α → τ → Prop} (h : act.Can (fun a s => Q a (put s t)) (part t)) :
    Can Q (within part put act) t := by
  show Dialogue.Can _ _ (Dialogue.bind (act.run (part t)) _)
  rw [Dialogue.can_bind]
  refine Dialogue.Can.mono h ?_
  rintro ⟨_, s⟩ ⟨a, rfl, hq⟩
  exact ⟨a, rfl, hq⟩

theorem all_within {τ : Type} {part : τ → σ} {put : σ → τ → τ} {act : Action σ α} {t : τ}
    {Q : Except Failure α → τ → Prop} :
    All R Q (within part put act) t ↔ act.All R (fun r s => Q r (put s t)) (part t) :=
  Dialogue.all_bind _

/-- An evaluation that returns whatever is picked, and what follows it. -/
theorem all_lift_always {e : Eval α} {f : α → Action σ β} {P : α → Prop}
    {Q : Except Failure β → σ → Prop} (he : e.Always P)
    (hf : ∀ a, P a → All .inRange Q (f a) s) :
    All .inRange Q ((liftM e : Action σ α) >>= f) s := by
  refine all_bind.mpr (all_lift.mpr (Dialogue.All.mono he ?_))
  rintro (err | a) hr
  · exact hr.elim
  · exact hf a hr

section Ends

variable {Q : α → σ → Prop} {E : Failure → σ → Prop} {act : Action σ α}

theorem Ends.mono {Q' : α → σ → Prop} {E' : Failure → σ → Prop} (h : Ends Q E act s)
    (hQ : ∀ a s', Q a s' → Q' a s') (hE : ∀ err s', E err s' → E' err s') : Ends Q' E' act s := by
  refine All.mono h ?_
  rintro (err | a) s' hr
  · exact hE err s' hr
  · exact hQ a s' hr

theorem ends_pure {a : α} (h : Q a s) : Ends Q E (pure a) s := h

theorem ends_bind {Q : β → σ → Prop} {f : α → Action σ β}
    (h : Ends (fun a s' => Ends Q E (f a) s') E act s) : Ends Q E (act >>= f) s := by
  refine all_bind.mpr (All.mono h ?_)
  rintro (err | a) s' hr
  · exact hr
  · exact hr

theorem ends_get {Q : σ → σ → Prop} (h : Q s s) : Ends Q E get s := h

theorem ends_modify {f : σ → σ} {Q : PUnit → σ → Prop} (h : Q ⟨⟩ (f s)) : Ends Q E (modify f) s := h

theorem ends_misuse {m : Misuse} (h : E (.misuse m) s) : Ends Q E (misuse m) s := h

theorem ends_lift {e : Eval α} (h : e.Ends (fun a => Q a s) fun err => E err s) :
    Ends Q E (liftM e : Action σ α) s := all_lift.mpr h

theorem ends_within {τ : Type} {part : τ → σ} {put : σ → τ → τ} {act : Action σ α} {t : τ}
    {Q : α → τ → Prop} {E : Failure → τ → Prop}
    (h : act.Ends (fun a s => Q a (put s t)) (fun err s => E err (put s t)) (part t)) :
    Ends Q E (within part put act) t := all_within.mpr h

theorem Ends.meets (h : Ends Q E act s) (answers : List Int) :
    Eval.Meets (fun a => Q a ((act.run s).play answers).result.2)
      (fun err => E err ((act.run s).play answers).result.2)
      ((act.run s).play answers).result.1 := Dialogue.all_play h answers

/-- What every outcome of an action says of its state, said of the outcome of one list of
answers. -/
theorem Ends.of_play {I : σ → Prop} (h : Ends (fun _ => I) (fun _ => I) act s)
    (answers : List Int) : I ((act.run s).play answers).result.2 := by
  have hmeets := Dialogue.all_play h answers
  cases hr : ((act.run s).play answers).result.1 with
  | error err =>
      rw [hr] at hmeets
      exact hmeets
  | ok a =>
      rw [hr] at hmeets
      exact hmeets

/-- A list of actions, each of which keeps an invariant and comes to a fact of its own. -/
theorem ends_forM {ι : Type} {I : σ → Prop} {T : ι → Prop} {f : ι → Action σ PUnit} {l : List ι}
    (hs : I s) (hf : ∀ i ∈ l, ∀ s, I s → Ends (fun _ s' => I s' ∧ T i) E (f i) s) :
    Ends (fun _ s' => I s' ∧ ∀ i ∈ l, T i) E (l.forM f) s := by
  induction l generalizing s with
  | nil => exact ends_pure ⟨hs, nofun⟩
  | cons i l ih =>
      show Ends _ E (f i >>= fun _ => l.forM f) s
      refine ends_bind ((hf i List.mem_cons_self s hs).mono (fun _ s' hs' => ?_) fun _ _ => id)
      refine (ih hs'.1 fun j hj => hf j (List.mem_cons_of_mem i hj)).mono ?_ fun _ _ => id
      exact fun _ _ h => ⟨h.1, List.forall_mem_cons.mpr ⟨hs'.2, h.2⟩⟩

/-- Two lists of actions that agree one by one, as long as an invariant is kept. -/
theorem run_forM_congr {ι : Type} {I : σ → Prop} {f f' : ι → Action σ PUnit} {l : List ι}
    (hs : I s) (hrun : ∀ i ∈ l, ∀ s, I s → (f i).run s = (f' i).run s)
    (hf : ∀ i ∈ l, ∀ s, I s → Ends (fun _ => I) (fun _ _ => True) (f i) s) :
    (l.forM f).run s = (l.forM f').run s := by
  induction l generalizing s with
  | nil => rfl
  | cons i l ih =>
      show (f i >>= fun _ => l.forM f).run s = (f' i >>= fun _ => l.forM f').run s
      rw [run_bind, run_bind, ← hrun i List.mem_cons_self s hs]
      refine Dialogue.bind_congr_of_all (Dialogue.All.mono (hf i List.mem_cons_self s hs) ?_)
      rintro ⟨err | _, s'⟩ hs'
      · rfl
      · exact ih hs' (fun j hj => hrun j (List.mem_cons_of_mem i hj)) fun j hj =>
          hf j (List.mem_cons_of_mem i hj)

end Ends

/-- An evaluation and what follows it, whatever is answered. -/
theorem all_lift_bind {e : Eval α} {f : α → Action σ β} {P : α → Prop}
    {Q : Except Failure β → σ → Prop} (he : e.Sure P) (hok : ∀ a, P a → All .anything Q (f a) s)
    (hfail : ∀ err, Q (.error err) s) : All .anything Q ((liftM e : Action σ α) >>= f) s := by
  refine all_bind.mpr (all_lift.mpr (Dialogue.All.mono he ?_))
  intro r hr
  cases r with
  | ok a => exact hok a (hr a rfl)
  | error err => exact hfail err

end Action

-- From here on these are used through their rules; unfolded, they would be compared answer by answer.
attribute [irreducible] Eval.Can Eval.Sure Eval.Ends Eval.Always Eval.Asks

end Narrowing
