/-
# Exploration covers every concrete run

A concrete run of a block has an integer for every value and goes one way at
every branch.  The run of the block over intervals is made to keep the integers:
a step of computation carries them on, a truth value that is read off an interval
admits what the integer says, and an assumption that is true does not lose them.
Each of these needs certain answers, all in range, so that together they are the
answers of a path, and a report that was neither truncated nor cut shows it.

What is asked of the intervals is asked on the paths of the report only, at the
times between the steps.  Every partial path that the argument goes through is
part of such a path, since a search that was not cut gives every question each of
its replies.
-/
import Narrowing.Proofs.Graph.Compute
import Narrowing.Proofs.Search
import Narrowing.Proofs.Settings
import Narrowing.Proofs.Trail

namespace Narrowing

/-! ## Concrete runs -/

/-- The integers bound to names, with one more if a name is given. -/
def bindInteger (env : String → Option Int) (name : Option String) (z : Int) :
    String → Option Int :=
  match name with
  | some n => Function.update env n (some z)
  | none => env

/-- The concrete runs of a block: with integers bound to names, through the decisions at the
branches, to other integers.  Each step gives an integer, and a branch is taken if its
condition is not zero. -/
inductive Block.Runs : Block → (String → Option Int) → List Bool → (String → Option Int) → Prop
  | done {env} : Runs .done env [] env
  | step {m name rest env z ds env'} (hz : m.Yields env z)
      (hrest : Runs rest (bindInteger env name z) ds env') :
      Runs (.step (.make m name) rest) env ds env'
  | branch {condition yes no rest env z ds env' ds' env''} (hz : env condition = some z)
      (hway : Runs (bif z != 0 then yes else no) env ds env') (hrest : Runs rest env' ds' env'') :
      Runs (.branch condition yes no rest) env ((z != 0) :: ds ++ ds') env''

/-! ## Actions that may be refused

Under explored replies nothing was refused, or there would be no report.  So an
action need only find its way where it is not refused. -/

namespace Action

variable {σ τ α β : Type} {s : σ}

/-- An outcome other than a refusal. -/
def NotRefused (r : Except Failure α) : Prop := ∀ m, r ≠ .error (.misuse m)

/-- If no explored reply leads to a refusal, in-range answers exist under which the action
returns, with `Q` of the result and the state. -/
def Finds (Q : α → σ → Prop) (act : Action σ α) (s : σ) : Prop :=
  act.All .explored (fun r _ => NotRefused r) s → act.Can Q s

theorem finds_of_can {Q : α → σ → Prop} {act : Action σ α} (h : act.Can Q s) : act.Finds Q s :=
  fun _ => h

theorem Finds.mono {Q Q' : α → σ → Prop} {act : Action σ α} (h : act.Finds Q s)
    (hQ : ∀ a s', Q a s' → Q' a s') : act.Finds Q' s :=
  fun hall => (h hall).mono hQ

theorem can_bind_of_all {N : Except Failure β → σ → Prop} {P : α → σ → Prop} {Q : β → σ → Prop}
    {act : Action σ α} {f : α → Action σ β} (hN : ∀ r s', N r s' → NotRefused r)
    (hall : (act >>= f).All .explored N s) (hact : act.Finds P s)
    (h : ∀ a s', P a s' → (f a).All .explored N s' → (f a).Can Q s') : (act >>= f).Can Q s := by
  have hall := all_bind.mp hall
  have hcan : act.Can P s := by
    refine hact (hall.mono ?_)
    intro r s' hr
    cases r with
    | ok a => exact fun m => nofun
    | error err =>
        intro m heq
        obtain rfl := Except.error.inj heq
        exact hN _ _ hr m rfl
  have hboth := Dialogue.Can.and_all (fun n v => Or.inr) hcan hall
  refine can_bind (Dialogue.Can.mono hboth ?_)
  rintro ⟨_, s'⟩ ⟨⟨a, rfl, hP⟩, hrest⟩
  exact ⟨a, rfl, h a s' hP hrest⟩

theorem finds_bind {Q : β → σ → Prop} {act : Action σ α} {f : α → Action σ β}
    (h : act.Finds (fun a s' => (f a).Finds Q s') s) : (act >>= f).Finds Q s :=
  fun hall => can_bind_of_all (fun _ _ hr => hr) hall h fun _ _ hf hrest => hf hrest

theorem finds_get {Q : σ → σ → Prop} (h : Q s s) : Finds Q get s := finds_of_can (can_get h)

theorem finds_lift {e : Eval α} {Q : α → σ → Prop}
    (h : (∃ m, e = Eval.misuse m) ∨ e.Can fun a => Q a s) :
    Finds Q (liftM e : Action σ α) s := by
  rcases h with ⟨m, rfl⟩ | h
  · intro hall
    exact absurd rfl (hall m)
  · exact finds_of_can (can_lift h)

theorem finds_within {part : τ → σ} {put : σ → τ → τ} {act : Action σ α} {t : τ}
    {Q : α → τ → Prop} (h : act.Finds (fun a s => Q a (put s t)) (part t)) :
    Finds Q (within part put act) t :=
  fun hall => can_within (h (all_within.mp hall))

end Action

/-! ## Names -/

namespace Bindings

variable {name name' : String} {h : Handle}

theorem find?_insertInto_self (es : List (String × Handle)) :
    ((insertInto name h es).find? fun e => e.1 == name) = some (name, h) := by
  induction es with
  | nil => simp [insertInto]
  | cons e es ih =>
      unfold insertInto
      split
      · simp
      · rename_i hne
        split
        · simp
        · simp [Ne.symm hne, ih]

theorem find?_insertInto_of_ne (hne : name' ≠ name) (es : List (String × Handle)) :
    ((insertInto name h es).find? fun e => e.1 == name') = es.find? fun e => e.1 == name' := by
  induction es with
  | nil => simp [insertInto, hne.symm]
  | cons e es ih =>
      unfold insertInto
      split
      · rename_i heq
        simp [hne.symm, ← heq]
      · split
        · simp [hne.symm]
        · simp only [List.find?_cons, ih]

theorem get?_set_self (b : Bindings) (hh : h ≠ .none) : (b.set name h).get? name = some h := by
  unfold set get? insert
  rw [if_neg hh, find?_insertInto_self]
  rfl

theorem get?_set_of_ne (b : Bindings) (hh : h ≠ .none) (hne : name' ≠ name) :
    (b.set name h).get? name' = b.get? name' := by
  unfold set get? insert
  rw [if_neg hh, find?_insertInto_of_ne hne]

end Bindings

/-! ## Paths with their integers -/

theorem Tristate.can_lower {t : Tristate} {b : Bool} (h : t.Admits b) :
    t.lower.Can fun taken => taken = b := by
  have hchoose : Eval.Can (fun taken => taken = b) (do return (← Eval.choose 2) == 1) := by
    cases b with
    | true => exact Eval.can_bind (Eval.can_choose (i := 1) (by omega) (Eval.can_pure rfl))
    | false => exact Eval.can_bind (Eval.can_choose (i := 0) (by omega) (Eval.can_pure rfl))
  cases t with
  | no => exact Eval.can_pure h.symm
  | yes => exact Eval.can_pure h.symm
  | maybe => exact hchoose
  | invalid => exact hchoose

namespace Graph

variable {e : Engine} {ν : Handle → Int} {g : Graph} {h : Handle} {z : Int}

/-- A truth value is refused by the strategy, or it admits what the integer says. -/
theorem can_toTristate (hg : g.Carries ν) (hz : g.integer? ν h = some z) :
    (∃ m, g.toTristate e h = Eval.misuse m) ∨
      (g.toTristate e h).Can fun t => t.Admits (z != 0) := by
  obtain ⟨⟨n, hn⟩, rfl⟩ := integer?_eq_some_iff.mp hz
  obtain ⟨i, hi, hmem⟩ := (hg h n hn).holds
  have hvalue : g.value h = pure n.value := by
    unfold value node
    rw [hn]
    rfl
  unfold toTristate Engine.toTristate
  rw [hvalue, pure_bind, hi]
  cases e.strategy with
  | primary => exact Or.inr (Interval.can_toTristate hmem)
  | tag => exact Or.inl ⟨_, rfl⟩
  | disabled => exact Or.inl ⟨_, rfl⟩

theorem finds_make (he : e.OverIntervals) (hg : g.Allows ν) {m : Make Handle}
    (hm : m.Yields (g.integer? ν) z) :
    (make e m).Finds (fun k g' => k = .ofNat g.size ∧ ∃ n, g' = g.push n ∧
      n.Carries (g.extend ν z) (.ofNat g.size)) g := by
  refine Action.finds_bind (Action.finds_get ?_)
  refine Action.finds_bind (Action.finds_lift ((can_compute he hg hm).imp_right fun hcan =>
    hcan.mono fun n hn => ?_))
  exact Action.finds_of_can ⟨_, rfl, rfl, n, rfl, hn⟩

end Graph

namespace PathState

variable {e : Engine} {env : String → Option Int} {s : PathState} {z : Int}

/-- The graph carries integers at its nodes, and the names are bound to nodes with the integers
that they stand for. -/
def Mirrors (env : String → Option Int) (s : PathState) : Prop :=
  ∃ ν, s.graph.Carries ν ∧ ∀ name z, env name = some z →
    ∃ h, s.bindings.get? name = some h ∧ s.graph.integer? ν h = some z

theorem mirrors_empty : empty.Mirrors fun _ => none := by
  refine ⟨fun _ => 0, fun h n hn => ?_, fun name z hz => nomatch hz⟩
  exact nomatch Graph.node?_empty.symm.trans hn

theorem within_empty {k : Int} : empty.graph.Within k := by
  intro h n i hn
  exact nomatch Graph.node?_empty.symm.trans hn

theorem can_lookup {name : String} {h : Handle} {Q : Handle → Prop}
    (hget : s.bindings.get? name = some h) (hQ : Q h) : (s.lookup name).Can Q := by
  unfold lookup
  rw [hget]
  exact Eval.can_pure hQ

/-- A step of computation binds the integer that it gives. -/
theorem finds_make (he : e.OverIntervals) (hs : s.Mirrors env) (hw : s.graph.Within (2 ^ 60))
    {m : Make String} (hm : m.Yields env z) (name : Option String) :
    ((Step.make m name).run e).Finds (fun _ s' => s'.Mirrors (bindInteger env name z)) s := by
  obtain ⟨ν, hg, hnames⟩ := hs
  have hlook (a : String) (x : Int) (hx : env a = some x) :
      (s.lookup a).Can fun h => s.graph.integer? ν h = some x := by
    obtain ⟨h, hget, hint⟩ := hnames a x hx
    exact can_lookup hget hint
  refine Action.finds_bind (Action.finds_get ?_)
  refine Action.finds_bind (Action.finds_lift (Or.inr
    ((Make.can_resolve hlook hm).mono fun m' hm' => ?_)))
  refine Action.finds_bind (Action.finds_within
    ((Graph.finds_make he (hg.allows hw) hm').mono ?_))
  rintro _ _ ⟨rfl, n, rfl, hn⟩
  have hold (name' : String) (x : Int) (hx : env name' = some x) :
      ∃ h, s.bindings.get? name' = some h ∧
        (s.graph.push n).integer? (s.graph.extend ν z) h = some x := by
    obtain ⟨h, hget, hint⟩ := hnames name' x hx
    exact ⟨h, hget, Graph.integer?_push hint⟩
  cases name with
  | none => exact Action.finds_of_can (Action.can_pure ⟨_, hg.push hn, hold⟩)
  | some name =>
      refine Action.finds_of_can (Action.can_modify ⟨_, hg.push hn, fun name' x hx => ?_⟩)
      have hnew : (.ofNat s.graph.size : Handle) ≠ .none := by
        intro heq
        exact absurd (congrArg Handle.index heq) (by show ((s.graph.size : Int) ≠ -1); omega)
      change Function.update env name (some z) name' = some x at hx
      by_cases hname : name' = name
      · subst hname
        rw [Function.update_self] at hx
        obtain rfl := Option.some.inj hx
        exact ⟨_, Bindings.get?_set_self _ hnew, Graph.integer?_push_new⟩
      · rw [Function.update_of_ne hname] at hx
        obtain ⟨h, hget, hint⟩ := hold name' x hx
        exact ⟨h, (Bindings.get?_set_of_ne _ hnew hname).trans hget, hint⟩

/-- A branch can go the way of the integers. -/
theorem finds_decideNamed (he : e.OverIntervals) (hs : s.Mirrors env)
    (hw : s.graph.Within (2 ^ 60)) {condition : String} (hz : env condition = some z) :
    (decideNamed e condition).Finds (fun taken s' => taken = (z != 0) ∧ s'.Mirrors env) s := by
  obtain ⟨ν, hg, hnames⟩ := hs
  obtain ⟨h, hget, hint⟩ := hnames condition z hz
  refine Action.finds_bind (Action.finds_get ?_)
  refine Action.finds_bind (Action.finds_lift (Or.inr (can_lookup hget ?_)))
  refine Action.finds_bind (Action.finds_get ?_)
  refine Action.finds_bind (Action.finds_lift ((Graph.can_toTristate hg hint).imp_right fun hcan =>
    hcan.mono fun t ht => ?_))
  refine Action.finds_bind (Action.finds_lift (Or.inr ((Tristate.can_lower ht).mono ?_)))
  rintro _ rfl
  obtain ⟨⟨n, hn⟩, rfl⟩ := Graph.integer?_eq_some_iff.mp hint
  refine Action.finds_of_can (Action.can_bind (Action.can_within
    ((Graph.can_assume he (hg.allows hw) hn).mono fun _ g' hg' => ?_)))
  refine Action.can_pure ⟨rfl, ν, hg'.1.carries, fun name x hx => ?_⟩
  obtain ⟨k, hk, hkx⟩ := hnames name x hx
  exact ⟨k, hk, hg'.2.integer? hkx⟩

end PathState

/-! ## Blocks with their integers -/

namespace Trail

variable {α β : Type} {x : PathState × Trail}

/-- What is known of an explored path: nothing was refused, and the ends on its trail are
moderate. -/
def Tame (r : Except Failure α) (x : PathState × Trail) : Prop :=
  Action.NotRefused r ∧ ∀ g ∈ x.2.graphs, g.Within (2 ^ 60)

/-- What is known of all explored paths is known of their beginnings. -/
theorem all_tame_of_bind {act : Action (PathState × Trail) α}
    {f : α → Action (PathState × Trail) β} (hf : ∀ a, Grows .explored (f a))
    (hall : (act >>= f).All .explored Tame x) : act.All .explored Tame x := by
  refine (Action.all_bind.mp hall).mono ?_
  intro r y hr
  cases r with
  | ok a =>
      obtain ⟨⟨_, y'⟩, htame, hgrows⟩ := (Dialogue.All.and hr (hf a y)).exists_of_explored
      exact ⟨fun m => nofun, fun g hg => htame.2 g (hgrows.subset hg)⟩
  | error err =>
      refine ⟨fun m heq => ?_, hr.2⟩
      obtain rfl := Except.error.inj heq
      exact hr.1 m rfl

end Trail

namespace Block

variable {e : Engine} {patience : Nat} {b : Block} {env env' : String → Option Int}
  {ds : List Bool}

/-- **Some path goes the way of a concrete run.**  In-range answers exist under which the block
completes, with the decisions of the run on its trail. -/
theorem can_follow (he : e.OverIntervals) (hruns : b.Runs env ds env') (s : PathState) (t : Trail)
    (hs : s.Mirrors env) (hw : s.graph.Within (2 ^ 60))
    (hall : (b.follow e patience).All .explored Trail.Tame (s, t)) :
    (b.follow e patience).Can (fun _ x => x.1.Mirrors env' ∧ x.1.graph.Within (2 ^ 60) ∧
      x.2.decisions = t.decisions ++ ds) (s, t) := by
  have hrefused {α : Type} : ∀ (r : Except Failure α) x, Trail.Tame r x → Action.NotRefused r :=
    fun _ _ h => h.1
  induction hruns generalizing s t with
  | done => exact Action.can_pure ⟨hs, hw, (List.append_nil _).symm⟩
  | @step m name rest env z ds env' hz hrest ih =>
      have hmake : ((Step.make m name).run e).beside.Finds
          (fun _ x => x.1.Mirrors (bindInteger env name z) ∧ x.2 = t) (s, t) :=
        Action.finds_within ((PathState.finds_make he hs hw hz name).mono fun _ _ h => ⟨h, rfl⟩)
      refine Action.can_bind_of_all hrefused hall hmake ?_
      rintro _ ⟨s', t'⟩ ⟨hs', rfl⟩ hall'
      -- the new graph is on the trail of what follows, so its ends are moderate
      have htame := Trail.all_tame_of_bind (fun _ => Trail.grows_follow e patience rest) hall'
      refine Action.can_bind (Action.can_modify ?_)
      have hrest := ih s' _ hs' (htame.2 _ (by simp)) (Action.all_bind.mp hall')
      exact hrest.mono fun _ _ h => ⟨h.1, h.2.1, by simpa using h.2.2⟩
  | @branch condition yes no rest env z ds env' ds' env'' hz hway hrest ihway ihrest =>
      have hdecide : (PathState.decideNamed e condition).beside.Finds
          (fun taken x => (taken = (z != 0) ∧ x.1.Mirrors env) ∧ x.2 = t) (s, t) :=
        Action.finds_within ((PathState.finds_decideNamed he hs hw hz).mono
          fun _ _ h => ⟨h, rfl⟩)
      refine Action.can_bind_of_all hrefused hall hdecide ?_
      rintro _ ⟨s', t'⟩ ⟨⟨rfl, hs'⟩, rfl⟩ hall'
      have hfollow : (bif z != 0 then yes.follow e patience else no.follow e patience) =
          (bif z != 0 then yes else no).follow e patience := by
        cases z != 0 with
        | true => rfl
        | false => rfl
      rw [hfollow] at hall' ⊢
      have hgrows : Trail.Grows .explored (do
          (bif z != 0 then yes else no).follow e patience
          rest.follow e patience) :=
        (Trail.grows_follow e patience _).bind fun _ => Trail.grows_follow e patience rest
      have htame := Trail.all_tame_of_bind (fun _ => hgrows) hall'
      have hboth := Action.all_bind.mp hall'
      have hfirst := Trail.all_tame_of_bind (fun _ => Trail.grows_follow e patience rest) hboth
      refine Action.can_bind (Action.can_modify ?_)
      have hway := ihway s' _ hs' (htame.2 _ (by simp)) hfirst
      refine Action.can_bind_of_all hrefused hboth (Action.finds_of_can hway) ?_
      rintro _ ⟨s'', t''⟩ ⟨hs'', hw'', hds⟩ hall''
      refine (ihrest s'' t'' hs'' hw'' hall'').mono fun _ _ h => ⟨h.1, h.2.1, ?_⟩
      rw [h.2.2, hds]
      simp

end Block

/-! ## Explorations -/

namespace Settings

/-- A report that is not truncated shows all leaves of the body. -/
theorem leaves_of_run {s : Settings} {st : Setup} {interrupt : Interrupt} {p : Program}
    {x : Exploration} (hsetup : s.setup = .ok st) (hprogram : p.setup = none)
    (hrun : (s.run interrupt p).2 = .ok (x, none)) (htruncated : x.report.truncated = false) :
    let leaves := Search.leaves Dialogue.turn st.limits.maxDepth (p.body.dialogue st.engine .empty)
    x.report.paths = leaves.map Explore.result ∧ ∀ w ∈ leaves, Explore.misuse? w.ending = none := by
  unfold run at hrun
  rw [hsetup] at hrun
  dsimp only at hrun
  unfold Explore.run at hrun
  rw [hprogram, Option.getD_none, Explore.walkBlock_done] at hrun
  cases hafter : (Explore.runAfter ⟨[], some (.ok .empty), []⟩ Dialogue.turn
      (p.body.dialogue st.engine) st.limits interrupt p.name).2 with
  | error m =>
      rw [hafter] at hrun
      exact nomatch hrun
  | ok x' =>
      rw [hafter] at hrun
      obtain ⟨rfl, herror⟩ := Prod.mk.inj (Except.ok.inj hrun)
      exact Explore.leaves_of_runAfter_eq_ok rfl rfl hafter (Option.map_eq_none_iff.mp herror)
        htruncated

/-- **An exploration covers every concrete run.**  Let settings that pass the checks lift
constants to intervals and draw unknown values as intervals, and let a program without a setup
be explored to a report that is neither truncated nor has a path that was cut, such that the
ends of all intervals on the trails of the reported paths are at most 2^60 in magnitude.  Then
for every concrete run of the program, the report has a completed path on whose trail are
exactly the decisions of the run. -/
theorem run_covers {s : Settings} {st : Setup} {interrupt : Interrupt} {p : Program} {x : Exploration}
    {ds : List Bool} {env : String → Option Int} (hsetup : s.setup = .ok st)
    (hlift : s.domains.lift = Domain.interval.name)
    (hany : s.domains.unknown = Domain.interval.name) (hprogram : p.setup = none)
    (hrun : (s.run interrupt p).2 = .ok (x, none)) (htruncated : x.report.truncated = false)
    (hbounded : ∀ r ∈ x.report.paths, r.outcome ≠ .bounded)
    (hwithin : ∀ r ∈ x.report.paths, ∀ choices ∈ r.choices,
      ∀ g ∈ (p.body.trail st.engine choices).graphs, g.Within (2 ^ 60))
    (hruns : p.body.Runs (fun _ => none) ds env) :
    ∃ r ∈ x.report.paths, r.outcome = .completed ∧
      ∃ choices ∈ r.choices, (p.body.trail st.engine choices).decisions = ds := by
  obtain ⟨hpaths, hsafe⟩ := leaves_of_run hsetup hprogram hrun htruncated
  rw [hpaths] at hbounded hwithin ⊢
  rw [Block.dialogue_eq_follow st.engine p.body (.empty, .empty)] at hbounded hwithin hsafe ⊢
  generalize hd : (p.body.follow st.engine Block.endless).run (.empty, .empty) = d at *
  have hcut : ∀ w ∈ Search.leaves Dialogue.turn st.limits.maxDepth
      (d.bind fun y => .done (y.1.map fun _ => y.2.1)), w.ending ≠ none := by
    intro w hw hnone
    refine hbounded _ (List.mem_map_of_mem hw) ?_
    unfold Explore.result
    rw [hnone]
    rfl
  -- what the report says of its paths holds under all explored replies
  have hall : d.All .explored fun y => Trail.Tame y.1 y.2 := by
    refine Dialogue.all_of_leaves d hcut fun w hw hending => ⟨fun m hm => ?_, fun g hg => ?_⟩
    · have hnone := hsafe w hw
      rw [hending, hm] at hnone
      exact nomatch hnone
    · refine hwithin _ (List.mem_map_of_mem hw) w.choices rfl g ?_
      unfold Block.trail
      rw [hd]
      exact hg
  subst hd
  obtain ⟨answers, hfit, _, hok, -, -, hds⟩ := Dialogue.can_iff_play.mp
    (Block.can_follow (overIntervals hsetup hlift hany) hruns .empty .empty
      PathState.mirrors_empty PathState.within_empty hall)
  obtain ⟨w, hw, rfl, hending⟩ := Dialogue.exists_leaf_of_fit _ hcut (by
    rw [Dialogue.play_map]
    exact hfit)
  refine ⟨_, List.mem_map_of_mem hw, ?_, w.choices, rfl, hds⟩
  unfold Explore.result
  rw [hending, Dialogue.play_map, hok]
  rfl

/-- Settings under which every value is an interval. -/
def intervals : Settings :=
  { standard with domains := ⟨Domain.interval.name, Domain.interval.name, none, none, none⟩ }

/-- What these settings amount to. -/
def intervalsSetup : Setup :=
  ⟨⟨⟨⟨.standard, some .interval, some .interval, some, some⟩, defaultChooseBound⟩, .primary⟩,
    ⟨64, 10000⟩, .info⟩

/-- Is `x * x` 49, for an `x` up to 9? -/
def square : Program where
  name := "square"
  setup := none
  body :=
    .step (.make (.anyRange 0 9 64) (some "x")) <|
    .step (.make (.binary (.arith .mul) "x" "x") (some "y")) <|
    .step (.make (.lift (.ofInt64 49 64)) (some "c")) <|
    .step (.make (.binary (.relation .eq) "y" "c") (some "t")) <|
    .branch "t" .done .done .done

theorem run_covers_square :
    ∃ x, (intervals.run false square).2 = .ok (x, none) ∧
      ∃ r ∈ x.report.paths, r.outcome = .completed ∧
        ∃ choices ∈ r.choices,
          (square.body.trail intervalsSetup.engine choices).decisions = [true] := by
  have hcheck : (match (intervals.run false square).2 with
      | .ok (x, none) => decide (x.report.truncated = false ∧
          (∀ r ∈ x.report.paths, r.outcome ≠ .bounded) ∧
          ∀ r ∈ x.report.paths, ∀ choices ∈ r.choices,
            ∀ g ∈ (square.body.trail intervalsSetup.engine choices).graphs, g.Within (2 ^ 60))
      | .ok (_, some _) => false
      | .error _ => false) = true := by
    decide +kernel
  -- the run with 7 for x
  obtain ⟨env, hruns⟩ : ∃ env, square.body.Runs (fun _ => none) [true] env :=
    ⟨_, .step (z := 7) ⟨by decide, by decide⟩ <|
      .step (z := 49) ⟨rfl, 7, 7, rfl, rfl, rfl⟩ <|
      .step (z := 49) ⟨rfl, by decide, by decide, by decide⟩ <|
      .step (z := 1) ⟨rfl, 49, 49, rfl, rfl, rfl⟩ <|
      @Block.Runs.branch "t" .done .done .done _ 1 [] _ [] _ rfl .done .done⟩
  split at hcheck
  · rename_i x hrun
    obtain ⟨htruncated, hbounded, hwithin⟩ := of_decide_eq_true hcheck
    exact ⟨x, hrun, run_covers rfl rfl rfl rfl hrun htruncated hbounded hwithin hruns⟩
  · cases hcheck
  · cases hcheck

end Settings

end Narrowing
