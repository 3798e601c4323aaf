/-
# What a report says about its paths

A body is a tree of answers, and a path of its exploration is a leaf of this tree.  A walk
takes no more answers than the leaf has, so replayed answers lead to the leaf whatever
follows them.  Hence no path is the beginning of another; the tree of a report, in which a
later label would replace an earlier one, has the outcome of every path; and the state that
a path ended with can be asked of the body again.
-/
import Narrowing.Proofs.Bindings
import Narrowing.Proofs.ChoiceTree.Equality
import Narrowing.Proofs.Search

namespace Narrowing

namespace Search

variable {σ α : Type} {turn : σ → List Event × Turn σ α} {depth : Nat} {s : σ} {w w' : Walk α}

/-- The answers of a leaf lead to it, whatever is said after them. -/
theorem walk_append (hw : w ∈ leaves turn depth s) (more : List Int) :
    walk turn depth (w.choices ++ more) s = w := by
  induction depth generalizing s w with
  | zero =>
      rw [leaves, List.mem_singleton] at hw
      rw [hw]
      exact walk_zero
  | succ depth ih =>
      rcases turn_cases turn s with ⟨events, a, h⟩ | ⟨events, n, reply, h⟩
      · rw [(mem_leaves_ends h).mp hw]
        exact walk_ends h
      · obtain ⟨v, -, w', hw', rfl⟩ := (mem_leaves_asks h).mp hw
        rw [walk_asks h]
        exact congrArg (Walk.after v n events) (ih hw')

theorem walk_choices (hw : w ∈ leaves turn depth s) : walk turn depth w.choices s = w := by
  have := walk_append hw []
  rwa [List.append_nil] at this

/-- No leaf is on the way to another. -/
theorem eq_of_choices_isPrefix (hw : w ∈ leaves turn depth s) (hw' : w' ∈ leaves turn depth s)
    (hbegins : w.choices <+: w'.choices) : w = w' := by
  obtain ⟨more, hmore⟩ := hbegins
  calc w = walk turn depth (w.choices ++ more) s := (walk_append hw more).symm
    _ = walk turn depth w'.choices s := by rw [hmore]
    _ = w' := walk_choices hw'

theorem leaves_prefix_free : (leaves turn depth s).Pairwise fun w w' =>
    ¬ w.choices <+: w'.choices ∧ ¬ w'.choices <+: w.choices := by
  refine leaves_pairwise.imp_of_mem fun {w w'} hw hw' hlt => ?_
  have hne : w.choices ≠ w'.choices := by
    intro heq
    rw [heq] at hlt
    exact List.lt_irrefl _ hlt
  constructor
  · exact fun hbegins => hne (congrArg Walk.choices (eq_of_choices_isPrefix hw hw' hbegins))
  · exact fun hbegins => hne (congrArg Walk.choices (eq_of_choices_isPrefix hw' hw hbegins)).symm

end Search

namespace PathResult

/-- The answers given; none where a setup did not complete. -/
def sequence (p : PathResult) : List Int := p.choices.getD []

end PathResult

theorem Report.tree_eq_ofList (r : Report) : r.tree =
    .ofList (r.paths.map fun p => (p.sequence, p.outcome.name)) := by
  rw [ChoiceTree.ofList, List.foldl_map]
  rfl

namespace Explore

variable {σ : Type} {turn : σ → List Event × Turn σ Ending} {body : PathState → σ}
  {setup : Walk Ending} {limits : Limits} {interrupt : Interrupt} {name : String} {x : Exploration}

/-- The bindings that a path ended with, if it completed.  They are found again where its answers
are replayed. -/
def stateOf (setup : Walk Ending) (turn : σ → List Event × Turn σ Ending) (body : PathState → σ)
    (limits : Limits) (p : PathResult) : Option Bindings :=
  match setup.ending with
  | some (.ok st) => bindings? (Search.walk turn limits.maxDepth p.sequence (body st)).ending
  | _ => none

theorem outcome_eq_completed_iff {o : Option Ending} :
    outcome o = .completed ↔ ∃ st, o = some (.ok st) := by
  rcases o with _ | (_ | _ | _) | st
  · exact iff_of_false nofun nofun
  · exact iff_of_false nofun nofun
  · exact iff_of_false nofun nofun
  · exact iff_of_false nofun nofun
  · exact iff_of_true rfl ⟨st, rfl⟩

theorem exists_bindings?_iff {o : Option Ending} :
    (∃ b, bindings? o = some b) ↔ ∃ st, o = some (.ok st) := by
  rcases o with _ | _ | st
  · exact iff_of_false nofun nofun
  · exact iff_of_false nofun nofun
  · exact iff_of_true ⟨_, rfl⟩ ⟨st, rfl⟩

theorem exploreFrom_eq_ok {start : σ} {seen : List String}
    (hrun : (exploreFrom turn start limits interrupt name seen).2 = .ok x) :
    ∃ walks truncated, x.report = report name walks truncated ∧
      walks.Sublist (Search.leaves turn limits.maxDepth start) := by
  unfold exploreFrom at hrun
  obtain ⟨walks, unfinished, hpaths⟩ : ∃ walks unfinished,
    Search.paths turn start limits.maxDepth isFatal (interrupt.budget limits) [] =
      (walks, unfinished) := ⟨_, _, rfl⟩
  rw [hpaths] at hrun
  have hbegins : (Search.paths turn start limits.maxDepth isFatal (interrupt.budget limits) []).1 <+:
      Search.leavesFrom turn limits.maxDepth [] start := Search.paths_isPrefix nofun
  rw [hpaths, Search.leavesFrom_nil] at hbegins
  dsimp only at hrun
  split at hrun
  · cases hrun
  · obtain rfl := Except.ok.inj hrun
    exact ⟨walks, _, rfl, hbegins.sublist⟩

/-- What can be reported: nothing at all, a setup that did not complete, or leaves of the body. -/
theorem report_cases (hrun : (runAfter setup turn body limits interrupt name).2 = .ok x) :
    (x.report.paths = [] ∧ x.report.common = none) ∨
    (∃ p, x.report.paths = [p] ∧ x.report.common = none ∧ p.outcome ≠ .completed ∧
      stateOf setup turn body limits p = none) ∨
    ∃ st walks truncated, setup.ending = some (.ok st) ∧ x.report = report name walks truncated ∧
      walks.Sublist (Search.leaves turn limits.maxDepth (body st)) := by
  unfold runAfter at hrun
  dsimp only at hrun
  split at hrun
  · cases hrun
  split at hrun
  · obtain rfl := Except.ok.inj hrun
    exact Or.inl ⟨rfl, rfl⟩
  split at hrun
  · rename_i st hending
    obtain ⟨walks, truncated, hreport, hwalks⟩ := exploreFrom_eq_ok hrun
    exact Or.inr (Or.inr ⟨st, walks, truncated, hending, hreport, hwalks⟩)
  · rename_i hnot
    obtain rfl := Except.ok.inj hrun
    have hstate (p : PathResult) : stateOf setup turn body limits p = none := by
      unfold stateOf
      split
      · rename_i st hending
        exact absurd hending (hnot st)
      · rfl
    refine Or.inr (Or.inl ⟨_, rfl, rfl, ?_, hstate _⟩)
    rw [ne_eq, outcome_eq_completed_iff]
    rintro ⟨st, hending⟩
    exact hnot st hending

/-- The paths of a report: none is the beginning of another, those that completed have a state, and
these states are joined. -/
theorem report_paths (hrun : (runAfter setup turn body limits interrupt name).2 = .ok x) :
    x.report.paths.Pairwise (fun p q => ¬ p.sequence <+: q.sequence ∧ ¬ q.sequence <+: p.sequence) ∧
    (∀ p ∈ x.report.paths,
      p.outcome = .completed ↔ ∃ b, stateOf setup turn body limits p = some b) ∧
    x.report.common =
      Bindings.shared (x.report.paths.filterMap (stateOf setup turn body limits)) := by
  rw [← Bindings.foldl_join?_eq_shared]
  rcases report_cases hrun with ⟨hpaths, hcommon⟩ | ⟨p, hpaths, hcommon, houtcome, hstate⟩ |
    ⟨st, walks, truncated, hending, hreport, hwalks⟩
  · rw [hpaths, hcommon]
    exact ⟨.nil, nofun, rfl⟩
  · rw [hpaths, hcommon]
    refine ⟨List.pairwise_singleton _ _, ?_, ?_⟩
    · rw [List.forall_mem_singleton, hstate]
      exact iff_of_false houtcome nofun
    · rw [List.map_singleton, hstate]
      rfl
  · have hstate : ∀ w ∈ walks, stateOf setup turn body limits (result w) = bindings? w.ending := by
      intro w hw
      unfold stateOf
      rw [hending]
      exact congrArg (fun w => bindings? w.ending) (Search.walk_choices (hwalks.subset hw))
    rw [hreport]
    refine ⟨?_, ?_, ?_⟩
    · exact List.pairwise_map.mpr (Search.leaves_prefix_free.sublist hwalks)
    · rintro p hp
      obtain ⟨w, hw, rfl⟩ := List.mem_map.mp hp
      rw [hstate w hw, exists_bindings?_iff]
      exact outcome_eq_completed_iff
    · show List.foldl _ _ _ = List.foldl _ _ (List.map _ (List.map _ _))
      rw [List.map_map]
      exact congrArg _ (List.map_congr_left fun w hw => (hstate w hw).symm)

/-- **A report is faithful to its paths.**  No path of an exploration is the beginning of another,
and the tree of the report has a label for a sequence of answers just when a path took it: that of
its outcome.  There are common bindings as soon as a path has completed; they bind a name to what
every completed path has bound it to when it ended, and to join the states of these paths in any
order comes to the same. -/
theorem report_faithful (hrun : (runAfter setup turn body limits interrupt name).2 = .ok x) :
    let r := x.report
    let state := stateOf setup turn body limits
    r.paths.Pairwise (fun p q => ¬ p.sequence <+: q.sequence ∧ ¬ q.sequence <+: p.sequence) ∧
    (∀ s label, r.tree.lookup s = some label ↔
      ∃ p ∈ r.paths, p.sequence = s ∧ p.outcome.name = label) ∧
    (∀ p ∈ r.paths, p.outcome = .completed ↔ ∃ b, state p = some b) ∧
    (r.common = none ↔ ∀ p ∈ r.paths, p.outcome ≠ .completed) ∧
    (∀ c, r.common = some c → ∀ n h, c.get? n = some h ↔
      ∀ p ∈ r.paths, p.outcome = .completed → ∃ b, state p = some b ∧ b.get? n = some h) ∧
    ∀ states : List Bindings, states.Perm (r.paths.filterMap state) →
      states.foldl (fun found b => Bindings.join? found (some b)) none = r.common := by
  obtain ⟨hfree, hcompleted, hcommon⟩ := report_paths hrun
  intro r state
  have hnodup : (r.paths.map PathResult.sequence).Nodup := by
    refine List.pairwise_map.mpr (hfree.imp ?_)
    rintro p q ⟨hnot, -⟩ heq
    exact hnot (heq ▸ List.prefix_rfl)
  refine ⟨hfree, fun s label => ?_, hcompleted, ?_, ?_, ?_⟩
  · rw [r.tree_eq_ofList, ChoiceTree.lookup_ofList_eq_some_iff (by rwa [List.map_map])]
    simp only [List.mem_map, Prod.mk.injEq]
  · rw [hcommon, Bindings.shared_eq_none_iff, List.filterMap_eq_nil_iff]
    refine forall₂_congr fun p hp => ?_
    rw [ne_eq, hcompleted p hp, ← Option.isSome_iff_exists, Option.not_isSome_iff_eq_none]
  · intro c hc n h
    rw [Bindings.get?_of_shared (hcommon.symm.trans hc)]
    constructor
    · intro hall p hp houtcome
      obtain ⟨b, hb⟩ := (hcompleted p hp).mp houtcome
      exact ⟨b, hb, hall b (List.mem_filterMap.mpr ⟨p, hp, hb⟩)⟩
    · intro hall b hb
      obtain ⟨p, hp, hstate⟩ := List.mem_filterMap.mp hb
      obtain ⟨b', hb', hget⟩ := hall p hp ((hcompleted p hp).mpr ⟨b, hstate⟩)
      obtain rfl := Option.some.inj (hstate.symm.trans hb')
      exact hget
  · intro states hperm
    exact (Bindings.shared_perm hperm).trans hcommon.symm

/-- Is a byte of 0 or 1 equal to 0?  If so, `y` is the byte, else the constant. -/
def fork : Program where
  name := "fork"
  setup := none
  body :=
    .step (.make (.anyRange 0 1 8) (some "x")) <|
    .step (.make (.lift (.ofInt64 0 8)) (some "c")) <|
    .step (.make (.binary (.relation .eq) "x" "c") (some "t")) <|
    .branch "t" (.step (.bind "y" "x") .done) (.step (.bind "y" "c") .done) .done

/-- Both paths complete.  They share what is bound before they part, but not `y`. -/
theorem report_faithful_fork :
    let e : Engine := ⟨⟨.standard, defaultChooseBound⟩, .primary⟩
    ∃ x c, (run e ⟨8, 8⟩ false fork).2 = .ok x ∧ x.report.paths.length = 2 ∧
      x.report.tree.lookup [1] = some "completed" ∧ x.report.tree.lookup [] = none ∧
      x.report.common = some c ∧ c.get? "x" = some ⟨0⟩ ∧ c.get? "y" = none ∧
      ∀ states : List Bindings, states.Perm (x.report.paths.filterMap
        (stateOf (walkBlock e ⟨8, 8⟩ .done .empty) Dialogue.turn (fork.body.dialogue e) ⟨8, 8⟩)) →
        states.foldl (fun found b => Bindings.join? found (some b)) none = some c := by
  intro e
  have hcheck : (match (run e ⟨8, 8⟩ false fork).2 with
      | .ok x => match x.report.common with
        | some c => decide (x.report.paths.length = 2 ∧
            x.report.tree.lookup [1] = some "completed" ∧ x.report.tree.lookup [] = none ∧
            c.get? "x" = some ⟨0⟩ ∧ c.get? "y" = none)
        | none => false
      | .error _ => false) = true := by
    decide +kernel
  split at hcheck
  · rename_i x hrun
    split at hcheck
    · rename_i c hcommon
      obtain ⟨hlength, hone, hroot, hx, hy⟩ := of_decide_eq_true hcheck
      refine ⟨x, c, hrun, hlength, hone, hroot, hcommon, hx, hy, ?_⟩
      rw [← hcommon]
      exact (report_faithful hrun).2.2.2.2.2
    · cases hcheck
  · cases hcheck

end Explore

end Narrowing
