/-
# The search lists the leaves in order

A search replays answers and goes on with 0, and from one path to the next it
raises the deepest answer that has an alternative left.  This is an odometer
whose wheels change their size with every position.  What it should come to is
plain: the leaves of the tree, cut at a depth, listed child by child (`leaves`).

The link between the two is `leavesFrom`, the leaves from a replayed path on.
One path of the search is its head, and what `advance` makes of that path is
where its tail begins (`leavesFrom_eq_cons`).  The rest is an induction over the
number of paths.

A question without alternatives is taken for one with a single reply, which the
search would give it too.
-/
import Narrowing.Explore
import Narrowing.Proofs.Dialogue
import Mathlib.Data.List.Lex

namespace Narrowing

namespace Walk

variable {α : Type}

/-- A walk with an answer in front of it. -/
def after (answer : Int) (n : Nat) (events : List Event) (w : Walk α) : Walk α :=
  ⟨(answer, n) :: w.taken, w.ending, events ++ w.events⟩

end Walk

namespace Search

variable {σ α : Type}

/-- The leaves of the tree from a state, cut at a depth, in the order of their answers. -/
def leaves (turn : σ → List Event × Turn σ α) : (depth : Nat) → σ → List (Walk α)
  | 0, s => [walk turn 0 [] s]
  | depth + 1, s =>
    match turn s with
    | (events, .ends a) => [⟨[], some a, events⟩]
    | (events, .asks n reply) => (List.range (max 1 n)).flatMap fun v : Nat =>
      (leaves turn depth (reply v)).map (.after v n events)

/-- The leaves below the replies above a given one. -/
def leavesAbove (turn : σ → List Event × Turn σ α) (depth : Nat) (events : List Event) (n : Nat)
    (reply : Int → σ) (answer : Int) : List (Walk α) :=
  ((List.range (max 1 n)).filter fun v : Nat => answer < v).flatMap fun v : Nat =>
    (leaves turn depth (reply v)).map (.after v n events)

/-- The leaves from the one on that replayed answers lead to. -/
def leavesFrom (turn : σ → List Event × Turn σ α) :
    (depth : Nat) → (replayed : List Int) → σ → List (Walk α)
  | 0, _, s => [walk turn 0 [] s]
  | depth + 1, replayed, s =>
    match turn s with
    | (events, .ends a) => [⟨[], some a, events⟩]
    | (events, .asks n reply) =>
      (leavesFrom turn depth replayed.tail (reply (replayed.headD 0))).map
        (.after (replayed.headD 0) n events) ++
        leavesAbove turn depth events n reply (replayed.headD 0)

/-! That `leaves` holds the leaves of the tree, each once, is said in terms of a relation which
knows nothing of lists. -/

/-- The leaves of the tree cut at a depth, by their answers and their ends. -/
inductive Leaf (turn : σ → List Event × Turn σ α) : Nat → σ → List Int → Option α → Prop
  | ends {depth s events a} (h : turn s = (events, .ends a)) : Leaf turn depth s [] (some a)
  | cut {s events n reply} (h : turn s = (events, .asks n reply)) : Leaf turn 0 s [] none
  | child {depth s events n reply v vs o} (h : turn s = (events, .asks n reply))
      (hv : ReplyRule.inRange n v) (rest : Leaf turn depth (reply v) vs o) :
      Leaf turn (depth + 1) s (v :: vs) o

/-- The states that answers within their range lead to. -/
inductive Reaches (turn : σ → List Event × Turn σ α) : σ → σ → Prop
  | here {s} : Reaches turn s s
  | child {s t events n reply v} (h : turn s = (events, .asks n reply))
      (hv : ReplyRule.inRange n v) (rest : Reaches turn (reply v) t) : Reaches turn s t

/-- Every question on the way has at least two alternatives. -/
def Branching (turn : σ → List Event × Turn σ α) (s : σ) : Prop :=
  ∀ t events n reply, Reaches turn s t → turn t = (events, .asks n reply) → 2 ≤ n

variable {turn : σ → List Event × Turn σ α} {depth n : Nat} {replayed : List Int} {s : σ}
  {events : List Event} {reply : Int → σ} {a : α}

/-! ## One step of a walk -/

theorem turn_cases (turn : σ → List Event × Turn σ α) (s : σ) :
    (∃ events a, turn s = (events, .ends a)) ∨
      ∃ events n reply, turn s = (events, .asks n reply) := by
  obtain ⟨events, t⟩ := turn s
  cases t with
  | ends a => exact Or.inl ⟨events, a, rfl⟩
  | asks n reply => exact Or.inr ⟨events, n, reply, rfl⟩

theorem walk_ends (h : turn s = (events, .ends a)) :
    walk turn depth replayed s = ⟨[], some a, events⟩ := by
  rw [walk.eq_def]
  dsimp only
  rw [h]

theorem walk_asks_zero (h : turn s = (events, .asks n reply)) :
    walk turn 0 replayed s = ⟨[], none, events⟩ := by
  rw [walk.eq_def]
  dsimp only
  rw [h]

theorem walk_asks (h : turn s = (events, .asks n reply)) :
    walk turn (depth + 1) replayed s = .after (replayed.headD 0) n events
      (walk turn depth replayed.tail (reply (replayed.headD 0))) := by
  rw [walk.eq_def]
  dsimp only
  rw [h]
  rfl

theorem walk_zero : walk turn 0 replayed s = walk turn 0 [] s := by
  rcases turn_cases turn s with ⟨events, a, h⟩ | ⟨events, n, reply, h⟩
  · rw [walk_ends h, walk_ends h]
  · rw [walk_asks_zero h, walk_asks_zero h]

theorem walk_zero_taken : (walk turn 0 replayed s).taken = [] := by
  rcases turn_cases turn s with ⟨events, a, h⟩ | ⟨events, n, reply, h⟩
  · rw [walk_ends h]
  · rw [walk_asks_zero h]

theorem headD_nonneg (h : ∀ v ∈ replayed, 0 ≤ v) : 0 ≤ replayed.headD 0 := by
  cases replayed with
  | nil => exact Int.le_refl 0
  | cons v later => exact h v List.mem_cons_self

theorem walk_taken_nonneg (h : ∀ v ∈ replayed, 0 ≤ v) :
    ∀ c ∈ (walk turn depth replayed s).taken, 0 ≤ c.1 := by
  induction depth generalizing replayed s with
  | zero =>
      rw [walk_zero_taken]
      intro c hc
      exact nomatch hc
  | succ depth ih =>
      rcases turn_cases turn s with ⟨events, a, ht⟩ | ⟨events, n, reply, ht⟩
      · rw [walk_ends ht]
        intro c hc
        exact nomatch hc
      · rw [walk_asks ht]
        intro c hc
        rcases List.mem_cons.mp hc with rfl | hc
        · exact headD_nonneg h
        · exact ih (fun v hv => h v (List.mem_of_mem_tail hv)) c hc

/-! ## The odometer -/

theorem advance_nonneg {taken : List (Int × Nat)} {next : List Int} (h : ∀ c ∈ taken, 0 ≤ c.1)
    (ha : advance taken = some next) : ∀ v ∈ next, 0 ≤ v := by
  induction taken generalizing next with
  | nil => exact nomatch ha
  | cons c rest ih =>
      have hc : 0 ≤ c.1 := h c List.mem_cons_self
      have hrest : ∀ c ∈ rest, 0 ≤ c.1 := fun c hc => h c (List.mem_cons_of_mem _ hc)
      unfold advance at ha
      cases hr : advance rest with
      | some later =>
          simp only [hr, Option.some.injEq] at ha
          subst ha
          intro v hv
          rcases List.mem_cons.mp hv with rfl | hv
          · exact hc
          · exact ih hrest hr v hv
      | none =>
          simp only [hr, Option.ite_none_right_eq_some, Option.some.injEq] at ha
          obtain ⟨_, rfl⟩ := ha
          intro v hv
          rw [List.mem_singleton.mp hv]
          omega

theorem filter_range_above {m : Nat} {v : Int} (hv : 0 ≤ v + 1) (hm : v + 1 < m) :
    (List.range m).filter (fun i : Nat => v < i) =
      (v + 1).toNat :: (List.range m).filter fun i : Nat => v + 1 < i := by
  induction m with
  | zero => omega
  | succ m ih =>
      rw [List.range_succ, List.filter_append, List.filter_append]
      by_cases h : v + 1 < m
      · rw [ih h, List.cons_append]
        congr 2
        simp [h, show v < m by omega]
      · obtain rfl : m = (v + 1).toNat := by omega
        have hnone : (List.range (v + 1).toNat).filter (fun i : Nat => v < i) = [] := by
          simp only [List.filter_eq_nil_iff, List.mem_range, decide_eq_true_eq]
          omega
        have hnone' : (List.range (v + 1).toNat).filter (fun i : Nat => v + 1 < i) = [] := by
          simp only [List.filter_eq_nil_iff, List.mem_range, decide_eq_true_eq]
          omega
        rw [hnone, hnone', List.filter_cons_of_pos, List.filter_cons_of_neg]
        · rfl
        · simp only [decide_eq_true_eq]
          omega
        · simp only [decide_eq_true_eq]
          omega

theorem leavesAbove_succ {v : Int} (hv : 0 ≤ v + 1) (hn : v + 1 < max 1 (n : Int)) :
    leavesAbove turn depth events n reply v =
      (leaves turn depth (reply (v + 1))).map (.after (v + 1) n events) ++
        leavesAbove turn depth events n reply (v + 1) := by
  unfold leavesAbove
  rw [filter_range_above hv (by omega), List.flatMap_cons, Int.toNat_of_nonneg hv]

theorem leavesAbove_last {v : Int} (hv : 0 ≤ v) (hn : ¬ v + 1 < n) :
    leavesAbove turn depth events n reply v = [] := by
  unfold leavesAbove
  rw [List.flatMap_eq_nil_iff]
  intro i hi
  simp only [List.mem_filter, List.mem_range, decide_eq_true_eq] at hi
  omega

theorem leaves_asks (h : turn s = (events, .asks n reply)) :
    leaves turn (depth + 1) s = leavesAbove turn depth events n reply (-1) := by
  have hall : (List.range (max 1 n)).filter (fun i : Nat => (-1 : Int) < i) =
      List.range (max 1 n) := by
    rw [List.filter_eq_self]
    intro i _
    simp only [decide_eq_true_eq]
    omega
  unfold leaves leavesAbove
  rw [h, hall]

theorem leavesFrom_asks (h : turn s = (events, .asks n reply)) :
    leavesFrom turn (depth + 1) replayed s =
      (leavesFrom turn depth replayed.tail (reply (replayed.headD 0))).map
        (.after (replayed.headD 0) n events) ++
        leavesAbove turn depth events n reply (replayed.headD 0) := by
  rw [leavesFrom, h]

theorem leavesFrom_ends (h : turn s = (events, .ends a)) :
    leavesFrom turn depth replayed s = [⟨[], some a, events⟩] := by
  cases depth with
  | zero => rw [leavesFrom, walk_ends h]
  | succ depth => rw [leavesFrom, h]

theorem leavesFrom_nil : leavesFrom turn depth [] s = leaves turn depth s := by
  induction depth generalizing s with
  | zero => rfl
  | succ depth ih =>
      rcases turn_cases turn s with ⟨events, a, h⟩ | ⟨events, n, reply, h⟩
      · rw [leavesFrom_ends h, leaves, h]
      · rw [leavesFrom_asks h, leaves_asks h, leavesAbove_succ (v := -1) (by omega) (by omega)]
        exact congrArg (List.map (Walk.after 0 n events) · ++ _) ih

/-- The leaves from a path on are this path and the leaves from the one on that `advance` makes
of it. -/
theorem leavesFrom_eq_cons (h : ∀ v ∈ replayed, 0 ≤ v) :
    leavesFrom turn depth replayed s = walk turn depth replayed s ::
      match advance (walk turn depth replayed s).taken with
      | none => []
      | some next => leavesFrom turn depth next s := by
  induction depth generalizing replayed s with
  | zero =>
      rw [walk_zero_taken, walk_zero]
      rfl
  | succ depth ih =>
      rcases turn_cases turn s with ⟨events, a, ht⟩ | ⟨events, n, reply, ht⟩
      · rw [leavesFrom_ends ht, walk_ends ht]
        rfl
      have hv : 0 ≤ replayed.headD 0 := headD_nonneg h
      rw [leavesFrom_asks ht, walk_asks ht, ih fun v hv => h v (List.mem_of_mem_tail hv)]
      generalize replayed.headD 0 = v at hv ⊢
      generalize walk turn depth replayed.tail (reply v) = w
      -- either a deeper answer can be raised, or this one, or none
      cases hw : advance w.taken with
      | some later =>
          have hadv : advance (w.after v n events).taken = some (v :: later) := by
            simp only [Walk.after, advance, hw]
          simp only [hadv, leavesFrom_asks ht, List.headD_cons, List.tail_cons, List.map_cons,
            List.cons_append]
      | none =>
          by_cases hn : v + 1 < n
          · have hadv : advance (w.after v n events).taken = some [v + 1] := by
              simp only [Walk.after, advance, hw, if_pos hn]
            rw [leavesAbove_succ (by omega) (by omega)]
            simp only [hadv, leavesFrom_asks ht, List.headD_cons, List.tail_cons,
              leavesFrom_nil, List.map_cons, List.map_nil, List.cons_append, List.nil_append]
          · have hadv : advance (w.after v n events).taken = none := by
              simp only [Walk.after, advance, hw, if_neg hn]
            rw [leavesAbove_last hv hn]
            simp only [hadv, List.map_cons, List.map_nil, List.append_nil]

/-! ## The search as a whole -/

section Paths

variable {fatal : α → Bool} {budget : Nat}

/-- Only leaves are walked, in their order, whether or not one is fatal. -/
theorem paths_isPrefix (h : ∀ v ∈ replayed, 0 ≤ v) :
    (paths turn s depth fatal budget replayed).1 <+: leavesFrom turn depth replayed s := by
  induction budget generalizing replayed with
  | zero => exact List.nil_prefix
  | succ budget ih =>
      rw [leavesFrom_eq_cons h, paths]
      dsimp only
      split
      · exact List.prefix_cons_iff.mpr (Or.inr ⟨[], rfl, List.nil_prefix⟩)
      · cases ha : advance (walk turn depth replayed s).taken with
        | none => exact List.prefix_rfl
        | some next =>
            have hnext := ih (advance_nonneg (walk_taken_nonneg h) ha)
            exact (List.prefix_cons_inj _).mpr hnext

/-- Where no path that was walked is fatal, the search walks as many leaves as the budget has
and tells whether there are more. -/
theorem paths_eq_take (h : ∀ v ∈ replayed, 0 ≤ v)
    (hw : ∀ w ∈ (paths turn s depth fatal budget replayed).1, w.ending.any fatal = false) :
    paths turn s depth fatal budget replayed =
      ((leavesFrom turn depth replayed s).take budget,
        decide (budget < (leavesFrom turn depth replayed s).length)) := by
  induction budget generalizing replayed with
  | zero =>
      rw [leavesFrom_eq_cons h]
      rfl
  | succ budget ih =>
      rw [paths] at hw ⊢
      dsimp only at hw ⊢
      split at hw
      · rename_i hfatal
        have hsafe := hw _ List.mem_cons_self
        rw [hfatal] at hsafe
        exact nomatch hsafe
      · rename_i hfatal
        rw [if_neg hfatal, leavesFrom_eq_cons h]
        cases ha : advance (walk turn depth replayed s).taken with
        | none => simp
        | some next =>
            rw [ha] at hw
            dsimp only
            rw [ih (advance_nonneg (walk_taken_nonneg h) ha)
              fun w hmem => hw w (List.mem_cons_of_mem _ hmem)]
            simp

theorem mem_leaves_of_mem_paths {w : Walk α}
    (hw : w ∈ (paths turn s depth fatal budget []).1) : w ∈ leaves turn depth s := by
  have hnil : ∀ v ∈ ([] : List Int), 0 ≤ v := fun v hv => nomatch hv
  rw [← leavesFrom_nil]
  exact (paths_isPrefix hnil).subset hw

theorem paths_eq_take_leaves
    (hw : ∀ w ∈ (paths turn s depth fatal budget []).1, w.ending.any fatal = false) :
    paths turn s depth fatal budget [] =
      ((leaves turn depth s).take budget, decide (budget < (leaves turn depth s).length)) := by
  rw [← leavesFrom_nil]
  exact paths_eq_take (fun v hv => nomatch hv) hw

end Paths

/-! ## The leaves -/

theorem Branching.child (hs : Branching turn s) (h : turn s = (events, .asks n reply)) {v : Int}
    (hv : ReplyRule.inRange n v) : Branching turn (reply v) :=
  fun t _ _ _ ht => hs t _ _ _ (.child h hv ht)

theorem Branching.inRange (hs : Branching turn s) (h : turn s = (events, .asks n reply)) {v : Int}
    (hv : ReplyRule.explored n v) : ReplyRule.inRange n v := by
  have hn := hs s _ _ _ .here h
  rcases hv with rfl | hv
  · exact ⟨Int.le_refl 0, by omega⟩
  · exact hv

theorem Leaf.reaches {vs : List Int} (h : Leaf turn depth s vs (some a)) :
    ∃ t events, Reaches turn s t ∧ turn t = (events, .ends a) := by
  generalize ho : some a = o at h
  induction h with
  | ends h =>
      obtain rfl := Option.some.inj ho
      exact ⟨_, _, .here, h⟩
  | cut h => exact nomatch ho
  | child h hv rest ih =>
      obtain ⟨t, events, ht, hends⟩ := ih ho
      exact ⟨t, events, .child h hv ht, hends⟩

theorem mem_leaves_asks (h : turn s = (events, .asks n reply)) {w : Walk α} :
    w ∈ leaves turn (depth + 1) s ↔ ∃ v, ReplyRule.explored n v ∧
      ∃ w' ∈ leaves turn depth (reply v), w'.after v n events = w := by
  rw [leaves, h]
  simp only [List.mem_flatMap, List.mem_range, List.mem_map]
  constructor
  · rintro ⟨v, hv, w', hw', rfl⟩
    refine ⟨v, ?_, w', hw', rfl⟩
    unfold ReplyRule.explored ReplyRule.inRange
    omega
  · rintro ⟨v, hv, w', hw', rfl⟩
    unfold ReplyRule.explored ReplyRule.inRange at hv
    have hcast : (v.toNat : Int) = v := by omega
    refine ⟨v.toNat, by omega, w', ?_, ?_⟩ <;> rw [hcast]
    exact hw'

theorem mem_leaves_ends (h : turn s = (events, .ends a)) {w : Walk α} :
    w ∈ leaves turn depth s ↔ w = ⟨[], some a, events⟩ := by
  rw [← leavesFrom_nil, leavesFrom_ends h]
  exact List.mem_singleton

theorem mem_leaves_zero (h : turn s = (events, .asks n reply)) {w : Walk α} :
    w ∈ leaves turn 0 s ↔ w = ⟨[], none, events⟩ := by
  rw [leaves, walk_asks_zero h]
  exact List.mem_singleton

theorem leaf_of_mem_leaves (hs : Branching turn s) {w : Walk α} (hw : w ∈ leaves turn depth s) :
    Leaf turn depth s w.choices w.ending := by
  induction depth generalizing s w with
  | zero =>
      rcases turn_cases turn s with ⟨events, a, h⟩ | ⟨events, n, reply, h⟩
      · rw [(mem_leaves_ends h).mp hw]
        exact .ends h
      · rw [(mem_leaves_zero h).mp hw]
        exact .cut h
  | succ depth ih =>
      rcases turn_cases turn s with ⟨events, a, h⟩ | ⟨events, n, reply, h⟩
      · rw [(mem_leaves_ends h).mp hw]
        exact .ends h
      · obtain ⟨v, hv, w', hw', rfl⟩ := (mem_leaves_asks h).mp hw
        have hv := hs.inRange h hv
        exact .child h hv (ih (hs.child h hv) hw')

theorem Leaf.exists_mem (hs : Branching turn s) {vs : List Int} {o : Option α}
    (h : Leaf turn depth s vs o) : ∃ w ∈ leaves turn depth s, w.choices = vs ∧ w.ending = o := by
  induction h with
  | ends h => exact ⟨_, (mem_leaves_ends h).mpr rfl, rfl, rfl⟩
  | cut h => exact ⟨_, (mem_leaves_zero h).mpr rfl, rfl, rfl⟩
  | child h hv rest ih =>
      obtain ⟨w, hw, rfl, rfl⟩ := ih (hs.child h hv)
      exact ⟨_, (mem_leaves_asks h).mpr ⟨_, Or.inr hv, w, hw, rfl⟩, rfl, rfl⟩

theorem taken_inRange (hs : Branching turn s) {w : Walk α} (hw : w ∈ leaves turn depth s) :
    ∀ c ∈ w.taken, 0 ≤ c.1 ∧ c.1 < c.2 := by
  induction depth generalizing s w with
  | zero =>
      rw [List.mem_singleton.mp hw, walk_zero_taken]
      intro c hc
      exact nomatch hc
  | succ depth ih =>
      rcases turn_cases turn s with ⟨events, a, h⟩ | ⟨events, n, reply, h⟩
      · rw [(mem_leaves_ends h).mp hw]
        intro c hc
        exact nomatch hc
      · obtain ⟨v, hv, w', hw', rfl⟩ := (mem_leaves_asks h).mp hw
        have hv := hs.inRange h hv
        intro c hc
        rcases List.mem_cons.mp hc with rfl | hc
        · exact hv
        · exact ih (hs.child h hv) hw' c hc

theorem leaves_pairwise : (leaves turn depth s).Pairwise fun w w' => w.choices < w'.choices := by
  induction depth generalizing s with
  | zero => exact List.pairwise_singleton _ _
  | succ depth ih =>
      rcases turn_cases turn s with ⟨events, a, h⟩ | ⟨events, n, reply, h⟩
      · rw [leaves, h]
        exact List.pairwise_singleton _ _
      rw [leaves, h]
      -- below one reply by induction, and below two replies by these
      refine List.pairwise_flatMap.mpr ⟨fun v _ => ?_, ?_⟩
      · refine List.pairwise_map.mpr (ih.imp ?_)
        intro w w' hlt
        exact List.Lex.cons hlt
      · refine List.pairwise_lt_range.imp ?_
        intro v v' hlt w hw w' hw'
        obtain ⟨_, _, rfl⟩ := List.mem_map.mp hw
        obtain ⟨_, _, rfl⟩ := List.mem_map.mp hw'
        exact List.Lex.rel (Int.ofNat_lt.mpr hlt)

end Search

/-! ## Dialogues

A dialogue that a search has gone through without a cut holds no surprises: what
it comes to under explored replies is what the leaves say, and answers that fit
its questions are those of a leaf. -/

namespace Dialogue

variable {α β : Type} {depth : Nat}

theorem mem_leaves_note {e : Event} {rest : Dialogue α} {w : Walk α}
    (hw : w ∈ Search.leaves turn depth rest) :
    { w with events := e :: w.events } ∈ Search.leaves turn depth (note e rest) := by
  have hturn {events : List Event} {t : Turn (Dialogue α) α} (h : rest.turn = (events, t)) :
      (note e rest).turn = (e :: events, t) := by
    rw [turn, h]
  rcases Search.turn_cases turn rest with ⟨events, a, h⟩ | ⟨events, n, reply, h⟩
  · rw [(Search.mem_leaves_ends h).mp hw]
    exact (Search.mem_leaves_ends (hturn h)).mpr rfl
  · cases depth with
    | zero =>
        rw [(Search.mem_leaves_zero h).mp hw]
        exact (Search.mem_leaves_zero (hturn h)).mpr rfl
    | succ depth =>
        obtain ⟨v, hv, w', hw', rfl⟩ := (Search.mem_leaves_asks h).mp hw
        exact (Search.mem_leaves_asks (hturn h)).mpr ⟨v, hv, w', hw', rfl⟩

/-- What holds at the leaves of a dialogue holds under all explored replies.  The leaves may be
known by a part `f` of the result only. -/
theorem all_of_leaves {f : α → β} {P : α → Prop} (d : Dialogue α)
    (hcut : ∀ w ∈ Search.leaves turn depth (d.bind fun a => done (f a)), w.ending ≠ none)
    (h : ∀ w ∈ Search.leaves turn depth (d.bind fun a => done (f a)),
      w.ending = some (f (d.play w.choices).result) → P (d.play w.choices).result) :
    d.All .explored P := by
  induction d generalizing depth with
  | done a => exact h _ ((Search.mem_leaves_ends rfl).mpr rfl) rfl
  | note e rest ih =>
      exact ih (fun w hw => hcut { w with events := e :: w.events } (mem_leaves_note hw))
        fun w hw => h { w with events := e :: w.events } (mem_leaves_note hw)
  | ask n reply ih =>
      cases depth with
      | zero => exact absurd rfl (hcut _ ((Search.mem_leaves_zero rfl).mpr rfl))
      | succ depth =>
          intro v hv
          have hleaf {w : Walk β}
              (hw : w ∈ Search.leaves turn depth ((reply v).bind fun a => done (f a))) :
              w.after v n [] ∈ Search.leaves turn (depth + 1)
                ((ask n reply).bind fun a => done (f a)) :=
            (Search.mem_leaves_asks rfl).mpr ⟨v, hv, w, hw, rfl⟩
          exact ih v (fun w hw => hcut (w.after v n []) (hleaf hw))
            fun w hw => h (w.after v n []) (hleaf hw)

theorem exists_leaf_of_fit (d : Dialogue α) {answers : List Int}
    (hcut : ∀ w ∈ Search.leaves turn depth d, w.ending ≠ none)
    (hfit : Fit .inRange answers (d.play answers).asked) :
    ∃ w ∈ Search.leaves turn depth d,
      w.choices = answers ∧ w.ending = some (d.play answers).result := by
  induction d generalizing depth answers with
  | done a =>
      cases hfit
      exact ⟨_, (Search.mem_leaves_ends rfl).mpr rfl, rfl, rfl⟩
  | note e rest ih =>
      obtain ⟨w, hw, hchoices, hending⟩ :=
        ih (fun w hw => hcut { w with events := e :: w.events } (mem_leaves_note hw)) hfit
      exact ⟨_, mem_leaves_note hw, hchoices, hending⟩
  | ask n reply ih =>
      cases depth with
      | zero => exact absurd rfl (hcut _ ((Search.mem_leaves_zero rfl).mpr rfl))
      | succ depth =>
          cases hfit with
          | @cons v _ answers _ hv hrest =>
              have hleaf {w : Walk α} (hw : w ∈ Search.leaves turn depth (reply v)) :
                  w.after v n [] ∈ Search.leaves turn (depth + 1) (ask n reply) :=
                (Search.mem_leaves_asks rfl).mpr ⟨v, Or.inr hv, w, hw, rfl⟩
              obtain ⟨w, hw, hchoices, hending⟩ :=
                ih v (fun w hw => hcut (w.after v n []) (hleaf hw)) hrest
              exact ⟨_, hleaf hw, congrArg (v :: ·) hchoices, hending⟩

end Dialogue

/-! ## Exploration -/

namespace Explore

variable {σ : Type} {turn : σ → List Event × Turn σ Ending} {body : PathState → σ}
  {setup : Walk Ending} {st : PathState} {limits : Limits} {name : String}

theorem walkBlock_done (e : Engine) (s : PathState) :
    walkBlock e limits .done s = ⟨[], some (.ok s), []⟩ := Search.walk_ends rfl

theorem any_isFatal_eq_false_iff {o : Option Ending} :
    o.any isFatal = false ↔ misuse? o = none := by
  cases o with
  | none => exact Iff.intro (fun _ => rfl) fun _ => rfl
  | some a => exact Option.isSome_eq_false_iff.trans Option.isNone_iff_eq_none

theorem runAfter_eq_ok {interrupt : Interrupt} (htaken : setup.taken = [])
    (hending : setup.ending = some (.ok st)) {walks : List (Walk Ending)} {unfinished : Bool}
    (hpaths : Search.paths turn (body st) limits.maxDepth isFatal (interrupt.budget limits) [] =
      (walks, unfinished))
    (hsafe : ∀ w ∈ walks, w.ending.any isFatal = false) :
    (runAfter setup turn body limits interrupt name).2 =
      .ok ⟨report name walks (unfinished && !interrupt.isWithin limits),
        observations setup.events, walks.map fun w => observations w.events,
        if unfinished && interrupt.isWithin limits then some .interrupted else none⟩ := by
  have hnone : walks.findSome? (fun w => misuse? w.ending) = none := by
    rw [List.findSome?_eq_none_iff]
    intro w hw
    exact any_isFatal_eq_false_iff.mp (hsafe w hw)
  have hsetup : misuse? (some (.ok st)) = none := rfl
  simp only [runAfter, exploreFrom, htaken, hending, hpaths, hnone, hsetup, List.isEmpty_nil,
    Bool.not_true, Bool.false_eq_true, if_false]

/-- **To call an exploration off keeps the paths made so far.**  They are the first leaves, and it
is an error just when there are more. -/
theorem runAfter_calledOff (htaken : setup.taken = []) (hending : setup.ending = some (.ok st))
    (hsafe : ∀ w ∈ Search.leaves turn limits.maxDepth (body st), w.ending.any isFatal = false)
    {n : Nat} (hn : n ≤ limits.maxPaths) :
    let leaves := Search.leaves turn limits.maxDepth (body st)
    ∃ x, (runAfter setup turn body limits ⟨some n⟩ name).2 = .ok x ∧
      x.report.paths = (leaves.take n).map result ∧ x.report.truncated = false ∧
      (x.error = some .interrupted ↔ n < leaves.length) := by
  have hbudget : Interrupt.budget ⟨some n⟩ limits = n := Nat.min_eq_left hn
  have hwithin : Interrupt.isWithin ⟨some n⟩ limits = true := decide_eq_true hn
  have hpaths : Search.paths turn (body st) limits.maxDepth isFatal
      (Interrupt.budget ⟨some n⟩ limits) [] = _ :=
    Search.paths_eq_take_leaves fun w hw => hsafe w (Search.mem_leaves_of_mem_paths hw)
  refine ⟨_, runAfter_eq_ok htaken hending hpaths
    fun w hw => hsafe w (List.mem_of_mem_take hw), ?_, ?_, ?_⟩
  · simp only [report, hbudget]
  · simp only [report, hwithin, Bool.not_true, Bool.and_false]
  · simp [hwithin, hbudget]

/-- An exploration that comes to a report, and did not run out of paths, reports all leaves, and
none of them is a refusal. -/
theorem leaves_of_runAfter_eq_ok {interrupt : Interrupt} {x : Exploration}
    (htaken : setup.taken = []) (hending : setup.ending = some (.ok st))
    (hrun : (runAfter setup turn body limits interrupt name).2 = .ok x) (herror : x.error = none)
    (htruncated : x.report.truncated = false) :
    x.report.paths = (Search.leaves turn limits.maxDepth (body st)).map result ∧
      ∀ w ∈ Search.leaves turn limits.maxDepth (body st), misuse? w.ending = none := by
  have hsetup : misuse? (some (.ok st)) = none := rfl
  obtain ⟨walks, unfinished, hpaths⟩ : ∃ walks unfinished,
    Search.paths turn (body st) limits.maxDepth isFatal (interrupt.budget limits) [] =
      (walks, unfinished) := ⟨_, _, rfl⟩
  simp only [runAfter, exploreFrom, htaken, hending, hpaths, hsetup, List.isEmpty_nil,
    Bool.not_true, Bool.false_eq_true, if_false] at hrun
  split at hrun
  · exact nomatch hrun
  · rename_i hnone
    obtain rfl := Except.ok.inj hrun
    obtain rfl : unfinished = false := by
      cases unfinished with
      | false => rfl
      | true =>
          -- a search that is not finished was called off, or has run out of paths
          have hoff : interrupt.isWithin limits = false := by
            simpa using herror
          simp [report, hoff] at htruncated
    rw [List.findSome?_eq_none_iff] at hnone
    have htake := Search.paths_eq_take_leaves fun w hw => by
      rw [hpaths] at hw
      exact any_isFatal_eq_false_iff.mpr (hnone w hw)
    rw [hpaths, Prod.mk.injEq] at htake
    have hlength := not_lt.mp (of_decide_eq_false htake.2.symm)
    rw [List.take_of_length_le hlength] at htake
    rw [← htake.1]
    exact ⟨rfl, hnone⟩

/-- An exploration reports exactly the leaves of the tree that its body is, cut at the depth: in
lexicographic order, each once, as many as there may be paths. -/
theorem runAfter_reports_leaves (htaken : setup.taken = [])
    (hending : setup.ending = some (.ok st)) (hasks : Search.Branching turn (body st))
    (hends : ∀ t events a, Search.Reaches turn (body st) t → turn t = (events, .ends a) →
      isFatal a = false) :
    ∃ leaves : List (List Int × Option Ending),
      (∀ vs o, (vs, o) ∈ leaves ↔ Search.Leaf turn limits.maxDepth (body st) vs o) ∧
      leaves.Pairwise (fun l l' => l.1 < l'.1) ∧
      (∃ x, (runAfter setup turn body limits false name).2 = .ok x ∧ x.error = none ∧
        x.report.paths = (leaves.take limits.maxPaths).map
          (fun l => ⟨some l.1, outcome l.2, fault? l.2⟩) ∧
        (x.report.truncated = true ↔ limits.maxPaths < leaves.length)) ∧
      ∀ w ∈ (Search.paths turn (body st) limits.maxDepth isFatal limits.maxPaths []).1,
        ∀ c ∈ w.taken, 0 ≤ c.1 ∧ c.1 < c.2 := by
  have hsafe : ∀ w ∈ Search.leaves turn limits.maxDepth (body st),
      w.ending.any isFatal = false := by
    intro w hw
    have hleaf := Search.leaf_of_mem_leaves hasks hw
    cases ho : w.ending with
    | none => rfl
    | some a =>
        rw [ho] at hleaf
        obtain ⟨t, events, ht, hturn⟩ := hleaf.reaches
        exact hends t events a ht hturn
  have hpaths : Search.paths turn (body st) limits.maxDepth isFatal limits.maxPaths [] = _ :=
    Search.paths_eq_take_leaves fun w hw => hsafe w (Search.mem_leaves_of_mem_paths hw)
  have hnever : Interrupt.isWithin false limits = false := rfl
  refine ⟨(Search.leaves turn limits.maxDepth (body st)).map fun w => (w.choices, w.ending),
    ?_, ?_, ⟨_, runAfter_eq_ok htaken hending hpaths
      fun w hw => hsafe w (List.mem_of_mem_take hw), ?_, ?_, ?_⟩, ?_⟩
  · intro vs o
    simp only [List.mem_map, Prod.mk.injEq]
    constructor
    · rintro ⟨w, hw, rfl, rfl⟩
      exact Search.leaf_of_mem_leaves hasks hw
    · intro h
      obtain ⟨w, hw, hvs, ho⟩ := h.exists_mem hasks
      exact ⟨w, hw, hvs, ho⟩
  · exact List.pairwise_map.mpr Search.leaves_pairwise
  · rw [hnever, Bool.and_false]
    rfl
  · simp only [report, ← List.map_take, List.map_map]
    rfl
  · rw [hnever, Bool.not_false, Bool.and_true]
    simp only [report, List.length_map, decide_eq_true_eq]
  · intro w hw
    exact Search.taken_inRange hasks (Search.mem_leaves_of_mem_paths hw)

/-- A body that gives up on the second of three replies and asks again on the others, without
end. -/
def endless (reply : Int) : List Event × Turn Int Ending :=
  if reply = 1 then ([], .ends (.error .cancelled)) else ([], .asks 3 id)

theorem runAfter_reports_leaves_endless :
    ∃ leaves : List (List Int × Option Ending),
      (∀ vs o, (vs, o) ∈ leaves ↔ Search.Leaf endless 4 0 vs o) ∧
      leaves.Pairwise (fun l l' => l.1 < l'.1) ∧
      (∃ x, (runAfter ⟨[], some (.ok .empty), []⟩ endless (fun _ => 0) ⟨4, 9⟩ false "p").2 = .ok x ∧
        x.error = none ∧
        x.report.paths = (leaves.take 9).map (fun l => ⟨some l.1, outcome l.2, fault? l.2⟩) ∧
        (x.report.truncated = true ↔ 9 < leaves.length)) ∧
      ∀ w ∈ (Search.paths endless 0 4 isFatal 9 []).1, ∀ c ∈ w.taken, 0 ≤ c.1 ∧ c.1 < c.2 := by
  refine @runAfter_reports_leaves Int endless (fun _ => 0) ⟨[], some (.ok .empty), []⟩ .empty ⟨4, 9⟩
    "p" rfl rfl ?_ ?_
  · intro t events n reply _ h
    unfold endless at h
    split at h
    · simp at h
    · simp only [Prod.mk.injEq, Turn.asks.injEq] at h
      omega
  · intro t events a _ h
    unfold endless at h
    split at h
    · simp only [Prod.mk.injEq, Turn.ends.injEq] at h
      rw [← h.2]
      rfl
    · simp at h

end Explore

end Narrowing
