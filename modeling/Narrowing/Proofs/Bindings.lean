/-
# Bindings that paths share

What is bound to each name says all about bindings, since they stand in the order of
their names.  A join binds a name just where both sides bind it to the same handle.  So
it makes no difference in which order paths are joined, and in the end just that is bound
which every path has bound.
-/
import Narrowing.Bindings
import Mathlib.Data.List.Nodup

namespace Narrowing

/-- Where no two members have the same key, the one with a key is found by it. -/
theorem find?_key_eq_some_iff {ι κ : Type} [BEq κ] [LawfulBEq κ] {key : ι → κ} {l : List ι}
    (hl : (l.map key).Nodup) {k : κ} {i : ι} :
    (l.find? fun j => key j == k) = some i ↔ i ∈ l ∧ key i = k := by
  constructor
  · intro hfound
    have hkey := List.find?_some hfound
    exact ⟨List.mem_of_find?_eq_some hfound, eq_of_beq hkey⟩
  · rintro ⟨hi, rfl⟩
    cases hfound : l.find? fun j => key j == key i with
    | none => exact absurd (beq_self_eq_true (key i)) (List.find?_eq_none.mp hfound i hi)
    | some j =>
        have hkey := List.find?_some hfound
        exact congrArg some (List.inj_on_of_nodup_map hl (List.mem_of_find?_eq_some hfound) hi
          (eq_of_beq hkey))

namespace Bindings

variable {a b c : Bindings} {name : String} {h : Handle}

/-! ## Names -/

theorem nodup_names (b : Bindings) : b.names.Nodup :=
  List.pairwise_map.mpr (b.ascending.imp String.ne_of_lt)

theorem get?_eq_some_iff : b.get? name = some h ↔ (name, h) ∈ b.entries := by
  unfold get?
  simp only [Option.map_eq_some_iff, find?_key_eq_some_iff b.nodup_names]
  constructor
  · rintro ⟨_, ⟨hmem, rfl⟩, rfl⟩
    exact hmem
  · exact fun hmem => ⟨_, ⟨hmem, rfl⟩, rfl⟩

theorem ext_get? (hab : ∀ name h, a.get? name = some h ↔ b.get? name = some h) : a = b := by
  have hperm : a.entries.Perm b.entries := by
    refine (List.perm_ext_iff_of_nodup a.nodup_names.of_map b.nodup_names.of_map).mpr ?_
    rintro ⟨name, h⟩
    rw [← get?_eq_some_iff, ← get?_eq_some_iff]
    exact hab name h
  have hentries : a.entries = b.entries := by
    refine hperm.eq_of_pairwise ?_ a.ascending b.ascending
    intro e e' _ _ hlt hgt
    exact absurd (String.lt_trans hlt hgt) (String.lt_irrefl _)
  cases a
  cases b
  cases hentries
  rfl

/-! ## Joins -/

theorem get?_join : (a.join b).get? name = some h ↔
    a.get? name = some h ∧ b.get? name = some h := by
  rw [get?_eq_some_iff, get?_eq_some_iff]
  show _ ∈ List.filter _ _ ↔ _
  rw [List.mem_filter, beq_iff_eq]

theorem join_right_comm (a b c : Bindings) : (a.join b).join c = (a.join c).join b := by
  refine ext_get? fun name h => ?_
  simp only [get?_join]
  exact and_right_comm

theorem join_comm (a b : Bindings) : a.join b = b.join a :=
  ext_get? fun name h => by rw [get?_join, get?_join, and_comm]

@[simp] theorem join?_none (a : Option Bindings) : join? a none = a := by
  cases a <;> rfl

/-- The bindings that all states of a list share; there are none where the list is empty. -/
def shared (states : List Bindings) : Option Bindings :=
  states.foldl (fun found b => join? found (some b)) none

/-- Paths without a state add nothing. -/
theorem foldl_join?_eq_shared {ι : Type} (state : ι → Option Bindings) (l : List ι) :
    (l.map state).foldl join? none = shared (l.filterMap state) := by
  unfold shared
  generalize (none : Option Bindings) = found
  induction l generalizing found with
  | nil => rfl
  | cons i l ih =>
      rw [List.map_cons, List.foldl_cons, ih]
      cases hi : state i with
      | none => rw [join?_none, List.filterMap_cons_none hi]
      | some b => rw [List.filterMap_cons_some hi, List.foldl_cons]

theorem shared_perm {states states' : List Bindings} (hperm : states.Perm states') :
    shared states = shared states' := by
  refine hperm.foldl_eq' (fun b _ c _ found => ?_) none
  cases found with
  | none => exact congrArg some (join_comm b c)
  | some a => exact congrArg some (join_right_comm a b c)

theorem shared_cons (a : Bindings) (states : List Bindings) : ∃ c, shared (a :: states) = some c ∧
    ∀ name h, c.get? name = some h ↔ ∀ b ∈ a :: states, b.get? name = some h := by
  show ∃ c, states.foldl (fun found b => join? found (some b)) (some a) = some c ∧ _
  induction states generalizing a with
  | nil =>
      refine ⟨a, rfl, fun name h => ?_⟩
      rw [List.forall_mem_singleton]
  | cons b states ih =>
      obtain ⟨c, hc, hall⟩ := ih (a.join b)
      refine ⟨c, hc, fun name h => ?_⟩
      rw [hall, List.forall_mem_cons, List.forall_mem_cons, List.forall_mem_cons, get?_join,
        and_assoc]

theorem shared_eq_none_iff {states : List Bindings} : shared states = none ↔ states = [] := by
  cases states with
  | nil => exact iff_of_true rfl rfl
  | cons a states =>
      obtain ⟨c, hc, -⟩ := shared_cons a states
      rw [hc]
      exact iff_of_false nofun nofun

theorem get?_of_shared {states : List Bindings} (hc : shared states = some c) :
    c.get? name = some h ↔ ∀ b ∈ states, b.get? name = some h := by
  cases states with
  | nil => cases hc
  | cons a states =>
      obtain ⟨c', hc', hall⟩ := shared_cons a states
      obtain rfl := Option.some.inj (hc'.symm.trans hc)
      exact hall name h

end Bindings

end Narrowing
