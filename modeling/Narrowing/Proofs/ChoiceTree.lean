/-
# Insertion into a tree of choices

An insertion follows a sequence through the nodes, links new ones where it finds none, and
marks the last.  Of each step it is said what it does to the walks through the tree: a new
node is reached by the one sequence that was followed so far, and all other walks lead
where they led before.  This hangs on the links having the shape of a tree, in which no node
is reached in two ways.  So to set the label of one sequence changes what is found for this
one and for no other (`find_insert`).
-/
import Narrowing.ChoiceTree
import Mathlib.Data.List.Basic
import Mathlib.Data.List.Induction

namespace Narrowing

namespace ChoiceTree

/-! ## Nodes -/

namespace Node

variable {n : Node} {c d : Int} {place : Nat}

/-- What is found where a sequence ends at a node. -/
def found (n : Node) : String × Bool := (n.label, n.isEnd)

theorem child?_link (h : n.child? c = none) :
    (n.link c place h).child? d = if d = c then some place else n.child? d := by
  unfold child? link
  rw [List.find?_append]
  by_cases hd : d = c
  · subst hd
    rw [Option.map_eq_none_iff.mp h]
    simp
  · have hlast : [(c, place)].find? (fun e => e.1 == d) = none := by
      simp [Ne.symm hd]
    rw [hlast, Option.or_none, if_neg hd]

end Node

variable {t : ChoiceTree} {i j k place : Nat} {c d : Int} {p s u : List Int} {label : String}

theorem node_setNode {n : Node} (hi : i < t.nodes.size)
    (hn : ∀ e ∈ n.children, i < e.2 ∧ e.2 < t.nodes.size) :
    (t.setNode i n hi hn).node k = if k = i then n else t.node k :=
  getD_set hi n k

theorem size_grow (hc : (t.node i).child? c = none) (hi : i < t.nodes.size) :
    (t.grow i c hc hi).nodes.size = t.nodes.size + 1 := by
  simp [grow, link, setNode, newNode]

theorem node_grow (hc : (t.node i).child? c = none) (hi : i < t.nodes.size) :
    (t.grow i c hc hi).node k =
      if k = i then (t.node i).link c t.nodes.size hc else t.node k := by
  unfold grow link
  rw [node_setNode]
  simp only [node_newNode]

theorem child?_grow (hc : (t.node i).child? c = none) (hi : i < t.nodes.size) :
    ((t.grow i c hc hi).node k).child? d =
      if k = i ∧ d = c then some t.nodes.size else (t.node k).child? d := by
  rw [node_grow]
  by_cases hk : k = i
  · subst hk
    rw [if_pos rfl, Node.child?_link]
    simp
  · rw [if_neg hk, if_neg (fun h => hk h.1)]

theorem found_grow (hc : (t.node i).child? c = none) (hi : i < t.nodes.size) :
    ((t.grow i c hc hi).node k).found = (t.node k).found := by
  rw [node_grow]
  split
  · rename_i hk
    rw [hk]
    rfl
  · rfl

theorem node_mark (hi : i < t.nodes.size) : (t.mark i label hi).node k =
    if k = i then { t.node i with isEnd := true, label := label } else t.node k :=
  getD_set hi _ k

theorem node_of_size_le (hk : t.nodes.size ≤ k) : t.node k = .leaf := by
  rw [node, Array.getD_eq_getD_getElem?, Array.getElem?_eq_none hk]
  rfl

/-! ## Walks -/

/-- Where a sequence leads from a node. -/
def walkFrom (t : ChoiceTree) : Nat → List Int → Option Nat
  | i, [] => some i
  | i, c :: cs =>
    match (t.node i).child? c with
    | none => none
    | some place => t.walkFrom place cs

/-- Where a sequence leads from the root. -/
def walk (t : ChoiceTree) (s : List Int) : Option Nat := t.walkFrom 0 s

theorem findFrom_eq : t.findFrom i s =
    ((t.walkFrom i s).map fun j => (t.node j).found).getD ("", false) := by
  induction s generalizing i with
  | nil => rfl
  | cons c s ih =>
      unfold findFrom walkFrom
      cases (t.node i).child? c with
      | none => rfl
      | some place => exact ih

theorem walkFrom_append : t.walkFrom i (s ++ u) = (t.walkFrom i s).bind (t.walkFrom · u) := by
  induction s generalizing i with
  | nil => rfl
  | cons c s ih =>
      rw [List.cons_append, walkFrom, walkFrom]
      cases (t.node i).child? c with
      | none => rfl
      | some place => exact ih

theorem walkFrom_single : t.walkFrom i [c] = (t.node i).child? c := by
  unfold walkFrom
  cases (t.node i).child? c <;> rfl

theorem walk_concat : t.walk (s ++ [c]) = (t.walk s).bind fun j => (t.node j).child? c := by
  rw [walk, walkFrom_append]
  simp only [walkFrom_single]
  rfl

theorem find_append (h : t.walk p = some i) : t.find (p ++ s) = t.findFrom i s := by
  rw [find, findFrom_eq, walkFrom_append, findFrom_eq]
  unfold walk at h
  rw [h]
  rfl

theorem walk_lt (h : t.walk s = some i) : i < t.nodes.size := by
  induction s using List.reverseRecOn generalizing i with
  | nil => exact Option.some.inj h ▸ t.rooted
  | append_singleton s c ih =>
      rw [walk_concat, Option.bind_eq_some_iff] at h
      obtain ⟨j, -, hchild⟩ := h
      exact (linked_of_child? hchild).2

theorem walk_isSome_of_isPrefix (hs : s <+: u) (h : (t.walk u).isSome) : (t.walk s).isSome := by
  obtain ⟨v, rfl⟩ := hs
  obtain ⟨j, hj⟩ := Option.isSome_iff_exists.mp h
  rw [walk, walkFrom_append, Option.bind_eq_some_iff] at hj
  obtain ⟨i, hi, -⟩ := hj
  exact Option.isSome_iff_exists.mpr ⟨i, hi⟩

theorem walk_empty : empty.walk s = if s = [] then some 0 else none := by
  cases s <;> rfl

theorem find_empty : empty.find s = ("", false) := by
  cases s <;> rfl

/-! ## One step -/

/-- No node is reached in two ways. -/
def Apart (t : ChoiceTree) : Prop :=
  ∀ s u i, t.walk s = some i → t.walk u = some i → s = u

/-- A new node is reached by the choice it was made for, and nothing else has changed. -/
theorem Apart.walk_grow (ht : t.Apart) (hp : t.walk p = some i) (hc : (t.node i).child? c = none)
    (hi : i < t.nodes.size) :
    (t.grow i c hc hi).walk s = if s = p ++ [c] then some t.nodes.size else t.walk s := by
  induction s using List.reverseRecOn with
  | nil => rw [if_neg (by simp)]; rfl
  | append_singleton s d ih =>
      have hend : t.walk (p ++ [c]) = none := by
        rw [walk_concat, hp]
        exact hc
      rw [walk_concat, walk_concat, ih]
      by_cases hs : s = p ++ [c]
      · -- the new node has no children yet
        have hleaf : (t.node t.nodes.size).child? d = none := by
          rw [node_of_size_le (Nat.le_refl _)]
          rfl
        subst hs
        simp [hend, child?_grow, hleaf, Nat.ne_of_gt hi]
      · rw [if_neg hs]
        cases hwalk : t.walk s with
        | none =>
            have hne : s ++ [d] ≠ p ++ [c] := by
              intro heq
              obtain ⟨rfl, -⟩ := List.append_inj' heq rfl
              rw [hwalk] at hp
              cases hp
            rw [if_neg hne]
            rfl
        | some k =>
            have hk : k = i ↔ s = p := by
              constructor
              · rintro rfl
                exact ht _ _ _ hwalk hp
              · rintro rfl
                exact Option.some.inj (hwalk.symm.trans hp)
            simp only [Option.bind_some, child?_grow, hk, List.append_singleton_inj]

/-- The links have the shape of a tree: one sequence leads to each node. -/
structure Shaped (t : ChoiceTree) : Prop where
  apart : t.Apart
  reached : ∀ i < t.nodes.size, ∃ s, t.walk s = some i

theorem Shaped.grow (ht : t.Shaped) (hp : t.walk p = some i) (hc : (t.node i).child? c = none)
    (hi : i < t.nodes.size) : (t.grow i c hc hi).Shaped := by
  have hend : t.walk (p ++ [c]) = none := by
    rw [walk_concat, hp]
    exact hc
  constructor
  · intro s u k hs hu
    rw [ht.apart.walk_grow hp] at hs hu
    split at hs
    · rename_i hs'
      split at hu
      · rename_i hu'
        rw [hs', hu']
      · obtain rfl := Option.some.inj hs
        exact absurd (walk_lt hu) (Nat.lt_irrefl _)
    · split at hu
      · obtain rfl := Option.some.inj hu
        exact absurd (walk_lt hs) (Nat.lt_irrefl _)
      · exact ht.apart s u k hs hu
  · intro k hk
    rw [size_grow] at hk
    rcases Nat.lt_succ_iff_lt_or_eq.mp hk with hk | rfl
    · obtain ⟨s, hs⟩ := ht.reached k hk
      refine ⟨s, ?_⟩
      rw [ht.apart.walk_grow hp, if_neg, hs]
      rintro rfl
      rw [hend] at hs
      cases hs
    · exact ⟨p ++ [c], by rw [ht.apart.walk_grow hp, if_pos rfl]⟩

theorem Shaped.find_grow (ht : t.Shaped) (hp : t.walk p = some i)
    (hc : (t.node i).child? c = none) (hi : i < t.nodes.size) :
    (t.grow i c hc hi).find s = t.find s := by
  have hwalk : (t.grow i c hc hi).walk s = _ := ht.apart.walk_grow hp hc hi
  rw [find, findFrom_eq, find, findFrom_eq]
  unfold walk at hwalk
  rw [hwalk]
  simp only [found_grow]
  split
  · rename_i hs
    -- the old tree finds nothing here, and neither does the new node say anything
    have hend : t.walkFrom 0 s = none := by
      rw [hs]
      show t.walk (p ++ [c]) = none
      rw [walk_concat, hp]
      exact hc
    rw [hend, Option.map_some, node_of_size_le (Nat.le_refl _)]
    rfl
  · rfl

theorem walk_mark (hi : i < t.nodes.size) : (t.mark i label hi).walk s = t.walk s := by
  have hchild (k : Nat) (d : Int) :
      ((t.mark i label hi).node k).child? d = (t.node k).child? d := by
    rw [node_mark]
    split
    · rename_i hk
      rw [hk]
      rfl
    · rfl
  unfold walk
  generalize 0 = k
  induction s generalizing k with
  | nil => rfl
  | cons d s ih =>
      unfold walkFrom
      rw [hchild]
      cases (t.node k).child? d with
      | none => rfl
      | some place => exact ih place

theorem Shaped.mark (ht : t.Shaped) (hi : i < t.nodes.size) : (t.mark i label hi).Shaped := by
  constructor
  · intro s u k hs hu
    rw [walk_mark] at hs hu
    exact ht.apart s u k hs hu
  · intro k hk
    obtain ⟨s, hs⟩ := ht.reached k (by simpa [ChoiceTree.mark, setNode] using hk)
    exact ⟨s, by rw [walk_mark, hs]⟩

theorem Shaped.find_mark (ht : t.Shaped) (hp : t.walk p = some i) (hi : i < t.nodes.size) :
    (t.mark i label hi).find s = if s = p then (label, true) else t.find s := by
  have hwalk : (t.mark i label hi).walk s = t.walk s := walk_mark hi
  unfold walk at hwalk
  rw [find, findFrom_eq, find, findFrom_eq, hwalk]
  by_cases hs : s = p
  · subst hs
    rw [if_pos rfl]
    unfold walk at hp
    rw [hp, Option.map_some, node_mark, if_pos rfl]
    rfl
  · rw [if_neg hs]
    cases hend : t.walkFrom 0 s with
    | none => rfl
    | some k =>
        have hk : k ≠ i := by
          rintro rfl
          exact hs (ht.apart s p k hend hp)
        rw [Option.map_some, node_mark, if_neg hk]
        rfl

/-! ## Insertion -/

/-- What an insertion comes to, from the node that was reached so far. -/
theorem Shaped.insertFrom {q : List Int} (ht : t.Shaped) (hp : t.walk p = some i)
    (hi : i < t.nodes.size) :
    (insertFrom label q t i hi).Shaped ∧
    (∀ s, (ChoiceTree.insertFrom label q t i hi).find s =
      if s = p ++ q then (label, true) else t.find s) ∧
    ∀ s, ((ChoiceTree.insertFrom label q t i hi).walk s).isSome ↔
      (t.walk s).isSome ∨ s <+: p ++ q := by
  induction q generalizing t i p with
  | nil =>
      rw [ChoiceTree.insertFrom, List.append_nil]
      refine ⟨ht.mark hi, fun s => ht.find_mark hp hi, fun s => ?_⟩
      rw [walk_mark]
      refine (or_iff_left_of_imp fun hs => ?_).symm
      exact walk_isSome_of_isPrefix hs (hp ▸ rfl)
  | cons c q ih =>
      have hstep : p ++ c :: q = (p ++ [c]) ++ q := by simp
      rw [ChoiceTree.insertFrom, hstep]
      split
      · rename_i place hc
        have hnext : t.walk (p ++ [c]) = some place := by
          rw [walk_concat, hp]
          exact hc
        exact ih ht hnext _
      · rename_i hc
        have hnext : (t.grow i c hc hi).walk (p ++ [c]) = some t.nodes.size := by
          rw [ht.apart.walk_grow hp, if_pos rfl]
        obtain ⟨hshaped, hfind, hwalk⟩ := ih (ht.grow hp hc hi) hnext (by simp [size_grow])
        refine ⟨hshaped, fun s => ?_, fun s => ?_⟩
        · rw [hfind, ht.find_grow hp]
        · rw [hwalk, ht.apart.walk_grow hp]
          split
          · rename_i hs
            simp [hs]
          · rfl

/-! ## Tidy trees -/

/-- What insertions keep: the links have the shape of a tree, each of them is on the way to a
label, and where no sequence ends there is no label. -/
structure Tidy (t : ChoiceTree) : Prop extends t.Shaped where
  fruitful : ∀ s, (t.walk s).isSome → s ≠ [] → ∃ u, (t.find (s ++ u)).2 = true
  blank : ∀ s, (t.find s).2 = false → (t.find s).1 = ""

theorem tidy_empty : empty.Tidy where
  apart := by
    intro s u i hs hu
    rw [walk_empty] at hs hu
    split at hs <;> split at hu <;> simp_all
  reached := by
    intro i hi
    obtain rfl : i = 0 := Nat.lt_one_iff.mp hi
    exact ⟨[], rfl⟩
  fruitful := by
    intro s hs hne
    rw [walk_empty, if_neg hne] at hs
    cases hs
  blank := by
    intro s _
    rw [find_empty]

section Insert

variable {choices : List Int}

/-- To set a label changes what is found for its sequence only. -/
theorem Tidy.find_insert (ht : t.Tidy) :
    (t.insert choices label).find s = if s = choices then (label, true) else t.find s :=
  (ht.toShaped.insertFrom (p := []) rfl t.rooted).2.1 s

/-- The nodes that an insertion makes are those on the way to its label. -/
theorem Tidy.walk_insert (ht : t.Tidy) : ((t.insert choices label).walk s).isSome ↔
    (t.walk s).isSome ∨ s <+: choices :=
  (ht.toShaped.insertFrom (p := []) rfl t.rooted).2.2 s

theorem Tidy.insert (ht : t.Tidy) : (t.insert choices label).Tidy where
  toShaped := (ht.toShaped.insertFrom (p := []) rfl t.rooted).1
  fruitful := by
    intro s hs hne
    rcases ht.walk_insert.mp hs with hs | ⟨u, hu⟩
    · obtain ⟨u, hu⟩ := ht.fruitful s hs hne
      refine ⟨u, ?_⟩
      rw [ht.find_insert]
      split
      · rfl
      · exact hu
    · exact ⟨u, by rw [ht.find_insert, if_pos hu]⟩
  blank := by
    intro s hs
    rw [ht.find_insert] at hs ⊢
    split at hs
    · cases hs
    · rename_i hne
      rw [if_neg hne]
      exact ht.blank s hs

end Insert

/-- The tree in which the labels of a list were set, one after another. -/
def ofList (entries : List (List Int × String)) : ChoiceTree :=
  entries.foldl (fun t e => t.insert e.1 e.2) empty

theorem ofList_concat (entries : List (List Int × String)) (e : List Int × String) :
    ofList (entries ++ [e]) = (ofList entries).insert e.1 e.2 := by
  rw [ofList, ofList, List.foldl_concat]

theorem tidy_ofList (entries : List (List Int × String)) : (ofList entries).Tidy := by
  induction entries using List.reverseRecOn with
  | nil => exact tidy_empty
  | append_singleton entries e ih => exact ofList_concat entries e ▸ ih.insert

end ChoiceTree

end Narrowing
