/-
# The labels in an array of nodes

Read off in the order of the choices, the nodes below the root are the branches of a tree of
labels.  What is found in it, and how many nodes it has, is the same (`lookup_labels`,
`size_labels`), and each insertion does to it what it does to the array (`labels_insert`).
This is so since the tree of labels has one form for what is found in it: after an insertion
both sides are in order, all their branches lead to labels, and the labels are the same.
-/
import Narrowing.Proofs.Bindings
import Narrowing.Proofs.ChoiceTree
import Narrowing.Proofs.LabelTree.Form

namespace Narrowing

namespace ChoiceTree

/-! ## Children in order -/

namespace Node

variable {n : Node} {c : Int} {place : Nat} {e : Int × Nat}

theorem child?_eq_some_iff : n.child? c = some place ↔ (c, place) ∈ n.children := by
  unfold child?
  simp only [Option.map_eq_some_iff, find?_key_eq_some_iff n.distinct]
  constructor
  · rintro ⟨_, ⟨hmem, rfl⟩, rfl⟩
    exact hmem
  · exact fun hmem => ⟨_, ⟨hmem, rfl⟩, rfl⟩

theorem sorted_perm (n : Node) : n.sorted.Perm n.children := List.mergeSort_perm _ _

theorem mem_sorted : e ∈ n.sorted ↔ e ∈ n.children := n.sorted_perm.mem_iff

theorem nodup_sorted (n : Node) : (n.sorted.map Prod.fst).Nodup :=
  (n.sorted_perm.map Prod.fst).nodup_iff.mpr n.distinct

theorem ascending_sorted (n : Node) : n.sorted.Pairwise fun e e' => e.1 < e'.1 := by
  have hle : n.sorted.Pairwise fun e e' => e.1 ≤ e'.1 := by
    refine (List.pairwise_mergeSort ?_ ?_ n.children).imp of_decide_eq_true
    · intro a b c hab hbc
      exact decide_eq_true (Int.le_trans (of_decide_eq_true hab) (of_decide_eq_true hbc))
    · intro a b
      simpa using Int.le_total a.1 b.1
  refine (hle.and (List.pairwise_map.mp n.nodup_sorted)).imp ?_
  rintro e e' ⟨hle, hne⟩
  exact Int.lt_iff_le_and_ne.mpr ⟨hle, hne⟩

theorem find?_sorted (n : Node) (c : Int) :
    (n.sorted.find? fun e => e.1 == c) = n.children.find? fun e => e.1 == c := by
  ext e
  rw [find?_key_eq_some_iff n.nodup_sorted, find?_key_eq_some_iff n.distinct, mem_sorted]

end Node

/-- What holds of a node when it holds of its children holds of every node. -/
theorem node_induction (t : ChoiceTree) {motive : Nat → Prop}
    (step : ∀ i, (∀ e ∈ (t.node i).children, motive e.2) → motive i) (i : Nat) : motive i := by
  -- on the number of nodes behind, since children stand behind their parents
  induction h : t.nodes.size - i using Nat.strong_induction_on generalizing i with
  | _ n ih =>
      refine step i fun e he => ih _ ?_ e.2 rfl
      have := t.linked i e he
      omega

/-! ## The tree of labels -/

/-- The label of what was found, if there is one. -/
def label? (found : String × Bool) : Option String := if found.2 then some found.1 else none

/-- The branches below a node. -/
def branches (t : ChoiceTree) (i : Nat) : Branches :=
  (t.node i).sorted.attach.foldr
    (fun e rest => .cons e.1.1 (label? (t.node e.1.2).found) (t.branches e.1.2) rest) .nil
termination_by t.nodes.size - i
decreasing_by
  have := t.linked i e.1 (List.mem_mergeSort.mp e.2)
  omega

def labels (t : ChoiceTree) : LabelTree := ⟨label? (t.node 0).found, t.branches 0⟩

/-- Branches to some nodes. -/
def hang (t : ChoiceTree) (es : List (Int × Nat)) : Branches :=
  es.foldr (fun e rest => .cons e.1 (label? (t.node e.2).found) (t.branches e.2) rest) .nil

variable {t o : ChoiceTree} {i j : Nat} {c k : Int} {s u : List Int} {es : List (Int × Nat)}
  {choices : List Int} {label : String}

theorem branches_eq : t.branches i = t.hang (t.node i).sorted := by
  rw [branches, hang]
  conv_rhs => rw [← List.foldr_attach]

theorem lookup_hang : (t.hang es).lookup c s =
    match es.find? fun e => e.1 == c with
    | none => none
    | some e =>
      match s with
      | [] => label? (t.node e.2).found
      | d :: s => (t.branches e.2).lookup d s := by
  induction es with
  | nil => exact Branches.lookup_nil
  | cons e es ih =>
      rw [List.find?_cons]
      by_cases hc : c = e.1
      · subst hc
        rw [beq_self_eq_true]
        cases s with
        | nil => exact Branches.lookup_cons_end
        | cons d s => exact Branches.lookup_cons_below
      · rw [beq_false_of_ne (Ne.symm hc)]
        exact (Branches.lookup_cons_of_ne hc).trans ih

theorem lookup_branches : (t.branches i).lookup c s = label? (t.findFrom i (c :: s)) := by
  induction s generalizing i c with
  | nil =>
      rw [branches_eq, lookup_hang, Node.find?_sorted, findFrom, Node.child?]
      cases (t.node i).children.find? fun e => e.1 == c <;> rfl
  | cons d s ih =>
      rw [branches_eq, lookup_hang, Node.find?_sorted, findFrom, Node.child?]
      cases (t.node i).children.find? fun e => e.1 == c with
      | none => rfl
      | some e => exact ih

theorem lookup_labels : t.labels.lookup s = t.lookup s := by
  cases s with
  | nil => rfl
  | cons c s => exact lookup_branches

/-! ## Its form -/

theorem above_hang (h : ∀ e ∈ es, k < e.1) : (t.hang es).Above k := by
  induction es with
  | nil => trivial
  | cons e es ih =>
      obtain ⟨hfirst, hrest⟩ := List.forall_mem_cons.mp h
      exact ⟨hfirst, ih hrest⟩

theorem ascending_hang (hes : es.Pairwise fun e e' => e.1 < e'.1)
    (h : ∀ e ∈ es, (t.branches e.2).Ascending) : (t.hang es).Ascending := by
  induction es with
  | nil => trivial
  | cons e es ih =>
      obtain ⟨hbelow, hrest⟩ := List.forall_mem_cons.mp h
      obtain ⟨hfirst, hes⟩ := List.pairwise_cons.mp hes
      exact ⟨hbelow, above_hang hfirst, ih hes hrest⟩

theorem ascending_branches (i : Nat) : (t.branches i).Ascending := by
  induction i using t.node_induction with
  | step i ih =>
      rw [branches_eq]
      exact ascending_hang (Node.ascending_sorted _) fun e he => ih e (Node.mem_sorted.mp he)

theorem ascending_labels (t : ChoiceTree) : t.labels.Ascending := ascending_branches 0

theorem fruitful_hang (h : ∀ e ∈ es,
    (label? (t.node e.2).found ≠ none ∨ t.branches e.2 ≠ .nil) ∧ (t.branches e.2).Fruitful) :
    (t.hang es).Fruitful := by
  induction es with
  | nil => trivial
  | cons e es ih =>
      obtain ⟨⟨hleads, hbelow⟩, hrest⟩ := List.forall_mem_cons.mp h
      exact ⟨hleads, hbelow, ih hrest⟩

theorem walk_child {e : Int × Nat} (hs : t.walk s = some i) (he : e ∈ (t.node i).children) :
    t.walk (s ++ [e.1]) = some e.2 := by
  rw [walk_concat, hs]
  exact Node.child?_eq_some_iff.mpr he

/-- Below each child there is a label. -/
theorem Tidy.exists_below {e : Int × Nat} (ht : t.Tidy) (hs : t.walk s = some i)
    (he : e ∈ (t.node i).children) : ∃ u, (t.findFrom e.2 u).2 = true := by
  have hchild := walk_child hs he
  obtain ⟨u, hu⟩ := ht.fruitful (s ++ [e.1]) (hchild ▸ rfl) (by simp)
  exact ⟨u, find_append hchild ▸ hu⟩

theorem Tidy.fruitful_branches (ht : t.Tidy) (hs : t.walk s = some i) :
    (t.branches i).Fruitful := by
  induction i using t.node_induction generalizing s with
  | step i ih =>
      rw [branches_eq]
      refine fruitful_hang fun e he => ?_
      have he := Node.mem_sorted.mp he
      refine ⟨?_, ih e he (walk_child hs he)⟩
      obtain ⟨u, hu⟩ := ht.exists_below hs he
      cases u with
      | nil =>
          have hend : (t.node e.2).found.2 = true := hu
          left
          rw [label?, if_pos hend]
          exact Option.some_ne_none _
      | cons d u =>
          right
          intro hnil
          have hnone := lookup_branches (t := t) (i := e.2) (c := d) (s := u)
          rw [hnil, Branches.lookup_nil, label?, if_pos hu] at hnone
          cases hnone

theorem Tidy.fruitful_labels (ht : t.Tidy) : t.labels.Fruitful :=
  ht.fruitful_branches (s := []) rfl

/-! ## Its nodes -/

theorem mem_ways_hang : c :: s ∈ (t.hang es).ways ↔
    ∃ e ∈ es, e.1 = c ∧ (s = [] ∨ s ∈ (t.branches e.2).ways) := by
  induction es with
  | nil => simp [hang, Branches.ways]
  | cons e es ih =>
      show c :: s ∈ (Branches.cons _ _ _ (t.hang es)).ways ↔ _
      rw [Branches.mem_ways_cons, ih, List.exists_mem_cons_iff]
      refine or_congr_left ?_
      constructor
      · rintro ⟨u, hu, heq⟩
        obtain ⟨rfl, rfl⟩ := List.cons.inj heq
        exact ⟨rfl, hu⟩
      · rintro ⟨rfl, hu⟩
        exact ⟨s, hu, rfl⟩

theorem mem_ways_branches : s ∈ (t.branches i).ways ↔ s ≠ [] ∧ (t.walkFrom i s).isSome := by
  induction s generalizing i with
  | nil => exact iff_of_false (fun h => Branches.ne_nil_of_mem_ways h rfl) fun h => h.1 rfl
  | cons c s ih =>
      rw [branches_eq, mem_ways_hang, and_iff_right (List.cons_ne_nil c s), walkFrom]
      constructor
      · rintro ⟨⟨_, place⟩, he, rfl, hs⟩
        rw [Node.child?_eq_some_iff.mpr (Node.mem_sorted.mp he)]
        rcases hs with rfl | hs
        · rfl
        · exact (ih.mp hs).2
      · cases hc : (t.node i).child? c with
        | none => exact fun h => absurd h Bool.false_ne_true
        | some place =>
            intro hs
            refine ⟨(c, place), Node.mem_sorted.mpr (Node.child?_eq_some_iff.mp hc), rfl, ?_⟩
            exact (eq_or_ne s []).imp_right fun hne => ih.mpr ⟨hne, hs⟩

theorem Tidy.size_labels (ht : t.Tidy) : t.labels.size = t.size := by
  have hmem (s : List Int) : s ∈ [] :: (t.branches 0).ways ↔ (t.walk s).isSome := by
    rw [List.mem_cons, mem_ways_branches]
    cases s with
    | nil => exact iff_of_true (Or.inl rfl) rfl
    | cons c s => simp [walk]
  have hnodup : ([] :: (t.branches 0).ways).Nodup :=
    List.nodup_cons.mpr ⟨fun h => Branches.ne_nil_of_mem_ways h rfl,
      (ascending_branches 0).nodup_ways⟩
  -- one sequence leads to each node
  have hperm : (([] :: (t.branches 0).ways).map t.walk).Perm
      ((List.range t.nodes.size).map some) := by
    refine (List.perm_ext_iff_of_nodup (hnodup.map_on ?_)
      (List.nodup_range.map (Option.some_injective _))).mpr ?_
    · intro s hs u _ heq
      obtain ⟨i, hi⟩ := Option.isSome_iff_exists.mp ((hmem s).mp hs)
      exact ht.apart s u i hi (heq ▸ hi)
    · intro place
      simp only [List.mem_map, List.mem_range, hmem]
      constructor
      · rintro ⟨s, hs, rfl⟩
        obtain ⟨i, hi⟩ := Option.isSome_iff_exists.mp hs
        exact ⟨i, walk_lt hi, hi.symm⟩
      · rintro ⟨i, hi, rfl⟩
        obtain ⟨s, hs⟩ := ht.reached i hi
        exact ⟨s, hs ▸ rfl, hs⟩
  have hlength := hperm.length_eq
  simp only [List.length_map, List.length_cons, List.length_range, Branches.length_ways] at hlength
  show 1 + (t.branches 0).size = t.nodes.size
  omega

/-! ## Insertions -/

theorem labels_empty : empty.labels = .empty := by
  have hnone : (empty.node 0).sorted = [] := List.mergeSort_nil
  unfold labels
  rw [branches_eq, hnone]
  rfl

theorem Tidy.lookup_insert (ht : t.Tidy) : (t.insert choices label).lookup s =
    if s = choices then some label else t.lookup s := by
  show label? ((t.insert choices label).find s) = _
  rw [ht.find_insert]
  split <;> rfl

/-- To insert into the array of nodes is to insert into the tree of labels. -/
theorem Tidy.labels_insert (ht : t.Tidy) :
    (t.insert choices label).labels = t.labels.insert choices label := by
  refine LabelTree.eq_of_lookup_eq (ascending_labels _) (ascending_labels t).insert
    ht.insert.fruitful_labels ht.fruitful_labels.insert fun s => ?_
  rw [lookup_labels, ht.lookup_insert, (ascending_labels t).lookup_insert, lookup_labels]

theorem labels_ofList (entries : List (List Int × String)) :
    (ofList entries).labels = .ofList entries := by
  induction entries using List.reverseRecOn with
  | nil => exact labels_empty
  | append_singleton entries e ih =>
      rw [ofList_concat, (tidy_ofList entries).labels_insert, ih, LabelTree.ofList_concat]

end ChoiceTree

end Narrowing
