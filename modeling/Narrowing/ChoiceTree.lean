/-
Choice trees: sequences of choices with labels.

All nodes of a tree stand in one array, the root first, and a node refers to
its children by their places in it.  A child is made after its parent, so
that places rise on the way down and what goes down comes to an end.
-/
namespace Narrowing

namespace ChoiceTree

/-- A node: the places of its children by their choices and, where a sequence ends, its label. -/
structure Node where
  children : List (Int × Nat)
  label : String
  isEnd : Bool
  distinct : (children.map Prod.fst).Nodup

namespace Node

def leaf : Node := ⟨[], "", false, .nil⟩

/-- The place of the child for a choice. -/
def child? (n : Node) (c : Int) : Option Nat :=
  (n.children.find? fun e => e.1 == c).map Prod.snd

theorem child?_eq_none_iff {n : Node} {c : Int} :
    n.child? c = none ↔ c ∉ n.children.map Prod.fst := by
  rw [child?, Option.map_eq_none_iff, List.find?_eq_none]
  constructor
  · intro h hc
    obtain ⟨e, he, rfl⟩ := List.mem_map.mp hc
    exact h e he (beq_self_eq_true _)
  · intro h e he heq
    exact h (List.mem_map.mpr ⟨e, he, eq_of_beq heq⟩)

/-- Give a choice a child. -/
def link (n : Node) (c : Int) (place : Nat) (h : n.child? c = none) : Node :=
  { n with
    children := n.children ++ [(c, place)]
    distinct := by
      rw [List.map_append]
      refine List.nodup_append.mpr ⟨n.distinct, by simp, fun k hk d hd heq => ?_⟩
      obtain rfl : d = c := by simpa using hd
      exact child?_eq_none_iff.mp h (heq ▸ hk) }

/-- The children in ascending order of their choices. -/
def sorted (n : Node) : List (Int × Nat) := n.children.mergeSort fun e e' => e.1 ≤ e'.1

end Node

end ChoiceTree

/-- A tree of labelled sequences of choices. -/
structure ChoiceTree where
  nodes : Array ChoiceTree.Node
  rooted : 0 < nodes.size
  linked : ∀ i, ∀ e ∈ (nodes.getD i .leaf).children, i < e.2 ∧ e.2 < nodes.size

namespace ChoiceTree

def node (t : ChoiceTree) (i : Nat) : Node := t.nodes.getD i .leaf

/-- The number of nodes, the root included. -/
def size (t : ChoiceTree) : Nat := t.nodes.size

/-- The tree of an empty root. -/
def empty : ChoiceTree where
  nodes := #[.leaf]
  rooted := by decide
  linked := by
    intro i e he
    have hnone : (#[Node.leaf].getD i .leaf).children = [] := by
      cases i <;> rfl
    rw [hnone] at he
    cases he

theorem getD_push_leaf (nodes : Array Node) (i : Nat) :
    (nodes.push .leaf).getD i .leaf = nodes.getD i .leaf := by
  rw [Array.getD_eq_getD_getElem?, Array.getD_eq_getD_getElem?, Array.getElem?_push]
  split
  · rename_i hi
    rw [hi, Array.getElem?_eq_none (Nat.le_refl _)]
    rfl
  · rfl

theorem getD_set {nodes : Array Node} {i : Nat} (hi : i < nodes.size) (n : Node) (k : Nat) :
    (nodes.set i n).getD k .leaf = if k = i then n else nodes.getD k .leaf := by
  rw [Array.getD_eq_getD_getElem?, Array.getD_eq_getD_getElem?, Array.getElem?_set hi]
  split
  · rename_i hk
    rw [if_pos hk.symm]
    rfl
  · rename_i hk
    rw [if_neg (Ne.symm hk)]

/-! ## Insertion -/

/-- A new node, which is no child yet. -/
def newNode (t : ChoiceTree) : ChoiceTree where
  nodes := t.nodes.push .leaf
  rooted := by simp
  linked := by
    intro i e he
    rw [getD_push_leaf] at he
    have := t.linked i e he
    rw [Array.size_push]
    omega

theorem node_newNode (t : ChoiceTree) (i : Nat) : t.newNode.node i = t.node i :=
  getD_push_leaf t.nodes i

def setNode (t : ChoiceTree) (i : Nat) (n : Node) (hi : i < t.nodes.size)
    (hn : ∀ e ∈ n.children, i < e.2 ∧ e.2 < t.nodes.size) : ChoiceTree where
  nodes := t.nodes.set i n hi
  rooted := by
    rw [Array.size_set]
    exact t.rooted
  linked := by
    intro k e he
    rw [getD_set] at he
    rw [Array.size_set]
    split at he
    · rename_i hk
      exact hk ▸ hn e he
    · exact t.linked k e he

/-- Make a later node the child of an earlier one. -/
def link (t : ChoiceTree) (i : Nat) (c : Int) (place : Nat) (hc : (t.node i).child? c = none)
    (hi : i < place) (hplace : place < t.nodes.size) : ChoiceTree :=
  t.setNode i ((t.node i).link c place hc) (Nat.lt_trans hi hplace) (by
    intro e he
    rcases List.mem_append.mp he with he | he
    · exact t.linked i e he
    · obtain rfl := List.mem_singleton.mp he
      exact ⟨hi, hplace⟩)

/-- A new node as the child of an old one. -/
def grow (t : ChoiceTree) (i : Nat) (c : Int) (hc : (t.node i).child? c = none)
    (hi : i < t.nodes.size) : ChoiceTree :=
  t.newNode.link i c t.nodes.size ((t.node_newNode i).symm ▸ hc) hi (by simp [newNode])

/-- Let a sequence end at a node. -/
def mark (t : ChoiceTree) (i : Nat) (label : String) (hi : i < t.nodes.size) : ChoiceTree :=
  t.setNode i { t.node i with isEnd := true, label := label } hi (t.linked i)

theorem linked_of_child? {t : ChoiceTree} {i place : Nat} {c : Int}
    (h : (t.node i).child? c = some place) : i < place ∧ place < t.nodes.size := by
  obtain ⟨e, he, rfl⟩ := Option.map_eq_some_iff.mp h
  exact t.linked i e (List.mem_of_find?_eq_some he)

/-- Follow a sequence from a node, make the nodes that it lacks, and let it end at the last. -/
def insertFrom (label : String) : List Int → (t : ChoiceTree) → (current : Nat) →
    current < t.nodes.size → ChoiceTree
  | [], t, current, h => t.mark current label h
  | c :: cs, t, current, h =>
    match hc : (t.node current).child? c with
    | some place => insertFrom label cs t place (linked_of_child? hc).2
    | none =>
      insertFrom label cs (t.grow current c hc h) t.nodes.size (by simp [grow, link, setNode, newNode])

/-- Set the label of a sequence. -/
def insert (t : ChoiceTree) (choices : List Int) (label : String) : ChoiceTree :=
  insertFrom label choices t 0 t.rooted

/-! ## Look-up -/

/-- The label at the end of a sequence from a node on, and whether one was set. -/
def findFrom (t : ChoiceTree) : (current : Nat) → List Int → String × Bool
  | current, [] => ((t.node current).label, (t.node current).isEnd)
  | current, c :: cs =>
    match (t.node current).child? c with
    | none => ("", false)
    | some place => t.findFrom place cs

/-- The label of a sequence, empty if it has none, and whether it has one. -/
def find (t : ChoiceTree) (choices : List Int) : String × Bool := t.findFrom 0 choices

/-- The label of a sequence, if it has one. -/
def lookup (t : ChoiceTree) (choices : List Int) : Option String :=
  let (label, found) := t.find choices
  if found then some label else none

/-! ## Comparison -/

/-- Whether two nodes have the same label and children that compare alike for the same choices. -/
def equalNodes (t o : ChoiceTree) (a b : Nat) : Bool :=
  let n := t.node a
  let m := o.node b
  if n.isEnd != m.isEnd || n.label != m.label || n.children.length != m.children.length then false
  else n.children.attach.all fun e =>
    match m.child? e.1.1 with
    | none => false
    | some place => t.equalNodes o e.1.2 place
termination_by t.nodes.size - a
decreasing_by
  have := t.linked a e.1 e.2
  omega

/-- Whether two trees have as many nodes and compare alike from the root on. -/
def equal (t o : ChoiceTree) : Bool :=
  if t.size != o.size then false else t.equalNodes o 0 0

instance : BEq ChoiceTree := ⟨equal⟩

/-! ## Text -/

/-- The written form of a node: a star and its label where a sequence ends, and each choice with
its child in brackets. -/
def writeNode (t : ChoiceTree) (i : Nat) : List Char :=
  (if (t.node i).isEnd then '*' :: (t.node i).label.toList else []) ++
  (t.node i).sorted.attach.flatMap fun e =>
    e.1.1.repr.toList ++ '(' :: (t.writeNode e.1.2 ++ [')'])
termination_by t.nodes.size - i
decreasing_by
  have := t.linked i e.1 (List.mem_mergeSort.mp e.2)
  omega

/-- The written form, such as `0(*completed)1(0(*cancelled))`. -/
def text (t : ChoiceTree) : String := String.ofList (t.writeNode 0)

end ChoiceTree

end Narrowing
