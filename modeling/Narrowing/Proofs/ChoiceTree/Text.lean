/-
# The written form of a tree of choices

The nodes are written in the order of the choices, so the text is that of the tree of labels
(`text_labels`).  That tree is told from its text, and has one form for each map from sequences
to labels.  So the text hangs on the labels alone, and on nothing of the order in which they
were set or of the places where the nodes stand.
-/
import Narrowing.Proofs.ChoiceTree.Equality
import Narrowing.Proofs.LabelTree.Text

namespace Narrowing

namespace ChoiceTree

variable {t : ChoiceTree} {i : Nat} {es : List (Int × Nat)}

theorem writeNode_eq : t.writeNode i =
    (if (t.node i).isEnd then '*' :: (t.node i).label.toList else []) ++
      (t.node i).sorted.flatMap fun e =>
        e.1.repr.toList ++ '(' :: (t.writeNode e.2 ++ [')']) := by
  rw [writeNode]
  congr 1
  conv_rhs => rw [← List.attach_map_subtype_val (t.node i).sorted, List.flatMap_map]

theorem labelChars_found (n : Node) : Branches.labelChars (label? n.found) =
    if n.isEnd then '*' :: n.label.toList else [] := by
  unfold label? Node.found
  cases n.isEnd <;> rfl

theorem chars_hang (h : ∀ e ∈ es, t.writeNode e.2 =
      Branches.labelChars (label? (t.node e.2).found) ++ (t.branches e.2).chars) :
    (t.hang es).chars = es.flatMap fun e =>
      e.1.repr.toList ++ '(' :: (t.writeNode e.2 ++ [')']) := by
  induction es with
  | nil => rfl
  | cons e es ih =>
      obtain ⟨hfirst, hrest⟩ := List.forall_mem_cons.mp h
      rw [List.flatMap_cons, ← ih hrest, hfirst]
      show (Branches.cons _ _ _ (t.hang es)).chars = _
      simp [Branches.chars]

theorem writeNode_eq_chars (i : Nat) : t.writeNode i =
    Branches.labelChars (label? (t.node i).found) ++ (t.branches i).chars := by
  induction i using t.node_induction with
  | step i ih =>
      rw [writeNode_eq, branches_eq, labelChars_found,
        chars_hang fun e he => ih e (Node.mem_sorted.mp he)]

theorem text_labels (t : ChoiceTree) : t.labels.text = t.text :=
  congrArg String.ofList (writeNode_eq_chars 0).symm

/-- **The text of a tree stands for the tree.**  Whatever labels of letters were set, for whatever
sequences of choices and in whatever order: two trees are written the same just when they are
found equal, and just when they hold the same labels for the same sequences. -/
theorem text_eq_iff (entries entries' : List (List Int × String))
    (h : ∀ e ∈ entries ++ entries', ∀ ch ∈ e.2.toList, ch.isAlpha = true) :
    ((ofList entries).text = (ofList entries').text ↔
      (ofList entries).equal (ofList entries') = true) ∧
    ((ofList entries).text = (ofList entries').text ↔
      ∀ s, (ofList entries).find s = (ofList entries').find s) := by
  have ht := tidy_ofList entries
  have ht' := tidy_ofList entries'
  have hsame : (ofList entries).text = (ofList entries').text ↔
      ∀ s, (ofList entries).find s = (ofList entries').find s := by
    rw [← text_labels, ← text_labels, ← ht.labels_eq_iff ht']
    constructor
    · intro htext
      rw [labels_ofList, labels_ofList] at htext ⊢
      exact LabelTree.text_inj
        (LabelTree.lettered_ofList fun e he => h e (List.mem_append_left _ he))
        (LabelTree.lettered_ofList fun e he => h e (List.mem_append_right _ he)) htext
    · exact fun heq => congrArg LabelTree.text heq
  exact ⟨hsame.trans (ht.equal_iff ht').symm, hsame⟩

/-- Two labels on one branch and one on another, set in either order, against the tree in which
the two choices are one. -/
theorem text_eq_iff_outcomes :
    let entries := [([0], "completed"), ([-1, 10], "faulted"), ([0], "bounded")]
    let reordered := [([-1, 10], "faulted"), ([0], "bounded")]
    let joined := [([-110], "faulted"), ([0], "bounded")]
    (ofList entries).text = "-1(10(*faulted))0(*bounded)" ∧
      (ofList entries).text = (ofList reordered).text ∧
      (ofList entries).text ≠ (ofList joined).text := by
  intro entries reordered joined
  have hletters : ∀ e ∈ entries ++ reordered, ∀ ch ∈ e.2.toList, ch.isAlpha = true := by
    simp [entries, reordered]
  have hletters' : ∀ e ∈ entries ++ joined, ∀ ch ∈ e.2.toList, ch.isAlpha = true := by
    simp [entries, joined]
  refine ⟨?_, (text_eq_iff entries reordered hletters).1.mpr (by cbv), fun htext => ?_⟩
  · rw [← text_labels, labels_ofList]
    decide
  · exact absurd ((text_eq_iff entries joined hletters').2.mp htext [-110]) (by decide +kernel)

end ChoiceTree

end Narrowing
