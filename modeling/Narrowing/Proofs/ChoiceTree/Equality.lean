/-
# A tree of choices is a finite map

Labels are set one after another, and the tree that comes of it is a map from
sequences to labels and nothing besides:

    look-up     the label that was set last for the sequence, if one was
    size        one node for the root, and one for each prefix on the way to a label
    equality    the same labels for the same sequences

Where the labels come in another order, the nodes stand at other places.  So two trees are
compared along their links: two nodes compare alike just when the same is found from both
on.  That nodes with as many children, all of the one with a counterpart in the other,
have children for the same choices is counting; and a child for which there is no
counterpart would be on the way to a label that the other tree does not have.
-/
import Narrowing.Proofs.ChoiceTree.Labels

namespace Narrowing

namespace ChoiceTree

variable {t o : ChoiceTree} {i j : Nat} {c : Int} {s u : List Int}

/-! ## Comparison -/

/-- What it takes for two nodes to compare alike. -/
theorem equalNodes_eq_true_iff : t.equalNodes o i j = true ↔
    (t.node i).found = (o.node j).found ∧
    (t.node i).children.length = (o.node j).children.length ∧
    ∀ e ∈ (t.node i).children,
      ∃ place, (o.node j).child? e.1 = some place ∧ t.equalNodes o e.2 place = true := by
  rw [equalNodes]
  simp only [Node.found, Prod.mk.injEq]
  split
  · rename_i hdiffers
    simp only [Bool.or_eq_true, bne_iff_ne] at hdiffers
    simp only [Bool.false_eq_true, false_iff]
    tauto
  · rename_i hsame
    simp only [Bool.or_eq_true, bne_iff_ne, not_or, not_not] at hsame
    obtain ⟨⟨hend, hlabel⟩, hlength⟩ := hsame
    simp only [hend, hlabel, hlength, true_and, List.all_eq_true, List.mem_attach, true_imp_iff,
      Subtype.forall]
    refine forall₂_congr fun e _ => ?_
    cases (o.node j).child? e.1 <;> simp

theorem findFrom_of_child? {place : Nat} (h : (t.node i).child? c = some place) :
    t.findFrom i (c :: s) = t.findFrom place s := by
  rw [findFrom, h]

theorem findFrom_of_child?_eq_none (h : (t.node i).child? c = none) :
    t.findFrom i (c :: s) = ("", false) := by
  rw [findFrom, h]

/-- From nodes that compare alike the same is found. -/
theorem findFrom_eq_of_equalNodes (h : t.equalNodes o i j = true) :
    t.findFrom i s = o.findFrom j s := by
  induction s generalizing i j with
  | nil => exact (equalNodes_eq_true_iff.mp h).1
  | cons c s ih =>
      obtain ⟨-, hlength, hchildren⟩ := equalNodes_eq_true_iff.mp h
      cases hc : (t.node i).child? c with
      | some place =>
          obtain ⟨place', hc', hbelow⟩ := hchildren (c, place) (Node.child?_eq_some_iff.mp hc)
          rw [findFrom_of_child? hc, findFrom_of_child? hc']
          exact ih hbelow
      | none =>
          -- all choices of the one are choices of the other, which has no more of them
          have hsub : (t.node i).children.map Prod.fst ⊆ (o.node j).children.map Prod.fst := by
            intro d hd
            obtain ⟨e, he, rfl⟩ := List.mem_map.mp hd
            obtain ⟨place, hplace, -⟩ := hchildren e he
            exact List.mem_map.mpr ⟨_, Node.child?_eq_some_iff.mp hplace, rfl⟩
          have hperm := ((t.node i).distinct.subperm hsub).perm_of_length_le (by simp [hlength])
          have hc' : (o.node j).child? c = none := by
            rw [Node.child?_eq_none_iff, ← hperm.mem_iff]
            exact Node.child?_eq_none_iff.mp hc
          rw [findFrom_of_child?_eq_none hc, findFrom_of_child?_eq_none hc']

/-- A node has children for the choices that lead to labels. -/
theorem Tidy.mem_choices_iff (ht : t.Tidy) (hs : t.walk s = some i) :
    c ∈ (t.node i).children.map Prod.fst ↔ ∃ u, (t.findFrom i (c :: u)).2 = true := by
  constructor
  · intro hc
    obtain ⟨e, he, rfl⟩ := List.mem_map.mp hc
    obtain ⟨u, hu⟩ := ht.exists_below hs he
    exact ⟨u, by rwa [findFrom_of_child? (Node.child?_eq_some_iff.mpr he)]⟩
  · rintro ⟨u, hu⟩
    by_contra hc
    rw [findFrom_of_child?_eq_none (Node.child?_eq_none_iff.mpr hc)] at hu
    cases hu

/-- Nodes from which the same is found compare alike. -/
theorem Tidy.equalNodes_of_findFrom_eq (ht : t.Tidy) (ho : o.Tidy) (hs : t.walk s = some i)
    (hu : o.walk u = some j) (h : ∀ v, t.findFrom i v = o.findFrom j v) :
    t.equalNodes o i j = true := by
  induction i using t.node_induction generalizing s j u with
  | step i ih =>
      have hchoices : ∀ c, c ∈ (t.node i).children.map Prod.fst ↔
          c ∈ (o.node j).children.map Prod.fst := by
        intro c
        rw [ht.mem_choices_iff hs, ho.mem_choices_iff hu]
        simp only [h]
      have hperm := (List.perm_ext_iff_of_nodup (t.node i).distinct (o.node j).distinct).mpr hchoices
      refine equalNodes_eq_true_iff.mpr ⟨h [], by simpa using hperm.length_eq, fun e he => ?_⟩
      have hne : (o.node j).child? e.1 ≠ none := fun hnone =>
        Node.child?_eq_none_iff.mp hnone ((hchoices e.1).mp (List.mem_map_of_mem he))
      obtain ⟨place, hplace⟩ := Option.ne_none_iff_exists'.mp hne
      refine ⟨place, hplace, ih e he (walk_child hs he)
        (walk_child hu (Node.child?_eq_some_iff.mp hplace)) fun v => ?_⟩
      have hbelow := h (e.1 :: v)
      rwa [findFrom_of_child? (Node.child?_eq_some_iff.mpr he), findFrom_of_child? hplace] at hbelow

/-! ## Trees with the same labels -/

/-- Where no sequence ends there is no label, so the labels tell all that is found. -/
theorem Tidy.find_eq (ht : t.Tidy) :
    t.find s = ((t.lookup s).map fun label => (label, true)).getD ("", false) := by
  unfold lookup
  cases hfound : t.find s with
  | mk label found =>
      cases found with
      | true => rfl
      | false =>
          have hblank := ht.blank s (by rw [hfound])
          rw [hfound] at hblank
          exact congrArg (·, false) hblank

theorem Tidy.labels_eq_iff (ht : t.Tidy) (ho : o.Tidy) :
    t.labels = o.labels ↔ ∀ s, t.find s = o.find s := by
  constructor
  · intro heq s
    rw [ht.find_eq, ho.find_eq, ← lookup_labels, ← lookup_labels, heq]
  · intro h
    refine LabelTree.eq_of_lookup_eq (ascending_labels t) (ascending_labels o) ht.fruitful_labels
      ho.fruitful_labels fun s => ?_
    rw [lookup_labels, lookup_labels, lookup, lookup, h]

/-- Trees are found equal just when the same is found in them, wherever their nodes stand. -/
theorem Tidy.equal_iff (ht : t.Tidy) (ho : o.Tidy) :
    t.equal o = true ↔ ∀ s, t.find s = o.find s := by
  unfold equal
  constructor
  · intro h s
    split at h
    · cases h
    · exact findFrom_eq_of_equalNodes h
  · intro h
    have hsize : t.size = o.size := by
      rw [← ht.size_labels, ← ho.size_labels, (ht.labels_eq_iff ho).mpr h]
    rw [if_neg (by simp [hsize])]
    exact ht.equalNodes_of_findFrom_eq ho (s := []) (u := []) rfl rfl h

/-! ## Lists of labels -/

/-- Of labels that were set one after another, the last one of a sequence is found. -/
theorem lookup_ofList (entries : List (List Int × String)) (s : List Int) :
    (ofList entries).lookup s = (entries.reverse.find? fun e => e.1 == s).map Prod.snd := by
  rw [← lookup_labels, labels_ofList, LabelTree.lookup_ofList]

/-- Where no sequence is labelled twice, what is found are the labels that were set. -/
theorem lookup_ofList_eq_some_iff {entries : List (List Int × String)}
    (hentries : (entries.map Prod.fst).Nodup) {s : List Int} {label : String} :
    (ofList entries).lookup s = some label ↔ (s, label) ∈ entries := by
  have hreverse : (entries.reverse.map Prod.fst).Nodup := by
    rw [List.map_reverse]
    exact List.nodup_reverse.mpr hentries
  rw [lookup_ofList]
  simp only [Option.map_eq_some_iff, find?_key_eq_some_iff hreverse, List.mem_reverse]
  constructor
  · rintro ⟨_, ⟨hmem, rfl⟩, rfl⟩
    exact hmem
  · exact fun hmem => ⟨_, ⟨hmem, rfl⟩, rfl⟩

/-- **A tree of choices is a finite map.**  Whatever labels were set, in whatever order: what is
found for a sequence is the label that was set for it last, and that there is one, and else no
label; the nodes are the root and the distinct nonempty prefixes of the sequences; and two trees
are found equal just when they hold the same labels for the same sequences, wherever in their
arrays the nodes stand. -/
theorem ofList_is_map (entries entries' : List (List Int × String)) :
    (∀ s, (ofList entries).find s =
      ((entries.reverse.find? fun e => e.1 == s).map fun e => (e.2, true)).getD ("", false)) ∧
    (ofList entries).size = 1 + {s : List Int | s ≠ [] ∧ ∃ e ∈ entries, s <+: e.1}.ncard ∧
    ((ofList entries).equal (ofList entries') = true ↔
      ∀ s, (ofList entries).find s = (ofList entries').find s) := by
  refine ⟨fun s => ?_, ?_, (tidy_ofList entries).equal_iff (tidy_ofList entries')⟩
  · rw [(tidy_ofList entries).find_eq, lookup_ofList, Option.map_map]
    rfl
  · rw [← (tidy_ofList entries).size_labels, labels_ofList, LabelTree.size_ofList]

-- the same labels, at different places
example :
    let t := ofList [([0], "completed"), ([1], "cancelled")]
    let o := ofList [([1], "cancelled"), ([0], "completed")]
    t.equal o = true ∧ (t.node 1).label ≠ (o.node 1).label := by
  refine ⟨by cbv, by decide⟩

end ChoiceTree

end Narrowing
