/-
# A tree of labels has one form

Of a tree in which labels were set one after another, two things are kept.  The branches
of a node stand in ascending order, and a branch is only made on the way to a label
(`Fruitful`).  So there is one node for each prefix of a sequence that has a label, and a
tree has one form for each map from sequences to labels, whatever the order in which the
labels came: where two trees differ, the first choice in which they do leads to a label in
one of them and to none in the other.
-/
import Narrowing.Proofs.LabelTree
import Mathlib.Data.Set.Card

namespace Narrowing

namespace Branches

variable {b b' below rest : Branches} {c k : Int} {cs s : List Int} {label : String}
  {l : Option String}

/-! ## Nodes -/

def size : Branches → Nat
  | nil => 0
  | cons _ _ below rest => 1 + below.size + rest.size

/-- The sequences that lead to a node. -/
def ways : Branches → List (List Int)
  | nil => []
  | cons c _ below rest => [c] :: (below.ways.map (c :: ·) ++ rest.ways)

theorem length_ways (b : Branches) : b.ways.length = b.size := by
  induction b with
  | nil => rfl
  | cons c l below rest ihbelow ihrest =>
      simp only [ways, size, List.length_cons, List.length_append, List.length_map, ihbelow, ihrest]
      omega

theorem ne_nil_of_mem_ways (hs : s ∈ b.ways) : s ≠ [] := by
  induction b with
  | nil => exact absurd hs List.not_mem_nil
  | cons c l below rest _ ihrest =>
      simp only [ways, List.mem_cons, List.mem_append, List.mem_map] at hs
      rcases hs with rfl | ⟨t, _, rfl⟩ | hs
      · exact List.cons_ne_nil _ _
      · exact List.cons_ne_nil _ _
      · exact ihrest hs

theorem mem_ways_cons : s ∈ (cons c l below rest).ways ↔
    (∃ t, (t = [] ∨ t ∈ below.ways) ∧ s = c :: t) ∨ s ∈ rest.ways := by
  simp only [ways, List.mem_cons, List.mem_append, List.mem_map]
  constructor
  · rintro (rfl | ⟨t, ht, rfl⟩ | hs)
    · exact Or.inl ⟨[], Or.inl rfl, rfl⟩
    · exact Or.inl ⟨t, Or.inr ht, rfl⟩
    · exact Or.inr hs
  · rintro (⟨t, rfl | ht, rfl⟩ | hs)
    · exact Or.inl rfl
    · exact Or.inr (Or.inl ⟨t, ht, rfl⟩)
    · exact Or.inr (Or.inr hs)

theorem prefix_cons_iff : (s ≠ [] ∧ s <+: c :: cs) ↔
    ∃ t, (t = [] ∨ (t ≠ [] ∧ t <+: cs)) ∧ s = c :: t := by
  constructor
  · rintro ⟨hne, hs⟩
    rcases List.prefix_cons_iff.mp hs with rfl | ⟨t, rfl, ht⟩
    · exact absurd rfl hne
    · exact ⟨t, (eq_or_ne t []).imp_right fun h => ⟨h, ht⟩, rfl⟩
  · rintro ⟨t, ht, rfl⟩
    refine ⟨List.cons_ne_nil _ _, (List.prefix_cons_inj c).mpr ?_⟩
    rcases ht with rfl | ⟨-, ht⟩
    · exact List.nil_prefix
    · exact ht

theorem mem_ways_path : s ∈ (path label c cs).ways ↔ s ≠ [] ∧ s <+: c :: cs := by
  induction cs generalizing c s with
  | nil =>
      rw [path, mem_ways_cons, prefix_cons_iff]
      simp [ways]
  | cons c' cs ih =>
      rw [path, mem_ways_cons, prefix_cons_iff]
      simp only [ih, ways, List.not_mem_nil, or_false]

/-- To set a label makes the nodes on the way to it, and no others. -/
theorem mem_ways_insert : s ∈ (b.insert label c cs).ways ↔
    s ∈ b.ways ∨ (s ≠ [] ∧ s <+: c :: cs) := by
  induction b generalizing c cs s with
  | nil =>
      rw [insert, mem_ways_path]
      simp [ways]
  | cons k l below rest ihbelow ihrest =>
      rcases Int.lt_trichotomy c k with hlt | rfl | hgt
      · obtain ⟨l', below', hpath, hbefore⟩ := exists_path label c cs
        have hnew : s ∈ (cons c l' below' nil).ways ↔ s ≠ [] ∧ s <+: c :: cs :=
          hpath ▸ mem_ways_path
        rw [hbefore _ _ _ _ hlt, ← hnew, mem_ways_cons, mem_ways_cons, mem_ways_cons]
        simp only [ways, List.not_mem_nil, or_false]
        exact or_comm
      · rw [prefix_cons_iff, mem_ways_cons]
        cases cs with
        | nil =>
            rw [insert_cons_end, mem_ways_cons]
            constructor
            · exact Or.inl
            · rintro (hs | ⟨t, rfl | ⟨hne, ht⟩, rfl⟩)
              · exact hs
              · exact Or.inl ⟨[], Or.inl rfl, rfl⟩
              · exact absurd (List.prefix_nil.mp ht) hne
        | cons c' cs =>
            rw [insert_cons_below, mem_ways_cons]
            simp only [ihbelow]
            constructor
            · rintro (⟨t, rfl | ht | ht, rfl⟩ | hs)
              · exact Or.inr ⟨[], Or.inl rfl, rfl⟩
              · exact Or.inl (Or.inl ⟨t, Or.inr ht, rfl⟩)
              · exact Or.inr ⟨t, Or.inr ht, rfl⟩
              · exact Or.inl (Or.inr hs)
            · rintro ((⟨t, rfl | ht, rfl⟩ | hs) | ⟨t, rfl | ht, rfl⟩)
              · exact Or.inl ⟨[], Or.inl rfl, rfl⟩
              · exact Or.inl ⟨t, Or.inr (Or.inl ht), rfl⟩
              · exact Or.inr hs
              · exact Or.inl ⟨[], Or.inl rfl, rfl⟩
              · exact Or.inl ⟨t, Or.inr (Or.inr ht), rfl⟩
      · rw [insert_cons_of_gt hgt, mem_ways_cons, mem_ways_cons, ihrest, or_assoc]

theorem Above.lt_of_mem_ways (hb : b.Above k) (hs : c :: s ∈ b.ways) : k < c := by
  induction b with
  | nil => exact absurd hs List.not_mem_nil
  | cons k' l below rest _ ihrest =>
      obtain ⟨hk, hrest⟩ := hb
      rcases mem_ways_cons.mp hs with ⟨t, _, heq⟩ | hs
      · obtain ⟨rfl, -⟩ := List.cons.inj heq
        exact hk
      · exact ihrest hrest hs

theorem Ascending.nodup_ways (hb : b.Ascending) : b.ways.Nodup := by
  induction b with
  | nil => exact List.nodup_nil
  | cons c l below rest ihbelow ihrest =>
      obtain ⟨hbelow, habove, hrest⟩ := hb
      have hapart : ∀ s ∈ rest.ways, ∀ t, s ≠ c :: t := by
        rintro s hs t rfl
        exact absurd (habove.lt_of_mem_ways hs) (Int.lt_irrefl c)
      refine List.nodup_cons.mpr ⟨?_, List.nodup_append.mpr ⟨?_, ihrest hrest, ?_⟩⟩
      · intro hmem
        rcases List.mem_append.mp hmem with hmem | hmem
        · obtain ⟨t, ht, heq⟩ := List.mem_map.mp hmem
          exact ne_nil_of_mem_ways ht (List.cons.inj heq).2
        · exact hapart _ hmem [] rfl
      · exact (ihbelow hbelow).map fun s t heq => (List.cons.inj heq).2
      · rintro _ hs t ht rfl
        obtain ⟨t', _, rfl⟩ := List.mem_map.mp hs
        exact hapart _ ht t' rfl

/-! ## Branches that lead to labels -/

/-- Every branch leads to a label. -/
def Fruitful : Branches → Prop
  | nil => True
  | cons _ l below rest => (l ≠ none ∨ below ≠ nil) ∧ below.Fruitful ∧ rest.Fruitful

theorem fruitful_path : (path label c cs).Fruitful := by
  induction cs generalizing c with
  | nil => exact ⟨Or.inl (Option.some_ne_none _), trivial, trivial⟩
  | cons c' cs ih =>
      refine ⟨Or.inr ?_, ih, trivial⟩
      obtain ⟨l', below', hpath, -⟩ := exists_path label c' cs
      rw [hpath]
      exact nofun

theorem insert_ne_nil : b.insert label c cs ≠ nil := by
  intro hnil
  have hmem : [c] ∈ (b.insert label c cs).ways :=
    mem_ways_insert.mpr (Or.inr ⟨List.cons_ne_nil _ _, ⟨cs, rfl⟩⟩)
  rw [hnil] at hmem
  exact absurd hmem List.not_mem_nil

theorem Fruitful.insert (hb : b.Fruitful) : (b.insert label c cs).Fruitful := by
  induction b generalizing c cs with
  | nil => exact fruitful_path
  | cons k l below rest ihbelow ihrest =>
      obtain ⟨hfruit, hbelow, hrest⟩ := hb
      rcases Int.lt_trichotomy c k with hlt | rfl | hgt
      · obtain ⟨l', below', hpath, hbefore⟩ := exists_path label c cs
        have hnew : (cons c l' below' nil).Fruitful := hpath ▸ fruitful_path
        rw [hbefore _ _ _ _ hlt]
        exact ⟨hnew.1, hnew.2.1, hfruit, hbelow, hrest⟩
      · cases cs with
        | nil => exact insert_cons_end ▸ ⟨Or.inl (Option.some_ne_none _), hbelow, hrest⟩
        | cons c' cs => exact insert_cons_below ▸ ⟨Or.inr insert_ne_nil, ihbelow hbelow, hrest⟩
      · rw [insert_cons_of_gt hgt]
        exact ⟨hfruit, hbelow, ihrest hrest⟩

/-- The first branch leads to a label. -/
theorem Fruitful.exists_label (hb : (cons c l below rest).Fruitful) :
    ∃ s, (cons c l below rest).lookup c s ≠ none := by
  induction below generalizing c l rest with
  | nil => exact ⟨[], lookup_cons_end ▸ hb.1.resolve_right (absurd rfl)⟩
  | cons c' l' below' rest' ihbelow _ =>
      obtain ⟨s, hs⟩ := ihbelow hb.2.1
      refine ⟨c' :: s, ?_⟩
      rw [lookup_cons_below]
      exact hs

/-- Where two nodes hold the same labels, the first choice of one is not below that of the other. -/
theorem Fruitful.le_of_lookup_eq {c' : Int} {l' : Option String} {below' rest' : Branches}
    (hb : (cons c l below rest).Fruitful) (habove : rest'.Above c')
    (h : ∀ d s, (cons c l below rest).lookup d s = (cons c' l' below' rest').lookup d s) :
    c' ≤ c := by
  by_contra hlt
  obtain ⟨s, hs⟩ := hb.exists_label
  have hnone : (cons c' l' below' rest').Above c := ⟨by omega, habove.mono (by omega)⟩
  exact hs ((h c s).trans (hnone.lookup_eq_none (Int.le_refl c)))

/-- Branches in order, of which each leads to a label, are determined by their labels. -/
theorem eq_of_lookup_eq (hb : b.Ascending) (hb' : b'.Ascending) (hf : b.Fruitful)
    (hf' : b'.Fruitful) (h : ∀ c s, b.lookup c s = b'.lookup c s) : b = b' := by
  induction b generalizing b' with
  | nil =>
      cases b' with
      | nil => rfl
      | cons c' l' below' rest' =>
          obtain ⟨s, hs⟩ := hf'.exists_label
          exact absurd ((h c' s).symm.trans lookup_nil) hs
  | cons c l below rest ihbelow ihrest =>
      cases b' with
      | nil =>
          obtain ⟨s, hs⟩ := hf.exists_label
          exact absurd ((h c s).trans lookup_nil) hs
      | cons c' l' below' rest' =>
          obtain ⟨hbelow, habove, hrest⟩ := hb
          obtain ⟨hbelow', habove', hrest'⟩ := hb'
          obtain rfl : c = c' :=
            Int.le_antisymm (hf'.le_of_lookup_eq habove fun d s => (h d s).symm)
              (hf.le_of_lookup_eq habove' h)
          have hlabel : l = l' := by
            have := h c []
            rwa [lookup_cons_end, lookup_cons_end] at this
          have hsame : below = below' := by
            refine ihbelow hbelow hbelow' hf.2.1 hf'.2.1 fun d s => ?_
            have := h c (d :: s)
            rwa [lookup_cons_below, lookup_cons_below] at this
          have hothers : rest = rest' := by
            refine ihrest hrest hrest' hf.2.2 hf'.2.2 fun d s => ?_
            by_cases hd : d = c
            · subst hd
              rw [habove.lookup_eq_none (Int.le_refl d), habove'.lookup_eq_none (Int.le_refl d)]
            · have := h d s
              rwa [lookup_cons_of_ne hd, lookup_cons_of_ne hd] at this
          rw [hlabel, hsame, hothers]

end Branches

namespace LabelTree

variable {t t' : LabelTree} {choices : List Int} {label : String}

/-- The number of nodes, the root included. -/
def size (t : LabelTree) : Nat := 1 + t.branches.size

def Fruitful (t : LabelTree) : Prop := t.branches.Fruitful

theorem Fruitful.insert (ht : t.Fruitful) : (t.insert choices label).Fruitful := by
  cases choices with
  | nil => exact ht
  | cons c cs => exact Branches.Fruitful.insert ht

/-- A tree in order, of which each branch leads to a label, is determined by its labels. -/
theorem eq_of_lookup_eq (ht : t.Ascending) (ht' : t'.Ascending) (hf : t.Fruitful)
    (hf' : t'.Fruitful) (h : ∀ s, t.lookup s = t'.lookup s) : t = t' := by
  have hlabel : t.label = t'.label := h []
  have hbranches : t.branches = t'.branches :=
    Branches.eq_of_lookup_eq ht ht' hf hf' fun c s => h (c :: s)
  cases t
  cases t'
  exact congrArg₂ mk hlabel hbranches

theorem mem_ways_ofList {s : List Int} (entries : List (List Int × String)) :
    s ∈ (ofList entries).branches.ways ↔ s ≠ [] ∧ ∃ e ∈ entries, s <+: e.1 := by
  induction entries using List.reverseRecOn with
  | nil => simp [ofList, empty, Branches.ways]
  | append_singleton entries e ih =>
      obtain ⟨choices, label⟩ := e
      have hstep : s ∈ ((ofList entries).insert choices label).branches.ways ↔
          s ∈ (ofList entries).branches.ways ∨ (s ≠ [] ∧ s <+: choices) := by
        cases choices with
        | nil => simp [insert]
        | cons c cs => exact Branches.mem_ways_insert
      rw [ofList_concat, hstep, ih, ← and_or_left]
      simp only [List.mem_append, List.mem_singleton, or_and_right, exists_or, exists_eq_left]

/-- There is a node for the root, and one for each prefix on the way to a label. -/
theorem size_ofList (entries : List (List Int × String)) :
    (ofList entries).size = 1 + {s : List Int | s ≠ [] ∧ ∃ e ∈ entries, s <+: e.1}.ncard := by
  have hnodes : {s : List Int | s ≠ [] ∧ ∃ e ∈ entries, s <+: e.1} =
      ↑(ofList entries).branches.ways.toFinset := by
    ext s
    simp only [Set.mem_ofPred_eq, List.coe_toFinset, mem_ways_ofList]
  rw [hnodes, Set.ncard_coe_finset,
    List.toFinset_card_of_nodup (Branches.Ascending.nodup_ways (ascending_ofList entries)),
    Branches.length_ways]
  rfl

end LabelTree

end Narrowing
