/-
# Labels of sequences

The plain form of a tree of choices: a branch for each choice at a node, in ascending
order.  To set the label of one sequence changes what is found for this one and for no
other.  Sequences with the same first choice share a branch.  It is found because the
branches of a node stand in order: where a new one is put before a greater one, there is
none with its choice behind.
-/
import Mathlib.Data.List.Basic
import Mathlib.Data.List.Induction

namespace Narrowing

/-- The branches below a node, in ascending order of their choice.  Each branch is a choice,
the label of the node it leads to, and the branches below that node. -/
inductive Branches where
  | nil
  | cons (choice : Int) (label : Option String) (below : Branches) (rest : Branches)

namespace Branches

/-- A single branch that leads along a sequence to a label. -/
def path (label : String) : Int → List Int → Branches
  | c, [] => cons c (some label) nil nil
  | c, c' :: cs => cons c none (path label c' cs) nil

/-- Set the label of the sequence `c :: cs`. -/
def insert (label : String) : Branches → Int → List Int → Branches
  | nil, c, cs => path label c cs
  | cons k l below rest, c, cs =>
    if c = k then
      match cs with
      | [] => cons k (some label) below rest
      | c' :: cs' => cons k l (below.insert label c' cs') rest
    else if c < k then
      match path label c cs with
      | cons c' l' below' _ => cons c' l' below' (cons k l below rest)
      | nil => cons k l below rest
    else cons k l below (rest.insert label c cs)

/-- The label of the sequence `c :: cs`. -/
def lookup : Branches → Int → List Int → Option String
  | nil, _, _ => none
  | cons k l below rest, c, cs =>
    if c = k then
      match cs with
      | [] => l
      | c' :: cs' => below.lookup c' cs'
    else rest.lookup c cs

end Branches

/-- A tree of labelled sequences of choices. -/
structure LabelTree where
  label : Option String
  branches : Branches

namespace LabelTree

def empty : LabelTree := ⟨none, .nil⟩

def insert (t : LabelTree) (choices : List Int) (label : String) : LabelTree :=
  match choices with
  | [] => { t with label := some label }
  | c :: cs => { t with branches := t.branches.insert label c cs }

def lookup (t : LabelTree) : List Int → Option String
  | [] => t.label
  | c :: cs => t.branches.lookup c cs

end LabelTree

namespace Branches

variable {b below rest : Branches} {c c' k : Int} {cs cs' : List Int} {label : String}
  {l : Option String}

/-! ## One branch -/

@[simp] theorem lookup_nil : nil.lookup c cs = none := by rw [lookup]

@[simp] theorem lookup_cons_end : (cons c l below rest).lookup c [] = l := by
  rw [lookup.eq_def]
  exact if_pos rfl

@[simp] theorem lookup_cons_below :
    (cons c l below rest).lookup c (c' :: cs) = below.lookup c' cs := by
  rw [lookup.eq_def]
  exact if_pos rfl

theorem lookup_cons_of_ne (h : c ≠ k) : (cons k l below rest).lookup c cs = rest.lookup c cs := by
  rw [lookup.eq_def]
  exact if_neg h

theorem insert_cons_end : (cons c l below rest).insert label c [] =
    cons c (some label) below rest := by
  rw [insert.eq_def]
  exact if_pos rfl

theorem insert_cons_below : (cons c l below rest).insert label c (c' :: cs) =
    cons c l (below.insert label c' cs) rest := by
  rw [insert.eq_def]
  exact if_pos rfl

theorem insert_cons_of_gt (h : k < c) : (cons k l below rest).insert label c cs =
    cons k l below (rest.insert label c cs) := by
  rw [insert.eq_def]
  dsimp only
  rw [if_neg (by omega), if_neg (by omega)]

/-- A single sequence is a single branch, and stands before greater ones as such. -/
theorem exists_path (label : String) (c : Int) (cs : List Int) : ∃ l' below',
    path label c cs = cons c l' below' nil ∧ ∀ k l below rest, c < k →
      (cons k l below rest).insert label c cs = cons c l' below' (cons k l below rest) := by
  have hinsert {l' below'} (hpath : path label c cs = cons c l' below' nil) (k l below rest)
      (h : c < k) :
      (cons k l below rest).insert label c cs = cons c l' below' (cons k l below rest) := by
    rw [insert.eq_def]
    dsimp only
    rw [if_neg (by omega), if_pos h, hpath]
  cases cs with
  | nil => exact ⟨_, _, rfl, hinsert rfl⟩
  | cons c' cs => exact ⟨_, _, rfl, hinsert rfl⟩

theorem lookup_path : (path label c cs).lookup c' cs' =
    if c' :: cs' = c :: cs then some label else none := by
  induction cs generalizing c c' cs' with
  | nil =>
      by_cases hc : c' = c
      · subst hc
        cases cs' with
        | nil => simp [path]
        | cons d ds => simp [path]
      · rw [path, lookup_cons_of_ne hc]
        simp [hc]
  | cons d cs ih =>
      by_cases hc : c' = c
      · subst hc
        cases cs' with
        | nil => simp [path]
        | cons d' ds => simp [path, ih]
      · rw [path, lookup_cons_of_ne hc]
        simp [hc]

/-! ## Branches in order -/

/-- Every choice at a node is greater than a given one. -/
def Above (k : Int) : Branches → Prop
  | nil => True
  | cons c _ _ rest => k < c ∧ rest.Above k

/-- At every node, the choices stand in ascending order. -/
def Ascending : Branches → Prop
  | nil => True
  | cons c _ below rest => below.Ascending ∧ rest.Above c ∧ rest.Ascending

theorem Above.mono (hb : b.Above k) (hc : c ≤ k) : b.Above c := by
  induction b with
  | nil => trivial
  | cons k' l below rest _ ih =>
      obtain ⟨hk, hrest⟩ := hb
      exact ⟨by omega, ih hrest⟩

theorem Above.lookup_eq_none (hb : b.Above k) (hc : c ≤ k) : b.lookup c cs = none := by
  induction b with
  | nil => exact lookup_nil
  | cons k' l below rest _ ih =>
      obtain ⟨hk, hrest⟩ := hb
      rw [lookup_cons_of_ne (by omega)]
      exact ih hrest

theorem ascending_path : (path label c cs).Ascending := by
  induction cs generalizing c with
  | nil => exact ⟨trivial, trivial, trivial⟩
  | cons c' cs ih => exact ⟨ih, trivial, trivial⟩

theorem Above.insert (hb : b.Above k) (hc : k < c) : (b.insert label c cs).Above k := by
  obtain ⟨l', below', hpath, hbefore⟩ := exists_path label c cs
  induction b with
  | nil =>
      rw [Branches.insert, hpath]
      exact ⟨hc, trivial⟩
  | cons k' l below rest _ ih =>
      obtain ⟨hk, hrest⟩ := hb
      rcases Int.lt_trichotomy c k' with hlt | rfl | hgt
      · rw [hbefore _ _ _ _ hlt]
        exact ⟨hc, hk, hrest⟩
      · cases cs with
        | nil => exact insert_cons_end ▸ ⟨hk, hrest⟩
        | cons c' cs => exact insert_cons_below ▸ ⟨hk, hrest⟩
      · rw [insert_cons_of_gt hgt]
        exact ⟨hk, ih hrest⟩

theorem Ascending.insert (hb : b.Ascending) : (b.insert label c cs).Ascending := by
  induction b generalizing c cs with
  | nil => exact ascending_path
  | cons k l below rest ihbelow ihrest =>
      obtain ⟨hbelow, habove, hrest⟩ := hb
      rcases Int.lt_trichotomy c k with hlt | rfl | hgt
      · obtain ⟨l', below', hpath, hbefore⟩ := exists_path label c cs
        have hnew : (cons c l' below' nil).Ascending := hpath ▸ ascending_path
        rw [hbefore _ _ _ _ hlt]
        exact ⟨hnew.1, ⟨hlt, habove.mono (by omega)⟩, hbelow, habove, hrest⟩
      · cases cs with
        | nil => exact insert_cons_end ▸ ⟨hbelow, habove, hrest⟩
        | cons c' cs => exact insert_cons_below ▸ ⟨ihbelow hbelow, habove, hrest⟩
      · rw [insert_cons_of_gt hgt]
        exact ⟨hbelow, habove.insert hgt, ihrest hrest⟩

theorem Ascending.lookup_insert (hb : b.Ascending) : (b.insert label c cs).lookup c' cs' =
    if c' :: cs' = c :: cs then some label else b.lookup c' cs' := by
  induction b generalizing c cs c' cs' with
  | nil => exact lookup_nil ▸ lookup_path
  | cons k l below rest ihbelow ihrest =>
      obtain ⟨hbelow, habove, hrest⟩ := hb
      rcases Int.lt_trichotomy c k with hlt | rfl | hgt
      · obtain ⟨l', below', hpath, hbefore⟩ := exists_path label c cs
        have hsingle : (path label c cs).lookup c' cs' = _ := lookup_path
        rw [hpath] at hsingle
        rw [hbefore _ _ _ _ hlt]
        by_cases hc : c' = c
        · subst hc
          -- the new branch hides none with the same choice, since all behind it are greater
          have hnone : (cons k l below rest).Above c' := ⟨hlt, habove.mono (by omega)⟩
          rw [hnone.lookup_eq_none (Int.le_refl _), ← hsingle]
          cases cs' <;> simp
        · rw [lookup_cons_of_ne hc, if_neg (by simp [hc])]
      · by_cases hc : c' = c
        · subst hc
          cases cs with
          | nil => cases cs' <;> simp [insert_cons_end]
          | cons d cs => cases cs' <;> simp [insert_cons_below, ihbelow hbelow]
        · cases cs with
          | nil => simp [insert_cons_end, lookup_cons_of_ne hc, hc]
          | cons d cs => simp [insert_cons_below, lookup_cons_of_ne hc, hc]
      · rw [insert_cons_of_gt hgt]
        by_cases hc : c' = k
        · subst hc
          rw [if_neg (by simp [Int.ne_of_lt hgt])]
          cases cs' <;> simp
        · rw [lookup_cons_of_ne hc, lookup_cons_of_ne hc, ihrest hrest]

end Branches

namespace LabelTree

variable {t : LabelTree} {s choices : List Int} {label : String}

theorem lookup_empty : empty.lookup s = none := by
  cases s with
  | nil => rfl
  | cons c cs =>
      show Branches.nil.lookup c cs = none
      exact Branches.lookup_nil

def Ascending (t : LabelTree) : Prop := t.branches.Ascending

theorem Ascending.insert (ht : t.Ascending) : (t.insert choices label).Ascending := by
  cases choices with
  | nil => exact ht
  | cons c cs => exact Branches.Ascending.insert ht

theorem Ascending.lookup_insert (ht : t.Ascending) :
    (t.insert choices label).lookup s = if s = choices then some label else t.lookup s := by
  cases choices with
  | nil => cases s <;> simp [LabelTree.insert, lookup]
  | cons c cs =>
      cases s with
      | nil => simp [LabelTree.insert, lookup]
      | cons c' cs' => exact Branches.Ascending.lookup_insert ht

/-! ## Lists of labels -/

/-- The tree in which the labels of a list were set, one after another. -/
def ofList (entries : List (List Int × String)) : LabelTree :=
  entries.foldl (fun t e => t.insert e.1 e.2) empty

theorem ofList_concat (entries : List (List Int × String)) (e : List Int × String) :
    ofList (entries ++ [e]) = (ofList entries).insert e.1 e.2 := by
  rw [ofList, ofList, List.foldl_concat]

theorem ascending_ofList (entries : List (List Int × String)) : (ofList entries).Ascending := by
  induction entries using List.reverseRecOn with
  | nil => trivial
  | append_singleton entries e ih => exact ofList_concat entries e ▸ ih.insert

theorem lookup_ofList (entries : List (List Int × String)) (s : List Int) :
    (ofList entries).lookup s = (entries.reverse.find? fun e => e.1 == s).map Prod.snd := by
  induction entries using List.reverseRecOn with
  | nil => exact lookup_empty
  | append_singleton entries e ih =>
      rw [ofList_concat, (ascending_ofList entries).lookup_insert, List.reverse_concat,
        List.find?_cons, ih]
      by_cases hs : s = e.1
      · simp [hs]
      · rw [if_neg hs, beq_false_of_ne (Ne.symm hs)]

end LabelTree

end Narrowing
