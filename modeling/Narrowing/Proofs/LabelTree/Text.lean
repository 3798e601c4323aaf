/-
# The written form of a tree tells it apart

A tree is written without any mark between its parts:

    0(*completed)1(0(*cancelled)2(*bounded)10(*faulted))

There is one way to read such a text, from left to right, as long as the labels are made of
letters.  A number goes on as far as there are digits, with a sign before them, and a bracket
follows; a label goes on as far as there are letters, and a digit, a sign or a bracket follows
(`run_inj`).  The branches of a node go on as far as there are numbers, and what follows them is
the bracket that closes the node, or nothing (`chars_inj`).

So two trees with the same text are the same tree.
-/
import Mathlib
import Narrowing.Proofs.LabelTree

namespace Narrowing

/-! ## Runs of characters -/

/-- What follows is of another sort, or there is nothing. -/
def Stops (sort : Char → Bool) (u : List Char) : Prop := ∀ ch ∈ u.head?, sort ch = false

theorem stops_cons {sort : Char → Bool} {ch : Char} {u : List Char} (h : sort ch = false) :
    Stops sort (ch :: u) := by
  intro ch' hch'
  rwa [← Option.some.inj hch']

theorem takeWhile_eq_nil {sort : Char → Bool} {u : List Char} (hu : Stops sort u) :
    u.takeWhile sort = [] := by
  cases u with
  | nil => rfl
  | cons ch u => exact List.takeWhile_cons_of_neg (by simp [hu ch rfl])

/-- A run of characters of one sort ends where one of another sort stands. -/
theorem run_inj {sort : Char → Bool} {r r' u u' : List Char} (hr : ∀ ch ∈ r, sort ch = true)
    (hr' : ∀ ch ∈ r', sort ch = true) (hu : Stops sort u) (hu' : Stops sort u')
    (h : r ++ u = r' ++ u') : r = r' ∧ u = u' := by
  have hrun {r u : List Char} (hr : ∀ ch ∈ r, sort ch = true) (hu : Stops sort u) :
      (r ++ u).takeWhile sort = r := by
    rw [List.takeWhile_append_of_pos hr, takeWhile_eq_nil hu, List.append_nil]
  have hsame : r = r' := by rw [← hrun hr hu, ← hrun hr' hu', h]
  subst hsame
  exact ⟨rfl, List.append_cancel_left h⟩

/-! ## Numbers -/

def isNumeral (ch : Char) : Bool := ch.isDigit || ch == '-'

theorem isNumeral_of_mem_repr {c : Int} {ch : Char} (h : ch ∈ c.repr.toList) :
    isNumeral ch = true := by
  have hdigit {n : Nat} (h : ch ∈ n.repr.toList) : isNumeral ch = true := by
    rw [Nat.toList_repr] at h
    simp [isNumeral, Nat.isDigit_of_mem_toDigits (by decide) (by decide) h]
  cases c with
  | ofNat n => exact hdigit h
  | negSucc n =>
      rw [Int.repr, String.toList_append] at h
      rcases List.mem_append.mp h with hsign | hdigits
      · obtain rfl : ch = '-' := by simpa using hsign
        rfl
      · exact hdigit hdigits

theorem toList_repr_ne_nil (c : Int) : c.repr.toList ≠ [] := by
  cases c with
  | ofNat n => exact Nat.toList_repr ▸ Nat.toDigits_ne_nil
  | negSucc n => simp [Int.repr]

/-- A character that may follow a label: one of a number, or the bracket that closes a node. -/
def isMark (ch : Char) : Bool := isNumeral ch || ch == ')'

theorem ne_of_isMark {ch : Char} (h : isMark ch = true) : ch.isAlpha = false ∧ ch ≠ '*' := by
  simp only [isMark, isNumeral, Bool.or_eq_true, beq_iff_eq] at h
  rcases h with (hdigit | rfl) | rfl
  · constructor
    · grind [Char.isDigit, Char.isAlpha, Char.isUpper, Char.isLower]
    · rintro rfl
      exact absurd hdigit (by decide)
  · decide
  · decide

/-- A text that starts with such a character, or is empty. -/
def Marked (u : List Char) : Prop := ∀ ch ∈ u.head?, isMark ch = true

/-! ## Labels -/

/-- A label of letters, if there is one. -/
def Lettered : Option String → Prop
  | none => True
  | some label => ∀ ch ∈ label.toList, ch.isAlpha = true

namespace Branches

variable {b b' below rest : Branches} {c : Int} {cs : List Int} {label : String}
  {l l' : Option String} {u u' : List Char}

/-- The written form of a label: a star and the label. -/
def labelChars : Option String → List Char
  | none => []
  | some label => '*' :: label.toList

theorem labelChars_inj (hl : Lettered l) (hl' : Lettered l') (hu : Marked u)
    (hu' : Marked u') (h : labelChars l ++ u = labelChars l' ++ u') : l = l' ∧ u = u' := by
  have hstops {u : List Char} (hu : Marked u) : Stops Char.isAlpha u :=
    fun ch hch => (ne_of_isMark (hu ch hch)).1
  have hstar {u v : List Char} (hu : Marked u) (h : u = '*' :: v) : False := by
    subst h
    exact (ne_of_isMark (hu '*' rfl)).2 rfl
  cases l with
  | none =>
      cases l' with
      | none => exact ⟨rfl, h⟩
      | some label' => exact (hstar hu h).elim
  | some label =>
      cases l' with
      | none => exact (hstar hu' h.symm).elim
      | some label' =>
          obtain ⟨hlabel, hrest⟩ := run_inj hl hl' (hstops hu) (hstops hu')
            (List.cons.inj h).2
          exact ⟨congrArg some (String.toList_inj.mp hlabel), hrest⟩

/-! ## Branches -/

/-- The written form: each choice with its node in brackets. -/
def chars : Branches → List Char
  | nil => []
  | cons c l below rest =>
    c.repr.toList ++ '(' :: labelChars l ++ below.chars ++ ')' :: rest.chars

/-- Every label is made of letters. -/
def Lettered : Branches → Prop
  | nil => True
  | cons _ l below rest => Narrowing.Lettered l ∧ below.Lettered ∧ rest.Lettered

/-- What follows the branches of a node: the bracket that closes it, or nothing. -/
def Closes (u : List Char) : Prop := ∀ ch ∈ u.head?, ch = ')'

theorem closes_cons : Closes (')' :: u) := by
  intro ch hch
  exact (Option.some.inj hch).symm

theorem exists_chars_cons (c : Int) (l : Option String) (below rest : Branches) :
    ∃ ch v, (cons c l below rest).chars = ch :: v ∧ isNumeral ch = true := by
  obtain ⟨ch, v, hrepr⟩ := List.exists_cons_of_ne_nil (toList_repr_ne_nil c)
  refine ⟨ch, v ++ '(' :: labelChars l ++ below.chars ++ ')' :: rest.chars, ?_, ?_⟩
  · rw [chars, hrepr]
    rfl
  · exact isNumeral_of_mem_repr (hrepr ▸ List.mem_cons_self)

theorem marked_chars (hu : Closes u) : Marked (b.chars ++ u) := by
  intro ch hch
  cases b with
  | nil => exact hu ch hch ▸ rfl
  | cons c l below rest =>
      obtain ⟨first, v, hchars, hfirst⟩ := exists_chars_cons c l below rest
      rw [hchars] at hch
      obtain rfl := Option.some.inj hch
      simp [isMark, hfirst]

/-- The first character tells whether there is a branch. -/
theorem chars_cons_ne (hu : Closes u) : (cons c l below rest).chars ++ u' ≠ u := by
  obtain ⟨first, v, hchars, hfirst⟩ := exists_chars_cons c l below rest
  rw [hchars]
  rintro rfl
  obtain rfl := hu first rfl
  exact absurd hfirst (by decide)

/-- **Branches are told from their text**, and so is where they end. -/
theorem chars_inj (hb : b.Lettered) (hb' : b'.Lettered) (hu : Closes u) (hu' : Closes u')
    (h : b.chars ++ u = b'.chars ++ u') : b = b' ∧ u = u' := by
  -- What follows is arbitrary: below a branch it is the rest of the text, from its bracket on.
  induction b generalizing b' u u' with
  | nil =>
      cases b' with
      | nil => exact ⟨rfl, h⟩
      | cons c' l' below' rest' => exact absurd h.symm (chars_cons_ne hu)
  | cons c l below rest ihbelow ihrest =>
      cases b' with
      | nil => exact absurd h (chars_cons_ne hu')
      | cons c' l' below' rest' =>
          obtain ⟨hl, hbelow, hrest⟩ := hb
          obtain ⟨hl', hbelow', hrest'⟩ := hb'
          simp only [chars, List.append_assoc, List.cons_append] at h
          obtain ⟨hchoice, hnode⟩ := run_inj (fun _ => isNumeral_of_mem_repr)
            (fun _ => isNumeral_of_mem_repr) (stops_cons rfl) (stops_cons rfl) h
          obtain rfl := Int.repr_inj.mp (String.toList_inj.mp hchoice)
          obtain ⟨rfl, hbranches⟩ := labelChars_inj hl hl' (marked_chars closes_cons)
            (marked_chars closes_cons) (List.cons.inj hnode).2
          obtain ⟨rfl, hclose⟩ := ihbelow hbelow hbelow' closes_cons closes_cons hbranches
          obtain ⟨rfl, hend⟩ := ihrest hrest hrest' hu hu' (List.cons.inj hclose).2
          exact ⟨rfl, hend⟩

theorem lettered_path (h : Narrowing.Lettered (some label)) : (path label c cs).Lettered := by
  induction cs generalizing c with
  | nil => exact ⟨h, trivial, trivial⟩
  | cons c' cs ih => exact ⟨trivial, ih, trivial⟩

theorem Lettered.insert (hb : b.Lettered) (h : Narrowing.Lettered (some label)) :
    (b.insert label c cs).Lettered := by
  induction b generalizing c cs with
  | nil => exact lettered_path h
  | cons k l below rest ihbelow ihrest =>
      obtain ⟨hl, hbelow, hrest⟩ := hb
      rcases Int.lt_trichotomy c k with hlt | rfl | hgt
      · obtain ⟨l', below', hpath, hbefore⟩ := exists_path label c cs
        have hnew : (cons c l' below' nil).Lettered := hpath ▸ lettered_path h
        rw [hbefore _ _ _ _ hlt]
        exact ⟨hnew.1, hnew.2.1, hl, hbelow, hrest⟩
      · cases cs with
        | nil => exact insert_cons_end ▸ ⟨h, hbelow, hrest⟩
        | cons c' cs => exact insert_cons_below ▸ ⟨hl, ihbelow hbelow, hrest⟩
      · rw [insert_cons_of_gt hgt]
        exact ⟨hl, hbelow, ihrest hrest⟩

end Branches

namespace LabelTree

variable {t t' : LabelTree}

/-- The written form, such as `0(*completed)1(0(*cancelled))`. -/
def text (t : LabelTree) : String :=
  String.ofList (Branches.labelChars t.label ++ t.branches.chars)

def Lettered (t : LabelTree) : Prop := Narrowing.Lettered t.label ∧ t.branches.Lettered

theorem text_inj (ht : t.Lettered) (ht' : t'.Lettered) (h : t.text = t'.text) : t = t' := by
  have hclosed : Branches.Closes [] := nofun
  have hmark (b : Branches) : Marked b.chars :=
    List.append_nil b.chars ▸ Branches.marked_chars hclosed
  obtain ⟨hlabel, hbranches⟩ := Branches.labelChars_inj ht.1 ht'.1 (hmark t.branches)
    (hmark t'.branches) (String.ofList_injective h)
  obtain ⟨hsame, -⟩ := Branches.chars_inj ht.2 ht'.2 hclosed hclosed (congrArg (· ++ []) hbranches)
  cases t
  cases t'
  exact congrArg₂ mk hlabel hsame

theorem Lettered.insert {choices : List Int} {label : String} (ht : t.Lettered)
    (h : Narrowing.Lettered (some label)) : (t.insert choices label).Lettered := by
  cases choices with
  | nil => exact ⟨h, ht.2⟩
  | cons c cs => exact ⟨ht.1, ht.2.insert h⟩

theorem lettered_ofList {entries : List (List Int × String)}
    (h : ∀ e ∈ entries, Narrowing.Lettered (some e.2)) : (ofList entries).Lettered := by
  induction entries using List.reverseRecOn with
  | nil => exact ⟨trivial, trivial⟩
  | append_singleton entries e ih =>
      rw [ofList_concat]
      exact (ih fun e he => h e (List.mem_append_left _ he)).insert (h e (by simp))

end LabelTree

end Narrowing
