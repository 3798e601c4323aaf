/-
# Join tables that pass their check

Settings change the standard table one join at a time, each in both orders, and the
table is checked once, at the end.  A change always names a domain, so a cell never
becomes empty; and the check asks that both sides lead to what a cell names.  Between
word ranges and one of signs, zero-ness and intervals there is no such domain.  So
the tables that pass are empty in the same places, whatever was changed.

Along joins one stays among domains that have joins.  Exact words lead everywhere;
any other domain leads only to domains that are apart from the same ones as itself.
-/
import Narrowing.Proofs.Settings

namespace Narrowing

namespace Domain

variable {a b c d : Domain}

/-- One of the two is word ranges, the other signs, zero-ness or intervals. -/
def apart : Domain → Domain → Bool
  | words, d | d, words => d == sign || d == zero || d == interval
  | _, _ => false

theorem canCoerce_trans (hab : a.canCoerce b = true) (hbc : b.canCoerce c = true) :
    a.canCoerce c = true := by
  revert hab hbc
  cases a <;> cases b <;> cases c <;> decide

theorem apart_eq_false_of_canCoerce (ha : a.canCoerce c = true) (hb : b.canCoerce c = true) :
    a.apart b = false := by
  revert ha hb
  cases a <;> cases b <;> cases c <;> decide

/-- What a domain leads to is apart from the same domains, unless it is the exact words. -/
theorem apart_eq_of_canCoerce (ha : a ≠ constant) (hab : a.canCoerce b = true) :
    b.apart d = a.apart d := by
  revert ha hab
  cases a <;> cases b <;> cases d <;> decide

/-- Two domains that are not apart from a third are not apart, unless this is the exact words. -/
theorem apart_eq_false_of_apart (hd : d ≠ constant) (ha : a.apart d = false)
    (hb : b.apart d = false) : a.apart b = false := by
  revert hd ha hb
  cases d <;> cases a <;> cases b <;> decide

end Domain

namespace JoinTable

variable {t : JoinTable} {a b r : Domain}

/-! ## Changes -/

theorem cell_set (t : JoinTable) (a b : Domain) (r : Option Domain) (x y : Domain) :
    (t.set a b r).cell x y = if (x = b ∧ y = a) ∨ (x = a ∧ y = b) then r else t.cell x y := by
  show (if x = b ∧ y = a then r else if x = a ∧ y = b then r else t.cell x y) = _
  by_cases h : x = b ∧ y = a
  · rw [if_pos h, if_pos (Or.inl h)]
  · rw [if_neg h]
    simp only [h, false_or]

/-- What is kept when joins are changed: the order of two domains makes no difference, and
only domains that are apart have no join. -/
structure Full (t : JoinTable) : Prop where
  symm : ∀ a b, t.cell a b = t.cell b a
  apart : ∀ a b, t.cell a b = none → a.apart b = true

theorem full_standard : standard.Full where
  symm a b := by cases a <;> cases b <;> rfl
  apart a b := by cases a <;> cases b <;> decide

theorem Full.set (ht : t.Full) (a b r : Domain) : (t.set a b (some r)).Full where
  symm x y := by
    rw [cell_set, cell_set, ht.symm x y]
    congr 1
    rw [and_comm (a := x = b), and_comm (a := x = a)]
    exact propext or_comm
  apart x y h := by
    rw [cell_set] at h
    split at h
    · cases h
    · exact ht.apart x y h

/-! ## The check -/

theorem canCoerce_of_cell (h : t.validate = .ok ()) (hcell : t.cell a b = some r) :
    a.canCoerce r = true ∧ b.canCoerce r = true := by
  have hrow : t.checkRow a = .ok () := forM_eq_ok h a (by cases a <;> decide)
  unfold checkRow at hrow
  rw [if_neg (not_not_intro (cell_self h a))] at hrow
  have hcheck : t.checkCell a b = .ok () := forM_eq_ok hrow b (by cases b <;> decide)
  unfold checkCell at hcheck
  rw [hcell] at hcheck
  dsimp only at hcheck
  split at hcheck
  · rename_i hreach
    exact Bool.and_eq_true_iff.mp hreach
  · exact nomatch hcheck

/-- What is known of a table that passes its check. -/
structure Usable (t : JoinTable) : Prop where
  self : ∀ a, t.cell a a = some a
  symm : ∀ a b, t.cell a b = t.cell b a
  none_iff : ∀ a b, t.cell a b = none ↔ a.apart b = true
  reach : ∀ a b r, t.cell a b = some r → a.canCoerce r = true ∧ b.canCoerce r = true

theorem Full.usable (ht : t.Full) (h : t.validate = .ok ()) : t.Usable where
  self := cell_self h
  symm := ht.symm
  reach a b r := canCoerce_of_cell h
  none_iff a b := by
    refine ⟨ht.apart a b, fun hapart => ?_⟩
    cases hcell : t.cell a b with
    | none => rfl
    | some r =>
        obtain ⟨ha, hb⟩ := canCoerce_of_cell h hcell
        rw [Domain.apart_eq_false_of_canCoerce ha hb] at hapart
        exact nomatch hapart

end JoinTable

/-! ## Settings -/

theorem foldlM_keeps {ε α β : Type} {f : β → α → Except ε β} {I : β → Prop}
    (hf : ∀ b a b', I b → f b a = .ok b' → I b') {l : List α} {b b' : β} (hb : I b)
    (h : l.foldlM f b = .ok b') : I b' := by
  induction l generalizing b with
  | nil => exact Except.ok.inj h ▸ hb
  | cons a l ih =>
      obtain ⟨c, hc, hl⟩ := exists_of_bind_eq_ok h
      exact ih (hf b a c hb hc) hl

namespace DomainSettings

variable {s : DomainSettings} {o : DomainOptions} {t t' : JoinTable}

/-- One triple of the joins changes one join. -/
theorem full_of_addJoin {place : Nat} {triple : List String} (ht : t.Full)
    (h : addJoin t place triple = .ok t') : t'.Full := by
  unfold addJoin at h
  dsimp only at h
  split at h
  · obtain ⟨a, -, h⟩ := exists_of_bind_eq_ok h
    obtain ⟨b, -, h⟩ := exists_of_bind_eq_ok h
    obtain ⟨r, -, h⟩ := exists_of_bind_eq_ok h
    obtain rfl := Except.ok.inj h
    exact ht.set a b r
  · exact nomatch h

theorem full_of_joinTable {joins : List (List String)} (h : joinTable joins = .ok t) : t.Full :=
  foldlM_keeps (fun _ _ _ ht => full_of_addJoin ht) JoinTable.full_standard h

theorem usable_of_options (h : s.options = .ok o) : o.joins.Usable := by
  obtain ⟨_, _, -, -, -, -, hjoins, hvalid⟩ := options_eq_ok h
  obtain ⟨⟨⟩, hcheck, -⟩ := exists_of_bind_eq_ok hvalid
  exact (full_of_joinTable hjoins).usable hcheck

end DomainSettings

end Narrowing
