/-
# What settings that pass the checks amount to

The checks are made one after another, and what is set up in the end is known
from each of them.
-/
import Narrowing.Proofs.Graph.Shape
import Narrowing.Settings.Basic

namespace Narrowing

/-! ## Settings over intervals -/

theorem exists_of_bind_eq_ok {ε α β : Type} {x : Except ε α} {f : α → Except ε β} {b : β}
    (h : x >>= f = .ok b) : ∃ a, x = .ok a ∧ f a = .ok b := by
  cases x with
  | ok a => exact ⟨a, rfl, h⟩
  | error err => exact nomatch h

theorem forM_eq_ok {ε α : Type} {f : α → Except ε Unit} {l : List α} (h : l.forM f = .ok ()) :
    ∀ a ∈ l, f a = .ok () := by
  induction l with
  | nil => exact fun a ha => nomatch ha
  | cons b l ih =>
      obtain ⟨⟨⟩, hb, hl⟩ := exists_of_bind_eq_ok h
      intro a ha
      rcases List.mem_cons.mp ha with rfl | ha
      · exact hb
      · exact ih hl a ha

/-- A join table that passes its check leaves a domain as it is. -/
theorem JoinTable.cell_self {t : JoinTable} (h : t.validate = .ok ()) (d : Domain) :
    t.cell d d = some d := by
  have hrow : t.checkRow d = .ok () := forM_eq_ok h d (by cases d <;> decide)
  by_contra hne
  unfold checkRow at hrow
  rw [if_pos hne] at hrow
  exact nomatch hrow

/-- Options that pass their check draw unknown values from a domain that has some. -/
theorem DomainOptions.unknown_ne_constant {o : DomainOptions} {u : Domain}
    (h : o.validate = .ok ()) (hu : o.unknown = some u) : u ≠ .constant := by
  rintro rfl
  obtain ⟨⟨⟩, -, h⟩ := exists_of_bind_eq_ok h
  rw [hu] at h
  dsimp only at h
  split at h
  · exact nomatch h
  · exact nomatch h

/-- What the options are made from: the domains that are named, the table with its changes, and
a check that was passed. -/
theorem DomainSettings.options_eq_ok {s : DomainSettings} {o : DomainOptions}
    (h : s.options = .ok o) : ∃ lift unknown, domain "domains.lift" s.lift = .ok lift ∧
      domain "domains.any" s.unknown = .ok unknown ∧ o.lift = some lift ∧
      o.unknown = some unknown ∧ joinTable (s.joins.getD []) = .ok o.joins ∧
      o.validate = .ok () := by
  unfold options at h
  obtain ⟨lift, hl, h⟩ := exists_of_bind_eq_ok h
  obtain ⟨unknown, hu, h⟩ := exists_of_bind_eq_ok h
  obtain ⟨index, -, h⟩ := exists_of_bind_eq_ok h
  obtain ⟨scalar, -, h⟩ := exists_of_bind_eq_ok h
  obtain ⟨joins, hjoins, h⟩ := exists_of_bind_eq_ok h
  dsimp only at h
  split at h
  · rename_i hvalid
    obtain rfl := Except.ok.inj h
    exact ⟨lift, unknown, hl, hu, rfl, rfl, hjoins, hvalid⟩
  · exact nomatch h

theorem DomainSettings.overIntervals {s : DomainSettings} {o : DomainOptions}
    (h : s.options = .ok o) (hlift : s.lift = Domain.interval.name)
    (hany : s.unknown = Domain.interval.name) : o.joins.cell .interval .interval = some .interval ∧
      o.lift = some .interval ∧ o.unknown = some .interval := by
  obtain ⟨lift, unknown, hl, hu, hol, hou, -, hvalid⟩ := options_eq_ok h
  rw [hlift] at hl
  rw [hany] at hu
  obtain rfl : Domain.interval = lift := Except.ok.inj hl
  obtain rfl : Domain.interval = unknown := Except.ok.inj hu
  obtain ⟨⟨⟩, hjoins, -⟩ := exists_of_bind_eq_ok hvalid
  exact ⟨JoinTable.cell_self hjoins .interval, hol, hou⟩

theorem DomainSettings.name_of_domain {field name : String} {d : Domain}
    (h : domain field name = .ok d) : name = d.name := by
  unfold domain at h
  split at h
  · rename_i found hfound
    obtain rfl := Except.ok.inj h
    have hname := List.find?_some (p := fun d : Domain => d.name == name) hfound
    exact (eq_of_beq hname).symm
  · exact nomatch h

theorem Settings.options_of_setup {s : Settings} {st : Setup} (h : s.setup = .ok st) :
    s.domains.options = .ok st.engine.lattice.options := by
  unfold setup at h
  obtain ⟨-, -, h⟩ := exists_of_bind_eq_ok h
  obtain ⟨options, hoptions, h⟩ := exists_of_bind_eq_ok h
  obtain ⟨strategy, -, h⟩ := exists_of_bind_eq_ok h
  obtain ⟨limits, -, h⟩ := exists_of_bind_eq_ok h
  obtain ⟨severity, -, h⟩ := exists_of_bind_eq_ok h
  obtain rfl := Except.ok.inj h
  exact hoptions

theorem Settings.overIntervals {s : Settings} {st : Setup} (h : s.setup = .ok st)
    (hlift : s.domains.lift = Domain.interval.name)
    (hany : s.domains.unknown = Domain.interval.name) : st.engine.OverIntervals := by
  obtain ⟨hjoins, hl, hu⟩ := DomainSettings.overIntervals (options_of_setup h) hlift hany
  exact ⟨hjoins, hl, hu⟩

end Narrowing
