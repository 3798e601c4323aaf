/-
# Domains that never part

Where the join table passes its check, exact words are lifted as they are and unknown
values are drawn from some other domain, no operation comes upon two domains without a
join, nor upon a value that does not lead into the domain found for it.

Every value of a graph belongs to the exact words or to a domain that is not apart from
that of the unknown values.  Between two such domains there is a join, which both lead
to, and the join is another such domain.  An assumption brings operands into the join of
three domains and leaves them there; to this the two of them lead by way of their own
join, so that it takes two steps of the same argument.  Whichever operations follow,
failed ones among them, the values stay among these domains.
-/
import Narrowing.Proofs.Graph.Order
import Narrowing.Proofs.JoinTable
import Narrowing.Proofs.Refusal

namespace Narrowing

/-- The domains that have joins with a given one. -/
def Domain.Akin (u d : Domain) : Prop := d.apart u = false

/-- A usable table; exact words stay exact, and unknown values belong to some other domain. -/
structure Engine.Joined (e : Engine) (u : Domain) : Prop where
  joins : e.lattice.options.joins.Usable
  lift : e.lattice.options.lift = some .constant
  unknown : e.lattice.options.unknown = some u
  inexact : u ≠ .constant

namespace Domain

variable {u a b d : Domain}

theorem akin_self (u : Domain) : Akin u u := by cases u <;> rfl

theorem akin_constant (u : Domain) : Akin u constant := by cases u <;> rfl

theorem Akin.of_canCoerce (ha : Akin u a) (hne : a ≠ constant) (h : a.canCoerce d = true) :
    Akin u d := (apart_eq_of_canCoerce hne h).trans ha

theorem Akin.join {t : JoinTable} (ht : t.Usable) (ha : Akin u a) (hb : Akin u b)
    (hcell : t.cell a b = some d) : Akin u d := by
  obtain ⟨hra, hrb⟩ := ht.reach a b d hcell
  by_cases hca : a = constant
  · by_cases hcb : b = constant
    · subst hca hcb
      rw [ht.self] at hcell
      exact Option.some.inj hcell ▸ akin_constant u
    · exact hb.of_canCoerce hcb hrb
  · exact ha.of_canCoerce hca hra

end Domain

/-! ## Operators -/

namespace Lattice

variable {l : Lattice} {u d : Domain} {a b r : Value}

section Joined

variable (ht : l.options.joins.Usable) (hu : u ≠ .constant)

include ht hu in
/-- Two domains have a join; both lead to it, and it is one of the same domains. -/
theorem exists_join {x y : Domain} (hx : u.Akin x) (hy : u.Akin y) :
    ∃ d, l.join x y = pure d ∧ x.canCoerce d = true ∧ y.canCoerce d = true ∧ u.Akin d := by
  have hnone : l.options.joins.cell x y ≠ none := by
    intro hnone
    rw [ht.none_iff, Domain.apart_eq_false_of_apart hu hx hy] at hnone
    exact nomatch hnone
  obtain ⟨d, hcell⟩ := Option.ne_none_iff_exists'.mp hnone
  obtain ⟨hxd, hyd⟩ := ht.reach x y d hcell
  have hlookup : l.options.joins.lookup (some x) (some y) = some d := hcell
  refine ⟨d, ?_, hxd, hyd, hx.join ht hy hcell⟩
  unfold join join?
  rw [hlookup]

theorem ends_operatorIn {α : Type} {read : Value → Eval α} {op : α → α → Eval α}
    {wrap : α → Value} (ha : (read a).Ends (fun _ => True) Failure.IsLocal)
    (hb : (read b).Ends (fun _ => True) Failure.IsLocal)
    (hop : ∀ x y, (op x y).Ends (fun _ => True) Failure.IsLocal)
    (hwrap : ∀ x, (wrap x).domain = d) :
    Eval.Ends (fun v => v.domain = d) Failure.IsLocal
      (do return wrap (← op (← read a) (← read b))) := by
  refine Eval.ends_bind (ha.imp fun x _ => Eval.ends_bind (hb.imp fun y _ => ?_))
  exact Eval.ends_bind ((hop x y).imp fun v _ => Eval.ends_pure (hwrap v))

include ht hu in
theorem ends_binary_akin (tag : Tag) (ha : u.Akin a.domain) (hb : u.Akin b.domain) :
    (l.binary tag a b).Ends (fun v => u.Akin v.domain) Failure.IsLocal := by
  obtain ⟨d, hjoin, had, hbd, hd⟩ := exists_join ht hu ha hb
  unfold binary
  rw [hjoin, pure_bind]
  refine Eval.ends_bind (Eval.ends_note (Eval.Ends.imp (Q := fun v => v.domain = d) ?_ ?_))
  · cases d with
    | constant =>
        exact ends_operatorIn (Value.ends_toConstant_local had) (Value.ends_toConstant_local hbd)
          (Constant.ends_binary tag) fun _ => rfl
    | sign =>
        exact ends_operatorIn (Value.ends_toSign_local had) (Value.ends_toSign_local hbd)
          (Sign.ends_binary tag) fun _ => rfl
    | zero =>
        exact ends_operatorIn (Value.ends_toZero_local had) (Value.ends_toZero_local hbd)
          (Zero.ends_binary tag) fun _ => rfl
    | interval =>
        exact ends_operatorIn (Value.ends_toInterval_local had) (Value.ends_toInterval_local hbd)
          (Interval.ends_binary tag) fun _ => rfl
    | words =>
        exact ends_operatorIn (Value.ends_toWords_local had) (Value.ends_toWords_local hbd)
          (WordRange.ends_binary tag) fun _ => rfl
  · rintro v rfl
    exact hd

theorem ends_ruleIn_local {α : Type} {read : Value → Eval α} {rule : α → α → α → Eval (α × α)}
    {wrap : α → Value} {Q : α → α → α × α → Prop}
    (ha : (read a).Ends (fun _ => True) Failure.IsLocal)
    (hb : (read b).Ends (fun _ => True) Failure.IsLocal)
    (hr : (read r).Ends (fun _ => True) Failure.IsLocal)
    (hrule : ∀ r a b, (rule r a b).Ends (Q a b) Failure.IsLocal)
    (hwrap : ∀ x, (wrap x).domain = d) :
    Eval.Ends (fun p => p.1.domain = d ∧ p.2.domain = d) Failure.IsLocal (do
      let x ← read a
      let y ← read b
      let p ← rule (← read r) x y
      return (wrap p.1, wrap p.2)) := by
  refine Eval.ends_bind (ha.imp fun x _ => Eval.ends_bind (hb.imp fun y _ => ?_))
  refine Eval.ends_bind (hr.imp fun z _ => ?_)
  exact Eval.ends_bind ((hrule z x y).imp fun p _ => Eval.ends_pure ⟨hwrap p.1, hwrap p.2⟩)

theorem ends_backwardIn_local (tag : Tag) (ha : a.domain.canCoerce d = true)
    (hb : b.domain.canCoerce d = true) (hr : r.domain.canCoerce d = true) :
    (l.backwardIn tag d a b r).Ends (fun p => p.1.domain = d ∧ p.2.domain = d)
      Failure.IsLocal := by
  cases d with
  | constant =>
      refine Eval.ends_bind ((Value.ends_toConstant_local ha).imp fun x _ => ?_)
      refine Eval.ends_bind ((Value.ends_toConstant_local hb).imp fun y _ => ?_)
      exact Eval.ends_bind ((Value.ends_toConstant_local hr).imp fun _ _ =>
        Eval.ends_pure ⟨rfl, rfl⟩)
  | sign =>
      exact ends_ruleIn_local (Value.ends_toSign_local ha) (Value.ends_toSign_local hb)
        (Value.ends_toSign_local hr) (Sign.ends_backward tag) fun _ => rfl
  | zero =>
      exact ends_ruleIn_local (Value.ends_toZero_local ha) (Value.ends_toZero_local hb)
        (Value.ends_toZero_local hr) (Zero.ends_backward tag) fun _ => rfl
  | interval =>
      exact ends_ruleIn_local (Value.ends_toInterval_local ha) (Value.ends_toInterval_local hb)
        (Value.ends_toInterval_local hr) (Interval.ends_backward l.bound tag) fun _ => rfl
  | words =>
      exact ends_ruleIn_local (Value.ends_toWords_local ha) (Value.ends_toWords_local hb)
        (Value.ends_toWords_local hr) (WordRange.ends_backward tag) fun _ => rfl

include ht hu

/-- Both operands lead to the join of three domains by way of their own join. -/
theorem ends_backward_akin (tag : Tag) (hr : u.Akin r.domain) (ha : u.Akin a.domain)
    (hb : u.Akin b.domain) : (l.backward tag r a b).Ends
      (fun p => u.Akin p.1.domain ∧ u.Akin p.2.domain) Failure.IsLocal := by
  obtain ⟨c, hab, hac, hbc, hc⟩ := exists_join ht hu ha hb
  obtain ⟨d, hcr, hcd, hrd, hd⟩ := exists_join ht hu hc hr
  unfold backward
  rw [hab, pure_bind, hcr, pure_bind]
  refine (ends_backwardIn_local tag (Domain.canCoerce_trans hac hcd)
    (Domain.canCoerce_trans hbc hcd) hrd).imp ?_
  rintro p ⟨hp, hp'⟩
  rw [hp, hp']
  exact ⟨hd, hd⟩

theorem ends_backwardCast_akin (tag : Tag) (hr : u.Akin r.domain) (ha : u.Akin a.domain) :
    (l.backwardCast tag r a).Ends (fun v => u.Akin v.domain) Failure.IsLocal := by
  obtain ⟨d, hjoin, had, hrd, hd⟩ := exists_join ht hu ha hr
  unfold backwardCast
  rw [hjoin, pure_bind]
  refine Eval.ends_bind ((Value.ends_coerce_local had).imp fun x hx => ?_)
  have hxd : x.domain.canCoerce d = true := by
    rw [hx]
    cases d <;> rfl
  refine Eval.ends_bind ((ends_backwardIn_local tag hxd hxd hrd).imp fun p hp => ?_)
  exact Eval.ends_pure (hp.1 ▸ hd)

theorem ends_concat_akin (width : UInt8) (ha : u.Akin a.domain) (hb : u.Akin b.domain) :
    (l.concat a b width).Ends (fun v => u.Akin v.domain) Failure.IsLocal := by
  obtain ⟨d, hjoin, -, -, hd⟩ := exists_join ht hu ha hb
  unfold concat
  rw [hjoin, pure_bind]
  cases d with
  | constant =>
      exact Eval.ends_bind ((Constant.ends_concat _ _).imp fun _ _ => Eval.ends_pure hd)
  | _ => exact Eval.ends_pure hd

end Joined

/-! Operators on a single value stay in its domain. -/

theorem ends_cast (tag : Tag) (a : Value) (width : UInt8) :
    (cast tag a width).Ends (fun v => v.domain = a.domain) Failure.IsLocal := by
  refine Eval.ends_bind (Eval.ends_note ?_)
  cases a with
  | constant c => exact ((Constant.ends_cast tag c width).imp fun _ _ => rfl).wrap
  | sign s => exact ((Sign.ends_cast tag s).imp fun _ _ => rfl).wrap
  | zero z => exact ((Zero.ends_cast tag z).imp fun _ _ => rfl).wrap
  | interval i => exact ((Interval.ends_cast tag i).imp fun _ _ => rfl).wrap
  | words r => exact ((WordRange.ends_cast tag r width).imp fun _ _ => rfl).wrap

theorem ends_extract (a : Value) (start stop : UInt8) :
    (extract a start stop).Ends (fun v => v.domain = a.domain) Failure.IsLocal := by
  cases a with
  | constant c => exact ((Constant.ends_extract c start stop).imp fun _ _ => rfl).wrap
  | _ => exact Eval.ends_pure rfl

theorem ends_load (p : Value) (width : UInt8) :
    (load p width).Ends (fun v => v.domain = p.domain) Failure.IsLocal := by
  cases p with
  | constant c => exact Eval.ends_misuse rfl
  | zero z => exact ((Zero.ends_load z).imp fun _ _ => rfl).wrap
  | _ => exact Eval.ends_pure rfl

/-! Unknown values are drawn from their domain, unless this is the exact words. -/

section Unknown

variable (hunknown : l.options.unknown = some u) (hu : u ≠ .constant)

include hunknown hu

theorem ends_any (width : UInt8) :
    (l.any width).Ends (fun v => v.domain = u) Failure.IsLocal := by
  unfold any
  rw [hunknown]
  cases u with
  | constant => exact absurd rfl hu
  | _ => exact Eval.ends_pure rfl

theorem ends_anyRange (start stop : Int64) (width : UInt8) :
    (l.anyRange start stop width).Ends (fun v => v.domain = u) Failure.IsLocal := by
  unfold anyRange
  rw [hunknown]
  cases u with
  | constant => exact absurd rfl hu
  | sign => exact ((Sign.ends_anyRange start stop).imp fun _ _ => rfl).wrap
  | zero => exact ((Zero.ends_anyRange start stop).imp fun _ _ => rfl).wrap
  | interval => exact ((Interval.ends_make start stop).imp fun _ _ => rfl).wrap
  | words => exact ((WordRange.ends_anyRange _ _ width).imp fun _ _ => rfl).wrap

theorem ends_anyURange (start stop : UInt64) (width : UInt8) :
    (l.anyURange start stop width).Ends (fun v => v.domain = u) Failure.IsLocal := by
  unfold anyURange
  rw [hunknown]
  cases u with
  | words => exact ((WordRange.ends_anyRange start stop width).imp fun _ _ => rfl).wrap
  | _ => exact ends_anyRange hunknown hu _ _ width

end Unknown

end Lattice

/-! ## Steps of computation -/

/-- Whether a step reads at an index, which is joined with a domain of its own. -/
def Make.isIndexed {ρ : Type} : Make ρ → Bool
  | .loadAt _ _ _ => true
  | _ => false

namespace Engine

variable {e : Engine} {u : Domain}

theorem Joined.ends_lift (he : e.Joined u) (c : Constant) :
    (e.lattice.lift c).Ends (fun v => u.Akin v.domain) Failure.IsLocal := by
  unfold Lattice.lift
  rw [he.lift]
  exact Eval.ends_pure (Domain.akin_constant u)

/-- A member that was picked is an exact word, which is brought into the join with the domain
it was picked from. -/
theorem Joined.ends_lower (he : e.Joined u) {v : Tagged} (hv : u.Akin v.primary.domain)
    (width : UInt8) :
    (e.lower v width).Ends (fun p => u.Akin p.2.primary.domain) Failure.IsLocal := by
  refine Eval.ends_bind ((Value.ends_lower e.lattice.bound v.primary width).imp fun c _ => ?_)
  obtain ⟨d, hjoin, hcd, -, hd⟩ := Lattice.exists_join he.joins he.inexact
    (Domain.akin_constant u) hv
  have hcoerce : e.lattice.coerce (.constant c) (some v.primary.domain) .plain =
      (Value.constant c).coerce d := by
    show e.lattice.join .constant v.primary.domain >>= _ = _
    rw [hjoin, pure_bind]
  rw [hcoerce]
  refine Eval.ends_bind ((Value.ends_coerce_local (v := .constant c) hcd).imp fun w hw => ?_)
  exact Eval.ends_pure (hw ▸ hd)

end Engine

namespace Graph

variable {e : Engine} {u : Domain} {g : Graph} {n : Node}

/-- A graph of values that belong to domains akin to a given one. -/
def Akin (u : Domain) (g : Graph) : Prop := g.Values fun v => u.Akin v.domain

theorem Akin.ends_value (hg : g.Akin u) (h : Handle) :
    (g.value h).Ends (fun v => u.Akin v.primary.domain) fun err => ¬ err.BlamesDomains := by
  refine Graph.ends_value.mono ?_ ?_
  · rintro _ ⟨n, hn, rfl⟩
    exact hg h n hn
  · rintro _ ⟨-, rfl⟩
    exact id

theorem ends_node_fair {D : Value → Prop} {t : Eval Value} {tag : Tag} {l r : Handle}
    (ht : t.Ends D Failure.IsLocal) :
    Eval.Ends (fun n => D n.value.primary) (fun err => ¬ err.BlamesDomains)
      (do return (⟨← (do return ⟨tag, ← t⟩ : Eval Tagged), l, r⟩ : Node)) :=
  (ends_node_of ht).fair

theorem Akin.ends_compute (he : e.Joined u) (hg : g.Akin u) {m : Make Handle}
    (hm : m.isIndexed = false) : (g.compute e m).Ends (fun n => u.Akin n.value.primary.domain)
      fun err => ¬ err.BlamesDomains := by
  have hu {v : Value} (hv : v.domain = u) : u.Akin v.domain := hv ▸ Domain.akin_self u
  cases m with
  | lift c => exact ends_node_fair (he.ends_lift c)
  | any width => exact ends_node_fair ((Lattice.ends_any he.unknown he.inexact width).imp fun _ => hu)
  | anyRange start stop width =>
      exact ends_node_fair ((Lattice.ends_anyRange he.unknown he.inexact _ _ width).imp fun _ => hu)
  | anyURange start stop width =>
      exact ends_node_fair ((Lattice.ends_anyURange he.unknown he.inexact _ _ width).imp fun _ => hu)
  | binary tag a b =>
      refine Eval.ends_bind ((hg.ends_value a).imp fun x hx => ?_)
      refine Eval.ends_bind ((hg.ends_value b).imp fun y hy => ?_)
      unfold Engine.binary
      cases tag.opClass with
      | binary | compare | float =>
          exact ends_node_fair (Lattice.ends_binary_akin he.joins he.inexact tag hx hy)
      | _ => exact Eval.ends_bind (Eval.ends_misuse id)
  | cast tag a width =>
      refine Eval.ends_bind ((hg.ends_value a).imp fun x hx => ?_)
      unfold Engine.cast
      cases tag.opClass with
      | cast => exact ends_node_fair ((Lattice.ends_cast tag _ width).imp fun _ hv => hv ▸ hx)
      | _ => exact Eval.ends_bind (Eval.ends_misuse id)
  | extract a start stop =>
      refine Eval.ends_bind ((hg.ends_value a).imp fun x hx => ?_)
      exact ends_node_fair ((Lattice.ends_extract _ start stop).imp fun _ hv => hv ▸ hx)
  | concat a b width =>
      refine Eval.ends_bind ((hg.ends_value a).imp fun x hx => ?_)
      refine Eval.ends_bind ((hg.ends_value b).imp fun y hy => ?_)
      exact ends_node_fair (Lattice.ends_concat_akin he.joins he.inexact width hx hy)
  | load p width =>
      refine Eval.ends_bind ((hg.ends_value p).imp fun x hx => ?_)
      exact ends_node_fair ((Lattice.ends_load _ width).imp fun _ hv => hv ▸ hx)
  | loadAt p index width => cases hm

/-- A read at an index gives a value of the domain of its pointer, if it gives one. -/
theorem Akin.sure_compute (he : e.Joined u) (hg : g.Akin u) (m : Make Handle) :
    (g.compute e m).Sure fun n => u.Akin n.value.primary.domain := by
  by_cases hm : m.isIndexed = false
  · exact (hg.ends_compute he hm).sure
  cases m with
  | loadAt p index width =>
      refine Eval.sure_bind ((hg.ends_value p).sure.mono fun x hx => ?_)
      refine Eval.sure_bind ((hg.ends_value index).sure.mono fun y _ => ?_)
      refine Eval.sure_bind (Eval.sure_bind (Lattice.sure_domain_loadAt.mono fun v hv => ?_))
      exact Eval.sure_pure (Eval.sure_pure (hv ▸ hx))
  | _ => exact absurd rfl hm

/-! ## Assumptions -/

theorem sound_akin (he : e.Joined u) (g : Graph) :
    Sound e (fun _ v => u.Akin v.domain) (fun err => ¬ err.BlamesDomains) (fun _ => True)
      (fun _ _ => True) g where
  missing _ _ := id
  step := by
    intro _ k n _ _
    -- one goal for each rule of narrowing; three of them compute values
    constructor
    · exact fun _ => trivial
    · exact fun _ => id
    · exact fun _ => id
    · refine fun _ => ⟨trivial, trivial, fun hr ha hb => ?_⟩
      exact (Lattice.ends_backward_akin he.joins he.inexact _ hr ha hb).fair.imp fun _ hp =>
        ⟨hp, fun _ _ => trivial⟩
    · intro _ _ a b ha hb
      exact (Lattice.ends_binary_akin he.joins he.inexact .meet ha hb).fair
    · refine fun _ => ⟨trivial, fun hr ha => ?_⟩
      exact (Lattice.ends_backwardCast_akin he.joins he.inexact _ hr ha).fair.imp fun _ hv =>
        ⟨hv, fun _ => trivial⟩

/-- An assumption brings operands into other domains, but never out of those that have joins. -/
theorem Akin.ends_assume (he : e.Joined u) (hg : g.Akin u) (h : Handle) (expected : Bool) :
    (assume e h expected).Ends (fun _ => Akin u)
      (fun err g' => g'.Akin u ∧ ¬ err.BlamesDomains) g := by
  refine ((sound_akin he g).ends_assume trivial ⟨.refl g, hg⟩ ?_).mono
    (fun _ _ hstays => hstays.values) fun _ _ h => ⟨h.1.values, h.2⟩
  intro n hn
  refine ⟨?_, fun _ _ => id⟩
  show u.Akin (n.value.primary.assume expected).left.domain
  rw [(Value.assume_leq n.value.primary expected).domain_eq]
  exact hg h n hn

theorem invariant_akin (he : e.Joined u) : Invariant e (Akin u) where
  empty _ _ hn := nomatch node?_empty.symm.trans hn
  make m hg := (hg.sure_compute he m).mono fun _ hn => Values.push hg hn
  lower width hg hn := (he.ends_lower (hg _ _ hn) width).sure.mono fun _ hp => Values.push hg hp
  assume h expected hg :=
    (hg.ends_assume he h expected).mono (fun _ _ => id) fun _ _ => And.left

theorem Akin.ends_toTristate (e : Engine) (hg : g.Akin u) (h : Handle) :
    (g.toTristate e h).Ends (fun _ => True) fun err => ¬ err.BlamesDomains := by
  refine Eval.ends_bind ((hg.ends_value h).imp fun v _ => ?_)
  unfold Engine.toTristate
  cases e.strategy with
  | primary => exact (Value.ends_toTristate v.primary).fair
  | tag | disabled => exact Eval.ends_misuse id

end Graph

/-! ## Whole runs -/

/-- Whether an operation reads at an index or writes, and so looks for a domain by a role. -/
def Operation.isFlavored : Operation → Bool
  | .make m => m.isIndexed
  | .store _ _ => true
  | _ => false

namespace History

variable {e : Engine} {u : Domain} {s : History}

theorem ends_perform_akin (he : e.Joined u) (hs : s.graph.Akin u) {op : Operation}
    (hop : op.isFlavored = false) :
    (perform e op).Ends (fun _ _ => True) (fun err _ => ¬ err.BlamesDomains) s := by
  cases op with
  | make m =>
      refine Action.ends_bind (Action.ends_within (Graph.ends_make ?_))
      exact (hs.ends_compute he hop).imp fun n _ => trivial
  | store p v => cases hop
  | lower h width =>
      refine Action.ends_bind (Action.ends_within (Action.ends_bind (Action.ends_get ?_)))
      refine Action.ends_bind (Action.ends_lift ((hs.ends_value h).imp fun v hv => ?_))
      refine Action.ends_bind (Action.ends_lift ((he.ends_lower hv width).fair.imp fun p _ => ?_))
      exact trivial
  | assume h expected =>
      show (onGraph (Graph.assume e h expected)).Ends _ _ s
      refine Action.ends_within (Q := fun _ _ => True) (E := fun err _ => ¬ err.BlamesDomains)
        ((hs.ends_assume he h expected).mono ?_ ?_)
      · exact fun _ _ _ => trivial
      · exact fun _ _ => And.right
  | save | restore i | clear => exact Action.ends_modify trivial

end History

namespace Settings

variable {s : Settings} {st : Setup}

theorem joined (h : s.setup = .ok st) : st.engine.lattice.options.joins.Usable ∧
    (s.domains.lift = Domain.constant.name → ∃ u, st.engine.Joined u) := by
  have hoptions := options_of_setup h
  have husable := DomainSettings.usable_of_options hoptions
  refine ⟨husable, fun hlift => ?_⟩
  obtain ⟨lift, u, hl, -, hol, hou, -, hvalid⟩ := DomainSettings.options_eq_ok hoptions
  rw [hlift] at hl
  obtain rfl : Domain.constant = lift := Except.ok.inj hl
  exact ⟨u, husable, hol, hou, DomainOptions.unknown_ne_constant hvalid hou⟩

/-- Settings that pass the checks have a join for any two domains that are not apart, the same
in both orders.  If exact words are lifted as they are then, whatever has been done with a graph
so far, no operation lacks a join or a coercion, unless it reads at an index or writes. -/
theorem never_lacks_domain (hsetup : s.setup = .ok st) :
    let joins := st.engine.lattice.options.joins
    (∀ a, joins.cell a a = some a) ∧
    (∀ a b, joins.cell a b = joins.cell b a) ∧
    (∀ a b, joins.cell a b = none ↔ a.apart b = true) ∧
    (s.domains.lift = Domain.constant.name → ∀ ops,
      let now := History.after st.engine .empty ops
      (∀ (op : Operation) answers err, op.isFlavored = false →
        (((History.perform st.engine op).run now).play answers).result.1 = .error err →
        ¬ err.BlamesDomains) ∧
      ∀ h answers err, ((now.graph.toTristate st.engine h).run.play answers).result = .error err →
        ¬ err.BlamesDomains) := by
  obtain ⟨hjoins, hengine⟩ := joined hsetup
  refine ⟨hjoins.self, hjoins.symm, hjoins.none_iff, fun hlift ops => ?_⟩
  obtain ⟨u, he⟩ := hengine hlift
  have hinv := Graph.invariant_akin he
  have hnow := ((History.all_empty hinv).after hinv ops).graph
  constructor
  · intro op answers err hop herr
    have hmeets := Dialogue.all_play (History.ends_perform_akin he hnow hop) answers
    rw [herr] at hmeets
    exact hmeets
  · intro h answers err herr
    have hmeets := (hnow.ends_toTristate st.engine h).of_play answers
    rw [herr] at hmeets
    exact hmeets

/-- Unknown values are zero or not; from there, joins lead on to signs and to intervals. -/
def widening : Settings :=
  { standard with
    domains := ⟨Domain.constant.name, Domain.zero.name, none, none,
      some [["constant", "zero", "sign"], ["sign", "zero", "interval"]]⟩ }

/-- Once the comparison is assumed, its operands belong to the signs as well, and one of them
and another unknown word have an interval for their sum.  To read through a constant is refused,
but for another reason. -/
theorem never_lacks_domain_widening :
    ∃ st, widening.setup = .ok st ∧
      st.engine.lattice.options.joins.cell .words .sign = none ∧
      let now := History.after st.engine .empty [(.make (.any 8), []),
        (.make (.lift (.ofInt64 5 8)), []), (.make (.binary (.relation .slt) ⟨0⟩ ⟨1⟩), []),
        (.assume ⟨2⟩ true, []), (.make (.any 8), []),
        (.make (.binary (.arith .add) ⟨0⟩ ⟨3⟩), []), (.make (.lift (.ofInt64 5 8)), [])]
      (now.graph.nodes.toList.map fun n => n.value.primary.domain) =
        [.sign, .sign, .sign, .zero, .interval, .constant] ∧
      ∃ err, (((History.perform st.engine (.make (.load ⟨5⟩ 8))).run now).play []).result.1 =
        .error err ∧ ¬ err.BlamesDomains := by
  obtain ⟨st, hsetup⟩ : ∃ st, widening.setup = .ok st := ⟨_, rfl⟩
  obtain ⟨-, -, hnone, hruns⟩ := never_lacks_domain hsetup
  obtain rfl := Except.ok.inj hsetup
  refine ⟨_, rfl, (hnone .words .sign).mpr rfl, ?_⟩
  intro now
  have hload := (hruns rfl _).1 (.make (.load ⟨5⟩ 8)) [] (.misuse (.unsupported "constant" _)) rfl
    (rfl : (((History.perform _ _).run now).play []).result.1 = _)
  exact ⟨by decide +kernel, _, rfl, hload⟩

end Settings

end Narrowing
