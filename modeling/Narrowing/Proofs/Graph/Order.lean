/-
# An assumption only narrows

Constants and unknown values are created in one domain, and the standard table
keeps every operator inside it.  Then no coercion takes place anywhere in a graph,
and narrowing leaves of each value a part of what it was: the invariant compares
the value at every handle with the one the assumption started from, so it does not
matter how often a shared node is narrowed, nor at which node a narrowing fails.

Over word ranges, equality narrows both operands to one range, and its right
operand only stays comparable because the two have one width.  They do: the
comparison was computed from them, and narrowing changes no width.
-/
import Narrowing.Proofs.Graph.WellFormed

namespace Narrowing

/-- Constants and unknown values are created in one domain, and the standard table joins it with
itself and with exact words to itself. -/
structure Engine.Uniform (e : Engine) (d : Domain) : Prop where
  joins : e.lattice.options.joins = .standard
  lift : e.lattice.options.lift = some d
  unknown : e.lattice.options.unknown = some d

/-! ## Operators inside one domain -/

theorem Value.sure_domain_map {α : Type} {wrap : α → Value} {t : Eval α} {d : Domain}
    (h : ∀ x, (wrap x).domain = d) :
    Eval.Sure (fun v => v.domain = d) (do return wrap (← t)) := by
  refine Eval.sure_map ?_ t
  exact h

theorem Value.sure_domain_coerce {v : Value} {d : Domain} :
    (v.coerce d).Sure fun w => w.domain = d := by
  cases d <;> exact Value.sure_domain_map fun _ => rfl

theorem Value.sure_domain_top (d : Domain) (width : UInt8) :
    (Value.top d width).Sure fun v => v.domain = d := by
  cases d with
  | constant => exact Eval.sure_misuse
  | _ => exact Eval.sure_pure rfl

namespace Lattice

variable {l : Lattice} {d : Domain} {a b : Value}

theorem sure_domain_any (hd : l.options.unknown = some d) {width : UInt8} :
    (l.any width).Sure fun v => v.domain = d := by
  unfold any
  rw [hd]
  cases d with
  | constant => exact Eval.sure_misuse
  | _ => exact Eval.sure_pure rfl

theorem sure_domain_anyRange (hd : l.options.unknown = some d) {start stop : Int64}
    {width : UInt8} : (l.anyRange start stop width).Sure fun v => v.domain = d := by
  unfold anyRange
  rw [hd]
  cases d with
  | constant => exact Eval.sure_misuse
  | _ => exact Value.sure_domain_map fun _ => rfl

theorem sure_domain_anyURange (hd : l.options.unknown = some d) {start stop : UInt64}
    {width : UInt8} : (l.anyURange start stop width).Sure fun v => v.domain = d := by
  unfold anyURange
  rw [hd]
  cases d with
  | words => exact Value.sure_domain_map fun _ => rfl
  | _ => exact sure_domain_anyRange hd

theorem sure_domain_cast {tag : Tag} {width : UInt8} :
    (cast tag a width).Sure fun v => v.domain = a.domain := by
  refine Eval.sure_bind (Eval.sure_note ?_)
  cases a with
  | _ => exact Value.sure_domain_map fun _ => rfl

theorem sure_domain_extract {start stop : UInt8} :
    (extract a start stop).Sure fun v => v.domain = a.domain := by
  cases a with
  | constant c => exact Value.sure_domain_map fun _ => rfl
  | _ => exact Value.sure_domain_top _ (stop - start)

theorem sure_domain_load {width : UInt8} : (load a width).Sure fun v => v.domain = a.domain := by
  cases a with
  | constant c => exact Eval.sure_misuse
  | zero z => exact Value.sure_domain_map fun _ => rfl
  | _ => exact Value.sure_domain_top _ width

theorem sure_domain_loadAt {width : UInt8} :
    (l.loadAt a b width).Sure fun v => v.domain = a.domain :=
  Eval.sure_bind (Eval.sure_of_forall (fun _ => sure_domain_load) _)

section OneDomain

variable (hd : l.options.joins.cell d d = some d) (ha : a.domain = d) (hb : b.domain = d)

include hd ha hb

theorem sure_domain_concat {width : UInt8} : (l.concat a b width).Sure fun v => v.domain = d := by
  unfold concat
  simp only [ha, hb, join_self hd, pure_bind]
  cases d with
  | constant => exact Value.sure_domain_map fun _ => rfl
  | _ => exact Value.sure_domain_top _ width

/-- An operator stays in the domain, and is only applied to operands of one width. -/
theorem sure_domain_binary (tag : Tag) :
    (l.binary tag a b).Sure fun v => v.domain = d ∧ a.width? = b.width? := by
  unfold binary
  simp only [ha, hb, join_self hd, pure_bind]
  refine Eval.sure_bind (Eval.sure_note ?_)
  subst ha
  cases a with
  | words a =>
      obtain ⟨b, rfl⟩ := Value.domain_eq_words.mp hb
      show Eval.Sure _ (WordRange.binary tag a b >>= fun v => pure (Value.words v))
      unfold WordRange.binary
      by_cases hwidth : a.width = b.width
      · refine Eval.sure_map ?_ _
        exact fun _ => ⟨rfl, congrArg some hwidth⟩
      · rw [if_pos hwidth]
        exact Eval.sure_misuse
  | constant a =>
      obtain ⟨b, rfl⟩ := Value.domain_eq_constant.mp hb
      show Eval.Sure _ (Constant.binary tag a b >>= fun v => pure (Value.constant v))
      refine Eval.sure_map ?_ _
      exact fun _ => ⟨rfl, rfl⟩
  | sign a =>
      obtain ⟨b, rfl⟩ := Value.domain_eq_sign.mp hb
      show Eval.Sure _ (Sign.binary tag a b >>= fun v => pure (Value.sign v))
      refine Eval.sure_map ?_ _
      exact fun _ => ⟨rfl, rfl⟩
  | zero a =>
      obtain ⟨b, rfl⟩ := Value.domain_eq_zero.mp hb
      show Eval.Sure _ (Zero.binary tag a b >>= fun v => pure (Value.zero v))
      refine Eval.sure_map ?_ _
      exact fun _ => ⟨rfl, rfl⟩
  | interval a =>
      obtain ⟨b, rfl⟩ := Value.domain_eq_interval.mp hb
      show Eval.Sure _ (Interval.binary tag a b >>= fun v => pure (Value.interval v))
      refine Eval.sure_map ?_ _
      exact fun _ => ⟨rfl, rfl⟩

end OneDomain

end Lattice

namespace Engine

variable {e : Engine} {d : Domain}

theorem Uniform.self (he : e.Uniform d) : e.lattice.options.joins.cell d d = some d := by
  rw [he.joins]
  cases d <;> rfl

theorem Uniform.sure_domain_lift (he : e.Uniform d) {c : Constant} :
    (e.lattice.lift c).Sure fun v => v.domain = d := by
  unfold Lattice.lift
  rw [he.lift]
  exact Value.sure_domain_coerce

theorem Uniform.sure_domain_lower (he : e.Uniform d) {v : Tagged} (hv : v.primary.domain = d)
    {width : UInt8} :
    (e.lower v width).Sure fun p => p.2.tag = .lower ∧ p.2.primary.domain = d := by
  refine Eval.sure_bind (Eval.sure_of_forall (fun c => ?_) _)
  have hjoin : e.lattice.join? (some .constant) (some d) = pure d := by
    unfold Lattice.join?
    rw [he.joins, show JoinTable.standard.lookup (some .constant) (some d) = some d from rfl]
  have hcoerce : e.lattice.coerce (.constant c) (some v.primary.domain) .plain =
      (Value.constant c).coerce d := by
    unfold Lattice.coerce Lattice.flavored
    rw [hv]
    show e.lattice.join? (some .constant) (some d) >>= _ = _
    rw [hjoin, pure_bind]
  rw [hcoerce]
  exact Eval.sure_bind (Value.sure_domain_coerce.mono fun w hw => Eval.sure_pure ⟨rfl, hw⟩)

end Engine

/-! ## Graphs over one domain -/

namespace Graph

variable {e : Engine} {d : Domain} {g g' : Graph} {h : Handle} {n : Node}

/-- A graph of values of one domain, in which equality compares values of one width. -/
structure Over (d : Domain) (g : Graph) : Prop where
  wellFormed : g.WellFormed
  domain : ∀ h n, g.node? h = some n → n.value.primary.domain = d
  width : ∀ h n l r, g.node? h = some n → n.value.tag = .relation .eq →
    g.node? n.left = some l → g.node? n.right = some r →
    l.value.primary.width? = r.value.primary.width?

theorem over_empty : empty.Over d where
  wellFormed := wellFormed_empty
  domain _ _ hn := nomatch node?_empty.symm.trans hn
  width _ _ _ _ hn := nomatch node?_empty.symm.trans hn

theorem node?_push_of_before {k : Handle} (hk : k.Before (.ofNat g.size)) :
    (g.push n).node? k = g.node? k := by
  rw [node?_push, if_neg]
  rintro rfl
  exact Int.lt_irrefl _ hk.2

/-- A node that a graph over one domain may be extended by. -/
structure Extends (d : Domain) (g : Graph) (n : Node) : Prop where
  domain : n.value.primary.domain = d
  width : n.value.tag = .relation .eq → ∀ l r, g.node? n.left = some l →
    g.node? n.right = some r → l.value.primary.width? = r.value.primary.width?

theorem Over.push (hg : g.Over d) (hn : n.WellFormed (.ofNat g.size)) (hext : Extends d g n) :
    (g.push n).Over d where
  wellFormed := hg.wellFormed.push hn
  domain h n' hn' := by
    rw [node?_push] at hn'
    split at hn'
    · obtain rfl := Option.some.inj hn'
      exact hext.domain
    · exact hg.domain h n' hn'
  width h n' l r hn' htag hl hr := by
    -- the operands of a comparison stand before it, and so before the new node
    have hbinary : n'.value.tag.backwardRule = .binary := by rw [htag]; rfl
    rw [node?_push] at hn'
    split at hn'
    · obtain rfl := Option.some.inj hn'
      obtain ⟨hbl, hbr⟩ := hn.binary hbinary
      rw [node?_push_of_before hbl] at hl
      rw [node?_push_of_before hbr] at hr
      exact hext.width htag l r hl hr
    · obtain ⟨hbl, hbr⟩ := (hg.wellFormed h n' hn').binary hbinary
      have hh := (before_of_node? hn').2
      rw [node?_push_of_before ⟨hbl.1, Int.lt_trans hbl.2 hh⟩] at hl
      rw [node?_push_of_before ⟨hbr.1, Int.lt_trans hbr.2 hh⟩] at hr
      exact hg.width h n' l r hn' htag hl hr

/-! ## Assumptions over one domain -/

/-- A value below the one that a graph has at a handle. -/
def Below (g : Graph) (k : Handle) (v : Value) : Prop :=
  ∃ n, g.node? k = some n ∧ v.Leq n.value.primary

theorem Over.domain_of_below (hg : g.Over d) {k : Handle} {v : Value} (hv : g.Below k v) :
    v.domain = d := by
  obtain ⟨n, hn, hleq⟩ := hv
  exact hleq.domain_eq.trans (hg.domain k n hn)

theorem Below.trans {k : Handle} {v w : Value} (hv : g.Below k v) (hw : w.Leq v) :
    g.Below k w := by
  obtain ⟨n, hn, hleq⟩ := hv
  exact ⟨n, hn, hw.trans hleq⟩

/-- Narrowing from any node leaves every value below the one it started from. -/
theorem sound_below (he : e.Uniform d) (hg : g.Over d) :
    Sound e g.Below (fun _ => True) (fun _ => True) (fun _ _ => True) g where
  missing _ _ := trivial
  step := by
    intro _ k n _ hn
    constructor
    · exact fun _ => trivial
    · exact fun _ => trivial
    · exact fun _ => trivial
    · refine fun _ => ⟨trivial, trivial, fun {r a b} hr ha hb => ?_⟩
      have hwidth : n.value.tag = .relation .eq → a.width? = b.width? := by
        intro htag
        obtain ⟨nx, hnx, hax⟩ := ha
        obtain ⟨ny, hny, hby⟩ := hb
        rw [hax.width?_eq, hby.width?_eq]
        exact hg.width k n nx ny hn htag hnx hny
      have hsure := Lattice.sure_backward he.self (hg.domain_of_below hr) (hg.domain_of_below ha)
        (hg.domain_of_below hb) hwidth
      exact hsure.ends.imp fun p hp => ⟨⟨ha.trans hp.1, hb.trans hp.2⟩, fun _ _ => trivial⟩
    · intro _ _ a b ha hb
      have hsure := Lattice.sure_meet he.self (hg.domain_of_below ha) (hg.domain_of_below hb)
      exact hsure.ends.imp fun _ hv => ha.trans hv
    · refine fun _ => ⟨trivial, fun hr ha => ?_⟩
      have hsure := Lattice.sure_backwardCast he.self n.value.tag
        (hg.domain_of_below hr) (hg.domain_of_below ha)
      exact hsure.ends.imp fun _ hv => ⟨ha.trans hv, fun _ => trivial⟩

theorem ends_assume_below (he : e.Uniform d) (hg : g.Over d) (h : Handle) (expected : Bool) :
    (assume e h expected).Ends (fun _ => Stays g.Below g) (fun _ => Stays g.Below g) g := by
  have hstart : Stays g.Below g g := ⟨.refl g, fun k n hn => ⟨n, hn, .refl _⟩⟩
  refine ((sound_below he hg).ends_assume trivial hstart ?_).mono (fun _ _ => id) fun _ _ => And.left
  intro n hn
  exact ⟨⟨n, hn, Value.assume_leq _ _⟩, fun _ _ => trivial⟩

theorem Over.of_stays (hg : g.Over d) (hstays : Stays g.Below g g') : g'.Over d where
  wellFormed := hg.wellFormed.of_alike hstays.alike
  domain h n hn := hg.domain_of_below (hstays.values h n hn)
  width h n l r hn htag hl hr := by
    obtain ⟨n₀, hn₀, hframe⟩ := hstays.alike.symm.node? hn
    simp only [Node.frame, Prod.mk.injEq] at hframe
    obtain ⟨l₀, hl₀, hleql⟩ := hstays.values _ l hl
    obtain ⟨r₀, hr₀, hleqr⟩ := hstays.values _ r hr
    rw [hleql.width?_eq, hleqr.width?_eq]
    refine hg.width h n₀ l₀ r₀ hn₀ (hframe.1.trans htag) ?_ ?_
    · rw [hframe.2.1]
      exact hl₀
    · rw [hframe.2.2]
      exact hr₀

/-! ## Steps of computation over one domain -/

/-- A new node whose operator is not equality. -/
theorem sure_extends {t : Eval Value} {tag : Tag} {l r : Handle} (htag : tag ≠ .relation .eq)
    (ht : t.Sure fun v => v.domain = d) :
    Eval.Sure (Extends d g) (do return (⟨← (do return ⟨tag, ← t⟩ : Eval Tagged), l, r⟩ : Node)) := by
  refine Eval.sure_bind (Eval.sure_bind (ht.mono fun v hv => ?_))
  refine Eval.sure_pure (Eval.sure_pure ?_)
  exact ⟨hv, fun heq => absurd heq htag⟩

theorem Over.sure_extends_compute (he : e.Uniform d) (hg : g.Over d) (m : Make Handle) :
    (g.compute e m).Sure (Extends d g) := by
  have hvalue : ∀ a, (g.value a).Sure fun x => x.primary.domain = d := fun a =>
    sure_value.mono fun _ ⟨n, hn, hx⟩ => hx ▸ hg.domain a n hn
  cases m with
  | lift c => exact sure_extends nofun he.sure_domain_lift
  | any width => exact sure_extends nofun (Lattice.sure_domain_any he.unknown)
  | anyRange start stop width => exact sure_extends nofun (Lattice.sure_domain_anyRange he.unknown)
  | anyURange start stop width =>
      exact sure_extends nofun (Lattice.sure_domain_anyURange he.unknown)
  | binary tag a b =>
      refine Eval.sure_bind (sure_value.mono ?_)
      rintro _ ⟨na, hna, rfl⟩
      refine Eval.sure_bind (sure_value.mono ?_)
      rintro _ ⟨nb, hnb, rfl⟩
      have hbinary := Lattice.sure_domain_binary he.self (hg.domain a na hna)
        (hg.domain b nb hnb) tag
      refine Eval.sure_bind (Eval.Sure.mono (Q := fun t => t.primary.domain = d ∧
        na.value.primary.width? = nb.value.primary.width?) ?_ fun t ht => Eval.sure_pure ?_)
      · unfold Engine.binary
        cases tag.opClass with
        | binary | compare | float =>
            exact Eval.sure_bind (hbinary.mono fun v hv => Eval.sure_pure hv)
        | _ => exact Eval.sure_misuse
      · refine ⟨ht.1, fun _ l r hl hr => ?_⟩
        obtain rfl := Option.some.inj (hna.symm.trans hl)
        obtain rfl := Option.some.inj (hnb.symm.trans hr)
        exact ht.2
  | cast tag a width =>
      refine Eval.sure_bind ((hvalue a).mono fun x hx => ?_)
      unfold Engine.cast
      cases hclass : tag.opClass with
      | cast =>
          have htag : tag ≠ .relation .eq := by
            rintro rfl
            cases hclass
          exact sure_extends htag (Lattice.sure_domain_cast.mono fun v hv => hv.trans hx)
      | _ => exact Eval.sure_bind Eval.sure_misuse
  | extract a start stop =>
      refine Eval.sure_bind ((hvalue a).mono fun x hx => ?_)
      exact sure_extends nofun (Lattice.sure_domain_extract.mono fun v hv => hv.trans hx)
  | concat a b width =>
      refine Eval.sure_bind ((hvalue a).mono fun x hx => ?_)
      refine Eval.sure_bind ((hvalue b).mono fun y hy => ?_)
      exact sure_extends nofun (Lattice.sure_domain_concat he.self hx hy)
  | load p width =>
      refine Eval.sure_bind ((hvalue p).mono fun x hx => ?_)
      exact sure_extends nofun (Lattice.sure_domain_load.mono fun v hv => hv.trans hx)
  | loadAt p index width =>
      refine Eval.sure_bind ((hvalue p).mono fun x hx => ?_)
      refine Eval.sure_bind ((hvalue index).mono fun y _ => ?_)
      exact sure_extends nofun (Lattice.sure_domain_loadAt.mono fun v hv => hv.trans hx)

theorem invariant_over (he : e.Uniform d) : Invariant e (Over d) where
  empty := over_empty
  make m hg := ((sure_wellFormed_compute e _ m).and (hg.sure_extends_compute he m)).mono
    fun _ hn => hg.push hn.1 hn.2
  lower width hg hn := by
    refine (he.sure_domain_lower (hg.domain _ _ hn)).mono fun p hp => hg.push ?_ ⟨hp.2, ?_⟩
    · refine Node.wellFormed_of_rule ?_ (Or.inl ?_) (Or.inr (before_of_node? hn)) (Or.inl rfl)
      · rw [hp.1]
        rfl
      · rw [hp.1]
        rfl
    · intro htag
      cases hp.1.symm.trans htag
  assume h expected hg :=
    (ends_assume_below he hg h expected).mono (fun _ _ => hg.of_stays) fun _ _ => hg.of_stays

/-- **An assumption touches only what a node was computed from, and only narrows it.**  Whatever the
graph, the answers and the outcome, the nodes stay, with their operators and operands, and those
that are not reached from the node through operands are the same.  And in a graph made over one
domain, by any operations at all, every value that is left is below the one before. -/
theorem assume_narrows (e : Engine) (g : Graph) (h : Handle) (expected : Bool)
    (answers : List Int) :
    let g' := (((assume e h expected).run g).play answers).result.2
    g'.size = g.size ∧
    (∀ k, (g'.node? k).map Node.frame = (g.node? k).map Node.frame) ∧
    (∀ k, ¬ Reaches g h k → g'.node? k = g.node? k) ∧
    ∀ d ops, e.Uniform d → g = (History.after e .empty ops).graph →
      ∀ k n n', g.node? k = some n → g'.node? k = some n' →
        n'.value.primary.Leq n.value.primary := by
  have hframe := (ends_assume_untouched e g h expected).of_play answers
  refine ⟨hframe.alike.size_eq, hframe.alike, fun k => hframe.node?_eq, ?_⟩
  rintro d ops he rfl k n n' hn hn'
  have hinv := invariant_over he
  have hover := ((History.all_empty hinv).after hinv ops).graph
  obtain ⟨m, hm, hleq⟩ :=
    ((ends_assume_below he hover h expected).of_play answers).values k n' hn'
  obtain rfl : n = m := Option.some.inj (hn.symm.trans hm)
  exact hleq

/-- Over word ranges: of a byte that equals one of 3 to 9 there is left the range from 3 to 9. -/
theorem assume_narrows_byte :
    let e : Engine :=
      ⟨⟨⟨.standard, some .words, some .words, some, some⟩, defaultChooseBound⟩, .primary⟩
    let g := (History.after e .empty [(.make (.any 8), []), (.make (.anyURange 3 9 8), []),
      (.make (.binary (.relation .eq) ⟨0⟩ ⟨1⟩), [])]).graph
    let g' := (((assume e ⟨2⟩ true).run g).play []).result.2
    ∃ n n', g.node? ⟨0⟩ = some n ∧ g'.node? ⟨0⟩ = some n' ∧
      n'.value.primary = .words ⟨3, 9, 8⟩ ∧ n'.value.primary.Leq n.value.primary := by
  intro e g g'
  have hn : g.node? ⟨0⟩ = some ⟨⟨.any, .words ⟨0, 255, 8⟩⟩, .none, .none⟩ := by decide +kernel
  have hn' : g'.node? ⟨0⟩ = some ⟨⟨.any, .words ⟨3, 9, 8⟩⟩, .none, .none⟩ := by decide +kernel
  exact ⟨_, _, hn, hn', rfl, (assume_narrows e g ⟨2⟩ true []).2.2.2 .words _ ⟨rfl, rfl, rfl⟩ rfl
    _ _ _ hn hn'⟩

end Graph

end Narrowing
