/-
# An assumption that is true loses nothing

A concrete execution puts one integer at every node.  It lies in the value of
the node and obeys the equations of the sums, differences, products, relations
and casts.  To assume of a node what its integer says of it narrows the graph,
and some answers leave every integer where it is: the narrowing of a node keeps
the integers at its operands, so the graph between two steps is as good as the
one before, and the recursion ends at the leaves.

An operand may be shared.  Both operands of a node are narrowed before either is
followed, an operand used twice gets the meet of its two narrowings, and what is
followed later may have been narrowed again in between; none of this matters to
an invariant that speaks about all nodes at once.
-/
import Narrowing.Proofs.Graph.Shape

namespace Narrowing

/-- What a plain operator says of the integers at its operands and its result.  The operators
that narrowing does not follow say nothing. -/
def Tag.Relates (tag : Tag) (x y z : Int) : Prop :=
  match tag with
  | .arith .add | .arith .sub | .arith .mul | .relation _ => tag.Gives x y z
  | .cast _ => z = x
  | _ => True

namespace Interval

variable {r a b : Interval} {x y z : Int}

/-- **Narrowing over intervals loses no pair of operands**, whatever the plain operator. -/
theorem can_backward (bound : UInt32) {tag : Tag} (hplain : tag.isPlain = true)
    (hr : r.Within (2 ^ 60)) (ha : a.Within (2 ^ 60)) (hb : b.Within (2 ^ 60)) (hx : x ∈ a) (hy : y ∈ b) (hz : z ∈ r)
    (hrel : tag.Relates x y z) :
    (backward bound tag r a b).Can fun p => Keeps x a p.1 ∧ Keeps y b p.2 := by
  have hskip : (do Eval.imprecise .interval tag; return (a, b) : Eval (Interval × Interval)).Can
      fun p => Keeps x a p.1 ∧ Keeps y b p.2 :=
    Eval.can_bind (Eval.can_note (Eval.can_pure ⟨.refl hx, .refl hy⟩))
  cases tag with
  | arith op =>
      cases op with
      | add =>
          obtain rfl := Option.some.inj hrel
          exact can_backwardAdd hr.moderate ha.moderate hb.moderate hx hy hz
      | sub =>
          obtain rfl := Option.some.inj hrel
          exact can_backwardSub hr.moderate ha.moderate hb.moderate hx hy hz
      | mul =>
          obtain rfl := Option.some.inj hrel
          exact can_backwardMul (hr.moderate.oriented (by omega)) hx hy hz
      | sdiv | udiv => cases hplain
      | _ => exact hskip
  | relation rel => exact can_backwardCompare hx hy hz hrel
  | cast c =>
      obtain rfl : z = x := hrel
      cases c with
      | inttoptr | ptrtoint => cases hplain
      | _ => exact Eval.can_bind ((can_backwardCast hx hz).mono fun u hu =>
          Eval.can_pure ⟨hu, .refl hy⟩)
  | _ => cases hplain

theorem can_binary_meet {u w : Interval} (hu : Keeps x a u) (hw : Keeps x a w) :
    (binary .meet u w).Can fun m => Keeps x a m := by
  have hmem : x ∈ meet u w := mem_meet.mpr ⟨hu.mem, hw.mem⟩
  show (make _ _).Can _
  unfold make
  dsimp only
  rw [if_neg (not_isBottom hmem)]
  exact Eval.can_pure (hu.trans (keeps_meet hu.mem hw.mem))

end Interval

namespace Engine

variable {e : Engine} {r x y : Tagged} {ir ix iy : Interval} {p q z : Int}

/-- A tagged value that a narrowing of an interval may leave. -/
def Leaves (p : Int) (x : Tagged) (i : Interval) (x' : Tagged) : Prop :=
  x'.tag = x.tag ∧ ∃ i', x'.primary = .interval i' ∧ Interval.Keeps p i i'

/-- What is left of a value of moderate size still holds the integer. -/
theorem Leaves.fits {i : Interval} {x' : Tagged} (h : Leaves p x i x') (hi : i.Within (2 ^ 60)) :
    ∃ i', x'.primary = .interval i' ∧ i'.Within (2 ^ 60) ∧ p ∈ i' := by
  obtain ⟨-, i', hi', hkeeps⟩ := h
  exact ⟨i', hi', hkeeps.within hi (by omega), hkeeps.mem⟩

theorem can_narrowOperands (he : e.OverIntervals) {same : Bool} (hplain : r.tag.isPlain = true)
    (hr : r.primary = .interval ir) (hx : x.primary = .interval ix) (hy : y.primary = .interval iy)
    (hir : ir.Within (2 ^ 60)) (hix : ix.Within (2 ^ 60)) (hiy : iy.Within (2 ^ 60))
    (hp : p ∈ ix) (hq : q ∈ iy) (hz : z ∈ ir) (hrel : r.tag.Relates p q z)
    (hsame : same = true → x = y ∧ p = q) :
    (e.narrowOperands r x y same).Can fun o => Leaves p x ix o.1 ∧ Leaves q y iy o.2 := by
  unfold narrowOperands backward
  rw [hr, hx, hy, Lattice.backward_interval he.joins]
  have hback := Interval.can_backward e.lattice.bound hplain hir hix hiy hp hq hz hrel
  refine Eval.can_bind (Eval.can_bind (Eval.can_bind (hback.mono fun o ho =>
    Eval.can_pure (Eval.can_pure ?_))))
  cases same with
  | false => exact Eval.can_pure ⟨⟨rfl, _, rfl, ho.1⟩, rfl, _, rfl, ho.2⟩
  | true =>
      obtain ⟨rfl, rfl⟩ := hsame rfl
      obtain rfl : ix = iy := Value.interval.inj (hx.symm.trans hy)
      refine Eval.can_bind ?_
      unfold meetNarrowed
      split
      · exact Eval.can_pure (Eval.can_pure ⟨⟨rfl, _, rfl, ho.1⟩, rfl, _, rfl, ho.1⟩)
      · dsimp only
        rw [Lattice.binary_interval he.joins]
        refine Eval.can_bind (Eval.can_bind (Eval.can_note (Eval.can_bind
          ((Interval.can_binary_meet ho.1 ho.2).mono fun m hm => ?_))))
        exact Eval.can_pure (Eval.can_pure (Eval.can_pure
          ⟨⟨rfl, _, rfl, hm⟩, rfl, _, rfl, hm⟩))

theorem can_backwardCast (he : e.OverIntervals) (hplain : r.tag.isPlain = true)
    (hr : r.primary = .interval ir) (hx : x.primary = .interval ix) (hir : ir.Within (2 ^ 60))
    (hix : ix.Within (2 ^ 60)) (hp : p ∈ ix) (hz : z ∈ ir) (hrel : r.tag.Relates p p z) :
    (e.backwardCast r x).Can (Leaves p x ix) := by
  unfold backwardCast
  rw [hr, hx, Lattice.backwardCast_interval he.joins]
  have hback := Interval.can_backward e.lattice.bound hplain hir hix hix hp hp hz hrel
  exact Eval.can_bind (Eval.can_bind (hback.mono fun o ho =>
    Eval.can_pure (Eval.can_pure ⟨rfl, _, rfl, ho.1⟩)))

end Engine

/-! ## Graphs and the integers at their nodes -/

/-- The operator of a node relates the integers at its operands and at itself. -/
def Node.Satisfied (ν : Handle → Int) (h : Handle) (n : Node) : Prop :=
  n.value.tag.Relates (ν n.left) (ν n.right) (ν h)

/-- A node is an interval of moderate size, and its integer is in it. -/
def Node.Fits (ν : Handle → Int) (h : Handle) (n : Node) : Prop :=
  ∃ i, n.value.primary = .interval i ∧ i.Within (2 ^ 60) ∧ ν h ∈ i

namespace Graph

/-- The integers at the nodes are a concrete execution that the graph allows for. -/
structure Allows (ν : Handle → Int) (g : Graph) : Prop where
  founded : ∀ h n, g.node? h = some n → n.Founded h
  satisfied : ∀ h n, g.node? h = some n → n.Satisfied ν h
  fits : ∀ h n, g.node? h = some n → n.Fits ν h

variable {e : Engine} {ν : Handle → Int} {g g' : Graph} {h k : Handle} {n : Node}

theorem Allows.of_alike (hg : g.Allows ν) (hlike : Alike g g')
    (hfits : ∀ h n, g'.node? h = some n → n.Fits ν h) : g'.Allows ν := by
  have hframe : ∀ h n', g'.node? h = some n' → ∃ n, g.node? h = some n ∧ n'.frame = n.frame := by
    intro h n' hn'
    have := hlike h
    rw [hn'] at this
    obtain ⟨n, hn, hframe⟩ := Option.map_eq_some_iff.mp this.symm
    exact ⟨n, hn, hframe.symm⟩
  refine ⟨fun h n' hn' => ?_, fun h n' hn' => ?_, hfits⟩
  · obtain ⟨n, hn, hframe⟩ := hframe h n' hn'
    exact (hg.founded h n hn).of_frame hframe
  · obtain ⟨n, hn, hframe⟩ := hframe h n' hn'
    have hsat := hg.satisfied h n hn
    simp only [Node.frame, Prod.mk.injEq] at hframe
    unfold Node.Satisfied at *
    rwa [hframe.1, hframe.2.1, hframe.2.2]

/-- A new value of a node that fits it as well. -/
theorem Allows.setValue (hg : g.Allows ν) {v : Tagged} (hn : g.node? k = some n)
    (htag : v.tag = n.value.tag)
    (hv : ∃ i, v.primary = .interval i ∧ i.Within (2 ^ 60) ∧ ν k ∈ i) :
    (g.setValue k v).Allows ν := by
  refine hg.of_alike (alike_setValue hn htag) ?_
  intro h n' hn'
  rw [node?_setValue (node?_nonneg hn)] at hn'
  obtain ⟨m, hm, rfl⟩ := Option.map_eq_some_iff.mp hn'
  split
  · subst h
    exact hv
  · exact hg.fits h m hm

theorem can_narrow_binary (he : e.OverIntervals) (hg : g.Allows ν) (hn : g.node? h = some n)
    {nx ny : Node} (hx : g.node? n.left = some nx) (hy : g.node? n.right = some ny)
    (hplain : n.value.tag.isPlain = true) :
    (e.narrowOperands n.value nx.value ny.value (n.left == n.right)).Can fun o =>
      let g' := (g.setValue n.left o.1).setValue n.right o.2
      g'.Allows ν ∧ Alike g g' := by
  obtain ⟨ir, hir, hrw, hz⟩ := hg.fits h n hn
  obtain ⟨ix, hix, hxw, hp⟩ := hg.fits n.left nx hx
  obtain ⟨iy, hiy, hyw, hq⟩ := hg.fits n.right ny hy
  have hsame : (n.left == n.right) = true → nx.value = ny.value ∧ ν n.left = ν n.right := by
    intro heq
    have heq := beq_iff_eq.mp heq
    rw [heq, hy] at hx
    exact ⟨congrArg Node.value (Option.some.inj hx).symm, congrArg ν heq⟩
  refine (Engine.can_narrowOperands he hplain hir hix hiy hrw hxw hyw hp hq hz
    (hg.satisfied h n hn) hsame).mono fun o ho => ?_
  have hfirst := hg.setValue hx ho.1.1 (ho.1.fits hxw)
  obtain ⟨n', hn', hframe⟩ := (alike_setValue hx ho.1.1).node? hy
  have htag : o.2.tag = n'.value.tag := ho.2.1.trans (congrArg Prod.fst hframe).symm
  exact ⟨hfirst.setValue hn' htag (ho.2.fits hyw), alike_setValues hx hy ho.1.1 ho.2.1⟩

theorem can_narrow_cast (he : e.OverIntervals) (hg : g.Allows ν) (hn : g.node? h = some n)
    {nx : Node} (hx : g.node? n.left = some nx) (hrule : n.value.tag.backwardRule = .cast)
    (hplain : n.value.tag.isPlain = true) :
    (e.backwardCast n.value nx.value).Can fun o =>
      (g.setValue n.left o).Allows ν ∧ Alike g (g.setValue n.left o) := by
  obtain ⟨ir, hir, hrw, hz⟩ := hg.fits h n hn
  obtain ⟨ix, hix, hxw, hp⟩ := hg.fits n.left nx hx
  have hrel : n.value.tag.Relates (ν n.left) (ν n.left) (ν h) := by
    have hsat := hg.satisfied h n hn
    unfold Node.Satisfied at hsat
    generalize n.value.tag = tag at *
    cases tag with
    | cast c => exact hsat
    | arith op => cases hrule
    | relation rel => cases hrule
    | _ => cases hplain
  refine (Engine.can_backwardCast he hplain hir hix hrw hxw hp hz hrel).mono ?_
  intro o ho
  exact ⟨hg.setValue hx ho.1 (ho.fits hxw), alike_setValue hx ho.1⟩

/-- **Narrowing from a node keeps the integers at all nodes**, with some answers. -/
theorem can_propagate (he : e.OverIntervals) (steps : Nat) (h : Handle) (g : Graph) (n : Node)
    (hg : g.Allows ν) (hn : g.node? h = some n) (hsteps : h.index < steps) :
    (propagate e steps h).Can (fun _ g' => g'.Allows ν ∧ Alike g g') g := by
  -- Operands stand before their node, so the steps never run out at a node that is there.
  induction steps generalizing h g n with
  | zero => exact absurd (node?_nonneg hn) (by omega)
  | succ steps ih =>
      refine Action.can_bind (Action.can_get ?_)
      refine Action.can_bind (Action.can_lift (can_node hn ?_))
      have hfounded := hg.founded h n hn
      unfold Node.Founded at hfounded
      cases hrule : n.value.tag.backwardRule with
      | leaf => exact Action.can_pure ⟨hg, .refl g⟩
      | unknown =>
          rw [hrule] at hfounded
          exact hfounded.elim
      | unsupported =>
          rw [hrule] at hfounded
          exact hfounded.elim
      | binary =>
          rw [hrule] at hfounded
          obtain ⟨hplain, hl, hr⟩ := hfounded
          obtain ⟨nx, hx⟩ := exists_node?_of_before hn hl
          obtain ⟨ny, hy⟩ := exists_node?_of_before hn hr
          refine Action.can_bind (Action.can_get ?_)
          refine Action.can_bind (Action.can_lift (can_value hx ?_))
          refine Action.can_bind (Action.can_get ?_)
          refine Action.can_bind (Action.can_lift (can_value hy ?_))
          refine Action.can_bind (Action.can_lift
            ((can_narrow_binary he hg hn hx hy hplain).mono fun o ho => ?_))
          obtain ⟨hg', hlike'⟩ := ho
          refine Action.can_bind (Action.can_modify ?_)
          obtain ⟨nx', hx', -⟩ := hlike'.node? hx
          refine Action.can_bind ((ih n.left _ nx' hg' hx' (by have := hl.2; omega)).mono
            fun _ g'' hg'' => ?_)
          split
          · obtain ⟨ny'', hy'', -⟩ := (hlike'.trans hg''.2).node? hy
            exact (ih n.right g'' ny'' hg''.1 hy'' (by have := hr.2; omega)).mono fun _ _ h =>
              ⟨h.1, (hlike'.trans hg''.2).trans h.2⟩
          · exact Action.can_pure ⟨hg''.1, hlike'.trans hg''.2⟩
      | cast =>
          rw [hrule] at hfounded
          obtain ⟨hplain, hl⟩ := hfounded
          obtain ⟨nx, hx⟩ := exists_node?_of_before hn hl
          refine Action.can_bind (Action.can_get ?_)
          refine Action.can_bind (Action.can_lift (can_value hx ?_))
          refine Action.can_bind (Action.can_lift
            ((can_narrow_cast he hg hn hx hrule hplain).mono fun o ho => ?_))
          obtain ⟨hg', hlike'⟩ := ho
          refine Action.can_bind (Action.can_modify ?_)
          obtain ⟨nx', hx', -⟩ := hlike'.node? hx
          exact (ih n.left _ nx' hg' hx' (by have := hl.2; omega)).mono fun _ _ h =>
            ⟨h.1, hlike'.trans h.2⟩

/-- To assume of a node what its integer says keeps the integers at all nodes, with some
answers. -/
theorem can_assume (he : e.OverIntervals) (hg : g.Allows ν) (hn : g.node? h = some n) :
    (assume e h (ν h != 0)).Can (fun _ g' => g'.Allows ν ∧ Alike g g') g := by
  obtain ⟨i, hi, hwithin, hmem⟩ := hg.fits h n hn
  obtain ⟨u, hu, hkeeps⟩ := Interval.assume_eq_fits hmem
  have hassume : Engine.assume n.value (ν h != 0) = .fits { n.value with primary := .interval u } := by
    unfold Engine.assume
    rw [hi]
    show ((i.assume _).map _).map _ = _
    rw [hu]
    rfl
  have hg' : (g.setValue h { n.value with primary := .interval u }).Allows ν :=
    hg.setValue hn rfl ⟨u, rfl, hkeeps.within hwithin (by omega), hkeeps.mem⟩
  have hlike := alike_setValue hn (v := { n.value with primary := .interval u }) rfl
  refine Action.can_bind (Action.can_get ?_)
  refine Action.can_bind (Action.can_lift (can_value hn ?_))
  dsimp only
  rw [hassume]
  refine Action.can_bind (Action.can_modify ?_)
  refine Action.can_bind (Action.can_lift (Eval.can_pure ?_))
  obtain ⟨n', hn', -⟩ := hlike.node? hn
  have h0 := node?_nonneg hn
  exact (can_propagate he _ h _ n' hg' hn' (by omega)).mono fun _ _ h => ⟨h.1, hlike.trans h.2⟩

/-- **An assumption that is true of a concrete execution does not lose it.**  Take any graph made
by plain steps and assumptions over intervals, with ends of magnitude at most 2^60, and any
integers at its nodes that lie in their values and obey their operators.  Then there are
answers, each one of the alternatives it was asked for, under which to assume of a node what
its integer says succeeds, and every integer is still in the value of its node. -/
theorem exists_answers_assume (ν : Handle → Int) (h : Handle) (he : e.OverIntervals)
    (hbuilt : Built e g)
    (hwithin : ∀ k n i, g.node? k = some n → n.value.primary = .interval i → i.Within (2 ^ 60))
    (hmem : ∀ k n, g.node? k = some n → ν k ∈ n.value.primary)
    (hsat : ∀ k n, g.node? k = some n → n.Satisfied ν k) (hh : (g.node? h).isSome) :
    ∃ answers,
      let p := ((assume e h (ν h != 0)).run g).play answers
      Dialogue.Fit .inRange answers p.asked ∧ p.result.1 = .ok () ∧
        Alike g p.result.2 ∧ ∀ k n, p.result.2.node? k = some n → ν k ∈ n.value.primary := by
  have hfounded := hbuilt.founded he
  have hg : g.Allows ν := by
    refine ⟨hfounded.nodes, hsat, ?_⟩
    intro k n hn
    obtain ⟨i, hi⟩ := hfounded.values k n hn
    have hk := hmem k n hn
    rw [hi] at hk
    exact ⟨i, hi, hwithin k n i hn hi, hk⟩
  obtain ⟨n, hn⟩ := Option.isSome_iff_exists.mp hh
  obtain ⟨answers, hfit, _, hok, hg', hlike⟩ := Dialogue.can_iff_play.mp (can_assume he hg hn)
  refine ⟨answers, hfit, hok, hlike, ?_⟩
  intro k n hn
  obtain ⟨i, hi, -, hk⟩ := hg'.fits k n hn
  rw [hi]
  exact hk

theorem forall_node? {P : Handle → Node → Prop} (h : ∀ i (hi : i < g.nodes.size), P (.ofNat i) g.nodes[i])
    (k : Handle) (n : Node) (hn : g.node? k = some n) : P k n := by
  obtain ⟨h0, hget⟩ := node?_eq_some_iff.mp hn
  obtain ⟨hlt, rfl⟩ := Array.getElem?_eq_some_iff.mp hget
  have := h _ hlt
  rwa [Handle.ofNat, Int.toNat_of_nonneg h0] at this

/-- One operand on both sides: `x * x < 50` is assumed where `x` is 4 and may be anything up
to 9. -/
theorem exists_answers_assume_square :
    let e : Engine := ⟨⟨⟨.standard, some .interval, some .interval, some, some⟩, 200⟩, .primary⟩
    let g : Graph := ⟨#[⟨⟨.any, .interval ⟨0, 9⟩⟩, .none, .none⟩,
      ⟨⟨.arith .mul, .interval ⟨0, 81⟩⟩, ⟨0⟩, ⟨0⟩⟩, ⟨⟨.any, .interval ⟨50, 50⟩⟩, .none, .none⟩,
      ⟨⟨.relation .slt, .interval ⟨0, 1⟩⟩, ⟨1⟩, ⟨2⟩⟩]⟩
    ∃ answers,
      let p := ((assume e ⟨3⟩ true).run g).play answers
      Dialogue.Fit .inRange answers p.asked ∧ p.result.1 = .ok () := by
  intro e g
  let ν : Handle → Int := fun k => [4, 16, 50, 1].getD k.index.toNat 0
  have h0 : Built e ⟨#[⟨⟨.any, .interval ⟨0, 9⟩⟩, .none, .none⟩]⟩ :=
    .make (.anyRange 0 9 64) [] .empty trivial
  have h1 : Built e ⟨#[⟨⟨.any, .interval ⟨0, 9⟩⟩, .none, .none⟩,
      ⟨⟨.arith .mul, .interval ⟨0, 81⟩⟩, ⟨0⟩, ⟨0⟩⟩]⟩ :=
    .make (.binary (.arith .mul) ⟨0⟩ ⟨0⟩) [] h0 rfl
  have h2 : Built e ⟨#[⟨⟨.any, .interval ⟨0, 9⟩⟩, .none, .none⟩,
      ⟨⟨.arith .mul, .interval ⟨0, 81⟩⟩, ⟨0⟩, ⟨0⟩⟩,
      ⟨⟨.any, .interval ⟨50, 50⟩⟩, .none, .none⟩]⟩ :=
    .make (.anyRange 50 50 64) [] h1 trivial
  have h3 : Built e g := .make (.binary (.relation .slt) ⟨1⟩ ⟨2⟩) [] h2 rfl
  have htrue : (ν ⟨3⟩ != 0) = true := rfl
  have hnodes {P : Handle → Node → Prop} (hx : P ⟨0⟩ ⟨⟨.any, .interval ⟨0, 9⟩⟩, .none, .none⟩)
      (hs : P ⟨1⟩ ⟨⟨.arith .mul, .interval ⟨0, 81⟩⟩, ⟨0⟩, ⟨0⟩⟩)
      (hc : P ⟨2⟩ ⟨⟨.any, .interval ⟨50, 50⟩⟩, .none, .none⟩)
      (ht : P ⟨3⟩ ⟨⟨.relation .slt, .interval ⟨0, 1⟩⟩, ⟨1⟩, ⟨2⟩⟩) :
      ∀ k n, g.node? k = some n → P k n := by
    refine forall_node? ?_
    intro i hi
    match i, hi with
    | 0, _ => exact hx
    | 1, _ => exact hs
    | 2, _ => exact hc
    | 3, _ => exact ht
  have hwithin : ∀ k n, g.node? k = some n → ∀ v, n.value.primary = .interval v →
      v.Within (2 ^ 60) := by
    refine hnodes ?_ ?_ ?_ ?_ <;> rintro v ⟨⟩ <;> exact ⟨by decide, by decide⟩
  have hmem : ∀ k n, g.node? k = some n → ν k ∈ n.value.primary := by
    refine hnodes ?_ ?_ ?_ ?_ <;> exact ⟨Or.inr (by decide), Or.inr (by decide)⟩
  have hsat : ∀ k n, g.node? k = some n → n.Satisfied ν k :=
    hnodes trivial (show some _ = some _ from rfl) trivial (show some _ = some _ from rfl)
  have h := exists_answers_assume ν ⟨3⟩ ⟨rfl, rfl, rfl⟩ h3
    (fun k n v hn => hwithin k n hn v) hmem hsat rfl
  rw [htrue] at h
  obtain ⟨answers, hfit, hok, -⟩ := h
  exact ⟨answers, hfit, hok⟩

end Graph

end Narrowing
