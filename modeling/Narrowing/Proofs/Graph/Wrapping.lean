/-
# Words that wrap, narrowed as intervals

Exact words are computed modulo their width.  Once a word is compared with an interval,
an assumption about the comparison reads the word, and then the words it was computed
from, as intervals, and narrows them over the unbounded integers.

The two ways of counting differ where an operator wrapped.  Let every member of an
interval be at least a word, computed from others by sums, differences and products.
To assume that this is so then succeeds just when none of these operators wrapped:
otherwise the path is given up, although it is a feasible one.
-/
import Narrowing.Proofs.Graph.WellFormed
import Narrowing.Proofs.Interval.Point
import Narrowing.Proofs.Lattice
import Narrowing.Proofs.Word
import Mathlib.Data.Int.ModEq

namespace Narrowing

/-! ## Word arithmetic, read with a sign -/

/-- What a balanced remainder takes off is a multiple of the modulus: nothing, or no less than any
other balanced remainder. -/
theorem bmod_eq_or_natAbs_le (z y : Int) {m : Nat} (hm : 0 < m) :
    z.bmod m = z ∨ (y.bmod m).natAbs ≤ (z.bmod m - z).natAbs := by
  by_cases hz : z.bmod m = z
  · exact Or.inl hz
  · have hdvd : (m : Int) ∣ z.bmod m - z := (Int.ModEq.symm (Int.bmod_emod)).dvd
    have hle : m ≤ (z.bmod m - z).natAbs :=
      Nat.le_of_dvd (by omega) (Int.natCast_dvd.mp hdvd)
    have hlow := Int.le_bmod (x := y) hm
    have hhigh := Int.bmod_lt (x := y) hm
    omega

namespace Constant

variable {a b c : Constant} {op : Arith} {w : UInt8}

/-- Sums, differences and products of words are those of their signed readings, cut to the
width. -/
theorem signed_arith (hop : op = .add ∨ op = .sub ∨ op = .mul) (hw0 : 1 ≤ w) (hw : w ≤ 64)
    (ha : a.width = w) (hb : b.width = w) (hc : arith op a b = pure c) :
    (c.kind = .integer ∧ c.width = w) ∧ ∃ z, op.eval? a.signed.toInt b.signed.toInt = some z ∧
      c.signed.toInt = z.bmod (2 ^ w.toNat) := by
  have hdvd : (((2 ^ w.toNat : Nat) : Int)) ∣ ((2 ^ 64 : Nat) : Int) :=
    Int.natCast_dvd_natCast.mpr (Nat.pow_dvd_pow 2 (Word.toNat_width hw))
  have hreads {d : Constant} (hd : d.width = w) :
      (d.unsigned.toNat : Int) ≡ d.signed.toInt [ZMOD (2 ^ w.toNat : Nat)] := by
    subst hd
    rw [toInt_signed hw0 hw]
    exact Int.bmod_emod.symm
  have hcut {x : UInt64} {y z : Int} (hx : (x.toNat : Int) ≡ y [ZMOD (2 ^ 64 : Nat)])
      (hyz : y ≡ z [ZMOD (2 ^ w.toNat : Nat)]) :
      (ofBits x w).signed.toInt = z.bmod (2 ^ w.toNat) := by
    rw [signed_ofBits x hw0 hw, ← Int.emod_bmod, (hx.of_dvd hdvd).trans hyz, Int.emod_bmod]
  have hpure {x : UInt64} (hx : (pure (ofBits x a.width) : Eval Constant) = pure c) :
      c = ofBits x w := by
    rw [← ha]
    exact (Except.ok.inj (Dialogue.done.inj hx)).symm
  have hlt := b.unsigned.toNat_lt
  rcases hop with rfl | rfl | rfl
  · obtain rfl := hpure hc
    refine ⟨⟨rfl, rfl⟩, _, rfl, hcut ?_ ((hreads ha).add (hreads hb))⟩
    rw [UInt64.toNat_add, Int.natCast_emod, Int.natCast_add]
    exact Int.mod_modEq _ _
  · obtain rfl := hpure hc
    refine ⟨⟨rfl, rfl⟩, _, rfl, hcut ?_ ((hreads ha).sub (hreads hb))⟩
    rw [UInt64.toNat_sub]
    unfold Int.ModEq
    omega
  · obtain rfl := hpure hc
    refine ⟨⟨rfl, rfl⟩, _, rfl, hcut ?_ ((hreads ha).mul (hreads hb))⟩
    rw [UInt64.toNat_mul, Int.natCast_emod, Int.natCast_mul]
    exact Int.mod_modEq _ _

/-- Narrowed as intervals, two words stay as they are if their operator did not wrap, and the path
is given up if it did. -/
theorem ends_backward_signed (bound : UInt32) (hop : op = .add ∨ op = .sub ∨ op = .mul)
    (hw0 : 1 ≤ w) (hw : w ≤ 64) (ha : a.width = w) (hb : b.width = w) (hc : arith op a b = pure c)
    (hcalm : Bound.Calm a.signed ∧ Bound.Calm b.signed ∧ Bound.Calm c.signed) :
    (Interval.backward bound (.arith op) (.point c.signed) (.point a.signed) (.point b.signed)).Ends
      (fun p => p = (.point a.signed, .point b.signed) ∧
        op.eval? a.signed.toInt b.signed.toInt = some c.signed.toInt)
      fun err => err = .cancelled ∧
        op.eval? a.signed.toInt b.signed.toInt ≠ some c.signed.toInt := by
  obtain ⟨-, z, hz, hcz⟩ := signed_arith hop hw0 hw ha hb hc
  have hbmod : b.signed.toInt = (b.unsigned.toNat : Int).bmod (2 ^ w.toNat) := by
    subst hb
    exact toInt_signed hw0 hw
  have hzero : op = .mul → b.signed.toInt = 0 → c.signed.toInt = 0 := by
    rintro rfl hb0
    obtain rfl := Option.some.inj hz
    rw [hcz, hb0, Int.mul_zero, Int.zero_bmod]
  have hfar := bmod_eq_or_natAbs_le z b.unsigned.toNat (Nat.two_pow_pos w.toNat)
  rw [← hcz, ← hbmod] at hfar
  have hsame : some z = some c.signed.toInt ↔ c.signed.toInt = z := by
    rw [Option.some.injEq, eq_comm]
  rw [hz, Ne, hsame]
  exact Interval.ends_backward_point hop hcalm.2.2 hcalm.1 hcalm.2.1 hz hzero hfar

end Constant

/-! ## Narrowing at one node -/

/-- The value is brought into intervals as `x`. -/
structure Value.Enters (v : Value) (x : Interval) : Prop where
  eq : v.toInterval = pure x
  domain : v.domain = .constant ∨ v.domain = .interval

theorem Value.enters_interval (x : Interval) : (Value.interval x).Enters x := ⟨rfl, Or.inr rfl⟩

namespace Lattice

variable {l : Lattice} {tag : Tag} {r x y : Interval} {a b : Value}

theorem binary_of_enters (hl : l.options = .standard) (hb : b.Enters y) :
    l.binary tag (.interval x) b = (do
      Eval.note (.dispatch tag .interval)
      return .interval (← Interval.binary tag x y)) := by
  have hjoin : l.join .interval b.domain = pure .interval := by
    unfold join join?
    rw [hl]
    rcases hb.domain with hd | hd <;> rw [hd] <;> rfl
  show (l.join .interval b.domain >>= _) = _
  rw [hjoin, pure_bind]
  show (Eval.note (.dispatch tag .interval) >>= fun _ => b.toInterval >>= fun y =>
    Interval.binary tag x y >>= fun v => pure (Value.interval v)) = _
  rw [hb.eq, pure_bind]

theorem backward_of_enters (hl : l.options = .standard) (ha : a.Enters x) (hb : b.Enters y) :
    l.backward tag (.interval r) a b = (do
      let p ← Interval.backward l.bound tag r x y
      return (.interval p.1, .interval p.2)) := by
  have hjoin : (l.join a.domain b.domain >>= fun d => l.join d .interval) = pure .interval := by
    unfold join join?
    rw [hl]
    rcases ha.domain with hd | hd <;> rcases hb.domain with hd' | hd' <;> rw [hd, hd'] <;> rfl
  show (l.join a.domain b.domain >>= fun d => l.join d .interval >>= fun d =>
    l.backwardIn tag d a b (.interval r)) = _
  rw [← bind_assoc, hjoin, pure_bind]
  show (a.toInterval >>= fun x => b.toInterval >>= fun y =>
    Interval.backward l.bound tag r x y >>= fun p =>
      pure (Value.interval p.1, Value.interval p.2)) = _
  rw [ha.eq, hb.eq, pure_bind, pure_bind]

end Lattice

/-- Operands that are narrowed to two given values; they are the same for an operand used twice. -/
theorem Engine.ends_narrowOperands_eq {e : Engine} {r x y : Tagged} {same : Bool} {u v : Value}
    {P : Prop} {E : Failure → Prop} (hsame : same = true → u = v ∧ x.tag = y.tag)
    (h : (e.lattice.backward r.tag r.primary x.primary y.primary).Ends
      (fun p => p = (u, v) ∧ P) E) :
    (e.narrowOperands r x y same).Ends (fun p => p = (⟨x.tag, u⟩, ⟨y.tag, v⟩) ∧ P) E := by
  refine Eval.ends_bind (Eval.ends_bind (h.imp ?_))
  rintro _ ⟨rfl, hP⟩
  refine Eval.ends_pure ?_
  dsimp only
  split
  · obtain ⟨rfl, htag⟩ := hsame ‹_›
    unfold Engine.meetNarrowed
    rw [if_pos rfl, ← htag]
    refine Eval.ends_bind (Eval.ends_pure (Eval.ends_pure ?_))
    exact ⟨rfl, hP⟩
  · exact Eval.ends_pure ⟨rfl, hP⟩

namespace Graph

variable {e : Engine} {g g' : Graph} {h k x l r : Handle} {n : Node} {w : UInt8}
  {a b c d : Constant} {op : Arith} {M : Handle → Prop}

theorem ends_assumeAt_of_fits {expected : Bool} {v : Value} {Q : Unit → Graph → Prop}
    {E : Failure → Graph → Prop} (hn : g.node? h = some n)
    (hfits : n.value.primary.assume expected = .fits v)
    (hQ : Q () (g.setValue h ⟨n.value.tag, v⟩)) : (assumeAt h expected).Ends Q E g := by
  refine ends_assumeAt_cases (fun hnone => nomatch hnone.symm.trans hn) ?_ ?_
  · intro m hm _
    obtain rfl : n = m := Option.some.inj (hn.symm.trans hm)
    rw [hfits]
    exact hQ
  · intro m reason hm hconflict
    obtain rfl : n = m := Option.some.inj (hn.symm.trans hm)
    rw [hfits] at hconflict
    cases hconflict

theorem ends_narrowAt_leaf {Q : List Handle → Graph → Prop} {E : Failure → Graph → Prop}
    (hn : g.node? h = some n) (hrule : n.value.tag.backwardRule = .leaf) (hQ : Q [] g) :
    (narrowAt e h).Ends Q E g := by
  refine Action.ends_bind (Action.ends_get ?_)
  refine Action.ends_bind (Action.ends_lift ?_)
  rw [node_eq hn]
  refine Eval.ends_pure ?_
  rw [hrule]
  exact Action.ends_pure hQ

theorem ends_narrowFrom_leaf {stop : Handle → Action Graph Unit} {steps : Nat}
    {Q : Unit → Graph → Prop} {E : Failure → Graph → Prop} (hh : h.Before (.ofNat steps))
    (hn : g.node? h = some n) (hrule : n.value.tag.backwardRule = .leaf) (hQ : Q () g) :
    (narrowFrom e stop steps h).Ends Q E g := by
  cases steps with
  | zero => exact absurd hh.2 (not_lt.mpr hh.1)
  | succ steps =>
      refine Action.ends_bind (ends_narrowAt_leaf hn hrule ?_)
      exact Action.ends_pure hQ

/-- Narrowing at a node with two operands that are there. -/
theorem ends_narrowAt_binary {Q : List Handle → Graph → Prop} {E : Failure → Graph → Prop}
    {nl nr : Node} (hn : g.node? h = some n) (hrule : n.value.tag.backwardRule = .binary)
    (hl : g.node? n.left = some nl) (hr : g.node? n.right = some nr)
    (hnarrow : (e.narrowOperands n.value nl.value nr.value (n.left == n.right)).Ends
      (fun p => Q (if n.left ≠ n.right then [n.left, n.right] else [n.left])
        ((g.setValue n.left p.1).setValue n.right p.2)) fun err => E err g) :
    (narrowAt e h).Ends Q E g := by
  refine Action.ends_bind (Action.ends_get ?_)
  refine Action.ends_bind (Action.ends_lift ?_)
  rw [node_eq hn]
  refine Eval.ends_pure ?_
  rw [hrule]
  refine Action.ends_bind (Action.ends_get ?_)
  refine Action.ends_bind (Action.ends_lift ?_)
  rw [value_eq hl]
  refine Eval.ends_pure ?_
  refine Action.ends_bind (Action.ends_get ?_)
  refine Action.ends_bind (Action.ends_lift ?_)
  rw [value_eq hr]
  refine Eval.ends_pure ?_
  refine Action.ends_bind (Action.ends_lift (hnarrow.imp ?_))
  intro p hp
  exact Action.ends_bind (Action.ends_modify (Action.ends_pure hp))

/-- Narrowing that leaves both operands of a node as they are, but as intervals. -/
theorem ends_narrowAt_of_enters {tag : Tag} {z u v : Interval} {nl nr : Node} {P : Prop}
    {Q : List Handle → Graph → Prop} {E : Failure → Prop} (he : e.lattice.options = .standard)
    (hn : g.node? h = some ⟨⟨tag, .interval z⟩, l, r⟩) (hrule : tag.backwardRule = .binary)
    (hl : g.node? l = some nl) (hr : g.node? r = some nr) (hu : nl.value.primary.Enters u)
    (hv : nr.value.primary.Enters v) (hsame : l = r → u = v)
    (hback : (Interval.backward e.lattice.bound tag z u v).Ends (fun p => p = (u, v) ∧ P) E)
    (hQ : P → Q (if l ≠ r then [l, r] else [l])
      ((g.setValue l ⟨nl.value.tag, .interval u⟩).setValue r ⟨nr.value.tag, .interval v⟩)) :
    (narrowAt e h).Ends Q (fun err _ => E err) g := by
  have hvalues : (e.lattice.backward tag (.interval z) nl.value.primary nr.value.primary).Ends
      (fun p => p = (.interval u, .interval v) ∧ P) E := by
    rw [Lattice.backward_of_enters he hu hv]
    refine Eval.ends_bind (hback.imp ?_)
    rintro _ ⟨rfl, hP⟩
    exact Eval.ends_pure ⟨rfl, hP⟩
  have htwice : (l == r) = true →
      Value.interval u = .interval v ∧ nl.value.tag = nr.value.tag := by
    intro hlr
    obtain rfl := beq_iff_eq.mp hlr
    obtain rfl : nl = nr := Option.some.inj (hl.symm.trans hr)
    exact ⟨congrArg _ (hsame rfl), rfl⟩
  refine ends_narrowAt_binary hn hrule hl hr ?_
  refine (Engine.ends_narrowOperands_eq (r := ⟨tag, .interval z⟩) htwice hvalues).imp ?_
  rintro _ ⟨rfl, hP⟩
  exact hQ hP

/-! ## Words in a graph -/

/-- A word that is lifted, or computed from such words by sums, differences and products, all at
one width. -/
inductive Word (w : UInt8) (g : Graph) : Handle → Constant → Prop
  | lift {h : Handle} (x : Int64) :
    g.node? h = some ⟨⟨.lift, .constant (.ofInt64 x w)⟩, .none, .none⟩ → Word w g h (.ofInt64 x w)
  | arith {h l r : Handle} {op : Arith} {a b c : Constant} :
    op = .add ∨ op = .sub ∨ op = .mul → Word w g l a → Word w g r b →
    Constant.arith op a b = pure c → g.node? h = some ⟨⟨.arith op, .constant c⟩, l, r⟩ → Word w g h c

/-- No operator that led to the word wrapped: each gave the integer that it gives for the signed
readings of its operands. -/
inductive Unwrapped (g : Graph) : Handle → Constant → Prop
  | lift {h : Handle} {c : Constant} :
    g.node? h = some ⟨⟨.lift, .constant c⟩, .none, .none⟩ → Unwrapped g h c
  | arith {h l r : Handle} {op : Arith} {a b c : Constant} : Unwrapped g l a → Unwrapped g r b →
    op.eval? a.signed.toInt b.signed.toInt = some c.signed.toInt →
    g.node? h = some ⟨⟨.arith op, .constant c⟩, l, r⟩ → Unwrapped g h c

theorem Word.exists_node? (hc : Word w g h c) :
    ∃ n, g.node? h = some n ∧ n.value.primary = .constant c ∧ n.value.tag ≠ .any := by
  cases hc with
  | lift x hn => exact ⟨_, hn, rfl, nofun⟩
  | arith _ _ _ _ hn => exact ⟨_, hn, rfl, nofun⟩

theorem Unwrapped.exists_node? (hc : Unwrapped g h c) :
    ∃ n, g.node? h = some n ∧ n.value.primary = .constant c := by
  cases hc with
  | lift hn => exact ⟨_, hn, rfl⟩
  | arith _ _ _ hn => exact ⟨_, hn, rfl⟩

theorem Word.eq_of_node? (hc : Word w g h c) (hn : g.node? h = some n)
    (hd : n.value.primary = .constant d) : c = d := by
  obtain ⟨m, hm, hcm, -⟩ := hc.exists_node?
  obtain rfl : n = m := Option.some.inj (hn.symm.trans hm)
  exact Value.constant.inj (hcm.symm.trans hd)

theorem Word.eq_of_word (hc : Word w g h c) (hd : Word w g h d) : c = d := by
  obtain ⟨n, hn, hdn, -⟩ := hd.exists_node?
  exact hc.eq_of_node? hn hdn

theorem width_bounds (hw : w = 8 ∨ w = 16 ∨ w = 32 ∨ w = 64) : 1 ≤ w ∧ w ≤ 64 := by
  rcases hw with rfl | rfl | rfl | rfl <;> decide

theorem Word.kind_width (hw : w = 8 ∨ w = 16 ∨ w = 32 ∨ w = 64) (hc : Word w g h c) :
    c.kind = .integer ∧ c.width = w := by
  obtain ⟨hw0, hw64⟩ := width_bounds hw
  induction hc with
  | lift x _ => exact ⟨rfl, rfl⟩
  | arith hop _ _ hc _ iha ihb => exact (Constant.signed_arith hop hw0 hw64 iha.2 ihb.2 hc).1

/-- Below the full width of an end point, no word comes near the infinities. -/
theorem Word.calm (hw : w = 8 ∨ w = 16 ∨ w = 32 ∨ w = 64) (h64 : w ≠ 64) (hc : Word w g h c) :
    Bound.Calm c.signed := by
  obtain ⟨hkind, rfl⟩ := hc.kind_width hw
  have hshort : c.width = 8 ∨ c.width = 16 ∨ c.width = 32 := by
    rcases hw with hw | hw | hw | hw
    · exact Or.inl hw
    · exact Or.inr (Or.inl hw)
    · exact Or.inr (Or.inr hw)
    · exact absurd hw h64
  have hsigned := Constant.Short.signed_bounds ⟨hkind, hshort⟩
  unfold Bound.Calm
  omega

theorem Word.enters (hw : w = 8 ∨ w = 16 ∨ w = 32 ∨ w = 64) (hc : Word w g h c) :
    (Value.constant c).Enters (.point c.signed) := by
  obtain ⟨hkind, rfl⟩ := hc.kind_width hw
  refine ⟨?_, Or.inl rfl⟩
  show (c.liftValue >>= fun x => pure (Interval.point x)) = _
  rw [Constant.liftValue_eq hkind hw]
  rfl

/-- A word of two others did not wrap when its operator did not, and the others did not. -/
theorem unwrapped_arith_iff (hl : Word w g l a) (hr : Word w g r b)
    (hn : g.node? h = some ⟨⟨.arith op, .constant c⟩, l, r⟩) :
    Unwrapped g h c ↔ (Unwrapped g l a ∧ Unwrapped g r b) ∧
      op.eval? a.signed.toInt b.signed.toInt = some c.signed.toInt := by
  constructor
  · intro hc
    cases hc with
    | lift hm => cases hn.symm.trans hm
    | @arith _ l' r' op' a' b' _ ha hb heval hm =>
        obtain ⟨⟨⟩⟩ : (⟨⟨.arith op, .constant c⟩, l, r⟩ : Node) =
            ⟨⟨.arith op', .constant c⟩, l', r'⟩ := Option.some.inj (hn.symm.trans hm)
        obtain ⟨na, hna, hpa⟩ := ha.exists_node?
        obtain ⟨nb, hnb, hpb⟩ := hb.exists_node?
        obtain rfl := hl.eq_of_node? hna hpa
        obtain rfl := hr.eq_of_node? hnb hpb
        exact ⟨⟨ha, hb⟩, heval⟩
  · rintro ⟨⟨ha, hb⟩, heval⟩
    exact .arith ha hb heval hn

/-! ## Words that are narrowed -/

/-- A graph in which the words of `g` are still there: each as itself or, as must be within `M`,
as the interval of its signed reading. -/
def Kept (w : UInt8) (g : Graph) (M : Handle → Prop) (g' : Graph) : Prop :=
  ∀ ⦃h n c⦄, Word w g h c → g.node? h = some n →
    ∃ v, g'.node? h = some ⟨⟨n.value.tag, v⟩, n.left, n.right⟩ ∧
      (v = .interval (.point c.signed) ∨ v = .constant c ∧ ¬ M h)

theorem kept_self : Kept w g (fun _ => False) g := by
  intro h n c hc hn
  obtain ⟨m, hm, hcm, -⟩ := hc.exists_node?
  obtain rfl : n = m := Option.some.inj (hn.symm.trans hm)
  refine ⟨.constant c, ?_, Or.inr ⟨rfl, id⟩⟩
  rw [hn, ← hcm]

theorem Kept.setValue (hg : Kept w g M g') (hc : Word w g k c) (hn : g.node? k = some n) :
    Kept w g (fun h => M h ∨ h = k)
      (g'.setValue k ⟨n.value.tag, .interval (.point c.signed)⟩) := by
  intro h m d hd hm
  obtain ⟨v, hv, hread⟩ := hg hd hm
  rw [node?_setValue (node?_nonneg hn), hv, Option.map_some]
  by_cases hk : h = k
  · subst hk
    obtain rfl : n = m := Option.some.inj (hn.symm.trans hm)
    obtain rfl := hc.eq_of_word hd
    rw [if_pos rfl]
    exact ⟨_, rfl, Or.inl rfl⟩
  · rw [if_neg hk]
    refine ⟨v, rfl, hread.imp_right ?_⟩
    rintro ⟨hvc, hM⟩
    exact ⟨hvc, not_or.mpr ⟨hM, hk⟩⟩

theorem Kept.mono {M' : Handle → Prop} (hg : Kept w g M g') (hM : ∀ h, M' h → M h) :
    Kept w g M' g' := by
  intro h n c hc hn
  obtain ⟨v, hv, hread⟩ := hg hc hn
  refine ⟨v, hv, hread.imp_right ?_⟩
  rintro ⟨hvc, hnot⟩
  exact ⟨hvc, fun h => hnot (hM _ h)⟩

theorem Kept.setValue_of_not {v : Tagged} (hg : Kept w g M g') (hk : 0 ≤ k.index)
    (hnot : ∀ c, ¬ Word w g k c) : Kept w g M (g'.setValue k v) := by
  intro h n c hc hn
  obtain ⟨u, hu, hread⟩ := hg hc hn
  refine ⟨u, ?_, hread⟩
  rw [node?_setValue hk, hu, Option.map_some, if_neg]
  rintro rfl
  exact hnot c hc

theorem Kept.push (hg : Kept w g M g) : Kept w g M (g.push n) := by
  intro h m c hc hm
  obtain ⟨v, hv, hread⟩ := hg hc hm
  refine ⟨v, ?_, hread⟩
  rw [node?_push, if_neg, hv]
  rintro rfl
  exact Int.lt_irrefl _ (before_of_node? hm).2

theorem Kept.enters (hw : w = 8 ∨ w = 16 ∨ w = 32 ∨ w = 64) (hg : Kept w g M g')
    (hc : Word w g h c) (hn : g.node? h = some n) :
    ∃ v, g'.node? h = some ⟨⟨n.value.tag, v⟩, n.left, n.right⟩ ∧ v.Enters (.point c.signed) ∧
      (M h → v = .interval (.point c.signed)) := by
  obtain ⟨v, hv, hread⟩ := hg hc hn
  refine ⟨v, hv, ?_⟩
  rcases hread with rfl | ⟨rfl, hnot⟩
  · exact ⟨Value.enters_interval _, fun _ => rfl⟩
  · exact ⟨hc.enters hw, fun h => absurd h hnot⟩

section Standard

variable (he : e.lattice.options = .standard) (hw : w = 8 ∨ w = 16 ∨ w = 32 ∨ w = 64)

include he hw

/-- Narrowing at a word of two others, itself already an interval, makes both of them intervals;
it goes through just when the operator did not wrap. -/
theorem ends_narrowAt_word (hop : op = .add ∨ op = .sub ∨ op = .mul) (hl : Word w g l a)
    (hr : Word w g r b) (hc : Constant.arith op a b = pure c)
    (hn : g.node? h = some ⟨⟨.arith op, .constant c⟩, l, r⟩)
    (hcalm : Bound.Calm a.signed ∧ Bound.Calm b.signed ∧ Bound.Calm c.signed) (hM : M h)
    (hg : Kept w g M g') :
    (narrowAt e h).Ends
      (fun next g'' => next = (if l ≠ r then [l, r] else [l]) ∧
        Kept w g (fun k => (M k ∨ k = l) ∨ k = r) g'' ∧
        op.eval? a.signed.toInt b.signed.toInt = some c.signed.toInt)
      (fun err _ => err = .cancelled ∧
        op.eval? a.signed.toInt b.signed.toInt ≠ some c.signed.toInt) g' := by
  obtain ⟨hw0, hw64⟩ := width_bounds hw
  obtain ⟨nl, hnl, -⟩ := hl.exists_node?
  obtain ⟨nr, hnr, -⟩ := hr.exists_node?
  obtain ⟨v, hv, -, hvM⟩ := hg.enters hw (.arith hop hl hr hc hn) hn
  obtain ⟨u, hu, hua, -⟩ := hg.enters hw hl hnl
  obtain ⟨t, ht, htb, -⟩ := hg.enters hw hr hnr
  obtain rfl := hvM hM
  have hsame : l = r → Interval.point a.signed = .point b.signed := by
    rintro rfl
    rw [hl.eq_of_word hr]
  have hback := Constant.ends_backward_signed e.lattice.bound hop hw0 hw64
    (hl.kind_width hw).2 (hr.kind_width hw).2 hc hcalm
  have hkept := (hg.setValue hl hnl).setValue hr hnr
  exact ends_narrowAt_of_enters he hv rfl hu ht hua htb hsame hback fun hexact =>
    ⟨rfl, hkept, hexact⟩

/-- **Narrowing from a word**, itself already an interval, goes through just when no operator that
led to it wrapped. -/
theorem ends_narrowFrom_word (hg : g.WellFormed)
    (hcalm : ∀ h d, Reaches g k h → Word w g h d → Bound.Calm d.signed) (hc : Word w g h c)
    (hh : Reaches g k h) {stop : Handle → Action Graph Unit} {steps : Nat}
    (hsteps : h.Before (.ofNat steps)) (hM : M h) (hkept : Kept w g M g') :
    (narrowFrom e stop steps h).Ends (fun _ g'' => Kept w g M g'' ∧ Unwrapped g h c)
      (fun err _ => err = .cancelled ∧ ¬ Unwrapped g h c) g' := by
  -- The operands stand before the word, so that a step less is enough for them.
  have hplace {k h : Handle} {i : Nat} (hk : k.Before h) (hh : h.Before (.ofNat (i + 1))) :
      k.Before (.ofNat i) := by
    refine ⟨hk.1, ?_⟩
    have hlt : h.index < ((i + 1 : Nat) : Int) := hh.2
    have hkh := hk.2
    show k.index < (i : Int)
    omega
  induction hc generalizing steps M g' with
  | lift x hn =>
      obtain ⟨v, hv, -⟩ := hkept (.lift x hn) hn
      exact ends_narrowFrom_leaf hsteps hv rfl ⟨hkept, .lift hn⟩
  | @arith h l r op a b c hop hl hr hc hn ihl ihr =>
      cases steps with
      | zero => exact absurd hsteps.2 (not_lt.mpr hsteps.1)
      | succ steps =>
          have hiff := unwrapped_arith_iff hl hr hn
          obtain ⟨hreachl, hreachr⟩ := hh.of_rule hn nofun
          obtain ⟨hbeforel, hbeforer⟩ := (hg h _ hn).binary rfl
          have hcalms : Bound.Calm a.signed ∧ Bound.Calm b.signed ∧ Bound.Calm c.signed :=
            ⟨hcalm l a hreachl hl, hcalm r b hreachr hr, hcalm h c hh (.arith hop hl hr hc hn)⟩
          show Action.Ends _ _ (narrowAt e h >>= fun next => next.forM (narrowFrom e stop steps)) g'
          refine Action.ends_bind ((ends_narrowAt_word he hw hop hl hr hc hn hcalms hM hkept).mono
            ?_ ?_)
          · rintro _ g'' ⟨rfl, hkept'', hexact⟩
            refine (Action.ends_forM (T := fun k => ∀ d, Word w g k d → Unwrapped g k d) hkept''
              fun k hk g₁ hg₁ => ?_).mono ?_ fun _ _ => id
            · rcases mem_operands.mp hk with rfl | rfl
              · refine (ihl hreachl (hplace hbeforel hsteps) (Or.inl (Or.inr rfl)) hg₁).mono ?_ ?_
                · rintro _ g₂ ⟨hg₂, hun⟩
                  exact ⟨hg₂, fun d hd => hl.eq_of_word hd ▸ hun⟩
                · rintro err _ ⟨rfl, hwrap⟩
                  exact ⟨rfl, fun hun => hwrap (hiff.mp hun).1.1⟩
              · refine (ihr hreachr (hplace hbeforer hsteps) (Or.inr rfl) hg₁).mono ?_ ?_
                · rintro _ g₂ ⟨hg₂, hun⟩
                  exact ⟨hg₂, fun d hd => hr.eq_of_word hd ▸ hun⟩
                · rintro err _ ⟨rfl, hwrap⟩
                  exact ⟨rfl, fun hun => hwrap (hiff.mp hun).1.2⟩
            · rintro _ g₁ ⟨hg₁, hun⟩
              have hl := hun l (mem_operands.mpr (Or.inl rfl)) a hl
              have hr := hun r (mem_operands.mpr (Or.inr rfl)) b hr
              exact ⟨hg₁.mono fun _ h => Or.inl (Or.inl h), hiff.mpr ⟨⟨hl, hr⟩, hexact⟩⟩
          · rintro err _ ⟨rfl, hwrap⟩
            exact ⟨rfl, fun hun => hwrap (hiff.mp hun).2⟩

end Standard

/-! ## An order that holds -/

/-- Compare two nodes, and assume that the first is at least the second. -/
def assumeAtLeast (e : Engine) (x k : Handle) : Action Graph Unit := do
  let s ← make e (.binary (.relation .sge) x k)
  assume e s true

section Order

variable {lo hi : Bound} (he : e.lattice.options = .standard)
  (hw : w = 8 ∨ w = 16 ∨ w = 32 ∨ w = 64)
  (hx : g.node? x = some ⟨⟨.any, .interval ⟨lo, hi⟩⟩, .none, .none⟩) (hk : Word w g k c)
  (hlo : c.signed ≤ lo) (hhi : lo ≤ hi)

include he hw hx hk hlo hhi

/-- Every member of the interval is at least the word, so the comparison is true. -/
theorem ends_compute_sge : (g.compute e (.binary (.relation .sge) x k)).Ends
    (fun n => n = ⟨⟨.relation .sge, .interval (.point 1)⟩, x, k⟩) fun _ => False := by
  obtain ⟨n, hn, hc, -⟩ := hk.exists_node?
  show Eval.Ends _ _ (g.value x >>= fun a => g.value k >>= fun b =>
    e.binary (.relation .sge) a b >>= fun v => pure (⟨v, x, k⟩ : Node))
  rw [value_eq hx, value_eq hn, pure_bind, pure_bind]
  show Eval.Ends _ _ ((e.lattice.binary (.relation .sge) (.interval ⟨lo, hi⟩) n.value.primary >>=
    fun v => pure (⟨.relation .sge, v⟩ : Tagged)) >>= fun v => pure (⟨v, x, k⟩ : Node))
  rw [hc, Lattice.binary_of_enters he (hk.enters hw), Interval.binary_sge_point hlo hhi]
  refine Eval.ends_bind (Eval.ends_bind (Eval.ends_bind (Eval.ends_note ?_)))
  refine Eval.ends_bind (Eval.ends_pure (Eval.ends_pure (Eval.ends_pure (Eval.ends_pure ?_))))
  rfl

/-- Narrowing from the comparison leaves the interval, and goes on with the word. -/
theorem ends_narrowFrom_sge (hg : g.WellFormed)
    (hcalm : ∀ h d, Reaches g k h → Word w g h d → Bound.Calm d.signed)
    {s : Handle} {stop : Handle → Action Graph Unit}
    (hs : g'.node? s = some ⟨⟨.relation .sge, .interval (.point 1)⟩, x, k⟩)
    (hx' : g'.node? x = g.node? x) (hkept : Kept w g (fun _ => False) g') :
    (narrowFrom e stop (g.size + 1) s).Ends (fun _ _ => Unwrapped g k c)
      (fun err _ => err = .cancelled ∧ ¬ Unwrapped g k c) g' := by
  obtain ⟨n, hn, -⟩ := hk.exists_node?
  obtain ⟨v, hv, hvc, -⟩ := hkept.enters hw hk hn
  have hnot : ∀ d, ¬ Word w g x d := by
    intro d hd
    obtain ⟨m, hm, -, htag⟩ := hd.exists_node?
    obtain rfl := Option.some.inj (hx.symm.trans hm)
    exact htag rfl
  have hxk : x ≠ k := by
    rintro rfl
    exact hnot c hk
  have hback : (Interval.backward e.lattice.bound (.relation .sge) (.point 1) ⟨lo, hi⟩
      (.point c.signed)).Ends (fun p => p = (⟨lo, hi⟩, .point c.signed) ∧ True)
      fun err => err = .cancelled ∧ ¬ Unwrapped g k c :=
    (Interval.ends_backward_sge_point hlo hhi).mono (fun _ hp => ⟨hp, trivial⟩) nofun
  rw [hx] at hx'
  have hkept' := (hkept.setValue_of_not (v := ⟨.any, .interval ⟨lo, hi⟩⟩) (node?_nonneg hx)
    hnot).setValue hk hn
  refine Action.ends_bind (ends_narrowAt_of_enters he hs rfl hx' hv (Value.enters_interval _) hvc
    (fun h => absurd h hxk) hback fun _ => ?_)
  rw [if_pos hxk]
  show Action.Ends _ _ (narrowFrom e stop g.size x >>= fun _ =>
    narrowFrom e stop g.size k >>= fun _ => pure ()) _
  refine Action.ends_bind (ends_narrowFrom_leaf (before_of_node? hx)
    (n := ⟨⟨.any, .interval ⟨lo, hi⟩⟩, .none, .none⟩) ?_ rfl ?_)
  · rw [node?_setValues (node?_nonneg hx) (node?_nonneg hn), hx', Option.map_some, if_neg hxk,
      if_pos rfl]
  · refine Action.ends_bind ((ends_narrowFrom_word he hw hg hcalm hk .self (before_of_node? hn)
      (Or.inr rfl) hkept').mono ?_ fun _ _ => id)
    exact fun _ _ h => Action.ends_pure h.2

theorem ends_assume_sge (hg : g.WellFormed)
    (hcalm : ∀ h d, Reaches g k h → Word w g h d → Bound.Calm d.signed) :
    (assume e (.ofNat g.size) true).Ends (fun _ _ => Unwrapped g k c)
      (fun err _ => err = .cancelled ∧ ¬ Unwrapped g k c)
      (g.push ⟨⟨.relation .sge, .interval (.point 1)⟩, x, k⟩) := by
  have hfresh {h : Handle} {n : Node} (hn : g.node? h = some n) : h ≠ .ofNat g.size := by
    rintro rfl
    exact Int.lt_irrefl _ (before_of_node? hn).2
  have hs : (g.push ⟨⟨.relation .sge, .interval (.point 1)⟩, x, k⟩).node? (.ofNat g.size) =
      some ⟨⟨.relation .sge, .interval (.point 1)⟩, x, k⟩ := node?_push_self
  have hplace : (0 : Int) ≤ (Handle.ofNat g.size).index := Int.natCast_nonneg _
  have hnot : ∀ d, ¬ Word w g (.ofNat g.size) d := by
    intro d hd
    obtain ⟨m, hm, -⟩ := hd.exists_node?
    exact hfresh hm rfl
  -- The comparison is true, and that is what is assumed: its value stays.
  have htrue : (Value.interval (.point 1)).assume true = .fits (.interval (.point 1)) := rfl
  rw [assume_eq_assumeBy]
  refine Action.ends_bind (ends_assumeAt_of_fits hs htrue ?_)
  refine ends_narrowFrom_sge he hw hx hk hlo hhi hg hcalm ?_ ?_
    (kept_self.push.setValue_of_not hplace hnot)
  · rw [node?_setValue hplace, hs, Option.map_some, if_pos rfl]
  · rw [node?_setValue hplace, node?_push, if_neg (hfresh hx), hx, Option.map_some,
      if_neg (hfresh hx)]

/-- **An order that holds is refused where a word wrapped.**  Let every member of an interval be at
least a word, which was computed from lifted words by sums, differences and products.  Whatever is
answered, to assume that the interval is at least the word succeeds just when no operator that led
to the word wrapped, and otherwise gives up the path.  At the full width of an end point, the words
that stand for an infinity or for the opposite of one are left aside. -/
theorem assumeAtLeast_ok_iff (hg : g.WellFormed)
    (hcalm : w = 64 → ∀ h d, Reaches g k h → Word w g h d → Bound.Calm d.signed)
    (answers : List Int) :
    let outcome := (((assumeAtLeast e x k).run g).play answers).result.1
    (outcome = .ok () ↔ Unwrapped g k c) ∧ (outcome = .error .cancelled ↔ ¬ Unwrapped g k c) := by
  intro outcome
  have hends : (assumeAtLeast e x k).Ends (fun _ _ => Unwrapped g k c)
      (fun err _ => err = .cancelled ∧ ¬ Unwrapped g k c) g := by
    refine Action.ends_bind (Action.ends_bind (Action.ends_get ?_))
    refine Action.ends_bind (Action.ends_lift ((ends_compute_sge he hw hx hk hlo hhi).mono ?_ nofun))
    rintro _ rfl
    refine ends_assume_sge he hw hx hk hlo hhi hg ?_
    intro h d hh hd
    by_cases h64 : w = 64
    · exact hcalm h64 h d hh hd
    · exact hd.calm hw h64
  have hmeets : Eval.Meets (fun _ => Unwrapped g k c)
      (fun err => err = .cancelled ∧ ¬ Unwrapped g k c) outcome := Dialogue.all_play hends answers
  cases hout : outcome with
  | ok u =>
      rw [hout] at hmeets
      exact ⟨iff_of_true rfl hmeets, iff_of_false nofun (not_not_intro hmeets)⟩
  | error err =>
      rw [hout] at hmeets
      obtain ⟨rfl, hwrap⟩ := hmeets
      exact ⟨iff_of_false nofun hwrap, iff_of_true rfl hwrap⟩

end Order

/-- Twice 50 is 100 as a byte, and to assume that what is between 100 and 127 is at least that
succeeds. -/
theorem assumeAtLeast_ok_iff_hundred :
    let e : Engine := ⟨⟨.standard, defaultChooseBound⟩, .primary⟩
    let g := (History.after e .empty [(.make (.lift (.ofInt64 50 8)), []),
      (.make (.binary (.arith .add) ⟨0⟩ ⟨0⟩), []), (.make (.anyRange 100 127 8), [])]).graph
    ∀ answers, (((assumeAtLeast e ⟨2⟩ ⟨1⟩).run g).play answers).result.1 = .ok () := by
  intro e g answers
  have hlift : g.node? ⟨0⟩ = some ⟨⟨.lift, .constant (.ofInt64 50 8)⟩, .none, .none⟩ := by
    decide +kernel
  have hsum : g.node? ⟨1⟩ = some ⟨⟨.arith .add, .constant (.ofInt64 100 8)⟩, ⟨0⟩, ⟨0⟩⟩ := by
    decide +kernel
  have hrange : g.node? ⟨2⟩ = some ⟨⟨.any, .interval ⟨100, 127⟩⟩, .none, .none⟩ := by
    decide +kernel
  have hadd : Constant.arith .add (.ofInt64 50 8) (.ofInt64 50 8) = pure (.ofInt64 100 8) := rfl
  have hword : Word 8 g ⟨1⟩ (.ofInt64 100 8) :=
    .arith (Or.inl rfl) (.lift 50 hlift) (.lift 50 hlift) hadd hsum
  have hexact : Unwrapped g ⟨1⟩ (.ofInt64 100 8) :=
    .arith (.lift hlift) (.lift hlift) (by decide) hsum
  have hinv := invariant_wellFormed e
  have hg : g.WellFormed := ((History.all_empty hinv).after hinv _).graph
  have hw : (8 : UInt8) ≠ 64 := by decide
  have hlo : (Constant.ofInt64 100 8).signed ≤ (100 : Int64) := by decide
  have hhi : (100 : Int64) ≤ 127 := by decide
  exact (assumeAtLeast_ok_iff rfl (Or.inl rfl) hrange hword hlo hhi hg (fun h => absurd h hw)
    answers).1.mpr hexact

/-- Twice 100 is -56 as a byte.  That what is between -56 and 127 is at least this holds of every
member, and yet the assumption gives up the path. -/
theorem assumeAtLeast_cancels :
    let e : Engine := ⟨⟨.standard, defaultChooseBound⟩, .primary⟩
    let g := (History.after e .empty [(.make (.lift (.ofInt64 100 8)), []),
      (.make (.binary (.arith .add) ⟨0⟩ ⟨0⟩), []), (.make (.anyRange (-56) 127 8), []),
      (.make (.binary (.relation .sge) ⟨2⟩ ⟨1⟩), [])]).graph
    (g.node? ⟨1⟩).map (fun n => n.value.primary) = some (.constant (.ofInt64 (-56) 8)) ∧
      ((g.toTristate e ⟨3⟩).run.play []).result = .ok .yes ∧
      (((assume e ⟨3⟩ true).run g).play []).result.1 = .error .cancelled := by
  decide +kernel

end Graph

end Narrowing
