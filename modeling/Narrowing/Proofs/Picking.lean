/-
# Picking a member

To pick a member of a range is to make one choice, of an offset from the low end of a window.

    interval, both ends finite     the window is the interval
    interval, one end infinite     `bound + 1` integers, as far as the finite end goes
    interval, both ends infinite   the integers from 0 to `bound`
    word range                     at most `bound + 1` words from the low end

So the alternatives of the question are the members of the window, each under its own number
(`Eval.Picks`).  For intervals two more things have to be seen.  The window has members of the
interval only, and all of them if the interval is finite (`window_spec`, `window_of_finite`).
And the number of alternatives is computed with ends that saturate.  It is the number of
members where the ends are at most 2^60 in magnitude (`picks_lower`); beyond that some members
are out of reach, and whatever is picked is still a member (`always_lower`).
-/
import Narrowing.Proofs.Constant.Slices
import Narrowing.Proofs.Interval.Inclusion
import Narrowing.Proofs.Interval.Saturation
import Narrowing.Proofs.WordRange.Monotone
import Mathlib.Order.Interval.Set.Nat

namespace Narrowing

/-! ## Choices that stand for the elements of a set -/

namespace Eval

variable {α β : Type} {s : Set α} {f : Nat → α} {n : Nat} {e : Eval α} {answers : List Int}

/-- The evaluation asks one question, with as many alternatives as `s` has elements, or none if
there is only one element.  The alternatives stand for the elements one to one, and the element
of the one that is picked is returned. -/
structure Picks (s : Set α) (e : Eval α) : Prop where
  asked : ∀ answers, (e.run.play answers).asked = if s.ncard = 1 then [] else [s.ncard]
  returns : ∃ f : Nat → α, Set.BijOn f (Set.Iio s.ncard) s ∧ ∀ answers,
    Dialogue.Fit .inRange answers (e.run.play answers).asked →
      (e.run.play answers).result = .ok (f (answers.headD 0).toNat)

theorem play_map (f : α → β) (e : Eval α) (answers : List Int) :
    ((do return f (← e)) : Eval β).run.play answers =
      ⟨(e.run.play answers).result.map f, (e.run.play answers).unused, (e.run.play answers).asked,
        (e.run.play answers).events⟩ := by
  have hrun : ((do return f (← e)) : Eval β).run = e.run.bind fun r => .done (r.map f) := by
    show Dialogue.bind e.run _ = _
    congr 1
    funext r
    cases r <;> rfl
  rw [hrun, Dialogue.play_map]

theorem asked_choose (hn : 1 ≤ n) (answers : List Int) :
    ((choose n).run.play answers).asked = if n = 1 then [] else [n] := by
  unfold choose
  rw [if_neg (by omega)]
  by_cases h1 : n = 1
  · subst h1
    rfl
  · rw [if_neg (by exact_mod_cast h1), if_neg h1]
    rfl

theorem result_choose (hn : 1 ≤ n)
    (hfit : Dialogue.Fit .inRange answers (if n = 1 then [] else [n])) :
    ((choose n).run.play answers).result = .ok (answers.headD 0).toNat := by
  unfold choose
  rw [if_neg (by omega)]
  by_cases h1 : n = 1
  · subst h1
    cases hfit
    rfl
  · rw [if_neg h1] at hfit
    rw [if_neg (by exact_mod_cast h1)]
    cases hfit with
    | cons hv hrest => exact if_pos hv

theorem headD_lt_of_fit (hfit : Dialogue.Fit .inRange answers (if n = 1 then [] else [n])) :
    (answers.headD 0).toNat < n := by
  by_cases h1 : n = 1
  · subst h1
    cases hfit
    exact Nat.one_pos
  · rw [if_neg h1] at hfit
    cases hfit with
    | cons hv hrest => exact (Int.toNat_lt hv.1).mpr hv.2

theorem picks_choose (hn : 1 ≤ n) (hf : Set.BijOn f (Set.Iio n) s) :
    (do return f (← choose n) : Eval α).Picks s := by
  have hcard : s.ncard = n := by rw [← hf.ncard_eq, Set.ncard_Iio_nat]
  refine ⟨fun answers => ?_, f, by rwa [hcard], fun answers hfit => ?_⟩
  · rw [play_map, hcard]
    exact asked_choose hn answers
  · rw [play_map, asked_choose hn] at hfit
    rw [play_map, result_choose hn hfit]
    rfl

theorem Picks.always (h : e.Picks s) : e.Always (· ∈ s) := by
  obtain ⟨f, hf, hresult⟩ := h.returns
  unfold Always
  refine Dialogue.all_of_play fun answers hfit => ?_
  rw [hresult answers hfit]
  rw [h.asked] at hfit
  exact hf.mapsTo (headD_lt_of_fit hfit)

end Eval

/-! ## Intervals -/

namespace Interval

variable {v : Interval} {bound : UInt32}

/-- The words from `l` on are `l` and an offset, one to one. -/
theorem bijOn_offset {l : Int64} {n : Nat} (hn : n ≤ 2 ^ 63) (hl : l.toInt + n ≤ 2 ^ 63) :
    Set.BijOn (fun i => l + Int64.ofNat i) (Set.Iio n)
      {m | l.toInt ≤ m.toInt ∧ m.toInt < l.toInt + n} := by
  have hlow := l.le_toInt
  have hoffset {i : Nat} (hi : i < n) : (l + Int64.ofNat i).toInt = l.toInt + i := by
    have hi' : (Int64.ofNat i).toInt = i := Int64.toInt_ofNat_of_lt (by omega)
    rw [Bound.toInt_add (by omega) (by omega), hi']
  refine ⟨fun i hi => ?_, fun i hi j hj hij => ?_, fun m hm => ?_⟩
  · have hi : i < n := hi
    show l.toInt ≤ (l + Int64.ofNat i).toInt ∧ (l + Int64.ofNat i).toInt < l.toInt + n
    rw [hoffset hi]
    omega
  · have hsum := congrArg Int64.toInt hij
    simp only [hoffset hi, hoffset hj] at hsum
    omega
  · obtain ⟨hlm, hmn⟩ := hm
    have hi : (m.toInt - l.toInt).toNat < n := by omega
    refine ⟨_, hi, ?_⟩
    rw [← Int64.toInt_inj]
    simp only [hoffset hi]
    omega

theorem lower_eq (hv : v.isBottom = false) : v.lower bound = (do
    return (v.window bound).lo + Int64.ofNat (← Eval.choose (v.window bound).size.toInt)) := by
  unfold lower chooseBelow
  rw [hv]
  simp

/-- What is picked is a word of the window, from its low end on as far as the size goes. -/
theorem picks_lower_of_size (hv : v.isBottom = false) (hsize : 1 ≤ (v.window bound).size.toInt)
    (hlast : (v.window bound).lo.toInt + (v.window bound).size.toInt ≤ 2 ^ 63) :
    (v.lower bound).Picks {m | (v.window bound).lo.toInt ≤ m.toInt ∧
      m.toInt < (v.window bound).lo.toInt + (v.window bound).size.toInt} := by
  have hword := (v.window bound).size.toInt_lt
  obtain ⟨n, hn⟩ := Int.eq_ofNat_of_zero_le (show 0 ≤ (v.window bound).size.toInt by omega)
  rw [hn] at hsize hlast hword
  rw [lower_eq hv, hn]
  exact Eval.picks_choose (by omega) (bijOn_offset (by omega) (by omega))

/-! ### The window -/

/-- The window of an interval with two finite ends is the interval. -/
theorem window_of_finite (hv : v.isFinite = true) (bound : UInt32) : v.window bound = v := by
  rw [isFinite_iff] at hv
  have hlo : v.lo ≠ Bound.negInf := by
    rw [Ne, ← Int64.toInt_inj, Bound.toInt_negInf]
    omega
  have hhi : v.hi ≠ Bound.posInf := by
    rw [Ne, ← Int64.toInt_inj, Bound.toInt_posInf]
    omega
  simp only [window, hlo, hhi, false_and, if_false]

/-- The ends of the window: a finite end is kept, and an infinite one is put where `bound`
integers remain beyond the other end, which is 0 where both are infinite. -/
theorem toInt_window (bound : UInt32) (hv : v.Moderate (2 ^ 60)) :
    (v.window bound).lo.toInt = (if v.lo.toInt = -2 ^ 63 then
      if v.hi.toInt = 2 ^ 63 - 1 then 0 else v.hi.toInt - bound.toNat else v.lo.toInt) ∧
    (v.window bound).hi.toInt = (if v.hi.toInt = 2 ^ 63 - 1 then
      if v.lo.toInt = -2 ^ 63 then (bound.toNat : Int) else v.lo.toInt + bound.toNat
      else v.hi.toInt) := by
  have hbound := bound.toNat_lt
  have hword := toInt_boundWord bound
  have hfin : Bound.isInf (boundWord bound) = false := Bound.finite_iff.mpr (by omega)
  rw [moderate_iff] at hv
  unfold window
  simp only [← Int64.toInt_inj, Bound.toInt_negInf, Bound.toInt_posInf]
  by_cases hlo : v.lo.toInt = -2 ^ 63
  · by_cases hhi : v.hi.toInt = 2 ^ 63 - 1
    · simp only [hlo, hhi, and_self, if_true]
      exact ⟨rfl, hword⟩
    · have hhi' : v.hi.isInf = false := Bound.finite_iff.mpr (by omega)
      have hdiff := Bound.sub?_of_finite hhi' hfin (by omega) (by omega)
      simp only [hlo, hhi, and_false, if_true, if_false, hdiff, Option.getD_some,
        Bound.toInt_clamp, and_true]
      omega
  · by_cases hhi : v.hi.toInt = 2 ^ 63 - 1
    · have hlo' : v.lo.isInf = false := Bound.finite_iff.mpr (by omega)
      have hsum := Bound.add?_of_finite hlo' hfin (by omega)
      simp only [hlo, hhi, false_and, if_true, if_false, hsum, Option.getD_some,
        Bound.toInt_clamp, true_and]
      omega
    · simp only [hlo, hhi, if_false, and_self]

/-- The window of an interval with members: its ends are far from the infinities, it has members
of the interval only, and `bound + 1` of them where an end of the interval is infinite. -/
theorem window_spec (bound : UInt32) (hv : v.Moderate (2 ^ 60)) (hle : v.lo.toInt ≤ v.hi.toInt) :
    (v.window bound).Within (2 ^ 61) ∧
    (v.window bound).lo.toInt ≤ (v.window bound).hi.toInt ∧
    (v.window bound).members ⊆ v.members ∧
    (v.isFinite = false → (v.window bound).hi.toInt - (v.window bound).lo.toInt = bound.toNat) := by
  have hbound := bound.toNat_lt
  obtain ⟨hlo, hhi⟩ := toInt_window bound hv
  rw [moderate_iff] at hv
  refine ⟨⟨?_, ?_⟩, ?_, fun m hm => ?_, fun hinf => ?_⟩
  · rw [hlo]
    split_ifs <;> omega
  · rw [hhi]
    split_ifs <;> omega
  · rw [hlo, hhi]
    split_ifs <;> omega
  · rw [mem_members, hlo, hhi] at hm
    rw [mem_members]
    split_ifs at hm <;> omega
  · rw [Bool.eq_false_iff, Ne, isFinite_iff] at hinf
    rw [hlo, hhi]
    split_ifs <;> omega

/-! ### Members -/

theorem toInt_size (hv : v.Within (2 ^ 62)) (hle : v.lo.toInt ≤ v.hi.toInt) :
    v.size.toInt = min (v.hi.toInt - v.lo.toInt + 1) (2 ^ 63 - 1) := by
  obtain ⟨hlo, hhi⟩ := hv
  rw [size_eq_clamp hle (Bound.finite_iff.mpr (by omega)) (Bound.finite_iff.mpr (by omega))
    (by omega), Bound.toInt_clamp]
  omega

/-- Where nothing saturates, the members of the window are picked. -/
theorem picks_lower (bound : UInt32) (hv : v.Moderate (2 ^ 60)) (hle : v.lo.toInt ≤ v.hi.toInt) :
    (v.lower bound).Picks (v.window bound).members := by
  obtain ⟨⟨hlo, hhi⟩, hsome, -, -⟩ := window_spec bound hv hle
  have hsize := toInt_size (v := v.window bound) ⟨by omega, by omega⟩ hsome
  have hset : (v.window bound).members = {m | (v.window bound).lo.toInt ≤ m.toInt ∧
      m.toInt < (v.window bound).lo.toInt + (v.window bound).size.toInt} := by
    ext m
    rw [mem_members, Set.mem_ofPred_eq]
    omega
  rw [hset]
  exact picks_lower_of_size (isBottom_eq_false_iff.mpr hle) (by omega) (by omega)

theorem ncard_members_window (bound : UInt32) (hv : v.Moderate (2 ^ 60)) (hle : v.lo.toInt ≤ v.hi.toInt)
    (hinf : v.isFinite = false) : (v.window bound).members.ncard = bound.toNat + 1 := by
  have hbound := bound.toNat_lt
  obtain ⟨⟨hlo, hhi⟩, -, -, hwidth⟩ := window_spec bound hv hle
  have hset : (v.window bound).members = {m | (v.window bound).lo.toInt ≤ m.toInt ∧
      m.toInt < (v.window bound).lo.toInt + ((bound.toNat + 1 : Nat) : Int)} := by
    ext m
    rw [mem_members, Set.mem_ofPred_eq]
    have := hwidth hinf
    omega
  rw [hset, ← (bijOn_offset (by omega) (by omega)).ncard_eq, Set.ncard_Iio_nat]

/-- Whatever is picked of an interval with moderate ends is one of its members. -/
theorem always_lower (bound : UInt32) (hv : v.Within (2 ^ 62)) (hle : v.lo.toInt ≤ v.hi.toInt) :
    (v.lower bound).Always fun m => v.contains m = true := by
  have hsize := toInt_size hv hle
  obtain ⟨hlo, hhi⟩ := hv
  have hfinite : v.isFinite = true := isFinite_iff.mpr (by omega)
  have hwindow := window_of_finite hfinite bound
  refine (picks_lower_of_size (isBottom_eq_false_iff.mpr hle) ?_ ?_).always.mono fun m hm => ?_
  · rw [hwindow]
    omega
  · rw [hwindow]
    omega
  · rw [Set.mem_ofPred_eq, hwindow] at hm
    rw [contains_iff]
    omega

end Interval

/-! ## Word ranges -/

namespace WordRange

variable {v : WordRange} {w : UInt8}

/-- The words of a width from `lo` on are `lo` and an offset, one to one. -/
theorem bijOn_offset {lo : UInt64} {n : Nat} (hw : w ≤ 64) (hn : lo.toNat + n ≤ 2 ^ w.toNat) :
    Set.BijOn (fun i => Constant.ofBits (lo + UInt64.ofNat i) w) (Set.Iio n)
      {c | c.IsWord w ∧ lo.toNat ≤ c.bits.toNat ∧ c.bits.toNat < lo.toNat + n} := by
  have hpow : 2 ^ w.toNat ≤ 2 ^ 64 := Nat.pow_le_pow_right (by decide) (Word.toNat_width hw)
  have hoffset {i : Nat} (hi : i < n) :
      (Constant.ofBits (lo + UInt64.ofNat i) w).bits.toNat = lo.toNat + i := by
    have hlt : i < 2 ^ 64 := by omega
    have hi' : (UInt64.ofNat i).toNat = i := UInt64.toNat_ofNat_of_lt' hlt
    rw [Constant.toNat_bits_ofBits _ hw, UInt64.toNat_add, hi',
      Nat.mod_eq_of_lt (a := lo.toNat + i) (by omega), Nat.mod_eq_of_lt (by omega)]
  refine ⟨fun i hi => ?_, fun i hi j hj hij => ?_, fun c hc => ?_⟩
  · have hi : i < n := hi
    refine ⟨Constant.isWord_ofBits _ hw, ?_⟩
    rw [hoffset hi]
    omega
  · have hsum := congrArg (fun c : Constant => c.bits.toNat) hij
    simp only [hoffset hi, hoffset hj] at hsum
    omega
  · obtain ⟨hword, hlc, hcn⟩ := hc
    have hi : c.bits.toNat - lo.toNat < n := by omega
    refine ⟨_, hi, (Constant.isWord_ofBits _ hw).ext hword ?_⟩
    rw [hoffset hi]
    omega

theorem picks_lower (bound : UInt32) (hw : w ≤ 64) (hv : v.IsRange w) : (v.lower bound).Picks
    {c | c.IsWord w ∧ v.lo.toNat ≤ c.bits.toNat ∧
      c.bits.toNat ≤ min v.hi.toNat (v.lo.toNat + bound.toNat)} := by
  have hle := UInt64.le_iff_toNat_le.mp hv.le
  have hmask := (Word.le_mask_iff hw).mp hv.le_mask
  have hspan : (lesser (v.hi - v.lo) bound.toUInt64).toNat =
      min (v.hi.toNat - v.lo.toNat) bound.toNat := by
    rw [toNat_lesser, UInt64.toNat_sub_of_le _ _ hv.le, UInt32.toNat_toUInt64]
  have hset : {c : Constant | c.IsWord w ∧ v.lo.toNat ≤ c.bits.toNat ∧
      c.bits.toNat ≤ min v.hi.toNat (v.lo.toNat + bound.toNat)} =
      {c | c.IsWord w ∧ v.lo.toNat ≤ c.bits.toNat ∧ c.bits.toNat < v.lo.toNat +
        ((lesser (v.hi - v.lo) bound.toUInt64).toNat + 1)} := by
    ext c
    rw [Set.mem_ofPred_eq, Set.mem_ofPred_eq, hspan]
    refine and_congr_right fun _ => ?_
    omega
  rw [hset]
  have hfit : v.lo.toNat + ((lesser (v.hi - v.lo) bound.toUInt64).toNat + 1) ≤ 2 ^ w.toNat := by
    omega
  have hpicks := Eval.picks_choose (Nat.le_add_left 1 _) (bijOn_offset hw hfit)
  unfold lower
  rw [hv.width]
  exact hpicks

end WordRange

/-- **A member is picked, and every member of a finite range can be.**  Let the ends of an interval
with members be infinite on their own side or at most 2^60 in magnitude.  If both are finite, the
alternatives of the question that picks a member are the members, one to one; if one is infinite,
they are `bound + 1` of the members, one to one.  For a word range they are the words of its width
from the low end to the high end, or to `bound` above the low end if that is less.  No question is
asked about a single alternative. -/
theorem lower_picks_members (bound : UInt32) :
    (∀ v : Interval, v.Moderate (2 ^ 60) → v.isBottom = false →
      (v.isFinite = true → (v.lower bound).Picks {m | v.contains m = true}) ∧
      (v.isFinite = false → ∃ s ⊆ {m | v.contains m = true}, s.ncard = bound.toNat + 1 ∧
        (v.lower bound).Picks s)) ∧
    ∀ (w : UInt8) (v : WordRange), 1 ≤ w → w ≤ 64 → v.IsRange w → (v.lower bound).Picks
      {c | c.IsWord w ∧ v.lo.toNat ≤ c.bits.toNat ∧
        c.bits.toNat ≤ min v.hi.toNat (v.lo.toNat + bound.toNat)} := by
  refine ⟨fun v hv hsome => ?_, fun w v _ hw hv => WordRange.picks_lower bound hw hv⟩
  have hle := Interval.isBottom_eq_false_iff.mp hsome
  have hpicks := Interval.picks_lower bound hv hle
  refine ⟨fun hfinite => ?_, fun hinf => ?_⟩
  · rw [Interval.window_of_finite hfinite] at hpicks
    exact hpicks
  · obtain ⟨-, -, hsub, -⟩ := Interval.window_spec bound hv hle
    exact ⟨_, hsub, Interval.ncard_members_window bound hv hle hinf, hpicks⟩

/-- With a bound of 10, eleven integers can be picked below 1, all seven from 2 to 8, and all six
of the greatest bytes. -/
theorem lower_picks_members_ten :
    (∃ s ⊆ {m | Interval.contains ⟨Bound.negInf, 0⟩ m = true}, s.ncard = 11 ∧
      (Interval.lower 10 ⟨Bound.negInf, 0⟩).Picks s) ∧
    (Interval.lower 10 ⟨2, 8⟩).Picks {m | Interval.contains ⟨2, 8⟩ m = true} ∧
    (WordRange.lower 10 ⟨250, 255, 8⟩).Picks
      {c | c.IsWord 8 ∧ 250 ≤ c.bits.toNat ∧ c.bits.toNat ≤ 255} := by
  obtain ⟨hintervals, hranges⟩ := lower_picks_members 10
  have hbelow : Interval.Moderate (2 ^ 60) ⟨Bound.negInf, 0⟩ := ⟨.inl rfl, .inr (by decide)⟩
  have hbetween : Interval.Moderate (2 ^ 60) ⟨2, 8⟩ := ⟨.inr (by decide), .inr (by decide)⟩
  refine ⟨(hintervals _ hbelow rfl).2 rfl, (hintervals _ hbetween rfl).1 rfl, ?_⟩
  exact hranges 8 ⟨250, 255, 8⟩ (by decide) (by decide) ⟨rfl, by decide, by decide⟩

end Narrowing
