/-
# The order on intervals is inclusion

An interval is empty whenever its ends are the wrong way round, so there are many empty
intervals and none of them is the least.  The order, the join and the meet only ever look at
ends, and the ends of an empty interval say nothing.  They are judged here by the words that
an interval contains.

The members of a meet are the common members, for any ends (`members_meet`).  The order is
inclusion of members (`leq_iff_subset`): an empty interval is below all others by the test
that comes first, and of an interval with members both ends are members.  From these two the
laws of the meet follow as they do for sets.

A join has more members than its operands have together, those between the two, so its law is
not one of sets.  It holds because what contains both operands contains what is between them,
and this is read off the ends (`join_leq_iff`).
-/
import Narrowing.Proofs.Interval.Steps

namespace Narrowing

namespace Interval

variable {a b c v w : Interval} {x : Int64}

/-- The words between the ends. -/
def members (v : Interval) : Set Int64 := {x | v.contains x = true}

theorem mem_members : x ∈ v.members ↔ v.lo.toInt ≤ x.toInt ∧ x.toInt ≤ v.hi.toInt := contains_iff

theorem lo_mem_members (hle : v.lo.toInt ≤ v.hi.toInt) : v.lo ∈ v.members :=
  mem_members.mpr ⟨le_rfl, hle⟩

theorem hi_mem_members (hle : v.lo.toInt ≤ v.hi.toInt) : v.hi ∈ v.members :=
  mem_members.mpr ⟨hle, le_rfl⟩

theorem members_eq_empty_iff : v.members = ∅ ↔ v.isBottom = true := by
  constructor
  · intro hempty
    by_contra hbot
    have hle := isBottom_eq_false_iff.mp (Bool.not_eq_true _ ▸ hbot)
    exact Set.eq_empty_iff_forall_notMem.mp hempty v.lo (lo_mem_members hle)
  · intro hbot
    refine Set.eq_empty_iff_forall_notMem.mpr fun x hx => ?_
    obtain ⟨hlo, hhi⟩ := mem_members.mp hx
    exact Bool.eq_false_iff.mp (isBottom_eq_false_iff.mpr (hlo.trans hhi)) hbot

/-! ## The order -/

theorem leq_iff_subset : a.leq b = true ↔ a.members ⊆ b.members := by
  rw [leq_iff]
  constructor
  · intro hends x hx
    rw [mem_members] at hx ⊢
    omega
  · intro hsub
    by_cases hle : a.lo.toInt ≤ a.hi.toInt
    · -- both ends of `a` are members of `b`
      have hlo := mem_members.mp (hsub (lo_mem_members hle))
      have hhi := mem_members.mp (hsub (hi_mem_members hle))
      exact Or.inr ⟨hlo.1, hhi.2⟩
    · exact Or.inl (not_le.mp hle)

/-! ## The meet -/

theorem members_meet : (meet a b).members = a.members ∩ b.members := by
  ext x
  simp only [Set.mem_inter_iff, mem_members, meet, Bound.toInt_greater, Bound.toInt_lesser,
    max_le_iff, le_min_iff]
  tauto

theorem leq_meet_iff : c.leq (meet a b) = true ↔ c.leq a = true ∧ c.leq b = true := by
  rw [leq_iff_subset, leq_iff_subset, leq_iff_subset, members_meet, Set.subset_inter_iff]

theorem meet_meet_self : meet (meet v w) w = meet v w := by
  have hlo : (meet (meet v w) w).lo = (meet v w).lo := by
    rw [← Int64.toInt_inj]
    simp only [meet, Bound.toInt_greater, max_assoc, max_self]
  have hhi : (meet (meet v w) w).hi = (meet v w).hi := by
    rw [← Int64.toInt_inj]
    simp only [meet, Bound.toInt_lesser, min_assoc, min_self]
  exact congrArg₂ Interval.mk hlo hhi

/-! ## The join -/

theorem join_leq_iff : (join a b).leq c = true ↔ a.leq c = true ∧ b.leq c = true := by
  have hempty {v : Interval} (hv : v.isBottom = true) : v.leq c = true := by
    rw [leq_iff_subset, members_eq_empty_iff.mpr hv]
    exact Set.empty_subset _
  unfold join
  split_ifs with ha hb
  · exact (and_iff_right (hempty ha)).symm
  · exact (and_iff_left (hempty hb)).symm
  · have hale := isBottom_eq_false_iff.mp (Bool.not_eq_true _ ▸ ha)
    have hble := isBottom_eq_false_iff.mp (Bool.not_eq_true _ ▸ hb)
    simp only [leq_iff, Bound.toInt_lesser, Bound.toInt_greater]
    omega

/-! ## The intersection -/

theorem intersect_conflict_iff :
    (v.intersect w).conflict ≠ none ↔ v.members ∩ w.members = ∅ := by
  rw [← members_meet, members_eq_empty_iff]
  unfold intersect
  dsimp only
  split
  · exact iff_of_true nofun ‹_›
  · exact iff_of_false (fun h => h rfl) ‹_›

/-- What is left of an interval that was intersected is left as it is by the same intersection. -/
theorem intersect_intersect : (v.intersect w).left.intersect w = v.intersect w := by
  rw [intersect_left]
  unfold intersect
  rw [meet_meet_self]

/-- **Intervals are a lattice, whatever their ends.**  The order is inclusion of members, the join
is the least upper bound and the meet the greatest lower bound, and the members of a meet are the
common members.  An intersection leaves the meet, gives up just where there is no common member,
and comes to the same when it is repeated on what it left. -/
theorem lattice_by_members (a b c : Interval) :
    (a.leq b = true ↔ ∀ x, a.contains x = true → b.contains x = true) ∧
    ((a.join b).leq c = true ↔ a.leq c = true ∧ b.leq c = true) ∧
    (c.leq (a.meet b) = true ↔ c.leq a = true ∧ c.leq b = true) ∧
    (∀ x, (a.meet b).contains x = true ↔ a.contains x = true ∧ b.contains x = true) ∧
    (a.intersect b).left = a.meet b ∧
    ((a.intersect b).conflict ≠ none ↔ ¬ ∃ x, a.contains x = true ∧ b.contains x = true) ∧
    (a.intersect b).left.intersect b = a.intersect b := by
  refine ⟨leq_iff_subset, join_leq_iff, leq_meet_iff, ?_, intersect_left, ?_, intersect_intersect⟩
  · intro x
    exact Set.ext_iff.mp members_meet x
  · rw [intersect_conflict_iff, Set.eq_empty_iff_forall_notMem, not_exists]
    exact Iff.rfl

end Interval

end Narrowing
