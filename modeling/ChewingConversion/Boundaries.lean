import ChewingConversion.Contains
import Mathlib.Order.Fin.Basic
import Mathlib.Tactic.Choose

/-!
# Containment of covers, three ways

Between two covers of one range, `PossiblePath::contains` says that the bigger
cover is coarser.  Three statements of that are equivalent: every interval of the
smaller cover lies inside one of the bigger cover (`Refines`); every boundary of
the bigger cover is a boundary of the smaller one; and the smaller cover's
intervals can be assigned, in order, to bigger intervals that contain them.
Phrases play no part.

Hence containment is a preorder on covers, and two covers that contain each other
have the same boundaries: it is antisymmetric up to the phrases.
-/

namespace ChewingConversion

/-- The positions where the intervals of a path start or end. -/
def PossiblePath.boundaries (path : PossiblePath) : List Nat :=
  path.intervals.flatMap fun interval => [interval.start, interval.end]

theorem PossiblePath.mem_boundaries {path : PossiblePath} {position : Nat} :
    position ∈ path.boundaries ↔
      ∃ interval ∈ path.intervals, interval.start = position ∨ interval.end = position := by
  simp [PossiblePath.boundaries, eq_comm]

/-! ### Positions in a chain -/

section Positions

variable {start target : Nat} {intervals : List PossibleInterval}

/-- Every position after the start of a chain is reached by one of its intervals. -/
theorem IsChain.exists_mem_around : ∀ {start : Nat} {intervals : List PossibleInterval},
    IsChain start target intervals → ∀ {position : Nat}, start < position → position ≤ target →
      ∃ interval ∈ intervals, interval.start < position ∧ position ≤ interval.end
  | _, [], empty, _, after, within => absurd (empty ▸ within) (Nat.not_le_of_lt after)
  | _, interval :: _, ⟨startEq, _, rest⟩, position, after, within => by
    by_cases reached : position ≤ interval.end
    · exact ⟨interval, List.mem_cons_self _ _, by omega, reached⟩
    · obtain ⟨found, member, around⟩ := rest.exists_mem_around (by omega) within
      exact ⟨found, List.mem_cons_of_mem _ member, around⟩

/-- No boundary of a path lies strictly inside one of its intervals. -/
theorem IsChain.not_mem_boundaries {path : PossiblePath}
    (chain : IsChain start target path.intervals) {interval : PossibleInterval}
    (member : interval ∈ path.intervals) {position : Nat} (after : interval.start < position)
    (before : position < interval.end) : position ∉ path.boundaries := by
  rw [PossiblePath.mem_boundaries]
  rintro ⟨other, otherMember, atBoundary⟩
  have otherBounds := chain.bounds other otherMember
  have ne : interval ≠ other := by rintro rfl; omega
  have := chain.separated interval member other otherMember ne
  omega

/-- A position of a non-empty chain's range is a boundary or lies strictly inside
an interval. -/
theorem IsChain.mem_boundaries_or_inside {path : PossiblePath}
    (chain : IsChain start target path.intervals) (nonempty : path.intervals ≠ [])
    {position : Nat} (after : start ≤ position) (within : position ≤ target) :
    position ∈ path.boundaries ∨
      ∃ interval ∈ path.intervals, interval.start < position ∧ position < interval.end := by
  rw [PossiblePath.mem_boundaries]
  rcases Nat.eq_or_lt_of_le after with rfl | later
  · obtain ⟨first, rest, split⟩ := List.exists_cons_of_ne_nil nonempty
    rw [split] at chain ⊢
    exact Or.inl ⟨first, List.mem_cons_self _ _, Or.inl chain.1⟩
  · obtain ⟨interval, member, around⟩ := chain.exists_mem_around later within
    rcases Nat.eq_or_lt_of_le around.2 with atEnd | inside
    · exact Or.inl ⟨interval, member, Or.inr atEnd.symm⟩
    · exact Or.inr ⟨interval, member, around.1, inside⟩

/-- The intervals of a chain come in order. -/
theorem IsChain.pairwise : ∀ {start : Nat} {intervals : List PossibleInterval},
    IsChain start target intervals → intervals.Pairwise fun first second => first.end ≤ second.start
  | _, [], _ => List.Pairwise.nil
  | _, _ :: _, ⟨_, _, rest⟩ =>
    List.pairwise_cons.mpr ⟨fun other member => (rest.bounds other member).1, rest.pairwise⟩

end Positions

/-! ### Three descriptions of containment -/

section Covers

variable {start target : Nat} {smaller bigger : PossiblePath}
  (smallerChain : IsChain start target smaller.intervals)
  (biggerChain : IsChain start target bigger.intervals)
include smallerChain biggerChain

/-- Every interval of `smaller` lies inside one of `bigger` exactly when every
boundary of `bigger` is one of `smaller`. -/
theorem refines_iff_boundaries :
    Refines smaller.intervals bigger.intervals ↔
      ∀ position ∈ bigger.boundaries, position ∈ smaller.boundaries := by
  constructor
  · intro refines position boundary
    obtain ⟨interval, member, atBoundary⟩ := PossiblePath.mem_boundaries.mp boundary
    have bounds := biggerChain.bounds interval member
    have nonempty : smaller.intervals ≠ [] := fun empty => by
      rw [empty, isChain_nil] at smallerChain
      omega
    rcases smallerChain.mem_boundaries_or_inside nonempty (show start ≤ position by omega)
      (show position ≤ target by omega) with found | ⟨sml, smlMember, after, before⟩
    · exact found
    · obtain ⟨big, bigMember, contains⟩ := refines sml smlMember
      rw [PossibleInterval.contains_iff] at contains
      exact absurd boundary (biggerChain.not_mem_boundaries bigMember (by omega) (by omega))
  · intro boundaries sml smlMember
    have smlBounds := smallerChain.bounds sml smlMember
    obtain ⟨big, bigMember, around⟩ :=
      biggerChain.exists_mem_around (show start < sml.end by omega) smlBounds.2.2
    refine ⟨big, bigMember, (PossibleInterval.contains_iff _ _).mpr ⟨?_, around.2⟩⟩
    by_contra later
    have bigStart := boundaries big.start
      (PossiblePath.mem_boundaries.mpr ⟨big, bigMember, Or.inl rfl⟩)
    exact smallerChain.not_mem_boundaries smlMember (by omega) around.1 bigStart

/-- Every interval of `smaller` lies inside one of `bigger` exactly when the
intervals of `smaller` can be assigned, by a non-decreasing map of indices, to
intervals of `bigger` that contain them. -/
theorem refines_iff_monotone :
    Refines smaller.intervals bigger.intervals ↔
      ∃ assign : Fin smaller.intervals.length → Fin bigger.intervals.length, Monotone assign ∧
        ∀ k, (bigger.intervals.get (assign k)).contains (smaller.intervals.get k) = true := by
  constructor
  · intro refines
    have containing : ∀ k : Fin smaller.intervals.length, ∃ index : Fin bigger.intervals.length,
        (bigger.intervals.get index).contains (smaller.intervals.get k) = true := fun k => by
      obtain ⟨big, member, contains⟩ := refines _ (List.mem_iff_get.mpr ⟨k, rfl⟩)
      obtain ⟨index, rfl⟩ := List.mem_iff_get.mp member
      exact ⟨index, contains⟩
    choose assign contains using containing
    refine ⟨assign, fun k k' kLe => ?_, contains⟩
    by_contra decreasing
    have kLt : k < k' := lt_of_le_of_ne kLe fun same => by subst same; exact decreasing le_rfl
    have smallerOrder := List.pairwise_iff_get.mp smallerChain.pairwise k k' kLt
    have biggerOrder := List.pairwise_iff_get.mp biggerChain.pairwise _ _ (not_le.mp decreasing)
    have nonempty := (smallerChain.bounds _ (List.mem_iff_get.mpr ⟨k', rfl⟩)).2.1
    have first := (PossibleInterval.contains_iff _ _).mp (contains k)
    have second := (PossibleInterval.contains_iff _ _).mp (contains k')
    have := (smallerChain.bounds _ (List.mem_iff_get.mpr ⟨k, rfl⟩)).2.1
    omega
  · rintro ⟨assign, -, contains⟩ sml member
    obtain ⟨k, rfl⟩ := List.mem_iff_get.mp member
    exact ⟨_, List.mem_iff_get.mpr ⟨assign k, rfl⟩, contains k⟩

end Covers

/-- On covers of `[0, n)`, `bigger.contains smaller` holds exactly when every
interval of `smaller` lies inside one of `bigger`, exactly when every boundary of
`bigger` is one of `smaller`, and exactly when a non-decreasing assignment sends
the intervals of `smaller` to intervals of `bigger` that contain them.  So
containment is reflexive and transitive on covers, and covers that contain each
other have the same boundaries. -/
theorem contains_iff_coarser {n : Nat} {smaller bigger : PossiblePath}
    (smallerCover : IsChain 0 n smaller.intervals) (biggerCover : IsChain 0 n bigger.intervals) :
    (bigger.contains smaller = true ↔ Refines smaller.intervals bigger.intervals) ∧
    (bigger.contains smaller = true ↔
      ∀ position ∈ bigger.boundaries, position ∈ smaller.boundaries) ∧
    (bigger.contains smaller = true ↔
      ∃ assign : Fin smaller.intervals.length → Fin bigger.intervals.length, Monotone assign ∧
        ∀ k, (bigger.intervals.get (assign k)).contains (smaller.intervals.get k) = true) ∧
    smaller.contains smaller = true ∧
    (∀ biggest : PossiblePath, IsChain 0 n biggest.intervals →
      biggest.contains bigger = true → bigger.contains smaller = true →
        biggest.contains smaller = true) ∧
    (smaller.contains bigger = true → bigger.contains smaller = true →
      ∀ position, position ∈ smaller.boundaries ↔ position ∈ bigger.boundaries) := by
  have refines := PossiblePath.contains_iff_refines biggerCover smallerCover
  refine ⟨refines, refines.trans (refines_iff_boundaries smallerCover biggerCover),
    refines.trans (refines_iff_monotone smallerCover biggerCover), ?_, ?_, ?_⟩
  · exact (PossiblePath.contains_iff_refines smallerCover smallerCover).mpr fun sml member =>
      ⟨sml, member, (PossibleInterval.contains_iff _ _).mpr ⟨le_rfl, le_rfl⟩⟩
  · intro biggest biggestCover outer inner
    exact (PossiblePath.contains_iff_refines biggestCover smallerCover).mpr
      ((refines.mp inner).trans ((PossiblePath.contains_iff_refines biggestCover biggerCover).mp outer))
  · intro backward forward position
    exact ⟨(refines_iff_boundaries biggerCover smallerCover).mp
        ((PossiblePath.contains_iff_refines smallerCover biggerCover).mp backward) position,
      (refines_iff_boundaries smallerCover biggerCover).mp (refines.mp forward) position⟩

/-- The paths `path_1` and `path_2` of the source's test `possible_path_contains`:
`測試 一下` contains `測試 遺 下`. -/
def path1 : PossiblePath := ⟨[⟨0, 2, ⟨"測試", 0⟩⟩, ⟨2, 4, ⟨"一下", 0⟩⟩]⟩

def path2 : PossiblePath := ⟨[⟨0, 2, ⟨"測試", 0⟩⟩, ⟨2, 3, ⟨"遺", 0⟩⟩, ⟨3, 4, ⟨"下", 0⟩⟩]⟩

theorem contains_iff_coarser_ceshi :
    IsChain 0 4 path2.intervals ∧ IsChain 0 4 path1.intervals ∧
    (path1.contains path2 = true ↔ Refines path2.intervals path1.intervals) ∧
    (path1.contains path2 = true ↔
      ∀ position ∈ path1.boundaries, position ∈ path2.boundaries) ∧
    (path1.contains path2 = true ↔
      ∃ assign : Fin path2.intervals.length → Fin path1.intervals.length,
        Monotone assign ∧
        ∀ k, (path1.intervals.get (assign k)).contains (path2.intervals.get k) = true) ∧
    path2.contains path2 = true ∧
    (∀ biggest : PossiblePath, IsChain 0 4 biggest.intervals →
      biggest.contains path1 = true → path1.contains path2 = true →
        biggest.contains path2 = true) ∧
    (path2.contains path1 = true → path1.contains path2 = true →
      ∀ position, position ∈ path2.boundaries ↔ position ∈ path1.boundaries) :=
  ⟨by decide, by decide, contains_iff_coarser (by decide) (by decide)⟩

end ChewingConversion
