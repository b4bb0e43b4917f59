import Mathlib.Algebra.BigOperators.Intervals
import Mathlib.Algebra.Order.BigOperators.Group.Finset

/-! Consecutive ranges of given sizes, laid out from 0 on. -/

namespace PrefixRanges

/-- Where range `i` starts. -/
def start (size : Nat → Nat) (i : Nat) : Nat := ∑ j ∈ Finset.range i, size j

variable {size : Nat → Nat}

@[simp] theorem start_zero : start size 0 = 0 := rfl

theorem start_succ (size : Nat → Nat) (i : Nat) : start size (i + 1) = start size i + size i :=
  Finset.sum_range_succ size i

theorem start_mono (size : Nat → Nat) : Monotone (start size) :=
  monotone_nat_of_le_succ fun i => by
    rw [start_succ]
    exact Nat.le_add_right _ _

/-- Every offset below the end is in one of the ranges. -/
theorem exists_range {n off : Nat} (h : off < start size n) :
    ∃ i < n, start size i ≤ off ∧ off < start size (i + 1) := by
  induction n with
  | zero => exact absurd h (Nat.not_lt_zero off)
  | succ n ih =>
    by_cases hlow : off < start size n
    · obtain ⟨i, hi, hin⟩ := ih hlow
      exact ⟨i, Nat.lt_succ_of_lt hi, hin⟩
    · exact ⟨n, Nat.lt_succ_self n, Nat.le_of_not_lt hlow, h⟩

theorem range_unique {i j off : Nat} (hi : start size i ≤ off ∧ off < start size (i + 1))
    (hj : start size j ≤ off ∧ off < start size (j + 1)) : i = j := by
  rcases Nat.lt_trichotomy i j with h | h | h
  · have hmono : start size (i + 1) ≤ start size j := start_mono size h
    omega
  · exact h
  · have hmono : start size (j + 1) ≤ start size i := start_mono size h
    omega

/-- The first range that starts at a bound or behind it. -/
theorem exists_first {n bound : Nat} (hpos : 0 < bound) (h : bound ≤ start size n) :
    ∃ i < n, start size i < bound ∧ bound ≤ start size (i + 1) := by
  induction n with
  | zero => exact absurd h (Nat.not_le_of_lt hpos)
  | succ n ih =>
    by_cases hlow : bound ≤ start size n
    · obtain ⟨i, hi, hin⟩ := ih hlow
      exact ⟨i, Nat.lt_succ_of_lt hi, hin⟩
    · exact ⟨n, Nat.lt_succ_self n, Nat.lt_of_not_le hlow, h⟩

end PrefixRanges
