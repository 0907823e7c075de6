import Mathlib.Algebra.Ring.Nat
import Mathlib.Data.List.Sort

/-!
# Order statistics of a list

The element at an index of a sorted list is at least `x` exactly when no more elements than that are
below `x` (`le_getElem_iff_countP`). Facts about the median of a list then are facts about counts, which
do not depend on the order of the list and only fall when elements are taken out of it.
-/

namespace Library

open List

variable {α : Type} [LinearOrder α]

theorem le_getElem_iff_countP {sorted : List α} (ascending : sorted.Pairwise (· ≤ ·)) {k : Nat}
    (inside : k < sorted.length) (x : α) : x ≤ sorted[k] ↔ sorted.countP (· < x) ≤ k := by
  induction sorted generalizing k with
  | nil => exact absurd inside (Nat.not_lt_zero k)
  | cons first rest ih =>
    obtain ⟨least, ascending⟩ := pairwise_cons.mp ascending
    by_cases below : first < x
    · rw [countP_cons_of_pos (by simpa using below)]
      cases k with
      | zero => simpa using below
      | succ k =>
        rw [getElem_cons_succ, ih ascending (Nat.lt_of_succ_lt_succ inside)]
        omega
    · -- The first element is at least `x`, and with it every other.
      have above : ∀ y ∈ first :: rest, x ≤ y := by
        intro y member
        rcases mem_cons.mp member with rfl | member
        · exact le_of_not_gt below
        · exact (le_of_not_gt below).trans (least y member)
      have none_below : (first :: rest).countP (· < x) = 0 := by
        rw [countP_eq_zero]
        intro y member
        simpa using above y member
      rw [none_below]
      exact iff_of_true (above _ (getElem_mem inside)) (Nat.zero_le k)

/-- The element in the middle of the sorted list, the upper one of two. -/
def median (items : List α) : Option α :=
  (items.insertionSort (· ≤ ·))[items.length / 2]?

theorem exists_median {items : List α} (nonempty : items ≠ []) : ∃ m, median items = some m := by
  have positive := length_pos_iff.mpr nonempty
  have inside : items.length / 2 < (items.insertionSort (· ≤ ·)).length := by
    rw [length_insertionSort]
    omega
  exact ⟨_, getElem?_eq_getElem inside⟩

theorem le_median_iff {items : List α} {m : α} (is_median : median items = some m) (x : α) :
    x ≤ m ↔ items.countP (· < x) ≤ items.length / 2 := by
  obtain ⟨inside, rfl⟩ := List.getElem?_eq_some_iff.mp is_median
  rw [le_getElem_iff_countP (pairwise_insertionSort _ items) inside,
    (perm_insertionSort _ items).countP_eq]

/-- The median does not fall when elements leave and others, not below it, come in their place. -/
theorem median_le_median {items items' kept added : List α} {m m' : α}
    (is_median : median items = some m) (is_median' : median items' = some m')
    (parts : items' = kept ++ added) (from_items : kept.Sublist items)
    (not_below : ∀ x ∈ added, m ≤ x) (as_long : items.length ≤ items'.length) : m ≤ m' := by
  have added_above : added.countP (· < m) = 0 := by
    rw [countP_eq_zero]
    intro x member
    simpa using not_below x member
  rw [le_median_iff is_median']
  calc items'.countP (· < m) = kept.countP (· < m) := by
        rw [parts, countP_append, added_above, Nat.add_zero]
    _ ≤ items.countP (· < m) := from_items.countP_le
    _ ≤ items.length / 2 := (le_median_iff is_median m).mp le_rfl
    _ ≤ items'.length / 2 := Nat.div_le_div_right as_long

end Library
