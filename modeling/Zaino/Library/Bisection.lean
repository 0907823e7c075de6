import Mathlib.Algebra.Order.Group.Nat
import Mathlib.Data.List.Lex

/-!
# Bisection

A search for the boundary of a predicate that holds up to some number of an interval and fails from there
on. The interval that is left shrinks to a number between its ends (`Spans`), and what has been cut off
is decided by the one number that was looked at (`Bisects.raise`, `Bisects.lower`). In a sorted list the
boundary of the smaller items is where those equal to a target begin (`filter_eq_takeWhile_drop`).
-/

namespace Library

/-- What is left of the interval from `a` to `b`: the numbers from `lo` to `hi`, or none. -/
structure Spans (a b lo hi : Nat) : Prop where
  from_le : a ≤ lo
  le_to : hi ≤ b
  meet : lo ≤ hi + 1

/-- The number in the middle of what is left. -/
def middle (lo hi : Nat) : Nat := lo + (hi - lo) / 2

theorem lo_le_middle (lo hi : Nat) : lo ≤ middle lo hi := Nat.le_add_right _ _

theorem middle_le_hi {lo hi : Nat} (left : lo ≤ hi) : middle lo hi ≤ hi := by
  unfold middle
  omega

namespace Spans

variable {a b lo hi : Nat}

theorem whole (nonempty : a ≤ b + 1) : Spans a b a b := ⟨le_rfl, le_rfl, nonempty⟩

theorem raise (spans : Spans a b lo hi) (left : lo ≤ hi) : Spans a b (middle lo hi + 1) hi :=
  ⟨spans.from_le.trans ((lo_le_middle lo hi).trans (Nat.le_succ _)), spans.le_to,
    Nat.succ_le_succ (middle_le_hi left)⟩

theorem lower (spans : Spans a b lo hi) (positive : 0 < a) (left : lo ≤ hi) :
    Spans a b lo (middle lo hi - 1) := by
  have lower := lo_le_middle lo hi
  have upper := middle_le_hi left
  have from_le := spans.from_le
  have le_to := spans.le_to
  exact ⟨from_le, by omega, by omega⟩

end Spans

/-- What was cut off below satisfies the predicate, and what was cut off above does not. -/
structure Bisects (p : Nat → Prop) (a b lo hi : Nat) : Prop where
  holds : ∀ n, a ≤ n → n < lo → p n
  fails : ∀ n, hi < n → n ≤ b → ¬ p n

namespace Bisects

variable {p : Nat → Prop} {a b lo hi : Nat}

theorem whole : Bisects p a b a b :=
  ⟨fun _ from_a below => absurd from_a (Nat.not_le_of_lt below),
    fun _ above to_b => absurd to_b (Nat.not_le_of_lt above)⟩

section Monotone

variable (closed : ∀ m n, a ≤ m → m ≤ n → n ≤ b → p n → p m)

include closed

theorem raise (bisects : Bisects p a b lo hi) {n : Nat} (inside : n ≤ b) (holds : p n) :
    Bisects p a b (n + 1) hi := by
  refine ⟨?_, bisects.fails⟩
  intro m from_a below
  exact closed m n from_a (Nat.le_of_lt_succ below) inside holds

theorem lower (bisects : Bisects p a b lo hi) {n : Nat} (inside : a ≤ n) (fails : ¬ p n) :
    Bisects p a b lo (n - 1) := by
  refine ⟨bisects.holds, ?_⟩
  intro m above to_b holds
  exact fails (closed n m inside (by omega) to_b holds)

end Monotone

end Bisects

section Sorted

open List

variable {α κ : Type} [LinearOrder κ] {rank : α → κ} {target : κ} {items : List α}

/-- The number of items before the first that fails, which the standard library finds by bisection in a list
where none holds after it. -/
def partitionPoint (p : α → Bool) (items : List α) : Nat := (items.takeWhile p).length

def compareRank (rank : α → κ) (target : κ) (x : α) : Ordering := cmp (rank x) target

/-- The item that compares equal, if it is the only one, looked for where the smaller ones end. -/
def uniqueMatch (rank : α → κ) (target : κ) (items : List α) : Option α :=
  let start := partitionPoint (fun x => compareRank rank target x = .lt) items
  match items[start]? with
  | none => none
  | some first =>
    if compareRank rank target first ≠ .eq then none
    else
      match items[start + 1]? with
      | some second => if compareRank rank target second = .eq then none else some first
      | none => some first

theorem compareRank_eq_lt {x : α} : compareRank rank target x = .lt ↔ rank x < target :=
  cmp_eq_lt_iff _ _

theorem compareRank_eq_eq {x : α} : compareRank rank target x = .eq ↔ rank x = target :=
  cmp_eq_eq_iff _ _

section

variable (sorted : items.Pairwise fun x y => rank x ≤ rank y)

include sorted

/-- In a sorted list, the items that compare equal follow the smaller ones. -/
theorem filter_eq_takeWhile_drop : items.filter (fun x => rank x = target) =
    (items.drop (partitionPoint (fun x => compareRank rank target x = .lt) items)).takeWhile
      fun x => rank x = target := by
  simp only [compareRank_eq_lt, partitionPoint]
  induction items with
  | nil => rfl
  | cons x rest ih =>
    obtain ⟨above, later⟩ := pairwise_cons.mp sorted
    rcases lt_trichotomy (rank x) target with below | same | beyond
    · simpa [below, below.ne] using ih later
    · have none_below : rest.takeWhile (fun y => rank y < target) = [] := by
        cases rest with
        | nil => rfl
        | cons y _ => simp [← same, above y mem_cons_self]
      simpa [same, none_below] using ih later
    · have none_equal : ∀ y ∈ rest, rank y ≠ target := fun y member =>
        (beyond.trans_le (above y member)).ne'
      simpa [beyond.ne', beyond.le] using none_equal

theorem uniqueMatch_eq_some {x : α} :
    uniqueMatch rank target items = some x ↔ items.filter (fun x => rank x = target) = [x] := by
  rw [filter_eq_takeWhile_drop sorted, uniqueMatch]
  generalize partitionPoint _ items = start
  have first : items[start]? = (items.drop start)[0]? := by rw [getElem?_drop, Nat.add_zero]
  have second : items[start + 1]? = (items.drop start)[1]? := by rw [getElem?_drop]
  simp only [first, second, ne_eq, compareRank_eq_eq]
  rcases items.drop start with _ | ⟨y, _ | ⟨z, rest⟩⟩
  · simp
  · by_cases equal : rank y = target <;> simp [equal]
  · by_cases equal : rank y = target <;> by_cases again : rank z = target <;> simp [equal, again]

end

end Sorted

end Library
