import Zaino.Library.OrderedMap

/-!
# Numbered values

A partial function on the numbers, listed from one number to another with its values. Lists of
neighbouring stretches join (`numbered_append`). Where every number of the stretch has a value, the
list is cut by its numbers as by its length, and read by position.
-/

namespace Library

open List

variable {R : Type}

/-- The values that some numbers have, with their numbers. -/
def numbered (f : Nat → Option R) (lo hi : Nat) : List (Nat × R) :=
  (List.range' lo (hi - lo)).filterMap fun k => (f k).map fun value => (k, value)

variable {f : Nat → Option R} {lo hi mid : Nat} {pair : Nat × R}

theorem numbered_of_le (none_between : hi ≤ lo) : numbered f lo hi = [] := by
  rw [numbered, Nat.sub_eq_zero_of_le none_between]
  rfl

theorem numbered_append (first : lo ≤ mid) (second : mid ≤ hi) :
    numbered f lo mid ++ numbered f mid hi = numbered f lo hi := by
  have joined : List.range' lo (hi - lo) = List.range' lo (mid - lo) ++ List.range' mid (hi - mid) := by
    have at_mid : mid = lo + (mid - lo) := by omega
    have total : hi - lo = mid - lo + (hi - mid) := by omega
    conv_rhs => rw [at_mid]
    rw [Nat.add_sub_cancel_left, range'_append_1, total]
    congr 1
    omega
  rw [numbered, numbered, numbered, joined, filterMap_append]

/-- A stretch up to `mid`, and what comes after both `mid` and its beginning. -/
theorem numbered_append_max (within : mid ≤ hi) :
    numbered f lo mid ++ numbered f (max mid lo) hi = numbered f lo hi := by
  rcases Nat.lt_or_ge mid lo with before | after
  · rw [numbered_of_le (Nat.le_of_lt before), Nat.max_eq_right (Nat.le_of_lt before)]
    rfl
  · rw [Nat.max_eq_left after, numbered_append after within]

theorem numbered_congr {g : Nat → Option R} (same : ∀ k, lo ≤ k → k < hi → f k = g k) :
    numbered f lo hi = numbered g lo hi := by
  refine filterMap_congr fun k member => ?_
  have bounds := mem_range'_1.mp member
  rw [same k bounds.1 (by omega)]

theorem map_numbered {S : Type} (f : Nat → Option R) (g : R → S) (lo hi : Nat) :
    (numbered f lo hi).map (fun pair => (pair.1, g pair.2)) =
      numbered (fun k => (f k).map g) lo hi := by
  rw [numbered, numbered, map_filterMap]
  refine filterMap_congr fun k _ => ?_
  rw [Option.map_map, Option.map_map]
  rfl

theorem eq_some_of_mem_numbered (member : pair ∈ numbered f lo hi) : f pair.1 = some pair.2 := by
  rcases mem_filterMap.mp member with ⟨k, _, is_pair⟩
  rcases Option.map_eq_some_iff.mp is_pair with ⟨value, is_value, rfl⟩
  exact is_value

theorem lt_of_mem_numbered (member : pair ∈ numbered f lo hi) : lo ≤ pair.1 ∧ pair.1 < hi := by
  rcases mem_filterMap.mp member with ⟨k, listed, is_pair⟩
  rcases Option.map_eq_some_iff.mp is_pair with ⟨value, _, rfl⟩
  have bounds := mem_range'_1.mp listed
  exact ⟨bounds.1, by dsimp only; omega⟩

theorem eq_numbered {count : Nat} {pairs : List (Nat × R)}
    (each : List.Forall₂ (fun m pair => pair.1 = m - 1 ∧ f (m - 1) = some pair.2)
      (List.range' (lo + 1) count) pairs) : pairs = numbered f lo (lo + count) := by
  rw [numbered, Nat.add_sub_cancel_left]
  induction count generalizing lo pairs with
  | zero =>
    cases each
    rfl
  | succ count ih =>
    rw [range'_succ] at each ⊢
    cases each with
    | cons first rest =>
      rw [Nat.add_sub_cancel] at first
      rw [filterMap_cons, first.2, ← ih rest]
      exact congrArg (· :: _) (Prod.ext first.1 rfl)

theorem map_fst_numbered_nodup (f : Nat → Option R) (lo hi : Nat) :
    ((numbered f lo hi).map Prod.fst).Nodup := by
  rw [numbered, map_filterMap]
  refine List.Nodup.filterMap ?_ nodup_range'
  intro first second key from_first from_second
  rw [Option.map_map] at from_first from_second
  rcases Option.map_eq_some_iff.mp from_first with ⟨_, _, rfl⟩
  rcases Option.map_eq_some_iff.mp from_second with ⟨_, _, same⟩
  exact same.symm

/-- Putting numbered records holds them at their numbers and changes nothing else. -/
theorem getElem?_editAll_numbered (m : OrderedMap Nat R) (f : Nat → Option R)
    (present : ∀ k, lo ≤ k → k < hi → (f k).isSome) (k : Nat) :
    (m.editAll (Edit.puts (numbered f lo hi)))[k]? = if lo ≤ k ∧ k < hi then f k else m[k]? := by
  split
  · next between =>
    rcases Option.isSome_iff_exists.mp (present k between.1 between.2) with ⟨record, is_record⟩
    rw [is_record]
    exact m.getElem?_puts_of_mem (map_fst_numbered_nodup f lo hi)
      (mem_filterMap.mpr ⟨k, mem_range'_1.mpr (by omega), by rw [is_record]; rfl⟩)
  · next outside =>
    refine m.getElem?_puts_of_not_mem fun named => ?_
    rcases mem_map.mp named with ⟨pair, listed, rfl⟩
    exact outside (lt_of_mem_numbered listed)

/-! ## Stretches without a gap -/

section Dense

variable {f : Nat → Option R} {lo hi : Nat}

theorem numbered_cons {value : R} (more : lo < hi) (is_value : f lo = some value) :
    numbered f lo hi = (lo, value) :: numbered f (lo + 1) hi := by
  have count : hi - lo = hi - (lo + 1) + 1 := by omega
  rw [numbered, numbered, count, range'_succ, filterMap_cons, is_value]
  rfl

variable (present : ∀ k, lo ≤ k → k < hi → (f k).isSome)

include present

theorem take_numbered (n : Nat) : (numbered f lo hi).take n = numbered f lo (min hi (lo + n)) := by
  induction n generalizing lo with
  | zero =>
    rw [take_zero, Nat.add_zero, numbered_of_le (Nat.min_le_right hi lo)]
  | succ n ih =>
    rcases Nat.lt_or_ge lo hi with more | none_left
    · rcases Option.isSome_iff_exists.mp (present lo (Nat.le_refl lo) more) with ⟨value, is_value⟩
      have shifted : lo + (n + 1) = lo + 1 + n := by omega
      rw [numbered_cons more is_value, take_succ_cons,
        ih (fun k above => present k (Nat.le_of_succ_le above)), shifted,
        ← numbered_cons (Nat.lt_min.mpr ⟨more, by omega⟩) is_value]
    · rw [numbered_of_le none_left, take_nil,
        numbered_of_le (Nat.le_trans (Nat.min_le_left _ _) none_left)]

theorem map_fst_numbered : (numbered f lo hi).map Prod.fst = List.range' lo (hi - lo) := by
  induction count : hi - lo generalizing lo with
  | zero =>
    rw [numbered_of_le (by omega)]
    rfl
  | succ n ih =>
    rcases Option.isSome_iff_exists.mp (present lo (Nat.le_refl lo) (by omega)) with
      ⟨value, is_value⟩
    rw [numbered_cons (by omega) is_value, map_cons,
      ih (fun k above => present k (Nat.le_of_succ_le above)) (by omega), range'_succ]

theorem drop_numbered {mid : Nat} (first : lo ≤ mid) (second : mid ≤ hi) :
    (numbered f lo hi).drop (mid - lo) = numbered f mid hi := by
  have size := congrArg List.length
    (map_fst_numbered fun k above below => present k above (Nat.lt_of_lt_of_le below second))
  rw [length_map, length_range'] at size
  rw [← numbered_append first second, drop_left' size]

theorem getElem?_map_snd_numbered (i : Nat) :
    ((numbered f lo hi).map Prod.snd)[i]? = if lo + i < hi then f (lo + i) else none := by
  induction i generalizing lo with
  | zero =>
    rw [Nat.add_zero]
    split
    · next more =>
      rcases Option.isSome_iff_exists.mp (present lo (Nat.le_refl lo) more) with ⟨value, is_value⟩
      rw [numbered_cons more is_value, is_value]
      rfl
    · next none_left =>
      rw [numbered_of_le (Nat.le_of_not_lt none_left)]
      rfl
  | succ i ih =>
    rcases Nat.lt_or_ge lo hi with more | none_left
    · rcases Option.isSome_iff_exists.mp (present lo (Nat.le_refl lo) more) with ⟨value, is_value⟩
      have shifted : lo + (i + 1) = lo + 1 + i := by omega
      rw [numbered_cons more is_value, map_cons, getElem?_cons_succ,
        ih (fun k above => present k (Nat.le_of_succ_le above)), shifted]
    · rw [numbered_of_le none_left, if_neg (by omega)]
      rfl

theorem filter_numbered (a b : Nat) :
    ((numbered f lo hi).filter fun pair => decide (a ≤ pair.1 ∧ pair.1 < b)) =
      numbered f (max lo a) (min hi b) := by
  induction count : hi - lo generalizing lo with
  | zero =>
    rw [numbered_of_le (by omega), numbered_of_le (by omega)]
    rfl
  | succ _ ih =>
    have more : lo < hi := by omega
    rcases Option.isSome_iff_exists.mp (present lo (Nat.le_refl lo) more) with ⟨value, is_value⟩
    have ih := ih (fun k above => present k (Nat.le_of_succ_le above)) (by omega)
    rw [numbered_cons more is_value, filter_cons]
    by_cases before : lo < a
    · rw [if_neg (by simp; omega), ih, show max (lo + 1) a = max lo a by omega]
    · by_cases after : b ≤ lo
      · rw [if_neg (by simp; omega), ih, numbered_of_le (by omega), numbered_of_le (by omega)]
      · have first : max lo a = lo := by omega
        have next : max (lo + 1) a = lo + 1 := by omega
        rw [if_pos (by simp; omega), ih, first, next,
          numbered_cons (show lo < min hi b by omega) is_value]

omit present

theorem numbered_pairwise (f : Nat → Option R) (lo hi : Nat) :
    (numbered f lo hi).Pairwise fun a b => a.1 < b.1 := by
  refine List.Pairwise.filterMap _ ?_ pairwise_lt_range'
  intro first second below a from_first b from_second
  rcases Option.map_eq_some_iff.mp from_first with ⟨_, _, rfl⟩
  rcases Option.map_eq_some_iff.mp from_second with ⟨_, _, rfl⟩
  exact below

/-- An ordered map that holds a stretch, scanned from a number on. -/
theorem filter_toList_eq_numbered {m : OrderedMap Nat R} {count : Nat} (holds : ∀ k, m[k]? = f k)
    (present : ∀ k, (f k).isSome ↔ k < count) (start : Nat) :
    (m.toList.filter fun entry => decide (start ≤ entry.1)) = numbered f start count := by
  have ordered : m.toList.Pairwise fun a b => a.1 < b.1 :=
    m.ordered_keys_toList.imp fun below => Nat.compare_eq_lt.mp below
  have distinct : ∀ {entries : List (Nat × R)}, (entries.Pairwise fun a b => a.1 < b.1) →
      entries.Nodup := by
    intro entries ascending
    refine List.Pairwise.imp ?_ ascending
    intro a b below same
    rw [same] at below
    exact Nat.lt_irrefl _ below
  have same_members : ∀ entry, entry ∈ (m.toList.filter fun entry => decide (start ≤ entry.1)) ↔
      entry ∈ numbered f start count := by
    intro entry
    rw [mem_filter, Std.ExtTreeMap.mem_toList_iff_getElem?_eq_some, holds,
      decide_eq_true_eq, numbered, mem_filterMap]
    constructor
    · intro found
      have below := (present entry.1).mp (Option.isSome_iff_exists.mpr ⟨_, found.1⟩)
      exact ⟨entry.1, mem_range'_1.mpr (by omega), by rw [found.1]; rfl⟩
    · intro found
      rcases found with ⟨k, listed, is_entry⟩
      rcases Option.map_eq_some_iff.mp is_entry with ⟨value, is_value, rfl⟩
      exact ⟨is_value, (mem_range'_1.mp listed).1⟩
  refine List.Perm.eq_of_pairwise ?_ (ordered.filter _) (numbered_pairwise f start count)
    ((perm_ext_iff_of_nodup (distinct (ordered.filter _))
      (distinct (numbered_pairwise f start count))).mpr same_members)
  intro a b _ _ below above
  exact absurd below (Nat.lt_asymm above)

end Dense

end Library
