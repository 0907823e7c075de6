import Mathlib.Data.List.AList
import Mathlib.Data.List.Induction

/-!
# Hash maps

A hash map is read only through its keys, so it is an association list without repeated keys
(`AList`). The list's order stands for nothing: an operation that iterates over a map takes the
order it iterates in as an argument (`IterationOrder`).
-/

namespace Library

open List

universe u v

variable {K : Type u} {V : Type v}

/-- A finite map from `K` to `V`. -/
abbrev HashMap (K : Type u) (V : Type v) : Type (max u v) :=
  AList fun _ : K => V

namespace HashMap

/-- The entries that satisfy `keep`, the others removed. -/
def retain (keep : K → V → Bool) (m : HashMap K V) : HashMap K V where
  entries := m.entries.filter fun entry => keep entry.1 entry.2
  nodupKeys := m.nodupKeys.sublist filter_sublist

/-- The values, in the list's order. -/
def values (m : HashMap K V) : List V :=
  m.entries.map fun entry => entry.2

variable [DecidableEq K]

variable {k : K} {value : V} {m : HashMap K V} {pairs : List (K × V)}

theorem lookup_eq_some_iff :
    m.lookup k = some value ↔ (⟨k, value⟩ : Sigma fun _ : K => V) ∈ m.entries := by
  rw [← Option.mem_def]
  exact AList.mem_lookup_iff

@[simp]
theorem lookup_retain_eq_some {keep : K → V → Bool} :
    (m.retain keep).lookup k = some value ↔ m.lookup k = some value ∧ keep k value = true := by
  rw [lookup_eq_some_iff, lookup_eq_some_iff, retain, mem_filter]

theorem mem_values : value ∈ m.values ↔ ∃ k, m.lookup k = some value := by
  simp only [values, mem_map, lookup_eq_some_iff]
  constructor
  · rintro ⟨entry, member, rfl⟩
    exact ⟨entry.1, member⟩
  · rintro ⟨k, member⟩
    exact ⟨⟨k, value⟩, member, rfl⟩

theorem lookup_insert_eq_some {k' : K} {value' : V} : (m.insert k value).lookup k' = some value' ↔
      (k' = k ∧ value = value') ∨ (k' ≠ k ∧ m.lookup k' = some value') := by
  by_cases same : k' = k
  · subst same
    simp [AList.lookup_insert]
  · simp [AList.lookup_insert_ne same, same]

/-- Insert pairs one after the other: a later pair replaces an earlier one with its key. -/
def insertAll (m : HashMap K V) (pairs : List (K × V)) : HashMap K V :=
  pairs.foldl (fun m pair => m.insert pair.1 pair.2) m

theorem insertAll_append (m : HashMap K V) (first second : List (K × V)) :
    insertAll m (first ++ second) = insertAll (insertAll m first) second :=
  foldl_append

theorem lookup_insertAll_eq_some (distinct : (pairs.map Prod.fst).Nodup) :
    (insertAll m pairs).lookup k = some value ↔
      (k, value) ∈ pairs ∨ (k ∉ pairs.map Prod.fst ∧ m.lookup k = some value) := by
  induction pairs generalizing m with
  | nil => simp [insertAll]
  | cons pair rest ih =>
    rw [map_cons, nodup_cons] at distinct
    have step : insertAll m (pair :: rest) = insertAll (m.insert pair.1 pair.2) rest := rfl
    rw [step, ih distinct.2, lookup_insert_eq_some]
    -- The first pair's key does not come again, so its value stays.
    have only : (pair.1, value) ∉ rest := fun member =>
      distinct.1 (mem_map.mpr ⟨_, member, rfl⟩)
    by_cases same : k = pair.1
    · subst same
      simp only [map_cons, mem_cons, Prod.ext_iff]
      simp [distinct.1, only, eq_comm]
    · simp [same, Prod.ext_iff]

/-- A map built from pairs with distinct keys holds exactly them. -/
theorem lookup_insertAll_empty (distinct : (pairs.map Prod.fst).Nodup) :
    (insertAll (∅ : HashMap K V) pairs).lookup k = some value ↔ (k, value) ∈ pairs := by
  rw [lookup_insertAll_eq_some distinct, AList.lookup_empty]
  simp

/-- A key that all pairs give one value has that value. -/
theorem lookup_insertAll_of_agree (member : (k, value) ∈ pairs)
    (agree : ∀ other, (k, other) ∈ pairs → other = value) :
    (insertAll m pairs).lookup k = some value := by
  -- From the last pair on: either it names the key, or an earlier one does.
  induction pairs using List.reverseRecOn with
  | nil => cases member
  | append_singleton rest pair ih =>
    rw [insertAll_append]
    change ((insertAll m rest).insert pair.1 pair.2).lookup k = some value
    rw [lookup_insert_eq_some]
    by_cases same : k = pair.1
    · refine Or.inl ⟨same, agree pair.2 ?_⟩
      rw [same]
      exact mem_append_right rest mem_cons_self
    · refine Or.inr ⟨same, ih ?_ fun other at_other => agree other (mem_append_left _ at_other)⟩
      rcases mem_append.mp member with earlier | last
      · exact earlier
      · rw [mem_singleton] at last
        exact absurd (congrArg Prod.fst last) same

end HashMap

/-- The order in which an iteration visits what a hash map holds: some permutation of it. -/
structure IterationOrder (α : Type u) where
  order : List α → List α
  perm : ∀ items, (order items).Perm items

/-- Iteration in the list's own order. -/
def IterationOrder.listed (α : Type u) : IterationOrder α :=
  ⟨id, fun _ => List.Perm.refl _⟩

theorem IterationOrder.mem_order {α : Type u} (visit : IterationOrder α) {items : List α} {x : α} :
    x ∈ visit.order items ↔ x ∈ items :=
  (visit.perm items).mem_iff

end Library
