import Zaino.Persistence.Backend

/-!
# What the blocks of a chain put into each index

An index of the set writes to one namespace. The walk-ordered ones are keyed in one of two ways:
by the height of the block, in eight big-endian bytes, or, for the subtree roots, by the number of
the subtree, in four. A block completes the subtrees whose last leaf it holds, so a subtree's
number and the height of the block that produces its entry are different numbers that grow
together. Under either layout the keys of later blocks sort after those of earlier ones
(`entries_ascend`).
-/

namespace Zaino.Indexes

open Library Persistence List

/-- The on-disk key of a block height: eight bytes, big-endian. -/
def heightKey (height : Nat) : RawKey := bigEndian 8 height

/-- The on-disk key of a subtree number: four bytes, big-endian. -/
def subtreeKey (number : Nat) : RawKey := bigEndian 4 number

/-- The numbers of the subtrees of `span` leaves that are completed by appending `added` leaves to
a tree of `sizeBefore`. -/
def completedSubtrees (sizeBefore added span : Nat) : List Nat :=
  let first := sizeBefore / span + 1
  let last := (sizeBefore + added) / span
  if first > last then [] else (List.range' first (last + 1 - first)).map fun m => m - 1

/-- The size of a pool's tree just before the block at a height. -/
def treeSize (leaves : Nat → Nat) : Nat → Nat
  | 0 => 0
  | height + 1 => treeSize leaves height + leaves height

/-- What an index takes from the blocks of a chain. -/
inductive Production where
  /-- At most one value a block, under the block's height. -/
  | height (value : Nat → Option RawValue)
  /-- The roots of the subtrees of `2 ^ level` leaves that a block completes, when the block at
  each height appends `leaves` to the pool's tree. -/
  | subtree (level : Nat) (leaves : Nat → Nat) (root : Nat → Nat → RawValue)
  /-- Entries under keys that do not follow the walk. -/
  | scattered (entries : Nat → List (RawKey × RawValue))

/-- An index of the set. -/
structure Index where
  name : Namespace
  production : Production

namespace Index

/-- The key order that the index's codec states. -/
def keyOrder (index : Index) : KeyOrder :=
  match index.production with
  | .height _ => .walkOrdered
  | .subtree _ _ _ => .walkOrdered
  | .scattered _ => .scattered

/-- The entries that the block at a height produces. -/
def entries (index : Index) (height : Nat) : List (RawKey × RawValue) :=
  match index.production with
  | .height value => (value height).toList.map fun v => (heightKey height, v)
  | .subtree level leaves root =>
    (completedSubtrees (treeSize leaves height) (leaves height) (2 ^ level)).map fun number =>
      (subtreeKey number, root number height)
  | .scattered entries => entries height

/-- Every subtree number fits the four bytes of its key. Extraction fails on one that does not, so
no block that was indexed holds it. -/
def SubtreesFit (index : Index) : Prop :=
  ∀ level leaves root, index.production = .subtree level leaves root →
    ∀ height, treeSize leaves height / 2 ^ level ≤ 2 ^ 32

end Index

/-- An index set: its indexes in declaration order, each in a namespace of its own that is not one
of the reserved ones. -/
structure IndexSet where
  indexes : List Index
  distinct : (indexes.map Index.name).Nodup
  unreserved : ∀ index ∈ indexes,
    index.name ≠ Watermark.name ∧ index.name ≠ FormatVersion.metaName
  subtreesFit : ∀ index ∈ indexes, index.SubtreesFit

/-- The specification of every index's namespace, in declaration order. -/
def IndexSet.namespaceSpecs (set : IndexSet) : List NamespaceSpec :=
  set.indexes.map fun index => ⟨index.name, index.keyOrder⟩

/-! ## Subtree numbers grow with the height -/

theorem mem_completedSubtrees {sizeBefore added span number : Nat} :
    number ∈ completedSubtrees sizeBefore added span ↔
      sizeBefore / span ≤ number ∧ number < (sizeBefore + added) / span := by
  unfold completedSubtrees
  dsimp only
  generalize sizeBefore / span = before
  generalize (sizeBefore + added) / span = after
  split
  · next none_completed =>
    simp only [not_mem_nil, false_iff]
    omega
  · next some_completed =>
    simp only [mem_map, mem_range'_1]
    constructor
    · rintro ⟨m, bounds, rfl⟩
      omega
    · intro bounds
      exact ⟨number + 1, by omega, by omega⟩

theorem completedSubtrees_ascend (sizeBefore added span : Nat) :
    (completedSubtrees sizeBefore added span).Pairwise (· < ·) := by
  unfold completedSubtrees
  dsimp only
  generalize sizeBefore / span = before
  generalize (sizeBefore + added) / span = after
  split
  · exact List.Pairwise.nil
  · rw [pairwise_map]
    apply List.Pairwise.imp_of_mem _ pairwise_lt_range'
    intro a b a_member b_member less
    rw [mem_range'_1] at a_member b_member
    omega

theorem treeSize_mono (leaves : Nat → Nat) {lower upper : Nat} (le : lower ≤ upper) :
    treeSize leaves lower ≤ treeSize leaves upper := by
  induction le with
  | refl => exact Nat.le_refl _
  | step _ ih => exact Nat.le_trans ih (Nat.le_add_right _ _)

/-- The block at a height completes the subtrees between the tree's sizes before and after it. -/
theorem mem_completedSubtrees_treeSize {leaves : Nat → Nat} {span height number : Nat} :
    number ∈ completedSubtrees (treeSize leaves height) (leaves height) span ↔
      treeSize leaves height / span ≤ number ∧ number < treeSize leaves (height + 1) / span :=
  mem_completedSubtrees

theorem completedSubtrees_lt {leaves : Nat → Nat} {span lower upper a b : Nat}
    (less : lower < upper)
    (a_completed : a ∈ completedSubtrees (treeSize leaves lower) (leaves lower) span)
    (b_completed : b ∈ completedSubtrees (treeSize leaves upper) (leaves upper) span) : a < b := by
  rw [mem_completedSubtrees_treeSize] at a_completed b_completed
  have grown : treeSize leaves (lower + 1) / span ≤ treeSize leaves upper / span :=
    Nat.div_le_div_right (treeSize_mono leaves less)
  omega

/-! ## Later blocks' keys sort after earlier ones' -/

theorem compare_heightKey {a b : Nat} (a_fits : a ≤ maxHeight) (b_fits : b ≤ maxHeight) :
    compare (heightKey a) (heightKey b) = compare a b := by
  unfold maxHeight at a_fits b_fits
  exact compare_bigEndian 8 a b (by omega) (by omega)

theorem compare_subtreeKey {a b : Nat} (a_fits : a < 2 ^ 32) (b_fits : b < 2 ^ 32) :
    compare (subtreeKey a) (subtreeKey b) = compare a b :=
  compare_bigEndian 4 a b (by omega) (by omega)

namespace Index

variable {index : Index}

variable {height level : Nat} {entry : RawKey × RawValue} {leaves : Nat → Nat}
  {root : Nat → Nat → RawValue} {heights : List Nat}

theorem entries_height {value : Nat → Option RawValue}
    (produced : index.production = .height value) :
    entry ∈ index.entries height ↔ entry.1 = heightKey height ∧ value height = some entry.2 := by
  simp only [entries, produced, mem_map, Option.mem_toList]
  constructor
  · rintro ⟨held, is_held, rfl⟩
    exact ⟨rfl, is_held⟩
  · intro ⟨keyed, held⟩
    exact ⟨entry.2, held, Prod.ext keyed.symm rfl⟩

theorem entries_subtree (produced : index.production = .subtree level leaves root) :
    entry ∈ index.entries height ↔
      ∃ number, number ∈ completedSubtrees (treeSize leaves height) (leaves height) (2 ^ level) ∧
        (subtreeKey number, root number height) = entry := by
  rw [entries, produced]
  exact mem_map

variable (fit : index.SubtreesFit)

include fit

/-- A subtree number that is completed fits its key. -/
theorem subtree_lt (produced : index.production = .subtree level leaves root) {number : Nat}
    (completed : number ∈ completedSubtrees (treeSize leaves height) (leaves height) (2 ^ level)) :
    number < 2 ^ 32 :=
  Nat.lt_of_lt_of_le (mem_completedSubtrees_treeSize.mp completed).2
    (fit level leaves root produced (height + 1))

variable (walk : index.keyOrder = .walkOrdered)

include walk

/-- The entries of one block are in key order. -/
theorem entries_pairwise
    (height : Nat) : (index.entries height).Pairwise fun a b => compare a.1 b.1 = .lt := by
  cases produced : index.production with
  | height value =>
    simp only [entries, produced]
    cases value height with
    | none => exact List.Pairwise.nil
    | some held => exact pairwise_singleton _ _
  | subtree level leaves root =>
    rw [entries, produced]
    apply pairwise_map.mpr
    apply List.Pairwise.imp_of_mem _ (completedSubtrees_ascend _ _ _)
    intro a b a_completed b_completed less
    rw [compare_subtreeKey (subtree_lt fit produced a_completed)
      (subtree_lt fit produced b_completed)]
    exact Nat.compare_eq_lt.mpr less
  | scattered entries => simp [keyOrder, produced] at walk

/-- The keys of a later block sort after those of an earlier one. -/
theorem entries_ascend {lower upper : Nat} (less : lower < upper) (bounded : upper ≤ maxHeight)
    {a b : RawKey × RawValue} (a_entry : a ∈ index.entries lower)
    (b_entry : b ∈ index.entries upper) : compare a.1 b.1 = .lt := by
  cases produced : index.production with
  | height value =>
    rw [(entries_height produced).mp a_entry |>.1, (entries_height produced).mp b_entry |>.1,
      compare_heightKey (by omega) bounded]
    exact Nat.compare_eq_lt.mpr less
  | subtree level leaves root =>
    obtain ⟨m, m_completed, rfl⟩ := (entries_subtree produced).mp a_entry
    obtain ⟨n, n_completed, rfl⟩ := (entries_subtree produced).mp b_entry
    rw [compare_subtreeKey (subtree_lt fit produced m_completed)
      (subtree_lt fit produced n_completed)]
    exact Nat.compare_eq_lt.mpr (completedSubtrees_lt less m_completed n_completed)
  | scattered entries => simp [keyOrder, produced] at walk

/-- The entries of blocks at ascending heights are in key order. -/
theorem flatMap_entries_pairwise
    (ascending : heights.Pairwise (· < ·)) (bounded : ∀ height ∈ heights, height ≤ maxHeight) :
    (heights.flatMap index.entries).Pairwise fun a b => compare a.1 b.1 = .lt := by
  apply pairwise_flatMap.mpr
  refine ⟨fun height _ => entries_pairwise fit walk height, ?_⟩
  apply ascending.imp_of_mem
  intro lower upper _ upper_member less a a_entry b b_entry
  exact entries_ascend fit walk less (bounded upper upper_member) a_entry b_entry

/-- The tree that holds what the blocks at the given heights put, one after another. -/
def contents (index : Index) (heights : List Nat) : Tree :=
  (∅ : Tree).editAll (Edit.puts (heights.flatMap index.entries))

/-- A walk-ordered index indexed at ascending heights holds exactly the entries of those blocks. -/
theorem getElem?_contents
    (ascending : heights.Pairwise (· < ·)) (bounded : ∀ height ∈ heights, height ≤ maxHeight)
    {key : RawKey} {value : RawValue} : (index.contents heights)[key]? = some value ↔
      ∃ height ∈ heights, (key, value) ∈ index.entries height := by
  rw [← mem_flatMap]
  exact OrderedMap.getElem?_ofEntries
    (OrderedMap.nodup_of_ascending (flatMap_entries_pairwise fit walk ascending bounded))

end Index

end Zaino.Indexes
