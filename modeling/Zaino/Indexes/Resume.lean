import Zaino.Indexes.Production
import Zaino.Lmdb.Transaction

/-!
# Indexing a walk on top of what a store holds

A walk commits the blocks of consecutive heights in batches. One batch puts the entries of its
blocks, in the order in which their extractions complete, and stamps its last height. A walk that
starts above everything the walk-ordered indexes hold is accepted whole (`commitAll_walk`), so
where it ends depends only on the trees it starts from.
-/

namespace Zaino.Indexes

open Library Persistence Lmdb List

/-- The puts of one index for the block at a height. -/
def Index.ops (index : Index) (height : Nat) : List WriteOp :=
  (index.entries height).map fun entry => .put index.name entry.1 entry.2

/-- The writes of one batch: the entries of the blocks from `first` to `last`, and the stamp. -/
def IndexSet.batchOps (set : IndexSet) (first : Nat) (last : Height) : List WriteOp :=
  set.indexes.flatMap (fun index =>
    (List.range' first (last.value + 1 - first)).flatMap index.ops) ++ [Watermark.stamp last]

/-- The batches of a walk from the height `first` up to, and without, the height `stop`. -/
inductive Walk (set : IndexSet) : Nat → List (List WriteOp) → Nat → Prop
  | done (first : Nat) : Walk set first [] first
  | batch {first stop : Nat} {last : Height} {ops : List WriteOp} {rest : List (List WriteOp)} :
    first ≤ last.value → ops.Perm (set.batchOps first last) → Walk set (last.value + 1) rest stop →
    Walk set first (ops :: rest) stop

/-- Commit batches one after another. -/
def commitAll (keyOrders : KeyOrders) (trees : Trees) (batches : List (List WriteOp)) :
    Except CommitError Trees :=
  batches.foldlM (commitDirect keyOrders) trees

/-- The namespaces of an index set are declared with their key orders. -/
structure Declares (keyOrders : KeyOrders) (set : IndexSet) : Prop where
  indexes : ∀ index ∈ set.indexes, keyOrders index.name = some index.keyOrder
  watermark : keyOrders Watermark.name = some .metadata

/-! ## The writes of a batch -/

variable {set : IndexSet} {first : Nat} {last : Height} {op : WriteOp}

theorem IndexSet.mem_batchOps : op ∈ set.batchOps first last ↔
      (∃ index ∈ set.indexes, ∃ height, first ≤ height ∧ height ≤ last.value ∧
        ∃ entry ∈ index.entries height, op = .put index.name entry.1 entry.2) ∨
      op = Watermark.stamp last := by
  simp only [batchOps, mem_append, mem_flatMap, mem_range'_1, Index.ops,
    mem_map, mem_singleton]
  constructor
  · rintro (⟨index, member, height, bounds, entry, produced, rfl⟩ | stamped)
    · exact Or.inl ⟨index, member, height, bounds.1, by omega, entry, produced, rfl⟩
    · exact Or.inr stamped
  · rintro (⟨index, member, height, lower, upper, entry, produced, rfl⟩ | stamped)
    · exact Or.inl ⟨index, member, height, ⟨lower, by omega⟩, entry, produced, rfl⟩
    · exact Or.inr stamped

theorem IndexSet.eq_of_name {a b : Index} (a_member : a ∈ set.indexes) (b_member : b ∈ set.indexes)
    (same : a.name = b.name) : a = b :=
  inj_on_of_nodup_map set.distinct a_member b_member same

/-- The writes of a batch to an index's namespace are puts of its entries. -/
theorem IndexSet.batchOps_of_target {index : Index} (member : index ∈ set.indexes)
    (listed : op ∈ set.batchOps first last) (named : op.target = index.name) :
    ∃ height, first ≤ height ∧ height ≤ last.value ∧ ∃ entry ∈ index.entries height,
      op = .put index.name entry.1 entry.2 := by
  rcases mem_batchOps.mp listed with ⟨other, other_member, height, lower, upper, entry, produced, rfl⟩ |
    rfl
  · have same : other = index := eq_of_name other_member member named
    subst same
    exact ⟨height, lower, upper, entry, produced, rfl⟩
  · exact absurd named.symm (set.unreserved index member).1

/-- Every key the index holds was put by a block below `next`. -/
def Index.Below (index : Index) (next : Nat) (tree : Tree) : Prop :=
  ∀ key ∈ tree, ∃ height < next, ∃ value, (key, value) ∈ index.entries height

variable {keyOrders : KeyOrders} {set : IndexSet}

variable {first stop : Nat} {last : Height} {ops : List WriteOp} {trees : Trees} {index : Index}
  {batches : List (List WriteOp)}

theorem fits_batch (member : index ∈ set.indexes) (walk : index.keyOrder = .walkOrdered)
    (arrived : ops.Perm (set.batchOps first last)) (below : index.Below first (trees index.name)) :
    Fits (trees index.name) (opsFor index.name ops) := by
  have puts : ∀ op ∈ opsFor index.name ops, ∃ height, first ≤ height ∧ height ≤ last.value ∧
      ∃ entry ∈ index.entries height, op = .put index.name entry.1 entry.2 := by
    intro op listed
    obtain ⟨in_ops, named⟩ := mem_filter.mp listed
    exact IndexSet.batchOps_of_target member (arrived.mem_iff.mp in_ops) (by simpa using named)
  have none_deleted : deletedKeys (opsFor index.name ops) = [] := by
    apply filterMap_eq_nil_iff.mpr
    intro op listed
    obtain ⟨_, _, _, _, _, rfl⟩ := puts op listed
    rfl
  refine ⟨by simp [conflicting, none_deleted], ?_⟩
  intro held is_held entry put
  rw [none_deleted] at is_held
  obtain ⟨height, lower, value, produced⟩ := below held is_held
  obtain ⟨op, listed, is_put⟩ := mem_filterMap.mp put
  obtain ⟨later, from_first, to_last, made, made_entry, rfl⟩ := puts op listed
  cases is_put
  have bounded := last.bounded
  exact Index.entries_ascend (set.subtreesFit index member) walk
    (show height < later by omega) (by omega) produced made_entry

/-- A batch above everything that is held is accepted. -/
theorem commitDirect_batch (declares : Declares keyOrders set)
    (arrived : ops.Perm (set.batchOps first last))
    (below : ∀ index ∈ set.indexes, index.keyOrder = .walkOrdered →
      index.Below first (trees index.name)) :
    commitDirect keyOrders trees ops = .ok (trees.applyAll ops) := by
  apply commitDirect_of_fits
  · intro op listed undeclared
    rcases IndexSet.mem_batchOps.mp (arrived.mem_iff.mp listed) with
      ⟨index, member, _, _, _, _, _, rfl⟩ | rfl
    · have declared : keyOrders index.name = none := undeclared
      rw [declares.indexes index member] at declared
      cases declared
    · have declared : keyOrders Watermark.name = none := undeclared
      rw [declares.watermark] at declared
      cases declared
  · intro name walk
    by_cases written : ∃ op ∈ ops, op.target = name
    · obtain ⟨op, listed, named⟩ := written
      rcases IndexSet.mem_batchOps.mp (arrived.mem_iff.mp listed) with
        ⟨index, member, _, _, _, _, _, rfl⟩ | rfl
      · have is_name : index.name = name := named
        subst is_name
        have is_walk : index.keyOrder = .walkOrdered := by
          rw [declares.indexes index member] at walk
          exact Option.some.inj walk
        exact fits_batch member is_walk arrived (below index member is_walk)
      · have is_watermark : Watermark.name = name := named
        rw [← is_watermark, declares.watermark] at walk
        cases walk
    · have untouched : opsFor name ops = [] := by
        apply filter_eq_nil_iff.mpr
        intro op listed
        simpa using fun named => written ⟨op, listed, named⟩
      rw [untouched]
      exact ⟨rfl, fun held _ entry put => by cases put⟩

/-- After a batch everything that is held lies at or below its last height. -/
theorem below_batch (member : index ∈ set.indexes) (le : first ≤ last.value)
    (arrived : ops.Perm (set.batchOps first last)) (below : index.Below first (trees index.name)) :
    index.Below (last.value + 1) (trees.applyAll ops index.name) := by
  intro key held
  rw [Trees.applyAll_tree, Std.ExtTreeMap.mem_iff_isSome_getElem?,
    OrderedMap.getElem?_editAll] at held
  cases found : Edit.latest (WriteOp.editsFor index.name ops) key with
  | none =>
    rw [found, Option.getD_none, ← Std.ExtTreeMap.mem_iff_isSome_getElem?] at held
    obtain ⟨height, lower, value, produced⟩ := below key held
    exact ⟨height, by omega, value, produced⟩
  | some written =>
    obtain ⟨op, listed, is_edit⟩ := mem_map.mp (Edit.mem_of_latest found)
    obtain ⟨in_ops, named⟩ := mem_filter.mp listed
    obtain ⟨height, _, upper, entry, produced, rfl⟩ :=
      IndexSet.batchOps_of_target member (arrived.mem_iff.mp in_ops) (by simpa using named)
    have keyed : entry.1 = key := congrArg Edit.key is_edit
    exact ⟨height, by omega, entry.2, keyed ▸ produced⟩

/-- A walk that starts above everything the walk-ordered indexes hold is accepted whole. -/
theorem commitAll_walk (declares : Declares keyOrders set) (walked : Walk set first batches stop)
    (below : ∀ index ∈ set.indexes, index.keyOrder = .walkOrdered →
      index.Below first (trees index.name)) :
    commitAll keyOrders trees batches = .ok (trees.applyAll batches.flatten) := by
  induction walked generalizing trees with
  | done first => rfl
  | @batch first stop last ops rest le arrived _ ih =>
    have accepted := commitDirect_batch declares arrived below
    have later := ih fun index member walk => below_batch member le arrived (below index member walk)
    rw [flatten_cons, Trees.applyAll_append, ← later, commitAll, foldlM_cons, accepted]
    rfl

/-- A walk writes every entry of every block it passes. -/
theorem Walk.writes (walked : Walk set first batches stop) (member : index ∈ set.indexes)
    {height : Nat} (lower : first ≤ height) (upper : height < stop) {entry : RawKey × RawValue}
    (produced : entry ∈ index.entries height) :
    .put index.name entry.1 entry.2 ∈ batches.flatten := by
  induction walked with
  | done first => omega
  | @batch first stop last ops rest le arrived _ ih =>
    rw [flatten_cons, mem_append]
    rcases Nat.lt_or_ge last.value height with later | within
    · exact Or.inr (ih later upper)
    · apply Or.inl
      apply arrived.mem_iff.mpr
      exact IndexSet.mem_batchOps.mpr
        (Or.inl ⟨index, member, height, lower, within, entry, produced, rfl⟩)

end Zaino.Indexes
