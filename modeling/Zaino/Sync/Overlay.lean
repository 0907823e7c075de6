import Zaino.Lmdb.DeferredBuild
import Zaino.Sync.Engine

/-!
# Reading dependencies before they are committed

An index that reads others extracts a batch before the batch is committed. What its dependencies
have persisted for uncommitted batches is folded into an overlay, later writes over earlier ones, and
the overlay is consulted before the backend. A read then gives what the backend would give once the
batches are committed in ascending order, unless the backend defers the dependency's namespace: a
deferred namespace shows its writes only after the bulk load is finished.
-/

namespace Zaino.Sync

open Zaino Library Persistence Fallible

/-- Writes persisted for batches that are not committed, the last one for each key. A deletion is
kept as `none`, which hides what the backend holds. -/
structure PendingOverlay where
  entries : HashMap (Namespace × RawKey) (Option RawValue)

namespace PendingOverlay

/-- Fold one batch's writes into the overlay. -/
def apply (overlay : PendingOverlay) (ops : List WriteOp) : PendingOverlay :=
  ops.foldl (fun overlay op =>
    match op with
    | .put target key value => ⟨overlay.entries.insert (target, key) (some value)⟩
    | .delete target key => ⟨overlay.entries.insert (target, key) none⟩) overlay

/-- What the overlay says about a key, if anything. -/
def lookup (overlay : PendingOverlay) (name : Namespace) (key : RawKey) : Option (Option RawValue) :=
  overlay.entries.lookup (name, key)

/-- The overlay of all uncommitted batches, in ascending order. -/
def build (pendingOps : OrderedMap Nat (List WriteOp)) : PendingOverlay :=
  pendingOps.toList.foldl (fun overlay batch => overlay.apply batch.2) ⟨∅⟩

theorem lookup_apply (overlay : PendingOverlay) (ops : List WriteOp) (name : Namespace)
    (key : RawKey) : (overlay.apply ops).lookup name key =
      (Edit.latest (WriteOp.editsFor name ops) key).or (overlay.lookup name key) := by
  induction ops generalizing overlay with
  | nil => rfl
  | cons op ops ih =>
    have first : (overlay.apply [op]).lookup name key =
        (Edit.latest (WriteOp.editsFor name [op]) key).or (overlay.lookup name key) := by
      by_cases same : op.target = name ∧ op.edit.key = key
      · obtain ⟨rfl, rfl⟩ := same
        rw [WriteOp.editsFor_cons_self, Edit.latest_cons, if_pos rfl]
        cases op <;> exact AList.lookup_insert _
      · have silent : Edit.latest (WriteOp.editsFor name [op]) key = none := by
          apply Edit.latest_eq_none.mpr
          intro e member is_key
          obtain ⟨listed, is_op, rfl⟩ := List.mem_map.mp member
          obtain ⟨is_listed, is_name⟩ := List.mem_filter.mp is_op
          rw [List.mem_singleton.mp is_listed] at is_name is_key
          exact same ⟨of_decide_eq_true is_name, is_key⟩
        rw [silent, Option.none_or]
        cases op <;> exact AList.lookup_insert_ne fun is_key => same (by cases is_key; exact ⟨rfl, rfl⟩)
    refine (ih (overlay.apply [op])).trans ?_
    rw [first, ← Option.or_assoc, ← Edit.latest_append, ← WriteOp.editsFor_append]
    rfl

/-- The overlay of several batches says what the last write says. -/
theorem lookup_build (pendingOps : OrderedMap Nat (List WriteOp)) (name : Namespace)
    (key : RawKey) : (build pendingOps).lookup name key =
      Edit.latest (WriteOp.editsFor name (pendingOps.toList.flatMap Prod.snd)) key := by
  have folded : ∀ (batches : List (Nat × List WriteOp)) (overlay : PendingOverlay),
      (batches.foldl (fun overlay batch => overlay.apply batch.2) overlay).lookup name key =
        (Edit.latest (WriteOp.editsFor name (batches.flatMap Prod.snd)) key).or
          (overlay.lookup name key) := by
    intro batches
    induction batches with
    | nil => exact fun overlay => rfl
    | cons batch batches ih =>
      intro overlay
      rw [List.foldl_cons, ih, lookup_apply, List.flatMap_cons, WriteOp.editsFor_append,
        Edit.latest_append, Option.or_assoc]
  exact (folded _ _).trans Option.or_none

end PendingOverlay

variable {ι Ctx K V : Type}

/-- The codec of an index's entries. -/
structure EntryCodec (ι K V : Type) where
  name : ι
  target : Namespace
  encodeKey : K → RawKey
  decodeValue : RawValue → Except String V

namespace DepsReader

/-- A reader over a backend's committed trees and an overlay, restricted to some dependencies. -/
def new (reader : Trees) (overlay : PendingOverlay) (allowed : List ι) : DepsReader ι where
  read := fun name key =>
    match overlay.lookup name key with
    | some pending => pending
    | none => (reader name)[key]?
  allowed := allowed

/-- Decode what was read, if anything. -/
def decoded (codec : EntryCodec ι K V) (raw : Option RawValue) :
    Except (DepsReadError ι) (Option V) :=
  match raw.map codec.decodeValue with
  | none => .ok none
  | some (.ok value) => .ok (some value)
  | some (.error message) => .error (.decode message)

/-- Read a dependency's entry. -/
def get [DecidableEq ι] (deps : DepsReader ι) (codec : EntryCodec ι K V) (key : K) :
    Except (DepsReadError ι) (Option V) :=
  if codec.name ∈ deps.allowed then
    decoded codec (deps.read codec.target (codec.encodeKey key))
  else .error (.undeclared codec.name)

/-- The reader's view of a key is the tree's after the uncommitted batches. -/
theorem read_new (reader : Trees) (pendingOps : OrderedMap Nat (List WriteOp)) (allowed : List ι)
    (name : Namespace) (key : RawKey) : (new reader (.build pendingOps) allowed).read name key =
      (reader.applyAll (pendingOps.toList.flatMap Prod.snd) name)[key]? := by
  rw [Trees.applyAll_tree, OrderedMap.getElem?_editAll, ← PendingOverlay.lookup_build]
  simp only [new]
  cases (PendingOverlay.build pendingOps).lookup name key <;> rfl

end DepsReader

/-- The engine's readers. -/
theorem SyncEngine.depsReader_eq {set : BuiltIndexSet ι Ctx} (engine : SyncEngine set) (index : ι) :
    engine.depsReader index = .new engine.backend (.build engine.pendingOps)
      (set.pipeline index).descriptor.dependencies := by
  unfold depsReader DepsReader.new
  simp only [PendingOverlay.lookup_build]
  rfl

/-! ## Against a store that commits -/

/-- Commit batches one after another. -/
def commitAll (visit : IterationOrder Namespace) : List (List WriteOp) → Lmdb.BackendM Unit
  | [] => pure ()
  | ops :: batches => do
    Lmdb.commit visit true ops
    commitAll visit batches

/-- A namespace that is not deferred takes every committed batch. -/
theorem tree_of_commitAll {visit : IterationOrder Namespace} {batches : List (List WriteOp)}
    {store after : Lmdb.Backend} {name : Namespace} (named : name ≠ Lmdb.manifestName)
    (direct : store.isDeferred name = false)
    (committed : (commitAll visit batches).Returns store () after) :
    after.trees name = store.trees.applyAll batches.flatten name := by
  induction batches generalizing store with
  | nil =>
    obtain ⟨_, rfl⟩ := returns_pure.mp committed
    rfl
  | cons ops batches ih =>
    obtain ⟨_, middle, first, rest⟩ := returns_bind.mp committed
    obtain ⟨names, actions, commits⟩ := first.ensured (Lmdb.commit_ensures visit true ops store)
    have unlogged : middle.runs.lookup name = store.runs.lookup name := by
      refine (commits.lookups name).trans (if_neg fun member => ?_)
      rw [commits.deferred, direct] at member
      exact Bool.false_ne_true member.1
    have still_direct : middle.isDeferred name = false := by
      rw [← direct, Lmdb.Backend.isDeferred, unlogged, commits.keyOrders, commits.mode.1,
        commits.mode.2.1, commits.mode.2.2]
      rfl
    rw [ih still_direct rest, Trees.applyAll_tree, commits.tree_direct named direct,
      ← OrderedMap.editAll_append, ← WriteOp.editsFor_append, ← Trees.applyAll_tree,
      List.flatten_cons]

/-- A read of a dependency is what the store reads once the uncommitted batches are committed in
ascending order, for a namespace whose writes the store does not defer; and every other index is
refused. -/
theorem get_eq_committed [DecidableEq ι] (store : Lmdb.Backend)
    (pendingOps : OrderedMap Nat (List WriteOp)) (allowed : List ι) (codec : EntryCodec ι K V)
    (key : K) :
    (codec.name ∉ allowed → (DepsReader.new store.trees (.build pendingOps) allowed).get codec key =
      .error (.undeclared codec.name)) ∧ (codec.name ∈ allowed → codec.target ≠ Lmdb.manifestName →
      store.isDeferred codec.target = false → ∀ visit after,
      (commitAll visit (pendingOps.toList.map Prod.snd)).Returns store () after →
      (DepsReader.new store.trees (.build pendingOps) allowed).get codec key =
        DepsReader.decoded codec (after.trees codec.target)[codec.encodeKey key]?) := by
  refine ⟨fun undeclared => if_neg undeclared, ?_⟩
  intro declared named direct visit after committed
  rw [DepsReader.get, show (DepsReader.new store.trees (.build pendingOps) allowed).allowed = allowed
    from rfl, if_pos declared, DepsReader.read_new, tree_of_commitAll named direct committed,
    List.flatMap_def]

/-- The sample namespace as an index's entries. -/
def sampleCodec : EntryCodec Nat RawKey RawValue := ⟨0, Lmdb.sampleName, id, .ok⟩

/-- One uncommitted batch, which puts the key 5. -/
def samplePending : OrderedMap Nat (List WriteOp) := (∅ : OrderedMap _ _).insert 0 (Lmdb.samplePuts [5])

def sampleCommits : Lmdb.BackendM Unit :=
  commitAll (IterationOrder.listed Namespace) (samplePending.toList.map Prod.snd)

theorem get_eq_committed_direct : ∃ store after, sampleCommits.Returns store () after ∧
      (DepsReader.new store.trees (.build samplePending) [0]).get sampleCodec [5] =
        DepsReader.decoded sampleCodec (after.trees Lmdb.sampleName)[([5] : RawKey)]? := by
  let store := Lmdb.sampleOpen Lmdb.sampleSpecs ⟨fun _ => ∅, fun _ => none⟩
  have committed : sampleCommits.Returns store () (sampleCommits.run store).2 :=
    returns_of_ok (by decide +kernel)
  exact ⟨store, _, committed, (get_eq_committed store samplePending [0] sampleCodec [5]).2
    (by decide) (by decide +kernel) (by decide +kernel) _ _ committed⟩

/-- A bulk load that defers the dependency's namespace does not show the batch it has committed. -/
theorem get_of_deferred_ne : ∃ store after, sampleCommits.Returns store () after ∧
      (DepsReader.new store.trees (.build samplePending) [0]).get sampleCodec [5] = .ok (some [5]) ∧
      DepsReader.decoded sampleCodec (after.trees Lmdb.sampleName)[([5] : RawKey)]? = .ok none := by
  refine ⟨Lmdb.sampleBulk, (sampleCommits.run Lmdb.sampleBulk).2,
    returns_of_ok (by decide +kernel), by decide +kernel, ?_⟩
  have absent : ((sampleCommits.run Lmdb.sampleBulk).2.trees Lmdb.sampleName)[([5] : RawKey)]? =
    none := by decide +kernel
  rw [absent]
  rfl

end Zaino.Sync
