import Zaino.Shielded.Indexing

/-!
# Treestates and subtree roots over the finalised store

The store answers a treestate from the frontiers at a height and the block's header, and subtree roots
from the pool's namespace, scanned from the first asked number. A store that has indexed a chain up to
its watermark answers both from that chain (`Serves.treestate_returns`, `Serves.subtreeRoots_returns`).
-/

namespace Zaino.Shielded

open Zaino Library List Option

/-- What a read may be refused for lack of. -/
inductive Capability
  | treestate
  | subtreeRoots
  deriving DecidableEq

/-- Why a treestate read fails; `panicked` stands for the process's panic. -/
inductive TreestateReadError
  | notServiceable (capability : Capability)
  | fatal (message : String)
  | panicked (message : String)
  deriving DecidableEq

/-- Where each pool is active from, where it is scheduled at all. -/
abbrev PoolActivations : Type := Pools fun _ => Option Height

/-- A pool's tree at a block. -/
structure PoolTreestate where
  finalRoot : Option TreeRoot
  finalState : List UInt8
  deriving DecidableEq

/-- The trees after a block; a pool that is not active has none. -/
structure Treestate where
  blockHash : BlockHash
  height : Height
  time : UInt32
  pools : Pools fun _ => Option PoolTreestate

/-- A completed subtree, as it is served. -/
structure SubtreeRoot where
  root : TreeRoot
  completingBlockHash : BlockHash
  endHeight : Height
  deriving DecidableEq

/-- The header fields that a treestate reports. -/
structure HeaderValue where
  hash : BlockHash
  time : UInt32
  deriving DecidableEq

/-- The namespaces these reads visit. -/
inductive Namespace
  | treeState
  | headers
  | subtrees (pool : ShieldedPool)
  deriving DecidableEq

section Trees

variable (trees : NoteTrees)

/-- The finalised store, pinned. -/
structure StoreSnapshot where
  /-- The highest block that is durably indexed. -/
  watermark : Option Height
  activations : PoolActivations
  indexes : TreeIndexes trees
  headers : HashMap Nat HeaderValue
  /-- Whether a namespace's deferred build is finished. -/
  isComplete : Namespace → Bool
  /-- Whether a namespace was written in the format this build reads. -/
  isFresh : Namespace → Bool

variable {trees}

/-- A pool's frontier as it is served, if the pool is active. -/
def poolTreestate (pool : ShieldedPool) (frontier : Frontier (trees.tree pool).Node)
    (activation : Option Height) (at_ : Height) : Option PoolTreestate :=
  let inactive := match activation with
    | none => true
    | some activation => decide (at_ < activation)
  if inactive then none
  else some ⟨some ((trees.tree pool).nodeBytes ((trees.tree pool).root frontier)),
    (trees.tree pool).legacyTreeBytes frontier⟩

variable (pool : ShieldedPool)

/-- A pool is served exactly where it is active. -/
theorem poolTreestate_cases (frontier : Frontier (trees.tree pool).Node)
    (activation : Option Height) (at_ : Height) :
    ((∀ height, activation = some height → at_ < height) ∧
        poolTreestate pool frontier activation at_ = none) ∨
      poolTreestate pool frontier activation at_ =
        some ⟨some ((trees.tree pool).nodeBytes ((trees.tree pool).root frontier)),
          (trees.tree pool).legacyTreeBytes frontier⟩ := by
  cases activation with
  | none => exact Or.inl ⟨(fun _ scheduled => nomatch scheduled), rfl⟩
  | some activation =>
    by_cases before : at_ < activation
    · refine Or.inl ⟨fun height scheduled => some.inj scheduled ▸ before, ?_⟩
      exact if_pos (decide_eq_true before)
    · exact Or.inr (if_neg (by simp [before]))

/-- Every pool's frontier as it is served. -/
def poolTreestates (value : TreeStateValue trees) (activations : PoolActivations) (at_ : Height) :
    Pools fun _ => Option PoolTreestate :=
  Pools.build fun pool => poolTreestate pool (value.get pool) (activations.get pool) at_

/-- A stored height as a protocol height. -/
def heightOf (height : Nat) : Except TreestateReadError Height :=
  okOr (Height.tryFrom height) (.fatal "a subtree completing height exceeds the protocol limit")

/-- A stored subtree as it is served. -/
def servedRoot (record : SubtreeRecord) : Except TreestateReadError SubtreeRoot := do
  let endHeight ← heightOf record.completingHeight
  .ok ⟨record.root, record.completingBlockHash, endHeight⟩

/-- Collect subtrees until there are as many as asked for, but always the first. -/
def scanSubtrees (cap : Option Nat) : List SubtreeRoot → List SubtreeRecord →
    Except TreestateReadError (List SubtreeRoot)
  | roots, [] => .ok roots
  | roots, record :: rest => do
    let root ← servedRoot record
    let roots := roots ++ [root]
    let full := match cap with
      | none => false
      | some cap => decide (cap ≤ roots.length)
    if full then .ok roots else scanSubtrees cap roots rest

namespace StoreSnapshot

/-- What a namespace holds under a key, unless it is in another format. -/
def readIndexValue {α : Type} (store : StoreSnapshot trees) (ns : Namespace) (held : Option α) :
    Option α :=
  if store.isFresh ns then held else none

/-- Refuse a read one of whose namespaces is incomplete. -/
def gate (store : StoreSnapshot trees) (namespaces : List Namespace) (capability : Capability) :
    Except TreestateReadError Unit :=
  if namespaces.all store.isComplete then .ok () else .error (.notServiceable capability)

/-- The trees after a block at or below the watermark. -/
def treestate (store : StoreSnapshot trees) (at_ : Height) :
    Except TreestateReadError Treestate := do
  if store.watermark.any fun watermark => decide (at_ ≤ watermark) then
    store.gate [.treeState, .headers] .treestate
    let value ← okOr (store.readIndexValue .treeState (store.indexes.treeState.lookup at_.value))
      (.fatal s!"tree_state missing at height {at_.value} (at or below the watermark)")
    let header ← okOr (store.readIndexValue .headers (store.headers.lookup at_.value))
      (.fatal s!"headers missing at height {at_.value} (at or below the watermark)")
    .ok ⟨header.hash, at_, header.time, poolTreestates value store.activations at_⟩
  else .error (.notServiceable .treestate)

/-- A pool's completed subtrees from a number on, at most as many as asked for. -/
def subtreeRoots (store : StoreSnapshot trees) (pool : ShieldedPool) (startIndex : UInt16)
    (limit : Option UInt16) : Except TreestateReadError (List SubtreeRoot) := do
  store.gate [.subtrees .sapling, .subtrees .orchard, .subtrees .ironwood] .subtreeRoots
  let entries := (store.indexes.subtrees.get pool).toList.filter fun entry =>
    decide (startIndex.toNat ≤ entry.1)
  scanSubtrees (limit.map UInt16.toNat) [] (entries.map Prod.snd)

end StoreSnapshot

/-! ## The chain a store has indexed -/

variable (trees) in
/-- A chain from genesis on, with the activation schedule its blocks keep to: commitments that the
trees hold, and none of a pool before it is active. -/
structure Chain where
  activations : PoolActivations
  blocks : List Block
  indexable : Indexable trees (blocks.map treeStateCtx)
  activated : ∀ block ∈ blocks, ∀ pool, (treeStateCtx block).commitments pool ≠ [] →
    ∃ activation, activations.get pool = some activation ∧ activation ≤ block.header.height

/-- The heights the store holds are those below this one. -/
def seamOf : Option Height → Nat
  | none => 0
  | some watermark => watermark.value + 1

/-- A height is at or below the watermark exactly when it is below the seam. -/
theorem covered_iff {watermark : Option Height} {at_ : Height} :
    (watermark.any fun watermark => decide (at_ ≤ watermark)) = true ↔
      at_.value < seamOf watermark := by
  cases watermark with
  | none => simp [seamOf]
  | some watermark =>
    rw [any_some, decide_eq_true_iff, Height.le_def, seamOf]
    exact Nat.lt_succ_iff.symm

/-- What the first blocks of a chain say, as the index reads them. -/
def Chain.ctxs (chain : Chain trees) (count : Nat) : List TreeStateCtx :=
  (chain.blocks.take count).map treeStateCtx

/-- A store that has indexed a chain up to its watermark, in some batches. -/
structure StoreSnapshot.Serves (store : StoreSnapshot trees) (chain : Chain trees) : Prop where
  held : seamOf store.watermark ≤ chain.blocks.length
  activations : store.activations = chain.activations
  indexed : ∃ batches carry, batches.flatMap Prod.snd = chain.ctxs (seamOf store.watermark) ∧
    (∀ batch ∈ batches, batch.1.operands = batch.2.length) ∧
    indexAll (emptyIndexState trees) batches = .ok ⟨store.indexes, carry⟩
  headers : ∀ height < seamOf store.watermark, ∀ block, chain.blocks[height]? = some block →
    store.headers.lookup height = some ⟨block.header.hash, block.header.time⟩
  complete : ∀ ns, store.isComplete ns = true
  fresh : ∀ ns, store.isFresh ns = true

variable (chain : Chain trees)

theorem Chain.ctxs_append (count : Nat) :
    chain.ctxs count ++ (chain.blocks.drop count).map treeStateCtx =
      chain.blocks.map treeStateCtx := by
  rw [Chain.ctxs, ← map_append, take_append_drop]

theorem Chain.indexable_ctxs (count : Nat) : Indexable trees (chain.ctxs count) := by
  have indexable := chain.indexable
  rw [← chain.ctxs_append count] at indexable
  exact indexable.left

theorem Chain.take_ctxs {first count : Nat} (within : first ≤ count) :
    (chain.ctxs count).take first = chain.ctxs first := by
  rw [Chain.ctxs, ← map_take, take_take, Nat.min_eq_left within, Chain.ctxs]

theorem Chain.length_ctxs {count : Nat} (within : count ≤ chain.blocks.length) :
    (chain.ctxs count).length = count := by
  rw [Chain.ctxs, length_map, length_take, Nat.min_eq_left within]

variable {store : StoreSnapshot trees} {chain : Chain trees}

/-- What a serving store holds. -/
theorem StoreSnapshot.Serves.state (serves : store.Serves chain) :
    ∃ carry, Indexed (chain.ctxs (seamOf store.watermark)) ⟨store.indexes, carry⟩ := by
  rcases serves.indexed with ⟨batches, carry, are_blocks, sized, is_state⟩
  have indexable := chain.indexable_ctxs (seamOf store.watermark)
  rw [← are_blocks] at indexable ⊢
  rcases indexAll_indexed emptyIndexState_indexed indexable sized with ⟨final, is_final, indexed⟩
  rw [is_state] at is_final
  refine ⟨carry, ?_⟩
  rw [Except.ok.inj is_final]
  exact indexed

/-- The treestate of a block the store holds. -/
theorem StoreSnapshot.Serves.treestate_returns
    (serves : store.Serves chain) {at_ : Height} {block : Block}
    (covered : at_.value < seamOf store.watermark)
    (is_block : chain.blocks[at_.value]? = some block) :
    ∃ value, FrontiersOf value (leavesIn trees (chain.ctxs (at_.value + 1))) ∧
      store.treestate at_ = .ok ⟨block.header.hash, at_, block.header.time,
        poolTreestates value chain.activations at_⟩ := by
  rcases serves.state with ⟨carry, indexed⟩
  rcases indexed.treeState at_.value (by rw [chain.length_ctxs serves.held]; exact covered) with
    ⟨value, is_value, of_value⟩
  rw [chain.take_ctxs (Nat.succ_le_of_lt covered)] at of_value
  refine ⟨value, of_value, ?_⟩
  have below := covered_iff.mpr covered
  have open_gate : store.gate [.treeState, .headers] .treestate = .ok () := by
    simp [StoreSnapshot.gate, serves.complete]
  rw [StoreSnapshot.treestate, if_pos below, open_gate, ok_bind, StoreSnapshot.readIndexValue,
    StoreSnapshot.readIndexValue, if_pos (serves.fresh _), if_pos (serves.fresh _), is_value, okOr,
    ok_bind, serves.headers _ covered _ is_block, okOr, ok_bind, serves.activations]

/-! ## Pages of subtrees -/

/-- A served subtree as it is stored. -/
def SubtreeRoot.record (root : SubtreeRoot) : SubtreeRecord :=
  ⟨root.root, root.completingBlockHash, root.endHeight.value⟩

/-- Whether a limit admits another entry after `i`. -/
def Admits (limit : Option Nat) (i : Nat) : Prop :=
  ∀ n, limit = some n → i < n

variable (trees) in
/-- Where a page of a chain's subtrees ends: at the limit or at the last completed subtree. -/
def pageEnd (pool : ShieldedPool) (blocks : List TreeStateCtx) (start : Nat) (limit : Option Nat) :
    Nat :=
  match limit with
  | none => subtreeCount trees pool blocks
  | some n => min (subtreeCount trees pool blocks) (start + n)

variable (trees) in
/-- The subtrees `start`, `start + 1`, … of a chain, up to the limit and the last completed one. -/
def subtreePage (pool : ShieldedPool) (blocks : List TreeStateCtx) (start : Nat)
    (limit : Option Nat) : List SubtreeRecord :=
  (numbered (subtreeAt trees pool blocks) start (pageEnd trees pool blocks start limit)).map Prod.snd

theorem pageEnd_le (blocks : List TreeStateCtx) (start : Nat) (limit : Option Nat) :
    pageEnd trees pool blocks start limit ≤ subtreeCount trees pool blocks := by
  cases limit with
  | none => exact Nat.le_refl _
  | some n => exact Nat.min_le_left _ _

/-- A page by position. -/
theorem getElem?_subtreePage (blocks : List TreeStateCtx) (start : Nat)
    (limit : Option Nat) (i : Nat) : (subtreePage trees pool blocks start limit)[i]? =
      if start + i < pageEnd trees pool blocks start limit then
        subtreeAt trees pool blocks (start + i) else none :=
  getElem?_map_snd_numbered (fun _ _ below =>
    subtreeAt_isSome (Nat.lt_of_lt_of_le below (pageEnd_le pool blocks start limit))) i

variable {pool : ShieldedPool}

/-- Two chains have the same page exactly when they have the same subtrees at its numbers. -/
theorem subtreePage_eq_iff {first second : List TreeStateCtx} {start : Nat} {limit : Option Nat} :
    subtreePage trees pool first start limit = subtreePage trees pool second start limit ↔
      ∀ i, Admits limit i →
        subtreeAt trees pool first (start + i) = subtreeAt trees pool second (start + i) := by
  have admitted : ∀ blocks : List TreeStateCtx, ∀ i, Admits limit i →
      (subtreePage trees pool blocks start limit)[i]? = subtreeAt trees pool blocks (start + i) := by
    intro blocks i admits
    rw [getElem?_subtreePage]
    split
    · rfl
    · next past =>
      refine (subtreeAt_eq_none ?_).symm
      cases limit with
      | none => exact Nat.le_of_not_lt past
      | some n =>
        have within := admits n rfl
        rw [pageEnd] at past
        omega
  have refused : ∀ blocks : List TreeStateCtx, ∀ i, ¬ Admits limit i →
      (subtreePage trees pool blocks start limit)[i]? = none := by
    intro blocks i past
    rw [getElem?_subtreePage, if_neg]
    intro below
    refine past fun n is_limit => ?_
    rw [is_limit, pageEnd] at below
    omega
  rw [List.ext_getElem?_iff]
  constructor
  · intro same i admits
    have at_i := same i
    rwa [admitted first i admits, admitted second i admits] at at_i
  · intro same i
    by_cases admits : Admits limit i
    · rw [admitted first i admits, admitted second i admits, same i admits]
    · rw [refused first i admits, refused second i admits]

/-! ## What the store's scan returns -/

theorem servedRoot_returns {record : SubtreeRecord} (bounded : record.completingHeight ≤ maxHeight) :
    ∃ root, servedRoot record = .ok root ∧ root.record = record := by
  refine ⟨⟨record.root, record.completingBlockHash, ⟨record.completingHeight, bounded⟩⟩, ?_, rfl⟩
  rw [servedRoot, heightOf, Height.tryFrom, dif_pos bounded, okOr, ok_bind]

theorem scanSubtrees_returns (cap : Option Nat) (collected : List SubtreeRoot)
    {records : List SubtreeRecord}
    (bounded : ∀ record ∈ records, record.completingHeight ≤ maxHeight) :
    ∃ roots, scanSubtrees cap collected records = .ok (collected ++ roots) ∧
      roots.map SubtreeRoot.record = match cap with
        | none => records
        | some cap => records.take (max (cap - collected.length) 1) := by
  induction records generalizing collected with
  | nil =>
    refine ⟨[], by rw [scanSubtrees, append_nil], ?_⟩
    cases cap with
    | none => rfl
    | some cap => exact take_nil.symm
  | cons record rest ih =>
    rcases servedRoot_returns (bounded record mem_cons_self) with ⟨root, is_root, is_record⟩
    rcases ih (collected ++ [root])
      (fun later member => bounded later (mem_cons_of_mem _ member)) with
      ⟨more, is_more, are_more⟩
    have longer : (collected ++ [root]).length = collected.length + 1 := by simp
    rw [scanSubtrees, is_root, ok_bind]
    cases cap with
    | none =>
      refine ⟨root :: more, ?_, ?_⟩
      · rw [if_neg Bool.false_ne_true, is_more]
        simp
      · rw [map_cons, is_record, are_more]
    | some cap =>
      dsimp only at are_more ⊢
      rw [longer] at are_more ⊢
      by_cases full : cap ≤ collected.length + 1
      · refine ⟨[root], by rw [if_pos (decide_eq_true full)], ?_⟩
        rw [show max (cap - collected.length) 1 = 1 by omega, map_singleton, is_record,
          take_succ_cons, take_zero]
      · refine ⟨root :: more, ?_, ?_⟩
        · rw [if_neg (by simp; omega), is_more]
          simp
        · rw [show max (cap - collected.length) 1 = max (cap - (collected.length + 1)) 1 + 1 by omega,
            take_succ_cons, map_cons, is_record, are_more]

theorem mem_of_completing {blocks : List TreeStateCtx} {size : Nat}
    {ctx : TreeStateCtx} (completes : completing trees pool size blocks = some ctx) :
    ctx ∈ blocks := by
  induction blocks generalizing size with
  | nil => cases completes
  | cons first rest ih =>
    rw [completing] at completes
    split at completes
    · rw [some.inj completes]
      exact mem_cons_self
    · exact mem_cons_of_mem first (ih completes)

/-- A subtree of a chain is completed at a height of it. -/
theorem Chain.completingHeight_le {blocks : List TreeStateCtx}
    (from_chain : ∀ ctx ∈ blocks, ∃ block ∈ chain.blocks, treeStateCtx block = ctx) {k : Nat}
    {record : SubtreeRecord} (is_subtree : subtreeAt trees pool blocks k = some record) :
    record.completingHeight ≤ maxHeight := by
  rcases bind_eq_some_iff.mp is_subtree with ⟨node, _, with_block⟩
  rcases bind_eq_some_iff.mp with_block with ⟨ctx, completes, is_record⟩
  rcases from_chain ctx (mem_of_completing completes) with ⟨block, _, is_ctx⟩
  rw [← some.inj is_record, ← is_ctx]
  exact block.header.height.bounded

theorem Chain.mem_ctxs {count : Nat} :
    ∀ ctx ∈ chain.ctxs count, ∃ block ∈ chain.blocks, treeStateCtx block = ctx := by
  intro ctx member
  rcases mem_map.mp member with ⟨block, at_block, is_ctx⟩
  exact ⟨block, mem_of_mem_take at_block, is_ctx⟩

/-- The store's page: its completed subtrees, up to the limit, but at least one. -/
theorem StoreSnapshot.Serves.subtreeRoots_returns (serves : store.Serves chain)
    (pool : ShieldedPool) (startIndex : UInt16) (limit : Option UInt16) :
    ∃ roots, store.subtreeRoots pool startIndex limit = .ok roots ∧ roots.map SubtreeRoot.record =
        subtreePage trees pool (chain.ctxs (seamOf store.watermark)) startIndex.toNat
          (limit.map fun n => max n.toNat 1) := by
  rcases serves.state with ⟨carry, indexed⟩
  have open_gate : store.gate [.subtrees .sapling, .subtrees .orchard, .subtrees .ironwood]
      .subtreeRoots = .ok () := by
    simp [StoreSnapshot.gate, serves.complete]
  have present : ∀ k, (subtreeAt trees pool (chain.ctxs (seamOf store.watermark)) k).isSome ↔
      k < subtreeCount trees pool (chain.ctxs (seamOf store.watermark)) := by
    intro k
    refine ⟨fun is_some => ?_, subtreeAt_isSome⟩
    by_contra open_still
    rw [subtreeAt_eq_none (Nat.le_of_not_lt open_still)] at is_some
    exact Bool.false_ne_true is_some
  have listed := filter_toList_eq_numbered (indexed.subtrees pool) present startIndex.toNat
  have bounded : ∀ record ∈ (numbered (subtreeAt trees pool (chain.ctxs (seamOf store.watermark)))
      startIndex.toNat (subtreeCount trees pool (chain.ctxs (seamOf store.watermark)))).map Prod.snd,
      record.completingHeight ≤ maxHeight := by
    intro record member
    rcases mem_map.mp member with ⟨pair, at_pair, is_record⟩
    rcases mem_filterMap.mp at_pair with ⟨k, _, is_pair⟩
    rcases map_eq_some_iff.mp is_pair with ⟨found, is_found, rfl⟩
    rw [← is_record]
    exact chain.completingHeight_le chain.mem_ctxs is_found
  rcases scanSubtrees_returns (limit.map UInt16.toNat) [] bounded with
    ⟨roots, are_roots, are_records⟩
  refine ⟨roots, ?_, ?_⟩
  · rw [StoreSnapshot.subtreeRoots, open_gate, ok_bind]
    rw [listed, are_roots, nil_append]
  · rw [are_records, subtreePage]
    cases limit with
    | none => rfl
    | some n =>
      dsimp only [map_some, pageEnd]
      rw [length_nil, Nat.sub_zero, ← map_take,
        take_numbered fun k _ below => (present k).mpr below]

end Trees

end Zaino.Shielded
