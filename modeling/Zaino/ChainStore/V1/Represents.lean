import Zaino.ChainStore.V1.Chain

/-!
# The rows of a chain

The rows that a chain is stored as are determined by it (`rowsOf`): they do not depend on whether
its blocks were written one by one or in batches. For a valid chain the reads of the store answer
from the chain, a block that may follow it is accepted and its rows are the longer chain's, and
deleting that block gives back the shorter chain's.
-/

namespace Zaino.ChainStore

open Library List

/-- What a block spends, each outpoint with the location of the transaction that spends it. -/
def IndexedBlock.spends (block : IndexedBlock) : SpentMap :=
  block.transactions.zipIdx.flatMap fun entry =>
    entry.1.transparent.spentOutpoints.map fun outpoint =>
      (outpoint, ⟨block.height, UInt16.ofNat entry.2⟩)

/-- The entry of a block in a table keyed by height. -/
def byHeight {β : Type} (row : IndexedBlock → β) (blocks : List IndexedBlock) : OrderedMap Nat β :=
  OrderedMap.ofEntries (blocks.map fun block => (block.height, row block))

/-- The rows that a chain is stored as. -/
def rowsOf (blocks : List IndexedBlock) : Rows where
  headers := byHeight IndexedBlock.headerData blocks
  txids := byHeight IndexedBlock.txids blocks
  transparent := byHeight (fun block => block.pairs.map Prod.snd) blocks
  sapling := byHeight (fun block => block.poolLists.sapling) blocks
  orchard := byHeight (fun block => block.poolLists.orchard) blocks
  ironwood := OrderedMap.ofEntries (blocks.filterMap fun block =>
    (ironwoodEntry block.poolLists.ironwood).map fun row => (block.height, row))
  commitmentTreeData := byHeight IndexedBlock.commitmentTreeData blocks
  heights := OrderedMap.ofEntries (blocks.map fun block => (hashBytes block.hash, block.height))
  txidLocation := OrderedMap.ofEntries (blocks.flatMap IndexedBlock.txidLocations)
  spent := OrderedMap.ofEntries (blocks.flatMap IndexedBlock.spentLocations)

theorem spentLocations_eq (block : IndexedBlock) :
    block.spentLocations = block.spends.map fun spend => (spend.1.toBytes, spend.2) := by
  rw [IndexedBlock.spentLocations, IndexedBlock.spends, map_flatMap]
  simp only [map_map]
  rfl

theorem map_fst_spends (block : IndexedBlock) :
    block.spends.map Prod.fst = spentOutpoints [block] := by
  have step : block.spends.map Prod.fst =
      block.transactions.zipIdx.flatMap fun entry => entry.1.transparent.spentOutpoints := by
    rw [IndexedBlock.spends, map_flatMap]
    simp only [map_map, Function.comp_def, map_id']
  have unindexed : (block.transactions.zipIdx.flatMap fun entry =>
      entry.1.transparent.spentOutpoints) =
      (block.transactions.zipIdx.map Prod.fst).flatMap fun tx => tx.transparent.spentOutpoints := by
    rw [flatMap_map]
  rw [step, unindexed, zipIdx_map_fst, spentOutpoints, txsOf_singleton]
  rfl

theorem spentOutpoints_append (first rest : List IndexedBlock) :
    spentOutpoints (first ++ rest) = spentOutpoints first ++ spentOutpoints rest := by
  rw [spentOutpoints, txsOf_append, Ledger.spentBy_append]
  rfl

variable (blocks : List IndexedBlock)

theorem spentOutpoints_eq_flatMap :
    spentOutpoints blocks = (blocks.flatMap IndexedBlock.spends).map Prod.fst := by
  induction blocks with
  | nil => rfl
  | cons block blocks ih =>
    rw [← singleton_append, spentOutpoints_append, ih, flatMap_append, map_append,
      ← map_fst_spends]
    simp

theorem map_fst_spentLocations : (blocks.flatMap IndexedBlock.spentLocations).map Prod.fst =
      (spentOutpoints blocks).map Outpoint.toBytes := by
  rw [spentOutpoints_eq_flatMap, map_map]
  simp only [spentLocations_eq, map_flatMap, map_map]
  rfl

theorem map_fst_txidLocations : (blocks.flatMap IndexedBlock.txidLocations).map Prod.fst =
      ((txsOf blocks).map CompactTxData.txid).map hashBytes := by
  rw [map_flatMap, txsOf, map_map, map_flatMap]
  congr 1
  funext block
  rw [IndexedBlock.txidLocations, map_map]
  conv_rhs => rw [← zipIdx_map_fst 0 block.transactions, map_map]
  rfl

section Reads

variable {hashes : Hashes} {blocks : List IndexedBlock}

/-! ## Tables keyed by height -/

variable (valid : ValidChain hashes blocks)

include valid

theorem ValidChain.map_height : blocks.map IndexedBlock.height = List.range blocks.length := by
  apply ext_getElem?
  intro i
  rw [getElem?_map]
  by_cases inside : i < blocks.length
  · rw [getElem?_range inside, getElem?_eq_getElem inside]
    exact congrArg some (valid.heights i _ (getElem?_eq_getElem inside))
  · rw [getElem?_eq_none (by omega), getElem?_eq_none (by simp; omega)]
    rfl

theorem ValidChain.nodup_height {β : Type} (row : IndexedBlock → β) :
    ((blocks.map fun block => (block.height, row block)).map Prod.fst).Nodup := by
  rw [map_map]
  change (blocks.map IndexedBlock.height).Nodup
  rw [valid.map_height]
  exact nodup_range

theorem getElem?_byHeight {β : Type} (row : IndexedBlock → β) (i : Nat) :
    (byHeight row blocks)[i]? = blocks[i]?.map row := by
  apply Option.ext
  intro value
  rw [byHeight, OrderedMap.getElem?_ofEntries (valid.nodup_height row), mem_map,
    Option.map_eq_some_iff]
  constructor
  · rintro ⟨block, member, same⟩
    obtain ⟨j, found⟩ := mem_iff_getElem?.mp member
    cases same
    rw [valid.heights j block found]
    exact ⟨block, found, rfl⟩
  · rintro ⟨block, found, rfl⟩
    refine ⟨block, mem_of_getElem? found, ?_⟩
    rw [valid.heights i block found]

theorem keys_byHeight {β : Type} (row : IndexedBlock → β) :
    (byHeight row blocks).keys = List.range blocks.length := by
  have ordered : (byHeight row blocks).keys.Pairwise (· < ·) :=
    Std.ExtTreeMap.ordered_keys.imp fun below => Nat.compare_eq_lt.mp below
  have same : (byHeight row blocks).keys.Perm (List.range blocks.length) := by
    rw [perm_ext_iff_of_nodup (ordered.imp Nat.ne_of_lt) nodup_range]
    intro i
    rw [Std.ExtTreeMap.mem_keys, Std.ExtTreeMap.mem_iff_isSome_getElem?,
      getElem?_byHeight valid, Option.isSome_map, mem_range]
    simp
  exact same.eq_of_pairwise (fun _ _ _ _ below above => absurd below (Nat.lt_asymm above)) ordered
    pairwise_lt_range

theorem tipHeight_rowsOf :
    (rowsOf blocks).tipHeight = if blocks = [] then none else some (blocks.length - 1) := by
  rw [Rows.tipHeight, Std.ExtTreeMap.maxKey?_eq_getLast?_keys]
  change (byHeight IndexedBlock.headerData blocks).keys.getLast? = _
  rw [keys_byHeight valid]
  cases blocks with
  | nil => rfl
  | cons block blocks => simp [getLast?_range]

/-! ## The scattered indexes -/

theorem ValidChain.nodup_txidLocations :
    ((blocks.flatMap IndexedBlock.txidLocations).map Prod.fst).Nodup := by
  rw [map_fst_txidLocations]
  exact valid.txids.map fun _ _ => hashBytes_injective

theorem ValidChain.nodup_spentLocations :
    ((blocks.flatMap IndexedBlock.spentLocations).map Prod.fst).Nodup := by
  rw [map_fst_spentLocations]
  exact valid.spends.map fun _ _ => Outpoint.toBytes_injective

variable {tx : CompactTxData}

/-- A transaction of the chain is located where it stands. -/
theorem findTxidIndex_rowsOf {i j : Nat} {block : IndexedBlock}
    (at_height : blocks[i]? = some block) (at_index : block.transactions[j]? = some tx) :
    (rowsOf blocks).findTxidIndex tx.txid = some ⟨i, UInt16.ofNat j⟩ := by
  apply (OrderedMap.getElem?_ofEntries valid.nodup_txidLocations).mpr
  refine mem_flatMap.mpr ⟨block, mem_of_getElem? at_height, ?_⟩
  refine mem_map.mpr ⟨(tx, j), mem_zipIdx_iff_getElem?.mpr at_index, ?_⟩
  rw [valid.heights i block at_height]

omit valid

theorem exists_position (member : tx ∈ txsOf blocks) : ∃ (i j : Nat) (block : IndexedBlock),
      blocks[i]? = some block ∧ block.transactions[j]? = some tx := by
  obtain ⟨block, in_chain, in_block⟩ := mem_flatMap.mp member
  obtain ⟨i, at_height⟩ := mem_iff_getElem?.mp in_chain
  obtain ⟨j, at_index⟩ := mem_iff_getElem?.mp in_block
  exact ⟨i, j, block, at_height, at_index⟩

/-- The row that the location of a transaction of the chain leads to, and the transaction's entry in
it. -/
theorem locate (valid : ValidChain hashes blocks) (member : tx ∈ txsOf blocks) :
    ∃ (location : TxLocation) (list : List (Option TransparentCompactTx)),
      (rowsOf blocks).findTxidIndex tx.txid = some location ∧ location.blockHeight ≤ maxHeight ∧
        (rowsOf blocks).transparent[location.blockHeight]? = some list ∧
          list[location.txIndex.toNat]? = some (transparentData tx.transparent) := by
  obtain ⟨i, j, block, at_height, at_index⟩ := exists_position member
  have i_lt := (List.getElem?_eq_some_iff.mp at_height).1
  have j_lt := (List.getElem?_eq_some_iff.mp at_index).1
  have counted := valid.txCounts block (mem_of_getElem? at_height)
  have index : (UInt16.ofNat j).toNat = j := UInt16.toNat_ofNat_of_lt' (by
    simp only [UInt16.size]
    omega)
  have bounded := valid.bounded
  refine ⟨⟨i, UInt16.ofNat j⟩, block.pairs.map Prod.snd,
    findTxidIndex_rowsOf valid at_height at_index, by dsimp only; omega, ?_, ?_⟩
  · change (byHeight (fun block => block.pairs.map Prod.snd) blocks)[i]? = _
    rw [getElem?_byHeight valid, at_height]
    rfl
  · rw [index, IndexedBlock.pairs, map_map, getElem?_map, at_index]
    rfl

/-- A transaction with an output keeps its transparent part. -/
theorem transparentData_of_output {tx : TransparentCompactTx} {i : Nat} {out : TxOutCompact}
    (found : tx.outputs[i]? = some out) : transparentData tx = some tx := by
  have nonempty : tx.outputs.isEmpty = false := by
    rw [isEmpty_eq_false_iff]
    rintro none
    rw [none] at found
    cases found
  simp [transparentData, nonempty]

section Outputs

variable {tx : CompactTxData} {outpoint : Outpoint} {out : TxOutCompact}

variable (valid : ValidChain hashes blocks) (member : tx ∈ txsOf blocks)

include valid member

/-- Both ways of resolving an outpoint find its output. -/
theorem output_rowsOf (names : tx.txid = outpoint.prevTxid)
    (found : tx.transparent.outputs[outpoint.prevIndex.toNat]? = some out) :
    (rowsOf blocks).getPreviousOutput outpoint = .ok out ∧
      (rowsOf blocks).resolvePrevOutput outpoint = some out := by
  obtain ⟨location, list, located, _, row, entry⟩ := locate valid member
  rw [names] at located
  rw [transparentData_of_output found] at entry
  simp only [Rows.getPreviousOutput, Rows.resolvePrevOutput, located, row, Rows.findTxout, entry,
    Option.join_some, Option.bind_some, found, okOr, and_self]

theorem getTransparentTx_rowsOf :
    (rowsOf blocks).getTransparentTx tx.txid = transparentData tx.transparent := by
  obtain ⟨location, list, located, _, row, entry⟩ := locate valid member
  simp only [Rows.getTransparentTx, located, row, entry, Option.bind_some, Option.join_some]

theorem getTransparent_rowsOf : ∃ location, (rowsOf blocks).findTxidIndex tx.txid = some location ∧
      (rowsOf blocks).getTransparent location = .ok (transparentData tx.transparent) := by
  obtain ⟨location, list, located, bounded, row, entry⟩ := locate valid member
  refine ⟨location, located, ?_⟩
  rw [Rows.getTransparent, if_neg (Nat.not_lt.mpr bounded), row]
  simp only [entry, okOr]

end Outputs

/-- The spent index holds what the chain spends. -/
theorem isSome_getOutpointSpender (valid : ValidChain hashes blocks) (outpoint : Outpoint) :
    ((rowsOf blocks).getOutpointSpender outpoint).isSome = true ↔
      outpoint ∈ spentOutpoints blocks := by
  rw [Option.isSome_iff_exists]
  constructor
  · rintro ⟨location, found⟩
    have entry := (OrderedMap.getElem?_ofEntries valid.nodup_spentLocations).mp found
    have key := mem_map_of_mem (f := Prod.fst) entry
    rw [map_fst_spentLocations] at key
    obtain ⟨other, held, same⟩ := mem_map.mp key
    exact Outpoint.toBytes_injective same ▸ held
  · intro spent
    have key : outpoint.toBytes ∈
        (blocks.flatMap IndexedBlock.spentLocations).map Prod.fst := by
      rw [map_fst_spentLocations]
      exact mem_map_of_mem spent
    obtain ⟨entry, member, same⟩ := mem_map.mp key
    exact ⟨entry.2, (OrderedMap.getElem?_ofEntries valid.nodup_spentLocations).mpr
      (same ▸ member)⟩

/-- A block's spends are held at the block. -/
theorem getOutpointSpender_of_mem (valid : ValidChain hashes blocks) {block : IndexedBlock}
    (member : block ∈ blocks) {spend : Outpoint × TxLocation} (spends : spend ∈ block.spends) :
    (rowsOf blocks).getOutpointSpender spend.1 = some spend.2 := by
  apply (OrderedMap.getElem?_ofEntries valid.nodup_spentLocations).mpr
  refine mem_flatMap.mpr ⟨block, member, ?_⟩
  rw [spentLocations_eq]
  exact mem_map.mpr ⟨spend, spends, rfl⟩

end Reads

end Zaino.ChainStore
