import Zaino.ChainStore.V1.Chain

/-!
# Laying transactions out as a chain

Lists of transactions, one for each height, make a valid chain when they satisfy what a chain asks
of transactions (`Resolves`): the blocks around them can always be made, since every list of hashes
has a merkle root.
-/

namespace Zaino.ChainStore

open Library List

/-! ## Merkle roots -/

variable (hashes : Hashes)

theorem length_merkleParents (layer : List (BitVec 256)) :
    (merkleParents hashes layer).length = (layer.length + 1) / 2 := by
  fun_induction merkleParents hashes layer with
  | case1 left right rest ih =>
    rw [length_cons, ih, length_cons, length_cons]
    omega
  | case2 left => simp
  | case3 => simp

theorem exists_reduceLayers {fuel : Nat} {layer : List (BitVec 256)}
    (nonempty : layer ≠ []) (enough : layer.length ≤ fuel + 1) :
    ∃ root, reduceLayers hashes fuel layer = some root := by
  induction fuel generalizing layer with
  | zero =>
    match layer with
    | [root] => exact ⟨root, rfl⟩
    | [] => exact absurd rfl nonempty
    | _ :: _ :: _ => simp at enough
  | succ fuel ih =>
    match layer with
    | [root] => exact ⟨root, rfl⟩
    | [] => exact absurd rfl nonempty
    | left :: right :: rest =>
      have parents := length_merkleParents hashes (left :: right :: rest)
      rw [length_cons, length_cons] at enough parents
      refine ih ?_ (by omega)
      rw [← length_pos_iff]
      omega

/-- Hashes, if there are any, have a merkle root. -/
theorem exists_merkleRoot {txids : List TransactionHash} (nonempty : txids ≠ []) :
    ∃ root, calculateBlockMerkleRoot hashes txids = some root :=
  exists_reduceLayers hashes nonempty (Nat.le_succ _)

/-! ## Blocks around transactions -/

/-- The block of some transactions at a height; its hash is the height's successor. -/
def blockAt (hashes : Hashes) (height : Nat) (txs : List CompactTxData) : IndexedBlock where
  context := ⟨BitVec.ofNat 256 (height + 1), BitVec.ofNat 256 height, height, 0⟩
  data := ⟨(calculateBlockMerkleRoot hashes (txs.map CompactTxData.txid)).getD 0, []⟩
  transactions := txs
  commitmentTreeData := []

/-- A transaction with transparent inputs and outputs only. -/
def transferTx (txid : TransactionHash) (spent : List Outpoint) (outputs : List TxOutCompact) :
    CompactTxData :=
  ⟨txid, ⟨spent.map fun outpoint => ⟨outpoint.prevTxid, outpoint.prevIndex⟩, outputs⟩,
    ⟨none, [], []⟩, ⟨none, []⟩, ⟨none, []⟩⟩

/-- The chain of the blocks of some transactions. -/
def chainOf (hashes : Hashes) (layout : List (List CompactTxData)) : List IndexedBlock :=
  layout.mapIdx (blockAt hashes)

/-- What a chain asks of its transactions. -/
structure Resolves (layout : List (List CompactTxData)) : Prop where
  bounded : layout.length ≤ maxHeight + 1
  txids : (layout.flatten.map CompactTxData.txid).Nodup
  spends : (ledger.spentBy layout.flatten).Nodup
  resolves : ∀ i < layout.length, ∀ outpoint ∈ ledger.spentBy (layout.getD i []),
    ∃ tx ∈ (layout.take (i + 1)).flatten,
      tx.txid = outpoint.prevTxid ∧ outpoint.prevIndex.toNat < tx.transparent.outputs.length
  counts : ∀ txs ∈ layout, txs ≠ [] ∧ txs.length ≤ 2 ^ 16
  outputCounts : ∀ tx ∈ layout.flatten, tx.transparent.outputs.length < 2 ^ 32

instance (layout : List (List CompactTxData)) : Decidable (Resolves layout) :=
  decidable_of_iff
    ((layout.length ≤ maxHeight + 1 ∧ (layout.flatten.map CompactTxData.txid).Nodup) ∧
      ((ledger.spentBy layout.flatten).Nodup ∧
        ∀ i < layout.length, ∀ outpoint ∈ ledger.spentBy (layout.getD i []),
          ∃ tx ∈ (layout.take (i + 1)).flatten,
            tx.txid = outpoint.prevTxid ∧
              outpoint.prevIndex.toNat < tx.transparent.outputs.length) ∧
      (∀ txs ∈ layout, txs ≠ [] ∧ txs.length ≤ 2 ^ 16) ∧
        ∀ tx ∈ layout.flatten, tx.transparent.outputs.length < 2 ^ 32)
    ⟨fun all => ⟨all.1.1, all.1.2, all.2.1.1, all.2.1.2, all.2.2.1, all.2.2.2⟩,
      fun all => ⟨⟨all.bounded, all.txids⟩, ⟨all.spends, all.resolves⟩, all.counts,
        all.outputCounts⟩⟩

section Layout

variable (hashes : Hashes) {layout : List (List CompactTxData)}

theorem getElem?_chainOf (layout : List (List CompactTxData)) (i : Nat) :
    (chainOf hashes layout)[i]? = layout[i]?.map (blockAt hashes i) := by
  rw [chainOf, getElem?_mapIdx]

@[simp]
theorem length_chainOf (layout : List (List CompactTxData)) :
    (chainOf hashes layout).length = layout.length := by
  rw [chainOf, length_mapIdx]

theorem map_transactions_chainOf (layout : List (List CompactTxData)) :
    (chainOf hashes layout).map IndexedBlock.transactions = layout := by
  rw [chainOf, map_mapIdx_eq_map (h := id), map_id]
  exact fun _ _ => rfl

theorem txsOf_chainOf (layout : List (List CompactTxData)) :
    txsOf (chainOf hashes layout) = layout.flatten := by
  rw [txsOf, List.flatMap, map_transactions_chainOf]

/-- What resolves makes a valid chain. -/
theorem valid_chainOf (resolves : Resolves layout) : ValidChain hashes (chainOf hashes layout) where
  heights i block found := by
    rw [getElem?_chainOf, Option.map_eq_some_iff] at found
    obtain ⟨txs, _, rfl⟩ := found
    rfl
  bounded := by
    rw [length_chainOf]
    exact resolves.bounded
  linked i block next found found' := by
    rw [getElem?_chainOf, Option.map_eq_some_iff] at found found'
    obtain ⟨txs, _, rfl⟩ := found
    obtain ⟨txs', _, rfl⟩ := found'
    rfl
  blockHashes := by
    rw [nodup_iff_injective_getElem]
    intro i j same
    have i_lt := i.isLt
    have j_lt := j.isLt
    have bounded := resolves.bounded
    simp only [length_map, length_chainOf, maxHeight] at i_lt j_lt bounded
    simp only [getElem_map, chainOf, getElem_mapIdx, IndexedBlock.hash, blockAt] at same
    have numbers := congrArg BitVec.toNat same
    rw [BitVec.toNat_ofNat, BitVec.toNat_ofNat, Nat.mod_eq_of_lt (by omega),
      Nat.mod_eq_of_lt (by omega)] at numbers
    exact Fin.ext (by omega)
  txids := by
    rw [txsOf_chainOf]
    exact resolves.txids
  spends := by
    rw [spentOutpoints, txsOf_chainOf]
    exact resolves.spends
  resolves before block after split outpoint spent := by
    have at_block : (chainOf hashes layout)[before.length]? = some block := by
      rw [split]
      simp
    rw [getElem?_chainOf, Option.map_eq_some_iff] at at_block
    obtain ⟨txs, at_txs, rfl⟩ := at_block
    obtain ⟨bound, _⟩ := List.getElem?_eq_some_iff.mp at_txs
    have held : before ++ [blockAt hashes before.length txs] =
        (chainOf hashes layout).take (before.length + 1) := by
      rw [split, take_append]
      simp
    have taken : txsOf ((chainOf hashes layout).take (before.length + 1)) =
        (layout.take (before.length + 1)).flatten := by
      rw [txsOf, List.flatMap, map_take, map_transactions_chainOf]
    rw [held, taken]
    refine resolves.resolves before.length bound outpoint ?_
    rw [spentOutpoints, txsOf_singleton] at spent
    rw [getD_eq_getElem?_getD, at_txs]
    exact spent
  txCounts block member := by
    obtain ⟨i, bound, rfl⟩ := mem_mapIdx.mp member
    exact (resolves.counts _ (getElem_mem bound)).2
  outputCounts tx member := by
    rw [txsOf_chainOf] at member
    exact resolves.outputCounts tx member
  merkleRoots block member := by
    obtain ⟨i, bound, rfl⟩ := mem_mapIdx.mp member
    have nonempty : layout[i].map CompactTxData.txid ≠ [] := by
      simpa using (resolves.counts _ (getElem_mem bound)).1
    obtain ⟨root, is_root⟩ := exists_merkleRoot hashes nonempty
    change calculateBlockMerkleRoot hashes (layout[i].map CompactTxData.txid) =
      some ((calculateBlockMerkleRoot hashes (layout[i].map CompactTxData.txid)).getD 0)
    rw [is_root, Option.getD_some]

end Layout

end Zaino.ChainStore
