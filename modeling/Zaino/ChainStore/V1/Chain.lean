import Zaino.ChainStore.V1.Write
import Zaino.Library.OutputLedger

/-!
# What a chain's unspent outputs are

The summary that the store keeps is meant to describe, at some height, the spendable outputs that
the chain up to that height creates and does not spend (`txOutSet`). This is stated here for a valid
chain, independently of how the store computes it, together with the law that every builder rests
on: how the summary of a longer chain relates to that of a shorter one (`txOutSet_append`).
-/

namespace Zaino.ChainStore

open Library List

/-! ## Spendable outputs -/

variable {outputs : List TxOutCompact} {entry : Outpoint × TxOutCompact}

theorem mem_spendableEntries {txid : TransactionHash} (fits : outputs.length ≤ 2 ^ 32) :
    entry ∈ spendableEntries txid outputs ↔
      entry.1.prevTxid = txid ∧ outputs[entry.1.prevIndex.toNat]? = some entry.2 ∧
        isUnspendableTxOut entry.2 = false := by
  rw [spendableEntries, mem_filter, mem_mapIdx, Bool.not_eq_true']
  constructor
  · rintro ⟨⟨i, bound, rfl⟩, spendable⟩
    refine ⟨rfl, ?_, spendable⟩
    have index : (UInt32.ofNat i).toNat = i := UInt32.toNat_ofNat_of_lt' (by
      simp only [UInt32.size]
      omega)
    simp [index, bound]
  · rintro ⟨rfl, found, spendable⟩
    obtain ⟨bound, is_out⟩ := List.getElem?_eq_some_iff.mp found
    refine ⟨⟨entry.1.prevIndex.toNat, bound, ?_⟩, spendable⟩
    rw [is_out, UInt32.ofNat_toNat]

theorem prevTxid_of_mem_spendableEntries {txid : TransactionHash}
    (member : entry ∈ spendableEntries txid outputs) : entry.1.prevTxid = txid := by
  obtain ⟨_, _, rfl⟩ := mem_mapIdx.mp (mem_filter.mp member).1
  rfl

theorem nodup_spendableEntries (txid : TransactionHash)
    (fits : outputs.length ≤ 2 ^ 32) : ((spendableEntries txid outputs).map Prod.fst).Nodup := by
  suffices all : ((outputs.mapIdx fun i out =>
      ((⟨txid, UInt32.ofNat i⟩ : Outpoint), out)).map Prod.fst).Nodup from
    all.sublist (filter_sublist.map _)
  rw [nodup_iff_injective_getElem]
  intro i j same
  have i_lt := i.isLt
  have j_lt := j.isLt
  simp only [length_map, length_mapIdx] at i_lt j_lt
  simp only [getElem_map, getElem_mapIdx, Outpoint.mk.injEq, true_and] at same
  have equal := congrArg UInt32.toNat same
  rw [UInt32.toNat_ofNat_of_lt' (by simp only [UInt32.size]; omega),
    UInt32.toNat_ofNat_of_lt' (by simp only [UInt32.size]; omega)] at equal
  exact Fin.ext equal

/-- Transactions, with the spendable outputs they create and the outpoints they spend. -/
def ledger : Ledger CompactTxData TransactionHash Outpoint TxOutCompact where
  id := CompactTxData.txid
  owner := Outpoint.prevTxid
  created tx := spendableEntries tx.txid tx.transparent.outputs
  spent tx := tx.transparent.spentOutpoints
  owned _ _ member := prevTxid_of_mem_spendableEntries member

/-- The transactions of some blocks. -/
def txsOf (blocks : List IndexedBlock) : List CompactTxData :=
  blocks.flatMap IndexedBlock.transactions

theorem txsOf_append (first rest : List IndexedBlock) :
    txsOf (first ++ rest) = txsOf first ++ txsOf rest :=
  flatMap_append

@[simp]
theorem txsOf_singleton (block : IndexedBlock) : txsOf [block] = block.transactions := by
  simp [txsOf]

/-- The spendable outputs that a chain creates and does not spend. -/
def unspentOutputs (blocks : List IndexedBlock) : List (Outpoint × TxOutCompact) :=
  ledger.live (txsOf blocks)

/-- The spendable outputs that some blocks create. -/
def createdOutputs (blocks : List IndexedBlock) : List (Outpoint × TxOutCompact) :=
  ledger.createdBy (txsOf blocks)

/-- What some blocks spend. -/
def spentOutpoints (blocks : List IndexedBlock) : List Outpoint :=
  ledger.spentBy (txsOf blocks)

/-- The summary of the unspent outputs of a chain, and of the transactions that have one. -/
def txOutSet (hashes : Hashes) (blocks : List IndexedBlock) : TxOutSetAccumulator where
  transactions := (txsOf blocks).countP fun tx =>
    (spendableEntries tx.txid tx.transparent.outputs).any fun entry =>
      decide (entry.1 ∉ spentOutpoints blocks)
  transactionOutputs := (unspentOutputs blocks).length
  bytesSerialized := txoutSetEntryLen * (unspentOutputs blocks).length
  hashSerialized := ((unspentOutputs blocks).map fun entry =>
    entryDigest hashes entry.1 entry.2).foldr (· ^^^ ·) 0
  totalZatoshis := ((unspentOutputs blocks).map fun entry => entry.2.value.toNat).sum

variable (hashes : Hashes)

theorem entrySum_hashSerialized (entries : List (Outpoint × TxOutCompact)) :
    (entrySum hashes entries).hashSerialized =
      (entries.map fun entry => entryDigest hashes entry.1 entry.2).foldr (· ^^^ ·) 0 := by
  induction entries with
  | nil => rfl
  | cons entry rest ih => simp [entrySum_cons, ih, entryOf]

theorem txOutSet_eq (blocks : List IndexedBlock) : txOutSet hashes blocks =
      entrySum hashes (unspentOutputs blocks) + carrying (ledger.carriers (txsOf blocks)) := by
  ext1
  · rw [TxOutSetAccumulator.add_transactions, entrySum_transactions, Nat.zero_add]
    rfl
  · simp [entrySum_transactionOutputs, txOutSet, carrying]
  · simp [entrySum_bytesSerialized, txOutSet, carrying]
  · simp [entrySum_hashSerialized, txOutSet, carrying]
  · simp [entrySum_totalZatoshis, txOutSet, carrying]

@[simp]
theorem txOutSet_nil : txOutSet hashes [] = 0 := rfl

/-! ## Valid chains -/

/-- A chain from genesis: heights are positions, blocks are linked, hashes and transaction hashes do
not repeat, nothing is spent twice, and every spend names an output of its own or an earlier block.
Counts are within the widths that the store gives them, and headers commit to the transactions. -/
structure ValidChain (hashes : Hashes) (blocks : List IndexedBlock) : Prop where
  heights : ∀ (i : Nat) (block : IndexedBlock), blocks[i]? = some block → block.height = i
  bounded : blocks.length ≤ maxHeight + 1
  linked : ∀ (i : Nat) (block next : IndexedBlock), blocks[i]? = some block →
    blocks[i + 1]? = some next → next.context.parentHash = block.hash
  blockHashes : (blocks.map IndexedBlock.hash).Nodup
  txids : ((txsOf blocks).map CompactTxData.txid).Nodup
  spends : (spentOutpoints blocks).Nodup
  resolves : ∀ before block after, blocks = before ++ block :: after →
    ∀ outpoint ∈ spentOutpoints [block], ∃ tx ∈ txsOf (before ++ [block]),
      tx.txid = outpoint.prevTxid ∧ outpoint.prevIndex.toNat < tx.transparent.outputs.length
  txCounts : ∀ block ∈ blocks, block.transactions.length ≤ 2 ^ 16
  outputCounts : ∀ tx ∈ txsOf blocks, tx.transparent.outputs.length < 2 ^ 32
  merkleRoots : ∀ block ∈ blocks,
    calculateBlockMerkleRoot hashes block.txids = some block.data.merkleRoot

namespace ValidChain

variable {hashes : Hashes} {first rest : List IndexedBlock}

theorem of_append (valid : ValidChain hashes (first ++ rest)) : ValidChain hashes first where
  heights i block found := valid.heights i block (by
    rw [List.getElem?_append_left (List.getElem?_eq_some_iff.mp found).1]
    exact found)
  bounded := by
    have bounded := valid.bounded
    rw [length_append] at bounded
    omega
  linked i block next found found' := valid.linked i block next
    (by
      rw [List.getElem?_append_left (List.getElem?_eq_some_iff.mp found).1]
      exact found)
    (by
      rw [List.getElem?_append_left (List.getElem?_eq_some_iff.mp found').1]
      exact found')
  blockHashes := valid.blockHashes.sublist ((sublist_append_left _ _).map _)
  txids := by
    have txids := valid.txids
    rw [txsOf_append] at txids
    exact txids.sublist ((sublist_append_left _ _).map _)
  spends := by
    have spends := valid.spends
    rw [spentOutpoints, txsOf_append, Ledger.spentBy_append] at spends
    exact spends.sublist (sublist_append_left _ _)
  resolves before block after split := valid.resolves before block (after ++ rest) (by
    rw [split, append_assoc, cons_append])
  txCounts block member := valid.txCounts block (mem_append_left _ member)
  outputCounts tx member := valid.outputCounts tx (by
    rw [txsOf_append]
    exact mem_append_left _ member)
  merkleRoots block member := valid.merkleRoots block (mem_append_left _ member)

variable {blocks : List IndexedBlock}

/-- Every spend names an output of the chain. -/
theorem exists_output (valid : ValidChain hashes blocks) {outpoint : Outpoint}
    (spent : outpoint ∈ spentOutpoints blocks) : ∃ tx ∈ txsOf blocks, tx.txid = outpoint.prevTxid ∧
      outpoint.prevIndex.toNat < tx.transparent.outputs.length := by
  obtain ⟨tx, member, spends⟩ := ledger.mem_spentBy.mp spent
  obtain ⟨block, in_chain, in_block⟩ := mem_flatMap.mp member
  obtain ⟨before, after, split⟩ := append_of_mem in_chain
  have spent_here : outpoint ∈ spentOutpoints [block] := by
    rw [spentOutpoints, txsOf_singleton]
    exact ledger.mem_spentBy.mpr ⟨tx, in_block, spends⟩
  obtain ⟨source, held, named⟩ := valid.resolves before block after split outpoint spent_here
  refine ⟨source, ?_, named⟩
  rw [split, ← singleton_append, ← append_assoc, txsOf_append]
  exact mem_append_left _ held

theorem nodup_created (valid : ValidChain hashes blocks) :
    ((createdOutputs blocks).map Prod.fst).Nodup :=
  nodup_map_flatMap Outpoint.prevTxid valid.txids
    (fun tx member => nodup_spendableEntries tx.txid (Nat.le_of_lt (valid.outputCounts tx member)))
    fun tx _ _ created => ledger.owned tx _ created

theorem follows (valid : ValidChain hashes (first ++ rest)) :
    ledger.Follows (txsOf first) (txsOf rest) where
  ids := by
    rw [← txsOf_append]
    exact valid.txids
  outputs := by
    rw [← txsOf_append]
    exact valid.nodup_created
  once := by
    rw [← txsOf_append]
    exact valid.spends
  later entry created spent := by
    have distinct := valid.txids
    rw [txsOf_append, map_append, nodup_append'] at distinct
    obtain ⟨tx, member, made⟩ := ledger.mem_createdBy.mp created
    obtain ⟨source, held, named, _⟩ := valid.of_append.exists_output spent
    apply distinct.2.2 (mem_map_of_mem held)
    rw [named, show entry.1.prevTxid = tx.txid from ledger.owned tx entry made]
    exact mem_map_of_mem member
  known outpoint spent := by
    have spent_in_all : outpoint ∈ spentOutpoints (first ++ rest) := by
      rw [spentOutpoints, txsOf_append, Ledger.spentBy_append]
      exact mem_append_right _ spent
    obtain ⟨source, held, named, _⟩ := valid.exists_output spent_in_all
    rw [← txsOf_append]
    exact mem_map.mpr ⟨source, held, named⟩

/-- The transaction that a hash names. -/
theorem tx_unique (valid : ValidChain hashes blocks) {tx tx' : CompactTxData}
    (member : tx ∈ txsOf blocks) (member' : tx' ∈ txsOf blocks)
    (same : tx.txid = tx'.txid) : tx = tx' :=
  inj_on_of_nodup_map valid.txids member member' same

/-- The spendable outputs of a chain, by outpoint. -/
theorem mem_created (valid : ValidChain hashes blocks) {entry : Outpoint × TxOutCompact} :
    entry ∈ createdOutputs blocks ↔ ∃ tx ∈ txsOf blocks, tx.txid = entry.1.prevTxid ∧
      tx.transparent.outputs[entry.1.prevIndex.toNat]? = some entry.2 ∧
        isUnspendableTxOut entry.2 = false := by
  rw [createdOutputs, Ledger.mem_createdBy]
  refine exists_congr fun tx => and_congr_right fun member => ?_
  rw [show ledger.created tx = spendableEntries tx.txid tx.transparent.outputs from rfl,
    mem_spendableEntries (Nat.le_of_lt (valid.outputCounts tx member)), eq_comm]

end ValidChain

/-! ## How the summary grows -/

/-- The outputs that `rest` spends, in some order and each once. -/
structure SpentEntries (first rest : List IndexedBlock) (spent : List (Outpoint × TxOutCompact)) :
    Prop where
  nodup : spent.Nodup
  mem : ∀ entry, entry ∈ spent ↔
    entry.1 ∈ spentOutpoints rest ∧ entry ∈ createdOutputs (first ++ rest)

/-- The transactions of `rest` that still have an unspent output at its end. -/
def enteredBy (first rest : List IndexedBlock) : Nat :=
  (txsOf rest).countP (ledger.carries (spentOutpoints (first ++ rest)))

/-- The transactions of `first` that lose their last unspent output to `rest`. -/
def drainedBy (first rest : List IndexedBlock) : Nat :=
  ledger.drained (txsOf first) (txsOf rest)

/-- The summary of a longer chain, with what was spent and drained, is that of the shorter one with
what was created and entered. -/
theorem txOutSet_append {hashes : Hashes} {first rest : List IndexedBlock}
    (valid : ValidChain hashes (first ++ rest)) {spent : List (Outpoint × TxOutCompact)}
    (entries : SpentEntries first rest spent) :
    txOutSet hashes (first ++ rest) + (entrySum hashes spent + carrying (drainedBy first rest)) =
      txOutSet hashes first +
        (entrySum hashes (createdOutputs rest) + carrying (enteredBy first rest)) := by
  have outputs : (unspentOutputs (first ++ rest) ++ spent).Perm
      (unspentOutputs first ++ createdOutputs rest) := by
    have settled := Ledger.live_append_perm valid.follows entries.nodup fun entry => by
      rw [entries.mem, createdOutputs, txsOf_append]
      rfl
    rw [← txsOf_append] at settled
    exact settled
  have output_sums := entrySum_perm hashes outputs
  rw [entrySum_append, entrySum_append] at output_sums
  have carried : ledger.carriers (txsOf (first ++ rest)) + drainedBy first rest =
      ledger.carriers (txsOf first) + enteredBy first rest := by
    have counted := Ledger.carriers_append (L := ledger) (txsOf first) (txsOf rest)
    rw [← txsOf_append] at counted
    exact counted
  calc txOutSet hashes (first ++ rest) + (entrySum hashes spent + carrying (drainedBy first rest))
      = (entrySum hashes (unspentOutputs (first ++ rest)) + entrySum hashes spent) +
          (carrying (ledger.carriers (txsOf (first ++ rest))) +
            carrying (drainedBy first rest)) := by
        rw [txOutSet_eq, add_add_add_comm]
    _ = (entrySum hashes (unspentOutputs first) + entrySum hashes (createdOutputs rest)) +
          (carrying (ledger.carriers (txsOf first)) + carrying (enteredBy first rest)) := by
        rw [output_sums, ← carrying_add, ← carrying_add, carried]
    _ = txOutSet hashes first +
          (entrySum hashes (createdOutputs rest) + carrying (enteredBy first rest)) := by
        rw [txOutSet_eq, add_add_add_comm]

end Zaino.ChainStore
