import Zaino.Library.HashMap
import Zaino.Transparent.Ledger
import Zaino.Transparent.Script

/-!
# The transparent indexes

The four indexes an address read composes from: what each address received, which transaction
consumed each outpoint, where each transaction was mined, and each block's inputs and outputs.
`Indexes.build` files blocks one after the other. What the built indexes then answer is read off
the ledger of those blocks: one theorem for each index.
-/

namespace Zaino.Transparent

open Zaino Library List

/-- A key of the address-history index. -/
structure AddrKey where
  addr : AddrId
  height : Nat
  txid : TransactionId
  outputIndex : UInt32
  deriving DecidableEq

/-- Where a transaction was mined. -/
structure TxLocation where
  height : Nat
  txIndex : UInt32
  deriving DecidableEq

/-- The transparent part of one transaction, as stored with its block. -/
structure TransparentTxCompact where
  inputs : List (TransactionId × UInt32)
  outputs : List (Zatoshis × Script)
  deriving DecidableEq

/-! ## What a block files in each index -/

/-- One entry for each output. -/
def addressEntries (block : Block) : List (AddrKey × Zatoshis) :=
  block.transactions.flatMap fun tx =>
    (enumerated tx.transparent.outputs).map fun entry =>
      ({ addr := scriptKey entry.2.script
         height := block.header.height.value
         txid := tx.txid
         outputIndex := entry.1 }, entry.2.value)

/-- One entry for each input. -/
def spendEntries (block : Block) : List (Outpoint × TransactionId) :=
  block.transactions.flatMap fun tx =>
    tx.transparent.inputs.map fun input => (inputOutpoint input, tx.txid)

/-- One entry for each transaction. -/
def locationEntries (block : Block) : List (TransactionId × TxLocation) :=
  (enumerated block.transactions).map fun entry =>
    (entry.2.txid, ⟨block.header.height.value, entry.1⟩)

/-- One entry for the block. -/
def transparentTxs (block : Block) : List TransparentTxCompact :=
  block.transactions.map fun tx =>
    { inputs := tx.transparent.inputs.map fun input => (input.prevTxid, input.prevIndex)
      outputs := tx.transparent.outputs.map fun output => (output.value, output.script) }

/-- The four indexes. -/
structure Indexes where
  addressHistory : HashMap AddrKey Zatoshis
  transparentSpends : HashMap Outpoint TransactionId
  txidLocation : HashMap TransactionId TxLocation
  transparentData : HashMap Nat (List TransparentTxCompact)

namespace Indexes

/-- Indexes of nothing. -/
def empty : Indexes := ⟨∅, ∅, ∅, ∅⟩

/-- File one block. -/
def index (indexes : Indexes) (block : Block) : Indexes where
  addressHistory := indexes.addressHistory.insertAll (addressEntries block)
  transparentSpends := indexes.transparentSpends.insertAll (spendEntries block)
  txidLocation := indexes.txidLocation.insertAll (locationEntries block)
  transparentData :=
    indexes.transparentData.insert block.header.height.value (transparentTxs block)

/-- File blocks one after the other. -/
def build (blocks : List Block) : Indexes :=
  blocks.foldl index empty

/-- Filing blocks one after the other files all their entries. -/
theorem foldl_index (indexes : Indexes) (blocks : List Block) : blocks.foldl index indexes =
      { addressHistory := indexes.addressHistory.insertAll (blocks.flatMap addressEntries)
        transparentSpends := indexes.transparentSpends.insertAll (blocks.flatMap spendEntries)
        txidLocation := indexes.txidLocation.insertAll (blocks.flatMap locationEntries)
        transparentData := indexes.transparentData.insertAll
          (blocks.map fun block => (block.header.height.value, transparentTxs block)) } := by
  induction blocks generalizing indexes with
  | nil => rfl
  | cons block rest ih =>
    rw [foldl_cons, ih]
    simp only [flatMap_cons, HashMap.insertAll_append]
    rfl

end Indexes

namespace Chain

variable (chain : Chain)

/-- The indexes of a chain. -/
def indexes : Indexes := Indexes.build chain.blocks

/-- The key an output is filed under. -/
def receiveKey (receive : TransparentReceive) : AddrKey where
  addr := scriptKey receive.script
  height := receive.height.value
  txid := receive.txid
  outputIndex := receive.outputIndex

/-- Reading off each block's transactions in order reads off the chain's. -/
theorem flatMap_transactions {β : Type} (f : Height → Transaction → List β) :
    (chain.blocks.flatMap fun block => block.transactions.flatMap (f block.header.height)) =
      chain.transactions.flatMap fun located => f located.height located.transaction := by
  unfold transactions transactionsOf
  rw [flatMap_assoc]
  refine flatMap_congr fun block member => ?_
  have all := map_snd_enumerated (chain.counts block member).1
  nth_rewrite 1 [← all]
  rw [locatedIn, flatMap_map, flatMap_map]

theorem addressEntries_eq : chain.blocks.flatMap addressEntries =
      chain.outputs.map fun receive => (receiveKey receive, receive.value) := by
  have read := chain.flatMap_transactions fun height tx =>
    (enumerated tx.transparent.outputs).map fun entry =>
      (({ addr := scriptKey entry.2.script
          height := height.value
          txid := tx.txid
          outputIndex := entry.1 } : AddrKey), entry.2.value)
  refine read.trans ?_
  unfold outputs outputsOf
  rw [map_flatMap]
  refine flatMap_congr fun located _ => ?_
  rw [LocatedTransaction.outputs, map_map]
  rfl

theorem spendEntries_eq : chain.blocks.flatMap spendEntries =
      chain.inputs.map fun spend => (spend.outpoint, spend.spentBy) := by
  have read := chain.flatMap_transactions fun _ tx =>
    tx.transparent.inputs.map fun input => (inputOutpoint input, tx.txid)
  refine read.trans ?_
  unfold inputs inputsOf
  rw [map_flatMap]
  refine flatMap_congr fun located member => ?_
  rcases mem_transactionsOf.mp member with ⟨block, at_block, _, at_index⟩
  have fits := ((chain.counts block at_block).2 _ (mem_of_getElem? at_index)).1
  nth_rewrite 1 [← map_snd_enumerated fits]
  rw [LocatedTransaction.inputs, map_map, map_map]
  rfl

theorem locationEntries_eq : chain.blocks.flatMap locationEntries =
      chain.transactions.map fun located =>
        (located.transaction.txid, ⟨located.height.value, located.blockIndex⟩) := by
  unfold transactions transactionsOf
  rw [map_flatMap]
  refine flatMap_congr fun block _ => ?_
  rw [locatedIn, map_map]
  rfl

/-! ## What the indexes answer -/

/-- The address history files exactly the chain's outputs. -/
theorem lookup_addressHistory {key : AddrKey} {value : Zatoshis} :
    chain.indexes.addressHistory.lookup key = some value ↔
      ∃ receive ∈ chain.outputs, receiveKey receive = key ∧ receive.value = value := by
  have distinct : ((chain.outputs.map fun receive =>
      (receiveKey receive, receive.value)).map Prod.fst).Nodup := by
    rw [map_map]
    refine List.Nodup.of_map (fun key : AddrKey => (⟨key.txid, key.outputIndex⟩ : Outpoint)) ?_
    rw [map_map]
    exact chain.outputs_nodup
  rw [indexes, Indexes.build, Indexes.foldl_index]
  change (HashMap.insertAll ∅ _).lookup key = some value ↔ _
  rw [addressEntries_eq, HashMap.lookup_insertAll_empty distinct]
  simp only [mem_map, Prod.mk.injEq]

/-- The spends index files exactly the chain's inputs. -/
theorem lookup_transparentSpends {outpoint : Outpoint} {txid : TransactionId} :
    chain.indexes.transparentSpends.lookup outpoint = some txid ↔
      ∃ spend ∈ chain.inputs, spend.outpoint = outpoint ∧ spend.spentBy = txid := by
  have distinct : ((chain.inputs.map fun spend =>
      (spend.outpoint, spend.spentBy)).map Prod.fst).Nodup := by
    rw [map_map]
    exact chain.inputs_nodup
  rw [indexes, Indexes.build, Indexes.foldl_index]
  change (HashMap.insertAll ∅ _).lookup outpoint = some txid ↔ _
  rw [spendEntries_eq, HashMap.lookup_insertAll_empty distinct]
  simp only [mem_map, Prod.mk.injEq]

/-- The location index files exactly the chain's transactions. -/
theorem lookup_txidLocation {txid : TransactionId} {location : TxLocation} :
    chain.indexes.txidLocation.lookup txid = some location ↔
      ∃ located ∈ chain.transactions, located.transaction.txid = txid ∧
        ⟨located.height.value, located.blockIndex⟩ = location := by
  have distinct : ((chain.transactions.map fun located =>
      (located.transaction.txid,
        (⟨located.height.value, located.blockIndex⟩ : TxLocation))).map Prod.fst).Nodup := by
    rw [map_map]
    exact chain.transactions_nodup
  rw [indexes, Indexes.build, Indexes.foldl_index]
  change (HashMap.insertAll ∅ _).lookup txid = some location ↔ _
  rw [locationEntries_eq, HashMap.lookup_insertAll_empty distinct]
  simp only [mem_map, Prod.mk.injEq]

/-- The transparent-data index files exactly the chain's blocks. -/
theorem lookup_transparentData {height : Nat} {txs : List TransparentTxCompact} :
    chain.indexes.transparentData.lookup height = some txs ↔
      ∃ block ∈ chain.blocks, block.header.height.value = height ∧ transparentTxs block = txs := by
  have distinct : ((chain.blocks.map fun block =>
      (block.header.height.value, transparentTxs block)).map Prod.fst).Nodup := by
    rw [map_map]
    exact chain.heights
  rw [indexes, Indexes.build, Indexes.foldl_index]
  change (HashMap.insertAll ∅ _).lookup height = some txs ↔ _
  rw [HashMap.lookup_insertAll_empty distinct]
  simp only [mem_map, Prod.mk.injEq]

end Chain

end Zaino.Transparent
