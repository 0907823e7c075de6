import Zaino.Library.BigEndian
import Zaino.Library.HashMap
import Zaino.Library.Listing
import Zaino.Primitives

/-!
# Mempool snapshots

A snapshot of the mempool is published whole and never changed. Its index by txid, its txids sorted by their
reversed bytes and its entries in that order describe one set: a snapshot carries the proofs, and `fromEntries`,
which builds one from an index, derives the rest.
-/

namespace Zaino.Mempool

open Library List

/-- The highest value of a 64-bit counter. -/
def maxU64 : Nat := 2 ^ 64 - 1

def saturatingAdd (a b : Nat) : Nat := min (a + b) maxU64

/-- The least that a transaction costs. -/
def mempoolTransactionCostThreshold : Nat := 10000

/-- A transaction in the mempool, with what the validator reported of it. -/
structure MempoolEntry where
  txid : TransactionId
  serializedTx : List UInt8
  rawLen : Nat
  entryHeight : Height
  entryTime : Option Int
  firstSeenGeneration : Nat
  deriving DecidableEq

def txCost (rawLen : Nat) : Nat := max rawLen mempoolTransactionCostThreshold

def MempoolEntry.cost (entry : MempoolEntry) : Nat := txCost entry.rawLen

/-- Entries by txid: an entry stands under its own. -/
structure EntryIndex where
  map : HashMap TransactionId MempoolEntry
  keyed : ∀ txid entry, map.lookup txid = some entry → entry.txid = txid

def EntryIndex.txids (index : EntryIndex) : List TransactionId := index.map.keys

/-- How far the set of a snapshot is the source's. -/
inductive MempoolCompleteness where
  | complete
  | incompleteCapacityLimited
  | incompletePendingMetadata
  | incompleteSourceError
  deriving DecidableEq

/-- The internal bytes of a txid. -/
def txidBytes (txid : TransactionId) : List UInt8 := bigEndian 32 txid.toNat

/-- The bytes of a txid in reverse, by which a suffix of it becomes a prefix. -/
def reversedTxidKey (txid : TransactionId) : List Nat := (txidBytes txid).reverse.map UInt8.toNat

/-- A published set. The sorted txids are those of the index, and the entries stand in their order. -/
structure MempoolSnapshot where
  sourceTip : Option BlockRef
  mempoolGeneration : Nat
  eventSequence : Nat
  byTxid : EntryIndex
  txidsSorted : List TransactionId
  entriesInOrder : List MempoolEntry
  costBytes : Nat
  completeness : MempoolCompleteness
  unadmitted : List TransactionId
  listed : txidsSorted.Perm byTxid.txids
  sorted : txidsSorted.Pairwise fun a b => reversedTxidKey a ≤ reversedTxidKey b
  inOrder : entriesInOrder = txidsSorted.filterMap byTxid.map.lookup

namespace MempoolSnapshot

/-- The next set, built from its index. -/
def fromEntries (previous : MempoolSnapshot) (byTxid : EntryIndex) (sourceTip : Option BlockRef)
    (completeness : MempoolCompleteness) (unadmitted : List TransactionId) : MempoolSnapshot :=
  let txidsSorted := sortByKey reversedTxidKey byTxid.txids
  let entriesInOrder := txidsSorted.filterMap byTxid.map.lookup
  { sourceTip, byTxid, txidsSorted, entriesInOrder, completeness, unadmitted
    mempoolGeneration := saturatingAdd previous.mempoolGeneration 1
    eventSequence := saturatingAdd previous.eventSequence 1
    costBytes := (entriesInOrder.map MempoolEntry.cost).sum % 2 ^ 64
    listed := sortByKey_perm _ _
    sorted := pairwise_sortByKey _ _
    inOrder := rfl }

variable {self : MempoolSnapshot}

theorem nodup_txidsSorted : self.txidsSorted.Nodup :=
  self.listed.nodup_iff.mpr self.byTxid.map.keys_nodup

/-- The entries in order are those of the index. -/
theorem mem_entriesInOrder {entry : MempoolEntry} :
    entry ∈ self.entriesInOrder ↔ self.byTxid.map.lookup entry.txid = some entry := by
  rw [self.inOrder, mem_filterMap]
  refine ⟨?_, fun held => ⟨entry.txid, self.listed.mem_iff.mpr ?_, held⟩⟩
  · rintro ⟨txid, -, held⟩
    rwa [self.byTxid.keyed txid entry held]
  · exact AList.mem_keys.mp (AList.lookup_isSome.mp (Option.isSome_of_eq_some held))

end MempoolSnapshot

end Zaino.Mempool
