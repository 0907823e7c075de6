import Zaino.ChainStore.TxOutSet
import Zaino.Library.OrderedMap
import Zaino.Primitives

/-!
# The tables of the v1 store

The store keeps one row for a block in each of its height-keyed tables, and three indexes beside
them: the height of a block hash, the location of a transaction hash, and the location of the
transaction that spends an outpoint. The summary of the unspent output set is a single record, and
the height it was built to is another, kept apart from it among the metadata.

Rows are modelled decoded. The keys of the three indexes are the stored bytes, since the rebuild of
the summary scans the spent index by them.
-/

namespace Zaino.ChainStore

open Library

/-! ## Blocks -/

structure TxInCompact where
  prevoutTxid : TransactionHash
  prevoutIndex : UInt32
  deriving DecidableEq

/-- The prevout of a coinbase input, which names no output. -/
def TxInCompact.isNullPrevout (input : TxInCompact) : Bool :=
  input.prevoutTxid == 0 && input.prevoutIndex == 0xFFFFFFFF

structure TransparentCompactTx where
  inputs : List TxInCompact
  outputs : List TxOutCompact
  deriving DecidableEq

/-- The outpoints that the inputs of a transaction spend, coinbase inputs left out. -/
def TransparentCompactTx.spentOutpoints (tx : TransparentCompactTx) : List Outpoint :=
  (tx.inputs.filter fun input => !input.isNullPrevout).map fun input =>
    ⟨input.prevoutTxid, input.prevoutIndex⟩

structure SaplingCompactTx where
  value : Option Int
  spends : List (BitVec 256)
  outputs : List (List UInt8)
  deriving DecidableEq

structure OrchardCompactTx where
  value : Option Int
  actions : List (List UInt8)
  deriving DecidableEq

structure CompactTxData where
  txid : TransactionHash
  transparent : TransparentCompactTx
  sapling : SaplingCompactTx
  orchard : OrchardCompactTx
  ironwood : OrchardCompactTx
  deriving DecidableEq

structure BlockContext where
  hash : BlockHash
  parentHash : BlockHash
  height : Nat
  chainwork : Nat
  deriving DecidableEq

/-- A header's merkle root, and its other fields as bytes. -/
structure BlockData where
  merkleRoot : BitVec 256
  rest : List UInt8
  deriving DecidableEq

structure BlockHeaderData where
  context : BlockContext
  data : BlockData
  deriving DecidableEq

/-- The note commitment tree roots and sizes of a block, as bytes. -/
abbrev CommitmentTreeData : Type := List UInt8

structure IndexedBlock where
  context : BlockContext
  data : BlockData
  transactions : List CompactTxData
  commitmentTreeData : CommitmentTreeData
  deriving DecidableEq

structure TxLocation where
  blockHeight : Nat
  txIndex : UInt16
  deriving DecidableEq

/-- A location as an error message shows it. -/
def TxLocation.values (location : TxLocation) : List Nat :=
  [location.blockHeight, location.txIndex.toNat]

/-! ## Errors -/

inductive LmdbError where
  | keyExist
  | notFound
  | mapFull
  | other (code : Int)
  deriving DecidableEq

/-- An error, with the values that its message shows in place of the braces. -/
inductive StoreError where
  | custom (message : String) (values : List Nat)
  | dataUnavailable (message : String)
  | invalidBlock (height : Nat) (hash : BlockHash) (reason : String) (values : List Nat)
  | lmdb (error : LmdbError)
  deriving DecidableEq

/-! ## Keys -/

abbrev RawKey : Type := List UInt8

/-- The 32 bytes of a hash. -/
def hashBytes (hash : BitVec 256) : RawKey :=
  bigEndian 32 hash.toNat

/-- The spent index's key: a version tag, the transaction hash and the index, least significant
byte first. -/
def Outpoint.toBytes (outpoint : Outpoint) : RawKey :=
  1 :: (hashBytes outpoint.prevTxid ++ (bigEndian 4 outpoint.prevIndex.toNat).reverse)

theorem bigEndian_injective {width a b : Nat} (a_fits : a < 256 ^ width) (b_fits : b < 256 ^ width)
    (same : bigEndian width a = bigEndian width b) : a = b := by
  have read := congrArg ofBigEndian same
  rwa [ofBigEndian_bigEndian, ofBigEndian_bigEndian, Nat.mod_eq_of_lt a_fits,
    Nat.mod_eq_of_lt b_fits] at read

theorem hashBytes_injective {a b : BitVec 256} (same : hashBytes a = hashBytes b) : a = b := by
  have fits : ∀ hash : BitVec 256, hash.toNat < 256 ^ 32 := fun hash =>
    Nat.lt_of_lt_of_eq hash.isLt rfl
  exact BitVec.eq_of_toNat_eq (bigEndian_injective (fits a) (fits b) same)

theorem Outpoint.toBytes_injective {a b : Outpoint} (same : a.toBytes = b.toBytes) : a = b := by
  have tails := List.append_inj (List.cons.inj same).2 (by simp [hashBytes])
  have fits : ∀ index : UInt32, index.toNat < 256 ^ 4 := fun index =>
    Nat.lt_of_lt_of_eq index.toNat_lt rfl
  have indices := bigEndian_injective (fits a.prevIndex) (fits b.prevIndex)
    (List.reverse_injective tails.2)
  cases a
  cases b
  simp only [Outpoint.mk.injEq]
  exact ⟨hashBytes_injective tails.1, UInt32.toNat_inj.mp indices⟩

/-! ## Tables -/

/-- The tables that a block is written to. -/
@[ext]
structure Rows where
  headers : OrderedMap Nat BlockHeaderData
  txids : OrderedMap Nat (List TransactionHash)
  transparent : OrderedMap Nat (List (Option TransparentCompactTx))
  sapling : OrderedMap Nat (List (Option SaplingCompactTx))
  orchard : OrderedMap Nat (List (Option OrchardCompactTx))
  ironwood : OrderedMap Nat (List (Option OrchardCompactTx))
  commitmentTreeData : OrderedMap Nat CommitmentTreeData
  heights : OrderedMap RawKey Nat
  txidLocation : OrderedMap RawKey TxLocation
  spent : OrderedMap RawKey TxLocation

def Rows.empty : Rows := ⟨∅, ∅, ∅, ∅, ∅, ∅, ∅, ∅, ∅, ∅⟩

/-- The whole store: the rows, the summary of the unspent outputs, and the height that the metadata
says it was built to. -/
structure DbV1 where
  rows : Rows
  txOutSetInfoAccumulator : Option TxOutSetAccumulator
  txOutSetAccumulatorBuiltHeight : Option Nat

def DbV1.empty : DbV1 := ⟨Rows.empty, none, none⟩

namespace Rows

/-- The highest height that has a header. -/
def tipHeight (rows : Rows) : Option Nat :=
  rows.headers.maxKey?

def findTxidIndex (rows : Rows) (txid : TransactionHash) : Option TxLocation :=
  rows.txidLocation[hashBytes txid]?

/-- One output of a stored list of transactions. -/
def findTxout (list : List (Option TransparentCompactTx)) (txIndex outputIndex : Nat) :
    Option TxOutCompact :=
  list[txIndex]?.join.bind fun tx => tx.outputs[outputIndex]?

def getPreviousOutput (rows : Rows) (outpoint : Outpoint) : Except StoreError TxOutCompact :=
  match rows.findTxidIndex outpoint.prevTxid with
  | none => .error (.custom "Previous txid not found" [])
  | some location =>
    match rows.transparent[location.blockHeight]? with
    | none => .error (.lmdb .notFound)
    | some list =>
      okOr (findTxout list location.txIndex.toNat outpoint.prevIndex.toNat)
        (.custom "Previous output not found at given index" [])

def getTransparent (rows : Rows) (location : TxLocation) :
    Except StoreError (Option TransparentCompactTx) :=
  if maxHeight < location.blockHeight then
    .error (.custom "height must be ≤ 2^31 - 1" [])
  else
    match rows.transparent[location.blockHeight]? with
    | none => .error (.dataUnavailable "transparent data missing from db")
    | some list =>
      okOr list[location.txIndex.toNat]?
        (.custom "tx_index out of range in transparent tx data" [])

def getOutpointSpender (rows : Rows) (outpoint : Outpoint) : Option TxLocation :=
  rows.spent[outpoint.toBytes]?

/-- `get_previous_output` for the range update: absence is an answer. -/
def resolvePrevOutput (rows : Rows) (outpoint : Outpoint) : Option TxOutCompact :=
  (rows.findTxidIndex outpoint.prevTxid).bind fun location =>
    rows.transparent[location.blockHeight]?.bind fun list =>
      findTxout list location.txIndex.toNat outpoint.prevIndex.toNat

def getTransparentTx (rows : Rows) (txid : TransactionHash) : Option TransparentCompactTx :=
  (rows.findTxidIndex txid).bind fun location =>
    rows.transparent[location.blockHeight]?.bind fun list =>
      list[location.txIndex.toNat]?.join

/-- The transaction that the rows of a block say stands at an index. -/
def storedTx (txid : TransactionHash) (transparent : Option TransparentCompactTx)
    (sapling : Option SaplingCompactTx) (orchard ironwood : Option OrchardCompactTx) :
    CompactTxData where
  txid := txid
  transparent := transparent.getD ⟨[], []⟩
  sapling := sapling.getD ⟨none, [], []⟩
  orchard := orchard.getD ⟨none, []⟩
  ironwood := ironwood.getD ⟨none, []⟩

/-- Reassembles a block from its rows. -/
def readChainBlock (rows : Rows) (height : Nat) : Except StoreError IndexedBlock := do
  let missing : StoreError := .dataUnavailable "block data missing from db"
  let header ← okOr rows.headers[height]? missing
  let txids ← okOr rows.txids[height]? missing
  let transparent ← okOr rows.transparent[height]? missing
  let sapling ← okOr rows.sapling[height]? missing
  let orchard ← okOr rows.orchard[height]? missing
  -- Only blocks with ironwood data have a row of it.
  let ironwood := rows.ironwood[height]?.getD []
  let mismatched := transparent.length != txids.length || sapling.length != txids.length ||
    orchard.length != txids.length ||
    (!ironwood.isEmpty && ironwood.length != txids.length)
  if mismatched then
    .error (.custom "mismatched tx list lengths in block data" [])
  else do
    let commitmentTreeData ← okOr rows.commitmentTreeData[height]? missing
    return {
      context := header.context
      data := header.data
      transactions := txids.mapIdx fun i txid =>
        storedTx txid transparent[i]?.join sapling[i]?.join orchard[i]?.join ironwood[i]?.join
      commitmentTreeData }

end Rows

end Zaino.ChainStore
