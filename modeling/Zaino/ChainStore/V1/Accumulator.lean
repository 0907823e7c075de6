import Zaino.ChainStore.V1.Tables
import Zaino.Library.HashMap

/-!
# The three builders of the output set summary

The summary of the unspent outputs is brought up to a block in one of three ways. A block that is
written or deleted on its own moves it by that block's delta (`calculateAfterBlock`,
`calculateAfterDeleteBlock`). A run of blocks written without it is made up for by the delta of the
whole range (`updateForRange`). And it can be computed from nothing by scanning the chain once for
each shard of the transaction hashes, halving a shard whose spent outpoints exceed a cap
(`buildBlocking`).

Hash maps are visited in an order of their own, which the functions take as an argument.
-/

namespace Zaino.ChainStore

open Library TxOutSetAccumulator TransparentCompactTx List

/-- A block's transactions, each with its transparent part when it has one. -/
abbrev TransparentPairs : Type := List (TransactionHash × Option TransparentCompactTx)

/-- What a block spends, each outpoint with the location of the transaction that spends it. -/
abbrev SpentMap : Type := List (Outpoint × TxLocation)

inductive AccumulatorDirection where
  | apply
  | reverse
  deriving DecidableEq

/-- The orders in which the maps of an update are visited. -/
structure Visits where
  spentMap : IterationOrder (Outpoint × TxLocation)
  createdCounts : IterationOrder (TransactionHash × Nat)
  spendableCounts : IterationOrder (TransactionHash × Nat)
  spentIndices : IterationOrder (TransactionHash × List UInt32)
  createdOutpoints : IterationOrder (TransactionHash × List Outpoint)
  priorTxids : IterationOrder TransactionHash

def Visits.listed : Visits :=
  ⟨.listed _, .listed _, .listed _, .listed _, .listed _, .listed _⟩

/-- The entries of a map as pairs. -/
def pairsOf {K V : Type} (m : HashMap K V) : List (K × V) :=
  m.entries.map fun entry => (entry.1, entry.2)

namespace AccumulatorDirection

/-- Steps a counter by what a block creates. -/
def enter (direction : AccumulatorDirection) (field amount : Nat) : Option Nat :=
  match direction with
  | .apply => checkedAdd field amount
  | .reverse => checkedSub field amount

/-- Steps a counter by what a block spends. -/
def leave (direction : AccumulatorDirection) (field amount : Nat) : Option Nat :=
  match direction with
  | .apply => checkedSub field amount
  | .reverse => checkedAdd field amount

end AccumulatorDirection

/-- The spendable outputs of a transaction, by their outpoints. -/
def spendableEntries (txid : TransactionHash) (outputs : List TxOutCompact) :
    List (Outpoint × TxOutCompact) :=
  (outputs.mapIdx fun i out => ((⟨txid, UInt32.ofNat i⟩ : Outpoint), out)).filter fun entry =>
    !isUnspendableTxOut entry.2

/-! ## The delta of a block -/

section Delta

variable (hashes : Hashes)

def applyTxOutSetEntryDelta (adding : Bool) (acc : TxOutSetAccumulator)
    (entry : Outpoint × TxOutCompact) : Except StoreError TxOutSetAccumulator := do
  let hashSerialized := acc.hashSerialized ^^^ entryDigest hashes entry.1 entry.2
  if adding then
    let totalZatoshis ← okOr (checkedAdd acc.totalZatoshis entry.2.value.toNat)
      (.custom "txout-set accumulator total_zatoshis overflow" [])
    let bytesSerialized ← okOr (checkedAdd acc.bytesSerialized txoutSetEntryLen)
      (.custom "txout-set accumulator bytes_serialized overflow" [])
    return { acc with hashSerialized, totalZatoshis, bytesSerialized }
  else
    let totalZatoshis ← okOr (checkedSub acc.totalZatoshis entry.2.value.toNat)
      (.custom "txout-set accumulator total_zatoshis underflow" [])
    let bytesSerialized ← okOr (checkedSub acc.bytesSerialized txoutSetEntryLen)
      (.custom "txout-set accumulator bytes_serialized underflow" [])
    return { acc with hashSerialized, totalZatoshis, bytesSerialized }

def applyTxOutSetEntriesDelta (acc : TxOutSetAccumulator)
    (entries : List (Outpoint × TxOutCompact)) (adding : Bool) :
    Except StoreError TxOutSetAccumulator :=
  entries.foldlM (applyTxOutSetEntryDelta hashes adding) acc

def applyEntryDeltas (acc : TxOutSetAccumulator)
    (createdEntries spentEntries : List (Outpoint × TxOutCompact))
    (direction : AccumulatorDirection) : Except StoreError TxOutSetAccumulator := do
  let acc ← applyTxOutSetEntriesDelta hashes acc createdEntries (direction == .apply)
  applyTxOutSetEntriesDelta hashes acc spentEntries (direction == .reverse)

end Delta

/-- One transaction that the block created: its spent indices are in range, and it counts when a
spendable output of it is left. -/
def stepCreated (spendableCounts : HashMap TransactionHash Nat)
    (spentIndicesByTx : HashMap TransactionHash (List UInt32))
    (spendableSpentCountByTx : HashMap TransactionHash Nat) (direction : AccumulatorDirection)
    (acc : TxOutSetAccumulator) (created : TransactionHash × Nat) :
    Except StoreError TxOutSetAccumulator := do
  match ((spentIndicesByTx.lookup created.1).getD []).find? fun index =>
      decide (created.2 ≤ index.toNat) with
  | some index =>
    .error (.custom ("txout-set accumulator cannot be calculated: transaction \x7b\x7d spends " ++
      "same-block output index \x7b\x7d, but the transaction only has \x7b\x7d transparent outputs")
      [created.1.toNat, index.toNat, created.2])
  | none =>
    let spentCount := (spendableSpentCountByTx.lookup created.1).getD 0
    let spendableCount := (spendableCounts.lookup created.1).getD 0
    if spentCount < spendableCount then
      let transactions ← okOr (direction.enter acc.transactions 1)
        (.custom "txout-set accumulator transaction count underflow or overflow" [])
      return { acc with transactions }
    else
      return acc

def applyInBlockTransitions (visits : Visits) (acc : TxOutSetAccumulator)
    (createdCounts spendableCounts : HashMap TransactionHash Nat)
    (spentIndicesByTx : HashMap TransactionHash (List UInt32))
    (spendableSpentCountByTx : HashMap TransactionHash Nat) (spentTotalOutputs : Nat)
    (direction : AccumulatorDirection) : Except StoreError TxOutSetAccumulator := do
  let createdTotal ← (visits.spendableCounts.order (pairsOf spendableCounts)).foldlM
    (fun total count => okOr (checkedAdd total count.2)
      (.custom "txout-set accumulator created output count overflow" [])) 0
  let transactionOutputs ←
    okOr ((direction.enter acc.transactionOutputs createdTotal).bind fun entered =>
        direction.leave entered spentTotalOutputs)
      (.custom "txout-set accumulator transaction output count underflow or overflow" [])
  (visits.createdCounts.order (pairsOf createdCounts)).foldlM
    (stepCreated spendableCounts spentIndicesByTx spendableSpentCountByTx direction)
    { acc with transactionOutputs }

/-- Counts the outputs of one transaction: all of them, and the spendable ones. -/
def addCreatedOutputs (maps : HashMap TransactionHash Nat × HashMap TransactionHash Nat)
    (pair : TransactionHash × Option TransparentCompactTx) :
    Except StoreError (HashMap TransactionHash Nat × HashMap TransactionHash Nat) :=
  let outputs := (pair.2.map outputs).getD []
  let spendable := (outputs.filter fun out => !isUnspendableTxOut out).length
  if 2 ^ 32 ≤ outputs.length then
    .error (.custom ("txout-set accumulator cannot be calculated: transparent output count " ++
      "does not fit into u32") [])
  else if 2 ^ 32 ≤ spendable then
    .error (.custom ("txout-set accumulator cannot be calculated: spendable output count " ++
      "does not fit into u32") [])
  else if pair.1 ∈ maps.1 then
    .error (.custom ("txout-set accumulator cannot be calculated: duplicate transaction hash " ++
      "in block: \x7b\x7d") [pair.1.toNat])
  else
    .ok (maps.1.insert pair.1 outputs.length, maps.2.insert pair.1 spendable)

/-- Counts a block's outputs by transaction. -/
def indexCreatedOutputs (transactions : TransparentPairs) :
    Except StoreError (HashMap TransactionHash Nat × HashMap TransactionHash Nat) :=
  transactions.foldlM addCreatedOutputs (∅, ∅)

/-- Adds a spend to the indices spent of its transaction. -/
def addSpentIndex (byTx : HashMap TransactionHash (List UInt32)) (spend : Outpoint × TxLocation) :
    Except StoreError (HashMap TransactionHash (List UInt32)) :=
  let indices := (byTx.lookup spend.1.prevTxid).getD []
  if spend.1.prevIndex ∈ indices then
    .error (.custom ("txout-set accumulator cannot be calculated: duplicate transparent spend " ++
      "for outpoint \x7b\x7d") [spend.1.prevTxid.toNat, spend.1.prevIndex.toNat])
  else
    .ok (byTx.insert spend.1.prevTxid (spend.1.prevIndex :: indices))

/-- Groups what a block spends by the transaction it is spent from. -/
def indexSpentOutpoints (visits : Visits) (spentMap : SpentMap) :
    Except StoreError (HashMap TransactionHash (List UInt32) × SpentMap) := do
  let spentOutpoints := visits.spentMap.order spentMap
  let byTx ← spentOutpoints.foldlM addSpentIndex ∅
  return (byTx, spentOutpoints)

/-- The output that a spend consumes: of this block when the block created its transaction, and
otherwise from the tables. -/
def resolveSpentOutpoint (rows : Rows) (transactions : TransparentPairs)
    (txidToBlockIndex : HashMap TransactionHash Nat) (outpoint : Outpoint) :
    Except StoreError (Outpoint × TxOutCompact) :=
  match txidToBlockIndex.lookup outpoint.prevTxid with
  | some blockTxIndex =>
    match (transactions[blockTxIndex]?.bind Prod.snd) with
    | none =>
      .error (.custom ("txout-set accumulator cannot be calculated: same-block spend of \x7b\x7d " ++
        "has no transparent transaction data") [outpoint.prevTxid.toNat])
    | some tx =>
      match tx.outputs[outpoint.prevIndex.toNat]? with
      | none =>
        .error (.custom ("txout-set accumulator cannot be calculated: same-block spend of " ++
          "\x7b\x7d index \x7b\x7d out of range")
          [outpoint.prevTxid.toNat, outpoint.prevIndex.toNat])
      | some out => .ok (outpoint, out)
  | none => do
    let out ← rows.getPreviousOutput outpoint
    return (outpoint, out)

/-- How many of the entries each transaction has. -/
def countByTx (entries : List (Outpoint × TxOutCompact)) : HashMap TransactionHash Nat :=
  entries.foldl
    (fun (counts : HashMap TransactionHash Nat) entry =>
      counts.insert entry.1.prevTxid ((counts.lookup entry.1.prevTxid).getD 0 + 1)) ∅

/-- A block's created entries, its spent entries and how many of these each transaction has. -/
def buildEntryData (visits : Visits) (rows : Rows) (transactions : TransparentPairs)
    (spentMap : SpentMap) :
    Except StoreError (List (Outpoint × TxOutCompact) × List (Outpoint × TxOutCompact) ×
      HashMap TransactionHash Nat) := do
  let createdEntries := transactions.flatMap fun pair =>
    spendableEntries pair.1 ((pair.2.map outputs).getD [])
  let txidToBlockIndex :=
    HashMap.insertAll ∅ (transactions.mapIdx fun i pair => (pair.1, i))
  let resolved ← ((visits.spentMap.order spentMap).map Prod.fst).mapM
    (resolveSpentOutpoint rows transactions txidToBlockIndex)
  let spentEntries := resolved.filter fun entry => !isUnspendableTxOut entry.2
  return (createdEntries, spentEntries, countByTx spentEntries)

/-- One transaction that the block spends from: when another block created it, it leaves the set
unless a spendable output of it is left that neither this block spends nor the spent index holds. -/
def stepPrior (rows : Rows) (createdInBlock : HashMap TransactionHash Nat)
    (direction : AccumulatorDirection) (acc : TxOutSetAccumulator)
    (spent : TransactionHash × List UInt32) : Except StoreError TxOutSetAccumulator := do
  if spent.1 ∈ createdInBlock then
    return acc
  else
    match rows.findTxidIndex spent.1 with
    | none =>
      .error (.custom ("txout-set accumulator cannot be calculated: spent transaction \x7b\x7d is " ++
        "missing from the txid index") [spent.1.toNat])
    | some location =>
      match ← rows.getTransparent location with
      | none =>
        .error (.custom ("txout-set accumulator cannot be calculated: spent transaction \x7b\x7d " ++
          "has no transparent transaction data") [spent.1.toNat])
      | some tx =>
        if 2 ^ 32 ≤ tx.outputs.length then
          .error (.custom ("txout-set accumulator previous transparent output count does not fit " ++
            "into u32") [])
        else
          match spent.2.find? fun index => decide (tx.outputs.length ≤ index.toNat) with
          | some index =>
            .error (.custom ("txout-set accumulator cannot be calculated: transaction \x7b\x7d " ++
              "spends output index \x7b\x7d, but the previous transaction only has \x7b\x7d " ++
              "transparent outputs") [spent.1.toNat, index.toNat, tx.outputs.length])
          | none =>
            let remainingOutpoints := ((spendableEntries spent.1 tx.outputs).map Prod.fst).filter
              fun outpoint => !decide (outpoint.prevIndex ∈ spent.2)
            let leavesSet := remainingOutpoints.all fun outpoint =>
              (rows.getOutpointSpender outpoint).isSome
            if leavesSet then
              let transactions ← okOr (direction.leave acc.transactions 1)
                (.custom "txout-set accumulator transaction count underflow or overflow" [])
              return { acc with transactions }
            else
              return acc

def applyPriorBlockTransitions (visits : Visits) (rows : Rows) (acc : TxOutSetAccumulator)
    (spentIndicesByTx : HashMap TransactionHash (List UInt32))
    (createdInBlock : HashMap TransactionHash Nat) (direction : AccumulatorDirection) :
    Except StoreError TxOutSetAccumulator :=
  (visits.spentIndices.order (pairsOf spentIndicesByTx)).foldlM
    (stepPrior rows createdInBlock direction) acc

/-- Moves the summary by a block, in either direction, once the spends were checked. -/
def applyTransitions (hashes : Hashes) (visits : Visits) (rows : Rows) (acc : TxOutSetAccumulator)
    (transactions : TransparentPairs) (spentMap : SpentMap)
    (createdCounts spendableCounts : HashMap TransactionHash Nat)
    (spentIndicesByTx : HashMap TransactionHash (List UInt32))
    (direction : AccumulatorDirection) : Except StoreError TxOutSetAccumulator := do
  let (createdEntries, spentEntries, spendableSpentCountByTx) ←
    buildEntryData visits rows transactions spentMap
  let acc ← applyInBlockTransitions visits acc createdCounts spendableCounts spentIndicesByTx
    spendableSpentCountByTx spentEntries.length direction
  let acc ← applyPriorBlockTransitions visits rows acc spentIndicesByTx createdCounts direction
  applyEntryDeltas hashes acc createdEntries spentEntries direction

/-- What the block spends from other blocks is not spent yet. -/
def checkUnspent (rows : Rows) (createdCounts : HashMap TransactionHash Nat)
    (spentOutpoints : SpentMap) : Except StoreError Unit :=
  match spentOutpoints.find? fun spend =>
      !decide (spend.1.prevTxid ∈ createdCounts) && (rows.getOutpointSpender spend.1).isSome with
  | some spend =>
    .error (.custom ("txout-set accumulator cannot be calculated: block spends already-spent " ++
      "outpoint \x7b\x7d; existing spender is \x7b\x7d")
      ([spend.1.prevTxid.toNat, spend.1.prevIndex.toNat] ++
        ((rows.getOutpointSpender spend.1).map TxLocation.values).getD []))
  | none => .ok ()

/-- What the block spends is held in the spent index, at this block. -/
def checkSpentHere (rows : Rows) (spentOutpoints : SpentMap) : Except StoreError Unit :=
  match spentOutpoints.find? fun spend =>
      !decide (rows.getOutpointSpender spend.1 = some spend.2) with
  | some spend =>
    match rows.getOutpointSpender spend.1 with
    | none =>
      .error (.custom ("txout-set accumulator cannot be reversed: spent index missing outpoint " ++
        "\x7b\x7d") [spend.1.prevTxid.toNat, spend.1.prevIndex.toNat])
    | some spender =>
      .error (.custom ("txout-set accumulator cannot be reversed: outpoint \x7b\x7d is spent by " ++
        "\x7b\x7d, expected \x7b\x7d")
        ([spend.1.prevTxid.toNat, spend.1.prevIndex.toNat] ++ spender.values ++ spend.2.values))
  | none => .ok ()

/-- The summary that a block starts from: a missing one is allowed for the first block only. -/
def accumulatorBefore (db : DbV1) (blockHeight : Nat) : Except StoreError TxOutSetAccumulator :=
  match db.txOutSetInfoAccumulator with
  | some acc => .ok acc
  | none =>
    if db.rows.tipHeight = none ∧ blockHeight = 0 then
      .ok empty
    else
      .error (.custom "txout-set accumulator missing from non-empty database" [])

/-- The summary after the block that is being written. -/
def calculateAfterBlock (hashes : Hashes) (visits : Visits) (db : DbV1) (blockHeight : Nat)
    (transactions : TransparentPairs) (spentMap : SpentMap) :
    Except StoreError TxOutSetAccumulator := do
  let acc ← accumulatorBefore db blockHeight
  let (createdCounts, spendableCounts) ← indexCreatedOutputs transactions
  let (spentIndicesByTx, spentOutpoints) ← indexSpentOutpoints visits spentMap
  checkUnspent db.rows createdCounts spentOutpoints
  applyTransitions hashes visits db.rows acc transactions spentMap createdCounts spendableCounts
    spentIndicesByTx .apply

/-- The summary after the tip block, still in the tables, is deleted. -/
def calculateAfterDeleteBlock (hashes : Hashes) (visits : Visits) (db : DbV1)
    (transactions : TransparentPairs) (spentMap : SpentMap) :
    Except StoreError TxOutSetAccumulator := do
  let acc ← okOr db.txOutSetInfoAccumulator
    (.custom "txout-set accumulator missing while deleting block" [])
  let (createdCounts, spendableCounts) ← indexCreatedOutputs transactions
  let (spentIndicesByTx, spentOutpoints) ← indexSpentOutpoints visits spentMap
  checkSpentHere db.rows spentOutpoints
  applyTransitions hashes visits db.rows acc transactions spentMap createdCounts spendableCounts
    spentIndicesByTx .reverse

/-! ## The delta of a range -/

/-- What the first pass over a range collects. -/
structure RangeScan where
  acc : TxOutSetAccumulator
  rangeTxids : List TransactionHash
  rangeOutputs : HashMap Outpoint TxOutCompact
  createdOutpointsByTx : HashMap TransactionHash (List Outpoint)
  spends : List Outpoint

section Range

variable (hashes : Hashes)

/-- Reads the transparent rows of a height, each transaction with its hash. -/
def Rows.transparentAt (rows : Rows) (height : Nat) : Except StoreError TransparentPairs := do
  let transparent ← okOr rows.transparent[height]? (.lmdb .notFound)
  let txids ← okOr rows.txids[height]? (.lmdb .notFound)
  if txids.length < transparent.length then
    .error (.custom "txid/transparent length mismatch at height \x7b\x7d" [height])
  else
    return txids.zip transparent

def toStoreError {α : Type} (outcome : Except AccumulatorDeltaError α) : Except StoreError α :=
  outcome.mapError fun error => .custom error.message []

/-- Adds the spendable outputs of one transaction of the range and notes what it spends. -/
def scanTx (scan : RangeScan) (pair : TransactionHash × Option TransparentCompactTx) :
    Except StoreError RangeScan :=
  let scan := { scan with rangeTxids := pair.1 :: scan.rangeTxids }
  match pair.2 with
  | none => .ok scan
  | some tx => do
    let entries := spendableEntries pair.1 tx.outputs
    let acc ← toStoreError
      (entries.foldlM (applyAddedOutput hashes) scan.acc)
    return { scan with
      acc
      rangeOutputs := scan.rangeOutputs.insertAll entries
      createdOutpointsByTx :=
        if entries.isEmpty then scan.createdOutpointsByTx
        else scan.createdOutpointsByTx.insert pair.1
          ((scan.createdOutpointsByTx.lookup pair.1).getD [] ++ entries.map Prod.fst)
      spends := scan.spends ++ tx.spentOutpoints }

def scanHeight (rows : Rows) (scan : RangeScan) (height : Nat) : Except StoreError RangeScan := do
  let pairs ← rows.transparentAt height
  pairs.foldlM (scanTx hashes) scan

/-- Removes one spend: from the range's own outputs, where a miss means that the output is
unspendable, or from the tables. -/
def removeSpend (rows : Rows) (scan : RangeScan) (state : TxOutSetAccumulator × List TransactionHash)
    (outpoint : Outpoint) : Except StoreError (TxOutSetAccumulator × List TransactionHash) :=
  if outpoint.prevTxid ∈ scan.rangeTxids then
    match scan.rangeOutputs.lookup outpoint with
    | none => .ok state
    | some out => do
      let acc ← toStoreError
        (applyRemovedOutput hashes state.1 (outpoint, out))
      return (acc, state.2)
  else
    match rows.resolvePrevOutput outpoint with
    | none =>
      .error (.custom "incremental accumulator update: previous output \x7b\x7d not found"
        [outpoint.prevTxid.toNat, outpoint.prevIndex.toNat])
    | some out =>
      if isUnspendableTxOut out then .ok state
      else do
        let acc ← toStoreError
          (applyRemovedOutput hashes state.1 (outpoint, out))
        return (acc, state.2.insert outpoint.prevTxid)

/-- Whether the spent index holds nothing for an outpoint. -/
def Rows.isOutpointUnspent (rows : Rows) (outpoint : Outpoint) : Bool :=
  (rows.getOutpointSpender outpoint).isNone

/-- Whether every spendable output of an earlier transaction is spent. -/
def allSpent (rows : Rows) (txid : TransactionHash) : Except StoreError Bool :=
  match rows.getTransparentTx txid with
  | none =>
    .error (.custom "incremental accumulator update: spent transaction \x7b\x7d missing"
      [txid.toNat])
  | some tx =>
    .ok ((spendableEntries txid tx.outputs).all fun entry => !rows.isOutpointUnspent entry.1)

/-- A transaction count moved by a difference, through `i64`. -/
def moveTransactions (transactions : Nat) (delta : Int) : Option Nat :=
  if transactions < 2 ^ 63 ∧ -2 ^ 63 ≤ (transactions : Int) + delta ∧
      (transactions : Int) + delta < 2 ^ 63 ∧ 0 ≤ (transactions : Int) + delta then
    some ((transactions : Int) + delta).toNat
  else none

/-- The summary at `tip`, from the one at `built` and the blocks between. -/
def accumulateRange (visits : Visits) (rows : Rows) (acc : TxOutSetAccumulator) (built tip : Nat) :
    Except StoreError TxOutSetAccumulator := do
  let scan ← (range' (built + 1) (tip - built)).foldlM (scanHeight hashes rows)
    ⟨acc, [], ∅, ∅, []⟩
  let (acc, priorSpentTxids) ← scan.spends.foldlM (removeSpend hashes rows scan) (scan.acc, [])
  let entered := (visits.createdOutpoints.order (pairsOf scan.createdOutpointsByTx)).countP
    fun created => created.2.any rows.isOutpointUnspent
  let left ← (visits.priorTxids.order priorSpentTxids).mapM (allSpent rows)
  let transactions ← okOr (moveTransactions acc.transactions ((entered : Int) - left.count true))
    (.custom "txout-set accumulator transactions delta under/overflow" [])
  return { acc with transactions }

/-- Stores a summary with the height it was built to, in a transaction that may fail. -/
def DbV1.persistAccumulator (fault : Option LmdbError) (db : DbV1) (acc : TxOutSetAccumulator)
    (height : Nat) : Except StoreError DbV1 :=
  match fault with
  | some error => .error (.lmdb error)
  | none => .ok ⟨db.rows, some acc, some height⟩

/-- Brings the stored summary from `built` to `tip`. -/
def updateForRange (visits : Visits) (fault : Option LmdbError) (db : DbV1) (built tip : Nat) :
    Except StoreError DbV1 := do
  let acc ← okOr db.txOutSetInfoAccumulator
    (.custom "txout-set accumulator missing during incremental update" [])
  let acc ← accumulateRange hashes visits db.rows acc built tip
  db.persistAccumulator fault acc tip

end Range

/-! ## The sharded rebuild -/

section Rebuild

variable (hashes : Hashes)

/-- The first stored byte of a transaction hash. -/
def firstByte (txid : TransactionHash) : Nat :=
  txid.toNat / 256 ^ 31

/-- The smallest key that a shard's spends can have. -/
def shardLowerBound (lo : Nat) : RawKey :=
  Outpoint.toBytes ⟨BitVec.ofNat 256 (lo * 256 ^ 31), 0⟩

/-- Walks the keys of the spent index from a shard's lower bound, and gives up when it holds as many
as the cap allows and meets another. -/
def loadSpentSet (lo hi maxSpentEntries : Nat) : List RawKey → List RawKey → Option (List RawKey)
  | spentSet, [] => some spentSet
  | spentSet, key :: rest =>
    match key[1]? with
    | none => loadSpentSet lo hi maxSpentEntries spentSet rest
    | some byte =>
      if hi ≤ byte.toNat then some spentSet
      else if lo ≤ byte.toNat then
        if maxSpentEntries ≤ spentSet.length then none
        else loadSpentSet lo hi maxSpentEntries (key :: spentSet) rest
      else loadSpentSet lo hi maxSpentEntries spentSet rest

/-- Adds what one transaction contributes to its shard. -/
def accumulateShardTx (spentSet : List RawKey) (acc : TxOutSetAccumulator)
    (pair : TransactionHash × Option TransparentCompactTx) :
    Except StoreError TxOutSetAccumulator := do
  let unspent := (spendableEntries pair.1 ((pair.2.map outputs).getD [])).filter
    fun entry => !decide (entry.1.toBytes ∈ spentSet)
  let acc ← toStoreError (unspent.foldlM (applyAddedOutput hashes) acc)
  if unspent.isEmpty then return acc
  else
    let transactions ← okOr (checkedAdd acc.transactions 1)
      (.custom "txout-set accumulator transactions overflow" [])
    return { acc with transactions }

def accumulateShardHeight (rows : Rows) (lo hi : Nat) (spentSet : List RawKey)
    (acc : TxOutSetAccumulator) (height : Nat) : Except StoreError TxOutSetAccumulator := do
  if maxHeight < height then .error (.custom "height must be ≤ 2^31 - 1" [])
  else
    let pairs ← rows.transparentAt height
    (pairs.filter fun pair => decide (lo ≤ firstByte pair.1) && decide (firstByte pair.1 < hi)).foldlM
      (accumulateShardTx hashes spentSet) acc

/-- The part of the summary that the hashes with a first byte in `lo ≤ byte < hi` contribute, or
`none` when their spends exceed the cap. -/
def accumulateShardBlocking (rows : Rows) (dbTip lo hi maxSpentEntries : Nat) :
    Except StoreError (Option TxOutSetAccumulator) :=
  let keys := (rows.spent.toList.map Prod.fst).filter fun key =>
    (compare (shardLowerBound lo) key).isLE
  match loadSpentSet lo hi maxSpentEntries [] keys with
  | none => .ok none
  | some spentSet => do
    let acc ← (range (dbTip + 1)).foldlM (accumulateShardHeight hashes rows lo hi spentSet)
      empty
    return some acc

/-- The turns that a shard and the halves it is split into can take. -/
def shardTurns (shard : Nat × Nat) : Nat :=
  max (2 * (shard.2 - shard.1) - 1) 1

/-- Works off the pending shards, the last one first. -/
def buildPending (rows : Rows) (dbTip maxSpentEntries : Nat) (total : TxOutSetAccumulator) :
    List (Nat × Nat) → Except StoreError TxOutSetAccumulator
  | [] => .ok total
  | (lo, hi) :: pending =>
    match accumulateShardBlocking hashes rows dbTip lo hi maxSpentEntries with
    | .error error => .error error
    | .ok (some shardAcc) =>
      match toStoreError (total.combine shardAcc) with
      | .error error => .error error
      | .ok total => buildPending rows dbTip maxSpentEntries total pending
    | .ok none =>
      if hi - lo ≤ 1 then
        .error (.custom ("txout-set accumulator: spent shard for creating-txid first-byte " ++
          "\x7b\x7d exceeds the per-shard budget (\x7b\x7d outpoints) and cannot be split " ++
          "further; raise accumulator_rebuild_memory_size") [lo, maxSpentEntries])
      else
        let mid := lo + (hi - lo) / 2
        buildPending rows dbTip maxSpentEntries total ((mid, hi) :: (lo, mid) :: pending)
  termination_by pending => (pending.map shardTurns).sum
  decreasing_by
    · simp only [map_cons, sum_cons, shardTurns]
      omega
    · simp only [map_cons, sum_cons, shardTurns]
      omega

/-- The shards a rebuild starts from, the last one first. -/
def initialShards (shards : Nat) : List (Nat × Nat) :=
  ((range shards).map fun shard => (shard * 256 / shards, (shard + 1) * 256 / shards)).reverse

/-- The summary at `dbTip`, computed from the rows alone. -/
def buildBlocking (rows : Rows) (dbTip shards maxSpentEntries : Nat) :
    Except StoreError TxOutSetAccumulator :=
  buildPending hashes rows dbTip (max maxSpentEntries 1) empty
    (initialShards (max shards 1))

end Rebuild

/-! ## Bringing the summary to the tip -/

/-- What a rebuild may use: a memory budget in bytes. -/
structure RebuildBudget where
  bytes : Nat

def spentSetEntryBytesEstimate : Nat := 256

def accumulatorBuildMaxShards : Nat := 256

def accumulatorIncrementalMaxGap : Nat := 1000

/-- The number of shards that the budget suggests. The count of spent entries stops where more of
them cannot change the answer. -/
def accumulatorBuildShards (rows : Rows) (budget : Nat) : Nat :=
  let maxUsefulEntries := min (accumulatorBuildMaxShards * budget) (2 ^ 64 - 1) /
    spentSetEntryBytesEstimate
  let counted := min rows.spent.size (max maxUsefulEntries 1)
  let estimate := min (counted * spentSetEntryBytesEstimate) (2 ^ 64 - 1)
  min (max ((estimate + budget - 1) / budget) 1) accumulatorBuildMaxShards

/-- Recomputes the stored summary at the tip of the rows. -/
def rebuildAccumulator (hashes : Hashes) (fault : Option LmdbError) (db : DbV1)
    (budget : RebuildBudget) : Except StoreError DbV1 :=
  match db.rows.tipHeight with
  | none => .ok db
  | some dbTip => do
    let bytes := max budget.bytes 1
    let acc ← buildBlocking hashes db.rows dbTip (accumulatorBuildShards db.rows bytes)
      (max (bytes / spentSetEntryBytesEstimate) 1)
    db.persistAccumulator fault acc dbTip

/-- Brings the stored summary up to a height after a bulk run. -/
def advanceToTip (hashes : Hashes) (visits : Visits) (fault : Option LmdbError) (db : DbV1)
    (budget : RebuildBudget) (height : Nat) : Except StoreError DbV1 :=
  match db.txOutSetAccumulatorBuiltHeight with
  | some built =>
    if height ≤ built then .ok db
    else if height - built ≤ accumulatorIncrementalMaxGap then
      updateForRange hashes visits fault db built height
    else
      rebuildAccumulator hashes fault db budget
  | none => rebuildAccumulator hashes fault db budget

end Zaino.ChainStore
