import Zaino.ChainStore.V1.Accumulator

/-!
# Writing and deleting blocks

`writeBlock` appends one block in one transaction and moves the summary of the unspent outputs with
it, stamping the height it was moved to. `writeBlocksToHeight` appends a run of blocks in batches,
leaves the summary alone until the last batch is committed, and brings it up afterwards.
`deleteBlockAtHeight` removes the tip block and moves the summary back; the stamped height is not
among what it writes.

A database transaction may fail. Then nothing of it is kept, and `writeBlock` runs `deleteBlock` for
the block it could not write. The addresses index, which is off by default, the validation of rows
that are read back, and the flushes to disk are left out.
-/

namespace Zaino.ChainStore

open Library

/-! ## What is written for a block -/

/-- The first item that came before. -/
def firstRepeated {α : Type} [DecidableEq α] (seen : List α) : List α → Option α
  | [] => none
  | x :: rest => if x ∈ seen then some x else firstRepeated (x :: seen) rest

def transparentData (tx : TransparentCompactTx) : Option TransparentCompactTx :=
  if tx.inputs.isEmpty && tx.outputs.isEmpty then none else some tx

def saplingData (tx : SaplingCompactTx) : Option SaplingCompactTx :=
  if tx.spends.isEmpty && tx.outputs.isEmpty then none else some tx

def orchardData (tx : OrchardCompactTx) : Option OrchardCompactTx :=
  if tx.actions.isEmpty then none else some tx

namespace IndexedBlock

variable (block : IndexedBlock)

def hash : BlockHash := block.context.hash

def height : Nat := block.context.height

def txids : List TransactionHash :=
  block.transactions.map CompactTxData.txid

def pairs : TransparentPairs :=
  block.transactions.map fun tx => (tx.txid, transparentData tx.transparent)

def headerData : BlockHeaderData := ⟨block.context, block.data⟩

def invalid (reason : String) (values : List Nat) : StoreError :=
  .invalidBlock block.height block.hash reason values

end IndexedBlock

structure BlockPoolLists where
  transactions : TransparentPairs
  sapling : List (Option SaplingCompactTx)
  orchard : List (Option OrchardCompactTx)
  ironwood : List (Option OrchardCompactTx)

/-- The data of each pool, by transaction. -/
def IndexedBlock.poolLists (block : IndexedBlock) : BlockPoolLists where
  transactions := block.pairs
  sapling := block.transactions.map fun tx => saplingData tx.sapling
  orchard := block.transactions.map fun tx => orchardData tx.orchard
  ironwood := block.transactions.map fun tx => orchardData tx.ironwood

def extractBlockPoolLists (block : IndexedBlock) : Except StoreError BlockPoolLists :=
  match firstRepeated [] block.txids with
  | some hash => .error (block.invalid "duplicate transaction hash in block: \x7b\x7d" [hash.toNat])
  | none => .ok block.poolLists

/-- Notes the spends of one transaction, refusing an outpoint that is already noted. -/
def insertSpends (block : IndexedBlock) (location : TxLocation) (spentMap : SpentMap)
    (outpoints : List Outpoint) : Except StoreError SpentMap :=
  outpoints.foldlM
    (fun noted outpoint =>
      if outpoint ∈ noted.map Prod.fst then
        .error (block.invalid "duplicate transparent spend for outpoint \x7b\x7d"
          [outpoint.prevTxid.toNat, outpoint.prevIndex.toNat])
      else
        .ok (noted ++ [(outpoint, location)]))
    spentMap

/-- What a block spends. The write path refuses a transaction index that a `u16` cannot hold, and
the delete path lets it wrap. -/
def collectSpends (checksIndex : Bool) (block : IndexedBlock) : Except StoreError SpentMap :=
  block.transactions.zipIdx.foldlM
    (fun spentMap entry =>
      if checksIndex && decide (2 ^ 16 ≤ entry.2) then
        .error (block.invalid "transaction index \x7b\x7d does not fit into u16" [entry.2])
      else
        insertSpends block ⟨block.height, UInt16.ofNat entry.2⟩ spentMap
          entry.1.transparent.spentOutpoints)
    []

/-- The locations of a block's transactions. -/
def IndexedBlock.txidLocations (block : IndexedBlock) : List (RawKey × TxLocation) :=
  block.transactions.zipIdx.map fun entry =>
    (hashBytes entry.1.txid, ⟨block.height, UInt16.ofNat entry.2⟩)

/-- The parents of a layer of merkle hashes, the last one paired with itself when it is alone. -/
def merkleParents (hashes : Hashes) : List (BitVec 256) → List (BitVec 256)
  | left :: right :: rest =>
    hashes.sha256d (hashBytes left ++ hashBytes right) :: merkleParents hashes rest
  | [left] => [hashes.sha256d (hashBytes left ++ hashBytes left)]
  | [] => []

/-- Reduces layers until one hash is left. The fuel is at least the number of layers. -/
def reduceLayers (hashes : Hashes) : Nat → List (BitVec 256) → Option (BitVec 256)
  | _, [] => none
  | _, [root] => some root
  | 0, _ :: _ :: _ => none
  | fuel + 1, layer => reduceLayers hashes fuel (merkleParents hashes layer)

/-- The merkle root of some transaction hashes; there is none of no hashes. -/
def calculateBlockMerkleRoot (hashes : Hashes) (txids : List TransactionHash) :
    Option (BitVec 256) :=
  reduceLayers hashes txids.length txids

def verifyHeaderMerkleRoot (hashes : Hashes) (block : IndexedBlock) : Except StoreError Unit :=
  if calculateBlockMerkleRoot hashes block.txids = some block.data.merkleRoot then .ok ()
  else .error (block.invalid "header merkle root does not match block txids" [])

/-- A block's ironwood row, which only a block with ironwood data has. -/
def ironwoodEntry (ironwood : List (Option OrchardCompactTx)) :
    Option (List (Option OrchardCompactTx)) :=
  if ironwood.any Option.isSome then some ironwood else none

/-! ## Puts -/

section Puts

variable {κ β : Type} [Ord κ] [Std.TransOrd κ]

/-- A put that does not overwrite. -/
def putNew (m : OrderedMap κ β) (key : κ) (value : β) : Except StoreError (OrderedMap κ β) :=
  if m.contains key then .error (.lmdb .keyExist) else .ok (m.insert key value)

/-- A put that leaves an equal entry and refuses a different one. -/
def putIdempotent [DecidableEq β] (m : OrderedMap κ β) (key : κ) (value : β) :
    Except StoreError (OrderedMap κ β) :=
  match m[key]? with
  | none => .ok (m.insert key value)
  | some existing =>
    if existing = value then .ok m
    else .error (.custom "conflicting existing entry during batched block write" [])

def putAll (put : OrderedMap κ β → κ → β → Except StoreError (OrderedMap κ β))
    (m : OrderedMap κ β) (entries : List (κ × β)) : Except StoreError (OrderedMap κ β) :=
  entries.foldlM (fun m entry => put m entry.1 entry.2) m

/-- Entries in ascending order of their keys. -/
def sortedByKey (entries : List (κ × β)) : List (κ × β) :=
  entries.mergeSort fun a b => (compare a.1 b.1).isLE

end Puts

/-- Puts a block's ironwood row when it has one. -/
def putIronwood
    (put : OrderedMap Nat (List (Option OrchardCompactTx)) → Nat → List (Option OrchardCompactTx) →
      Except StoreError (OrderedMap Nat (List (Option OrchardCompactTx))))
    (m : OrderedMap Nat (List (Option OrchardCompactTx))) (height : Nat)
    (ironwood : List (Option OrchardCompactTx)) :
    Except StoreError (OrderedMap Nat (List (Option OrchardCompactTx))) :=
  match ironwoodEntry ironwood with
  | some row => put m height row
  | none => .ok m

/-- The puts of one block's transaction. -/
def putBlock (visits : Visits) (rows : Rows) (block : IndexedBlock) (spentMap : SpentMap) :
    Except StoreError Rows := do
  let pools := block.poolLists
  let headers ← putNew rows.headers block.height block.headerData
  let heights ← putNew rows.heights (hashBytes block.hash) block.height
  let txids ← putNew rows.txids block.height block.txids
  let txidLocation ← putAll putNew rows.txidLocation (sortedByKey block.txidLocations)
  let transparent ← putNew rows.transparent block.height (pools.transactions.map Prod.snd)
  let sapling ← putNew rows.sapling block.height pools.sapling
  let orchard ← putNew rows.orchard block.height pools.orchard
  let ironwood ← putIronwood putNew rows.ironwood block.height pools.ironwood
  let commitmentTreeData ← putNew rows.commitmentTreeData block.height block.commitmentTreeData
  let spent ← putAll putNew rows.spent
    ((visits.spentMap.order spentMap).map fun spend => (spend.1.toBytes, spend.2))
  return { headers, txids, transparent, sapling, orchard, ironwood, commitmentTreeData, heights,
           txidLocation, spent }

/-! ## Deleting a block -/

/-- How the transaction of a deletion ends. A commit that fails is not noticed. -/
inductive DeleteFault where
  | none
  | refused (error : LmdbError)
  | commitLost
  deriving DecidableEq

/-- The rows without a block's. -/
def Rows.withoutBlock (rows : Rows) (block : IndexedBlock) (spentMap : SpentMap) : Rows where
  headers := rows.headers.erase block.height
  txids := rows.txids.erase block.height
  transparent := rows.transparent.erase block.height
  sapling := rows.sapling.erase block.height
  orchard := rows.orchard.erase block.height
  ironwood := rows.ironwood.erase block.height
  commitmentTreeData := rows.commitmentTreeData.erase block.height
  heights := rows.heights.erase (hashBytes block.hash)
  txidLocation := rows.txidLocation.editAll (Edit.deletes (block.txids.map hashBytes))
  spent := rows.spent.editAll (Edit.deletes (spentMap.map fun spend => spend.1.toBytes))

/-- The pairs of a block's transactions, a repeated one once. -/
def dedupPairs (pairs : TransparentPairs) : TransparentPairs :=
  pairs.foldl
    (fun kept pair => if pair.1 ∈ kept.map Prod.fst then kept else kept ++ [pair]) []

/-- Removes a block, given in full, from every table. -/
def deleteBlock (hashes : Hashes) (visits : Visits) (fault : DeleteFault) (db : DbV1)
    (block : IndexedBlock) : Except StoreError DbV1 := do
  let transactions := dedupPairs block.pairs
  let spentMap ← collectSpends false block
  let acc ← calculateAfterDeleteBlock hashes visits db transactions spentMap
  match fault with
  | .none =>
    return { db with
      rows := db.rows.withoutBlock block spentMap
      txOutSetInfoAccumulator := some acc }
  | .refused error => .error (.lmdb error)
  | .commitLost => return db

/-- Removes the tip block. -/
def deleteBlockAtHeight (hashes : Hashes) (visits : Visits) (fault : DeleteFault) (db : DbV1)
    (height : Nat) : Except StoreError DbV1 :=
  match db.rows.headers.keys.filter fun key => decide (height ≤ key) with
  | [] => .error (.custom "block not found" [])
  | current :: higher =>
    if current ≠ height then
      .error (.custom "block with height \x7b\x7d not found in headers" [height])
    else if higher ≠ [] then
      .error (.custom "can only delete tip block at height \x7b\x7d, but higher blocks exist"
        [height])
    else do
      let block ← db.rows.readChainBlock height
      deleteBlock hashes visits fault db block

/-! ## Writing a block -/

/-- How the transaction of a write ends: with an error of the database, or with its task lost. -/
inductive WriteFault where
  | none
  | refused (error : LmdbError)
  | taskLost
  deriving DecidableEq

/-- Whether a block is already stored; and if it is not, that it extends the tip. -/
def blockAlreadyExists (rows : Rows) (block : IndexedBlock) : Except StoreError Bool :=
  match rows.headers[block.height]? with
  | some stored =>
    if stored.context.hash = block.hash then .ok true
    else
      .error (.custom ("block at height \x7b\x7d already exists with different hash " ++
        "(stored: \x7b\x7d, incoming: \x7b\x7d)")
        [block.height, stored.context.hash.toNat, block.hash.toNat])
  | none =>
    match rows.tipHeight with
    | none =>
      if block.height = 0 then .ok false
      else .error (.custom "first block must be height 0, got \x7b\x7d" [block.height])
    | some last =>
      if block.height ≠ last + 1 then
        .error (.custom "cannot write block at height \x7b\x7d; current tip is \x7b\x7d"
          [block.height, last])
      else
        match rows.headers[last]? with
        | none => .error (.lmdb .notFound)
        | some tip =>
          if tip.context.hash ≠ block.context.parentHash then
            .error (block.invalid ("parent hash does not extend current tip (tip: \x7b\x7d, " ++
              "parent: \x7b\x7d)") [tip.context.hash.toNat, block.context.parentHash.toNat])
          else .ok false

/-- The error that a failed transaction is reported as. -/
def writeFailure (block : IndexedBlock) : StoreError → StoreError
  -- Nothing is stored at the height, so the key was not put by another process.
  | .lmdb .keyExist => block.invalid "KeyExist but block not found at height \x7b\x7d after sync"
      [block.height]
  | .lmdb .mapFull => .custom "Database configuration error: \x7b\x7d" []
  -- The task of the transaction was lost.
  | .custom message values => .custom message values
  | _ => block.invalid "\x7b\x7d" []

/-- What a new block is checked for and prepared with before its transaction. -/
def prepareBlock (hashes : Hashes) (visits : Visits) (updateTxOutSet : Bool) (db : DbV1)
    (block : IndexedBlock) : Except StoreError (SpentMap × Option TxOutSetAccumulator) := do
  let pools ← extractBlockPoolLists block
  let spentMap ← collectSpends true block
  let acc ←
    if updateTxOutSet then
      (calculateAfterBlock hashes visits db block.height pools.transactions spentMap).map some
    else .ok none
  verifyHeaderMerkleRoot hashes block
  return (spentMap, acc)

/-- The transaction of a prepared block. -/
def commitBlock (visits : Visits) (fault : WriteFault) (db : DbV1) (block : IndexedBlock)
    (prepared : SpentMap × Option TxOutSetAccumulator) : Except StoreError DbV1 :=
  match fault with
  | .refused error => .error (.lmdb error)
  | .taskLost => .error (.custom "Tokio task error: \x7b\x7d" [])
  | .none => do
    let rows ← putBlock visits db.rows block prepared.1
    match prepared.2 with
    | some acc =>
      return ⟨rows, some acc, some block.height⟩
    | none => return { db with rows }

/-- Appends a block. The store is returned beside the outcome, since a failed transaction is
followed by a deletion. -/
def writeBlockWithOptions (hashes : Hashes) (visits : Visits) (fault : WriteFault)
    (updateTxOutSet : Bool) (db : DbV1) (block : IndexedBlock) : DbV1 × Except StoreError Unit :=
  match blockAlreadyExists db.rows block with
  | .error error => (db, .error error)
  | .ok true => (db, .ok ())
  | .ok false =>
    match prepareBlock hashes visits updateTxOutSet db block with
    | .error error => (db, .error error)
    | .ok prepared =>
      match commitBlock visits fault db block prepared with
      | .ok db => (db, .ok ())
      | .error error =>
        match deleteBlock hashes visits .none db block with
        | .ok db => (db, .error (writeFailure block error))
        | .error _ => (db, .error (writeFailure block error))

def writeBlock (hashes : Hashes) (visits : Visits) (fault : WriteFault) (db : DbV1)
    (block : IndexedBlock) : DbV1 × Except StoreError Unit :=
  writeBlockWithOptions hashes visits fault true db block

/-! ### Beside other processes -/

/-- What a key that already exists turns out to be: the same block, written and valid, or an error.
Validation reads the rows of the block back. -/
def resolveKeyExist (validate : Rows → Nat → BlockHash → Except StoreError Unit) (rows : Rows)
    (block : IndexedBlock) : Except StoreError Unit :=
  match rows.headers[block.height]? with
  | some stored =>
    if stored.context.hash = block.hash then
      (validate rows block.height block.hash).mapError fun _ =>
        .custom "Block write fail at height \x7b\x7d, with hash \x7b\x7d, validation error: \x7b\x7d"
          [block.height, block.hash.toNat]
    else
      .error (.custom ("KeyExist race: different block at height \x7b\x7d " ++
        "(stored: \x7b\x7d, incoming: \x7b\x7d)")
        [block.height, stored.context.hash.toNat, block.hash.toNat])
  | none => .error (.custom "KeyExist but block not found at height \x7b\x7d after sync" [block.height])

/-- An error as the reason that a block was refused for. -/
def IndexedBlock.invalidFor (block : IndexedBlock) : StoreError → StoreError
  | .custom message values => block.invalid message values
  | _ => block.invalid "\x7b\x7d" []

/-- The deletion that follows a failed transaction, whose own outcome is ignored. -/
def cleanUp (hashes : Hashes) (visits : Visits) (db : DbV1) (block : IndexedBlock) : DbV1 :=
  match deleteBlock hashes visits .none db block with
  | .ok db => db
  | .error _ => db

/-- `write_block` beside other processes: the block is checked and prepared against `db`, and when its
transaction begins the others have left `current`. -/
def writeBlockAmong (hashes : Hashes) (validate : Rows → Nat → BlockHash → Except StoreError Unit)
    (visits visits' : Visits) (fault : WriteFault) (db current : DbV1) (block : IndexedBlock) :
    DbV1 × Except StoreError Unit :=
  match blockAlreadyExists db.rows block with
  | .error error => (current, .error error)
  | .ok true => (current, .ok ())
  | .ok false =>
    match prepareBlock hashes visits true db block with
    | .error error => (current, .error error)
    | .ok prepared =>
      match commitBlock visits fault current block prepared with
      | .ok stored => (stored, .ok ())
      | .error (.lmdb .keyExist) =>
        match resolveKeyExist validate current.rows block with
        | .ok () => (current, .ok ())
        | .error error => (cleanUp hashes visits' current block, .error (block.invalidFor error))
      | .error error => (cleanUp hashes visits' current block, .error (writeFailure block error))

/-! ## Writing a run of blocks -/

/-- A block of a batch follows the one before it, or is the first. -/
def checkContinuity (previous : Option (Nat × BlockHash)) (block : IndexedBlock) :
    Except StoreError Unit :=
  match previous with
  | some (tip, hash) =>
    if block.height ≠ tip + 1 then
      .error (.custom "cannot write block at height \x7b\x7d; current tip is \x7b\x7d"
        [block.height, tip])
    else if block.context.parentHash ≠ hash then
      .error (block.invalid "parent hash does not extend current tip" [])
    else .ok ()
  | none =>
    if block.height ≠ 0 then
      .error (.custom "first block must be height 0, got \x7b\x7d" [block.height])
    else .ok ()

/-- Every transaction index of a block is a `u16`. -/
def checkTxIndices (block : IndexedBlock) : Except StoreError Unit :=
  if 2 ^ 16 < block.transactions.length then
    .error (block.invalid "transaction index \x7b\x7d does not fit into u16" [2 ^ 16])
  else .ok ()

/-- One block of a batch: the height-keyed rows. -/
def putBatchBlock (hashes : Hashes) (rows : Rows) (previous : Option (Nat × BlockHash))
    (block : IndexedBlock) : Except StoreError Rows := do
  checkContinuity previous block
  let pools ← extractBlockPoolLists block
  checkTxIndices block
  verifyHeaderMerkleRoot hashes block
  let headers ← putIdempotent rows.headers block.height block.headerData
  let heights ← putIdempotent rows.heights (hashBytes block.hash) block.height
  let txids ← putIdempotent rows.txids block.height block.txids
  let transparent ← putIdempotent rows.transparent block.height (pools.transactions.map Prod.snd)
  let sapling ← putIdempotent rows.sapling block.height pools.sapling
  let orchard ← putIdempotent rows.orchard block.height pools.orchard
  let ironwood ← putIronwood putIdempotent rows.ironwood block.height pools.ironwood
  let commitmentTreeData ←
    putIdempotent rows.commitmentTreeData block.height block.commitmentTreeData
  return { rows with
    headers, heights, txids, transparent, sapling, orchard, ironwood, commitmentTreeData }

/-- The spends of a block as the spent index keys them. -/
def IndexedBlock.spentLocations (block : IndexedBlock) : List (RawKey × TxLocation) :=
  block.transactions.zipIdx.flatMap fun entry =>
    entry.1.transparent.spentOutpoints.map fun outpoint =>
      (outpoint.toBytes, ⟨block.height, UInt16.ofNat entry.2⟩)

/-- Puts the height-keyed rows of consecutive blocks. -/
def putBatchBlocks (hashes : Hashes) :
    Rows → Option (Nat × BlockHash) → List IndexedBlock → Except StoreError Rows
  | rows, _, [] => .ok rows
  | rows, previous, block :: blocks => do
    let rows ← putBatchBlock hashes rows previous block
    putBatchBlocks hashes rows (some (block.height, block.hash)) blocks

/-- Writes consecutive blocks in one transaction, the two scattered indexes last and in key order. -/
def writeBlockBatch (hashes : Hashes) (rows : Rows) (blocks : List IndexedBlock) :
    Except StoreError Rows := do
  let previous := rows.tipHeight.bind fun tip =>
    rows.headers[tip]?.map fun header => (tip, header.context.hash)
  let rows ← putBatchBlocks hashes rows previous blocks
  let spent ← putAll putIdempotent rows.spent
    (sortedByKey (blocks.flatMap IndexedBlock.spentLocations))
  let txidLocation ← putAll putIdempotent rows.txidLocation
    (sortedByKey (blocks.flatMap IndexedBlock.txidLocations))
  return { rows with spent, txidLocation }

/-- A bulk run: what the source assembles at a height, how many blocks each successive batch gets
before one of its caps ends it, whether a batch's transaction fails, whether the process stops after
the last commit, and what a rebuild may use. The run is interrupted when no further batch size is
given. -/
structure SyncRun where
  assemble : Nat → Except StoreError IndexedBlock
  firstSize : Nat
  sizes : List (Nat × Option LmdbError)
  stopsBeforeUpdate : Bool
  updateFault : Option LmdbError
  budget : RebuildBudget

/-- Builds one batch. -/
def fillSyncBatch (run : SyncRun) (target next size : Nat) :
    Except StoreError (List IndexedBlock) :=
  (List.range' next (min size (target + 1 - next))).mapM run.assemble

/-- Commits the pending batch and builds the next one, until one is empty. -/
def syncBatches (hashes : Hashes) (run : SyncRun) (target : Nat) :
    List (Nat × Option LmdbError) → Nat → Rows → List IndexedBlock →
      Rows × Option (Except StoreError Unit)
  | _, _, rows, [] => (rows, some (.ok ()))
  | [], _, rows, _ :: _ => (rows, none)
  | (_, some error) :: _, _, rows, _ :: _ => (rows, some (.error (.lmdb error)))
  | (size, none) :: sizes, next, rows, block :: pending =>
    match writeBlockBatch hashes rows (block :: pending) with
    | .error error => (rows, some (.error error))
    | .ok rows =>
      match fillSyncBatch run target next size with
      | .error error => (rows, some (.error error))
      | .ok batch => syncBatches hashes run target sizes (next + batch.length) rows batch

/-- Appends the blocks up to a height. The outcome is `none` when the run is interrupted. -/
def writeBlocksToHeight (hashes : Hashes) (visits : Visits) (run : SyncRun) (db : DbV1)
    (height : Nat) : DbV1 × Option (Except StoreError Unit) :=
  let start := (db.rows.tipHeight.map (· + 1)).getD 0
  if height < start then (db, some (.ok ()))
  else
    match fillSyncBatch run height start run.firstSize with
    | .error error => (db, some (.error error))
    | .ok batch =>
      match syncBatches hashes run height run.sizes (start + batch.length) db.rows batch with
      | (rows, some (.ok ())) =>
        let db := { db with rows }
        if run.stopsBeforeUpdate then (db, none)
        else
          match advanceToTip hashes visits run.updateFault db run.budget height with
          | .error error => (db, some (.error error))
          | .ok db => (db, some (.ok ()))
      | (rows, outcome) => ({ db with rows }, outcome)

end Zaino.ChainStore
