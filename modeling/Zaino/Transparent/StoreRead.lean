import Zaino.Library.Fallible
import Zaino.Transparent.Indexes

/-!
# Address history over the finalised store

The store answers an address read from four indexes: it scans what the address received, joins
every receive with the transaction that spent it, and projects each answer from that join. A scan
is charged entry by entry against the request's budget, so every read takes the budget and leaves
what remains of it.
-/

namespace Zaino.Transparent

open Zaino Library

/-- The most entries a request may still scan. -/
structure ReadBudget where
  limit : Nat
  remaining : Nat
  deriving DecidableEq

/-- Reserve one entry. -/
def ReadBudget.chargeOne (budget : ReadBudget) : Option ReadBudget :=
  match budget.remaining with
  | 0 => none
  | remaining + 1 => some { budget with remaining := remaining }

/-- What a read may be refused for lack of. -/
inductive Capability
  | addressHistory
  | spendStatus
  deriving DecidableEq

/-- Why an address read fails. -/
inductive AddressReadError
  | notServiceable (capability : Capability)
  | tooLarge (address : TransparentAddress) (limit : Nat)
  | fatal (message : String)
  deriving DecidableEq

/-- An address read, over the budget it charges. -/
abbrev AddressM (α : Type) : Type := Fallible ReadBudget AddressReadError α

/-- A signed amount, at most the money supply either way. -/
structure SignedZatoshis where
  value : Int
  bounded : value.natAbs ≤ maxZatoshis
  deriving DecidableEq

/-- A signed amount, or a refusal past the supply. -/
def SignedZatoshis.tryNew (value : Int) : Option SignedZatoshis :=
  if bounded : value.natAbs ≤ maxZatoshis then some ⟨value, bounded⟩ else none

/-- An unspent output. -/
structure Utxo where
  address : TransparentAddress
  txid : TransactionId
  outputIndex : UInt32
  script : Script
  satoshis : Zatoshis
  height : Height
  deriving DecidableEq

/-- The outpoint of an unspent output. -/
def Utxo.outpoint (utxo : Utxo) : Outpoint := ⟨utxo.txid, utxo.outputIndex⟩

/-- One change to an address's balance. -/
structure AddressDelta where
  satoshis : SignedZatoshis
  txid : TransactionId
  index : UInt32
  height : Height
  address : TransparentAddress
  blockIndex : Option UInt32
  deriving DecidableEq

/-- A transaction that touched an address, with its height and position where known. -/
abbrev LocatedTxid : Type := Option Height × Option UInt32 × TransactionId

/-- The namespaces an address read visits. -/
inductive Namespace
  | addressHistory
  | transparentSpends
  | txidLocation
  | transparentData
  deriving DecidableEq

/-- The finalised store, pinned. -/
structure StoreSnapshot where
  /-- The highest block that is durably indexed. -/
  watermark : Option Height
  indexes : Indexes
  /-- Whether a namespace's deferred build is finished. -/
  isComplete : Namespace → Bool
  /-- Whether a namespace was written in the format this build reads. -/
  isFresh : Namespace → Bool

/-- One scanned receive. -/
structure AddressReceive where
  addr : AddrId
  height : Nat
  txid : TransactionId
  outputIndex : UInt32
  value : Zatoshis
  deriving DecidableEq

/-- Where a spend happened. -/
structure SpendSite where
  spentBy : TransactionId
  height : Height
  blockIndex : UInt32
  inputIndex : UInt32
  deriving DecidableEq

/-- A receive, joined with where it was spent. -/
structure Entry where
  height : Height
  txid : TransactionId
  outputIndex : UInt32
  value : Zatoshis
  spent : Option SpendSite
  deriving DecidableEq

/-- The bytes of a transaction id as displayed, last byte first. -/
def displayBytes (txid : TransactionId) : List Nat :=
  (List.range 32).map fun i => txid.toNat / 2 ^ (8 * i) % 256

/-- The rank of an optional position: unknown comes first. -/
def positionRank : Option UInt32 → Nat
  | none => 0
  | some position => position.toNat + 1

/-- Balance changes are ordered by height, position and index. -/
def AddressDelta.sortKey (change : AddressDelta) : List Nat :=
  [change.height.value, positionRank change.blockIndex, change.index.toNat]

/-- Transactions are ordered by height, position and displayed id. -/
def locatedKey (located : Height × Option UInt32 × TransactionId) : List Nat :=
  located.1.value :: positionRank located.2.1 :: displayBytes located.2.2

/-- An indexed height as a protocol height. -/
def domainHeight (height : Nat) : Except AddressReadError Height :=
  match Height.tryFrom height with
  | some height => .ok height
  | none => .error (.fatal "an indexed height exceeds the protocol limit")

/-- An amount as a balance change of the given sign. -/
def delta (value : Zatoshis) (sign : Int) : Except AddressReadError SignedZatoshis :=
  match SignedZatoshis.tryNew (value.value * sign) with
  | some change => .ok change
  | none => .error (.fatal "an amount is not a representable balance change")

theorem delta_positive (value : Zatoshis) : delta value 1 = .ok ⟨value.value, value.bounded⟩ := by
  have fits : ((value.value : Int) * 1).natAbs ≤ maxZatoshis := by
    rw [Int.mul_one]
    exact value.bounded
  rw [delta, SignedZatoshis.tryNew, dif_pos fits]
  simp

theorem delta_negative (value : Zatoshis) : delta value (-1) =
      .ok ⟨-value.value, by rw [Int.natAbs_neg]; exact value.bounded⟩ := by
  have fits : ((value.value : Int) * -1).natAbs ≤ maxZatoshis := by
    rw [Int.mul_neg_one, Int.natAbs_neg]
    exact value.bounded
  rw [delta, SignedZatoshis.tryNew, dif_pos fits]
  simp

/-! ## Reading the indexes -/

/-- Charge each scanned entry, stopping at the first the budget does not cover. -/
def chargeScan (address : TransparentAddress) :
    List AddressReceive → AddressM (List AddressReceive)
  | [] => pure []
  | receive :: rest => do
    let budget ← Fallible.get
    match budget.chargeOne with
    | none => Fallible.fail (.tooLarge address budget.limit)
    | some charged => do
      Fallible.modify fun _ => charged
      let out ← chargeScan address rest
      pure (receive :: out)

namespace StoreSnapshot

variable (store : StoreSnapshot) (parser : AddressParser)

/-- The entries of one address between two heights, in key order. -/
def scanReceives (addr : AddrId) (start stop : Nat) : List AddressReceive :=
  let inRange := store.indexes.addressHistory.entries.filter fun entry =>
    entry.1.addr = addr ∧ start ≤ entry.1.height ∧ entry.1.height ≤ stop
  sortByKey (fun receive => [receive.height, receive.txid.toNat, receive.outputIndex.toNat])
    (inRange.map fun entry =>
      { addr := entry.1.addr
        height := entry.1.height
        txid := entry.1.txid
        outputIndex := entry.1.outputIndex
        value := entry.2 })

/-- Every receive of an address between two heights, in height order. -/
def readReceives (address : TransparentAddress) (addr : AddrId) (start stop : Nat) :
    AddressM (List AddressReceive) :=
  if stop + 1 < 2 ^ 64 then do
    let out ← chargeScan address (store.scanReceives addr start stop)
    pure (sortByKey (fun receive => [receive.height, receive.outputIndex.toNat]) out)
  else
    Fallible.fail (.fatal s!"address_history scan bound out of range: {stop}")

/-- Where a transaction was mined, per the location index. -/
def location (txid : TransactionId) : Option TxLocation :=
  if store.isFresh .txidLocation then store.indexes.txidLocation.lookup txid else none

/-- The transparent part of the block at a height. -/
def transparentBlock (height : Height) : Option (List TransparentTxCompact) :=
  if store.isFresh .transparentData then store.indexes.transparentData.lookup height.value
  else none

/-- Which input of the transaction at a location consumed an outpoint. -/
def inputIndex (location : TxLocation) (height : Height) (outpoint : Outpoint) :
    Except AddressReadError UInt32 :=
  match store.transparentBlock height with
  | none => .error (.fatal "a spending transaction's block has no transparent data")
  | some block =>
    match block[location.txIndex.toNat]? with
    | none => .error (.fatal "a spending transaction is past the end of its block")
    | some tx =>
      match tx.inputs.findIdx? fun input => input.1 = outpoint.txid ∧ input.2 = outpoint.index with
      | none => .error (.fatal "a recorded spender does not consume the outpoint")
      | some position =>
        match u32TryFrom position with
        | none => .error (.fatal "an input index exceeds the wire limit")
        | some index => .ok index

/-- Where the store's blocks spent an outpoint, if they did. -/
def spendSite (outpoint : Outpoint) : Except AddressReadError (Option SpendSite) :=
  match store.indexes.transparentSpends.lookup outpoint with
  | none => .ok none
  | some spentBy =>
    match store.location spentBy with
    | none => .error (.fatal "a recorded spend's transaction has no location")
    | some location => do
      let height ← domainHeight location.height
      let inputIndex ← store.inputIndex location height outpoint
      .ok (some
        { spentBy := spentBy
          height := height
          blockIndex := location.txIndex
          inputIndex := inputIndex })

/-- A receive, joined with where it was spent. -/
def entry (receive : AddressReceive) : Except AddressReadError Entry := do
  let height ← domainHeight receive.height
  let spent ← store.spendSite ⟨receive.txid, receive.outputIndex⟩
  .ok
    { height := height
      txid := receive.txid
      outputIndex := receive.outputIndex
      value := receive.value
      spent := spent }

/-- Every receive of an address between two heights, each joined with where it was spent. -/
def entries (address : TransparentAddress) (start stop : Nat) : AddressM (List Entry) :=
  match transparentAddressKey parser address with
  | none => pure []
  | some addr =>
    if [Namespace.addressHistory, .transparentSpends, .txidLocation].all store.isComplete then do
      let receives ← store.readReceives address addr start stop
      Fallible.ofExcept (receives.mapM store.entry)
    else
      Fallible.fail (.notServiceable .addressHistory)

/-! ## The reads -/

/-- The standard script of an address. -/
def scriptFor (address : TransparentAddress) : Except AddressReadError Script :=
  match scriptPaying parser address with
  | some script => .ok script
  | none => .error (.fatal "an address with receives resolves to no script")

/-- A whole-history scan stops at the largest 32-bit height. -/
def wholeHistoryEnd : Nat := 2 ^ 32 - 1

/-- Every output of an address that the store's blocks leave unspent. -/
def unspentOutpoints (address : TransparentAddress) : AddressM (List Utxo) := do
  let entries ← store.entries parser address 0 wholeHistoryEnd
  let unspent := entries.filter fun entry => entry.spent.isNone
  if unspent.isEmpty then pure []
  else do
    let script ← Fallible.ofExcept (scriptFor parser address)
    pure (unspent.map fun entry =>
      { address := address
        txid := entry.txid
        outputIndex := entry.outputIndex
        script := script
        satoshis := entry.value
        height := entry.height })

/-- The position of a transaction in its block. -/
def blockIndex (txid : TransactionId) : Option UInt32 :=
  (store.location txid).map TxLocation.txIndex

/-- The balance change of a receive inside the range. -/
def receiveDelta (address : TransparentAddress) (range : HeightRange) (entry : Entry) :
    Except AddressReadError (List AddressDelta) :=
  if covers range entry.height then do
    let change ← delta entry.value 1
    .ok [{ satoshis := change
           txid := entry.txid
           index := entry.outputIndex
           height := entry.height
           address := address
           blockIndex := store.blockIndex entry.txid }]
  else .ok []

/-- The balance change of a spend inside the range. -/
def spendDelta (address : TransparentAddress) (range : HeightRange) (entry : Entry) :
    Except AddressReadError (List AddressDelta) :=
  match entry.spent.filter fun site => covers range site.height with
  | none => .ok []
  | some site => do
    let change ← delta entry.value (-1)
    .ok [{ satoshis := change
           txid := site.spentBy
           index := site.inputIndex
           height := site.height
           address := address
           blockIndex := some site.blockIndex }]

/-- The balance changes of one entry. -/
def entryDeltas (address : TransparentAddress) (range : HeightRange) (entry : Entry) :
    Except AddressReadError (List AddressDelta) := do
  let received ← store.receiveDelta address range entry
  let spent ← spendDelta address range entry
  .ok (received ++ spent)

/-- The balance changes of an address in a range, ordered by height, position and index. -/
def deltas (address : TransparentAddress) (range : HeightRange) : AddressM (List AddressDelta) := do
  let entries ← store.entries parser address 0 range.stop.value
  let changes ← Fallible.ofExcept (entries.mapM (store.entryDeltas address range))
  pure (sortByKey AddressDelta.sortKey changes.flatten)

/-- The transactions of one entry inside the range. -/
def entryTxids (range : HeightRange) (entry : Entry) :
    List (Height × Option UInt32 × TransactionId) :=
  (if covers range entry.height then
    [(entry.height, store.blockIndex entry.txid, entry.txid)] else []) ++
  match entry.spent.filter fun site => covers range site.height with
  | none => []
  | some site => [(site.height, some site.blockIndex, site.spentBy)]

/-- The transactions that moved value for an address in a range, without repetitions. -/
def txIds (address : TransparentAddress) (range : HeightRange) : AddressM (List LocatedTxid) := do
  let entries ← store.entries parser address 0 range.stop.value
  let txids := dedupAdjacent (sortByKey locatedKey (entries.flatMap (store.entryTxids range)))
  pure (txids.map fun located => (some located.1, located.2.1, located.2.2))

end StoreSnapshot

end Zaino.Transparent
