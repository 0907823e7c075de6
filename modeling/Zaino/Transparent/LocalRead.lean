import Zaino.Transparent.WindowRead

/-!
# Address reads composed across the seam

The locally served address reads. The finalised store answers heights up to its watermark, the
chain head the window above it, and each read joins the two answers: balance changes and
transactions by splitting the asked range at the seam, the unspent set by asking both tiers for
everything they hold.
-/

namespace Zaino.Transparent

open Zaino Library ChainHead

/-- The two tiers, captured together. -/
structure ChainView where
  finalised : StoreSnapshot
  nonFinalised : MapBackedSnapshot

/-- `none` when the range names no height. -/
def nonEmpty (range : HeightRange) : Option HeightRange :=
  if range.start ≤ range.stop then some range else none

/-- The part of a range at or below the watermark, and the part above it. -/
def splitAtSeam (watermark : Option Height) (range : HeightRange) :
    Option HeightRange × Option HeightRange :=
  match watermark with
  | none => (none, nonEmpty range)
  | some watermark =>
    match watermark.checkedAdd 1 with
    | none => (nonEmpty range, none)
    | some seam =>
      (nonEmpty ⟨range.start, range.stop.min watermark⟩, nonEmpty ⟨range.start.max seam, range.stop⟩)

/-- Whether a half of a split range includes a height. -/
def inRange (half : Option HeightRange) (height : Height) : Bool :=
  match half with
  | some range => covers range height
  | none => false

@[simp]
theorem inRange_some (range : HeightRange) (height : Height) :
    inRange (some range) height = covers range height :=
  rfl

@[simp]
theorem inRange_none (height : Height) : inRange none height = false :=
  rfl

/-- Which way a balance change goes. -/
inductive Sign
  | received
  | spent
  deriving DecidableEq

/-- An amount as a balance change in the given direction. -/
def signed (value : Zatoshis) (sign : Sign) : Except AddressReadError SignedZatoshis :=
  let change : Int := match sign with
    | .received => value.value
    | .spent => -value.value
  match SignedZatoshis.tryNew change with
  | some change => .ok change
  | none => .error (.fatal "a balance change is out of range")

theorem signed_received (value : Zatoshis) :
    signed value .received = .ok ⟨value.value, value.bounded⟩ := by
  have fits : (value.value : Int).natAbs ≤ maxZatoshis := value.bounded
  simp only [signed, SignedZatoshis.tryNew, dif_pos fits]

theorem signed_spent (value : Zatoshis) :
    signed value .spent = .ok ⟨-value.value, by rw [Int.natAbs_neg]; exact value.bounded⟩ := by
  have fits : (-(value.value : Int)).natAbs ≤ maxZatoshis := by
    rw [Int.natAbs_neg]
    exact value.bounded
  simp only [signed, SignedZatoshis.tryNew, dif_pos fits]

/-- What the window contributed: the outputs it saw paid and the spends it saw. -/
structure WindowPart where
  receives : List TransparentReceive
  spends : List TransparentSpend

/-- Whether the window spent an outpoint. -/
def WindowPart.spent (part : WindowPart) (outpoint : Outpoint) : Bool :=
  part.spends.any fun spend => spend.outpoint = outpoint

/-- The order the window's transactions are listed in. -/
def placeKey (place : Height × UInt32 × TransactionId) : List Nat :=
  place.1.value :: place.2.1.toNat :: displayBytes place.2.2

/-- The transactions behind what the window contributed, without repetitions. -/
def WindowPart.places (part : WindowPart) : List (Height × UInt32 × TransactionId) :=
  dedupAdjacent (sortByKey placeKey
    (part.receives.map TransparentReceive.place ++ part.spends.map TransparentSpend.place))

/-- An output that the caller knows to be unspent. -/
def TransparentReceive.intoUtxo (address : TransparentAddress) (receive : TransparentReceive) :
    Utxo where
  address := address
  txid := receive.txid
  outputIndex := receive.outputIndex
  script := receive.script
  satoshis := receive.value
  height := receive.height

namespace ChainView

variable (view : ChainView) (parser : AddressParser)

/-- The outputs the window pays an address in one range, and the spends it makes in another of what
the store held or the window itself paid. -/
def windowPart (address : TransparentAddress) (receivesIn spendsIn : Option HeightRange)
    (held : List Utxo) : WindowPart :=
  let received := match receivesIn with
    | some range => receives view.nonFinalised parser address range
    | none => []
  match spendsIn with
  | none => ⟨received, []⟩
  | some range =>
    let candidates := held.map Utxo.outpoint ++ received.map TransparentReceive.outpoint
    ⟨received, spends view.nonFinalised candidates range⟩

/-- The value each candidate outpoint carried. -/
def values (held : List Utxo) (received : List TransparentReceive) : HashMap Outpoint Zatoshis :=
  HashMap.insertAll ∅ (held.map (fun utxo => (utxo.outpoint, utxo.satoshis)) ++
    received.map (fun receive => (receive.outpoint, receive.value)))

/-- Every unspent output of an address. -/
def unspentOutpoints (address : TransparentAddress) : AddressM (List Utxo) := do
  let held ← view.finalised.unspentOutpoints parser address
  match coverage view.nonFinalised with
  | none => pure held
  | some windowRange =>
    let part := view.windowPart parser address (some windowRange) (some windowRange) held
    pure ((held.filter fun utxo => !part.spent utxo.outpoint) ++
      (part.receives.filter fun receive => !part.spent receive.outpoint).map
        (TransparentReceive.intoUtxo address))

/-- The store's answer for its half of the range. -/
def storeHalf {α : Type} (half : Option HeightRange) (read : HeightRange → AddressM (List α)) :
    AddressM (List α) :=
  match half with
  | some range => read range
  | none => pure []

/-- The balance change of a receive of the window. -/
def receivedDelta (address : TransparentAddress) (receive : TransparentReceive) :
    Except AddressReadError AddressDelta := do
  let change ← signed receive.value .received
  .ok { satoshis := change
        txid := receive.txid
        index := receive.outputIndex
        height := receive.height
        address := address
        blockIndex := some receive.blockIndex }

/-- The balance change of a spend of the window. -/
def spentDelta (address : TransparentAddress) (carried : HashMap Outpoint Zatoshis)
    (spend : TransparentSpend) : Except AddressReadError AddressDelta :=
  match carried.lookup spend.outpoint with
  | none => .error (.fatal "a spend was reported for an outpoint not asked about")
  | some value => do
    let change ← signed value .spent
    .ok { satoshis := change
          txid := spend.spentBy
          index := spend.inputIndex
          height := spend.height
          address := address
          blockIndex := some spend.blockIndex }

/-- The balance changes of an address in a range. -/
def deltas (address : TransparentAddress) (range : HeightRange) : AddressM (List AddressDelta) := do
  let halves := splitAtSeam view.finalised.watermark range
  let changes ← storeHalf halves.1 (view.finalised.deltas parser address)
  match halves.2 with
  | none => pure changes
  | some above => do
    let held ← view.finalised.unspentOutpoints parser address
    let part := view.windowPart parser address (some above) (some above) held
    let received ← Fallible.ofExcept (part.receives.mapM (receivedDelta address))
    let spent ← Fallible.ofExcept
      (part.spends.mapM (spentDelta address (values held part.receives)))
    pure (changes ++ received ++ spent)

/-- The transactions that moved value for an address in a range. -/
def txIds (address : TransparentAddress) (range : HeightRange) : AddressM (List LocatedTxid) := do
  let halves := splitAtSeam view.finalised.watermark range
  let txids ← storeHalf halves.1 (view.finalised.txIds parser address)
  match halves.2 with
  | none => pure txids
  | some above => do
    let held ← view.finalised.unspentOutpoints parser address
    let part := view.windowPart parser address (some above) (some above) held
    pure (txids ++ part.places.map Chain.locatedTxid)

end ChainView

/-! ## Sample chains -/

/-- A standard script. -/
def sampleScript : Script :=
  [0x76, 0xa9, 0x14] ++ List.replicate 20 7 ++ [0x88, 0xac]

/-- Every address decodes to what the standard script pays. -/
def sampleParser : AddressParser :=
  ⟨fun _ => some (.p2pkh (List.replicate 20 7))⟩

/-- A transaction that spends some outpoints and pays the standard script some amounts. -/
def sampleTransaction (txid : TransactionId) (spent : List Outpoint) (paid : List (Fin 100)) :
    Transaction where
  txid := txid
  transparent :=
    { inputs := spent.map fun outpoint => ⟨outpoint.txid, outpoint.index⟩
      outputs := paid.map fun value =>
        ⟨⟨value.val, Nat.le_trans (Nat.le_of_lt value.isLt) (by decide)⟩, sampleScript⟩ }

instance ninetyNine_neZero : NeZero 99 := ⟨by decide⟩

/-- The block at a height of the sample chain. -/
def sampleMined (height : Fin 99) (transactions : List Transaction) : Block :=
  { sampleServed (BitVec.ofNat 256 (height.val + 1)) (BitVec.ofNat 256 height.val)
      (height.castLE (by decide)) 1 with transactions := transactions }

/-- A window over the given blocks, which follow one another. -/
def sampleWindow (first : Block) (rest : List Block) : MapBackedSnapshot :=
  rest.foldl (fun head block => (head.extend (retained block)).2)
    (.fromInitialBlock (retained first))
where
  /-- A block as the window retains it. -/
  retained (block : Block) : ChainHeadBlock :=
    ⟨⟨block.header.hash, block.header.height⟩, block.header.prevHash,
      .anchoredAt block.header.bits.toWork, block⟩

/-- A store that has indexed a chain up to its watermark. -/
def sampleStore (chain : Chain) (watermark : Height) : StoreSnapshot where
  watermark := some watermark
  indexes := (chain.select fun height => height.value < watermark.value + 1).indexes
  isComplete := fun _ => true
  isFresh := fun _ => true

/-- An output paid at height one. -/
def samplePaid : Block := sampleMined 1 [sampleTransaction 1 [] [5]]

/-- The output's spend at height two. -/
def sampleSpent : Block := sampleMined 2 [sampleTransaction 2 [⟨1, 0⟩] []]

/-- Paid at height one, and kept. -/
def keptChain : Chain where
  blocks := [sampleMined 0 [], samplePaid, sampleMined 2 []]
  heights := by decide
  txids := by decide
  noDoubleSpend := by decide
  ordered := by decide
  counts := by decide

/-- Paid at height one, spent at height two. -/
def spentChain : Chain where
  blocks := [sampleMined 0 [], samplePaid, sampleSpent]
  heights := by decide
  txids := by decide
  noDoubleSpend := by decide
  ordered := by decide
  counts := by decide

end Zaino.Transparent
