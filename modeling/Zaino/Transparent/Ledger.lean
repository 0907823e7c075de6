import Mathlib.Data.List.Flatten
import Zaino.Library.Listing
import Zaino.Primitives

/-!
# The transparent ledger of a chain

What a chain says about transparent value, independently of who is asked: the outputs its
transactions create and the outpoints their inputs consume, each with where it happened. The
finalised store and the retained window both read this ledger, each from the blocks it holds.

A `Chain` has one block at a height, no repeated transaction id, spends no outpoint twice and spends
nothing before the block that creates it. Every selection of its blocks by height is such a chain
again (`Chain.select`): the store holds one, the window another. From these properties the ledger has one record for each
outpoint created (`Chain.outputs_nodup`), at most one for each outpoint consumed
(`Chain.inputs_nodup`), in this order (`Chain.created_before_spent`).
-/

namespace Zaino.Transparent

open Zaino Library List

/-- An output, with where it was created. -/
structure TransparentReceive where
  txid : TransactionId
  outputIndex : UInt32
  script : Script
  value : Zatoshis
  height : Height
  blockIndex : UInt32
  deriving DecidableEq

/-- The outpoint an output created. -/
def TransparentReceive.outpoint (receive : TransparentReceive) : Outpoint :=
  ⟨receive.txid, receive.outputIndex⟩

/-- The consumption of an outpoint, with where it happened. -/
structure TransparentSpend where
  outpoint : Outpoint
  spentBy : TransactionId
  inputIndex : UInt32
  height : Height
  blockIndex : UInt32
  deriving DecidableEq

/-- The outpoint an input consumes. -/
def inputOutpoint (input : TransparentInput) : Outpoint :=
  ⟨input.prevTxid, input.prevIndex⟩

/-- A transaction, with where it was mined. -/
structure LocatedTransaction where
  height : Height
  blockIndex : UInt32
  transaction : Transaction
  deriving DecidableEq

namespace LocatedTransaction

/-- One output of a located transaction. -/
def receive (located : LocatedTransaction) (entry : UInt32 × TransparentOutput) :
    TransparentReceive where
  txid := located.transaction.txid
  outputIndex := entry.1
  script := entry.2.script
  value := entry.2.value
  height := located.height
  blockIndex := located.blockIndex

/-- One input of a located transaction. -/
def spend (located : LocatedTransaction) (entry : UInt32 × TransparentInput) :
    TransparentSpend where
  outpoint := inputOutpoint entry.2
  spentBy := located.transaction.txid
  inputIndex := entry.1
  height := located.height
  blockIndex := located.blockIndex

/-- What a transaction creates. -/
def outputs (located : LocatedTransaction) : List TransparentReceive :=
  (enumerated located.transaction.transparent.outputs).map located.receive

/-- What a transaction consumes. -/
def inputs (located : LocatedTransaction) : List TransparentSpend :=
  (enumerated located.transaction.transparent.inputs).map located.spend

theorem map_outpoint_inputs (located : LocatedTransaction)
    (fits : located.transaction.transparent.inputs.length ≤ 2 ^ 32) :
    located.inputs.map TransparentSpend.outpoint =
      located.transaction.transparent.inputs.map inputOutpoint := by
  have consumed : located.inputs.map TransparentSpend.outpoint =
      ((enumerated located.transaction.transparent.inputs).map Prod.snd).map inputOutpoint := by
    rw [LocatedTransaction.inputs, map_map, map_map]
    rfl
  rw [consumed, map_snd_enumerated fits]

end LocatedTransaction

/-- A block's transactions, located. -/
def locatedIn (block : Block) : List LocatedTransaction :=
  (enumerated block.transactions).map fun entry => ⟨block.header.height, entry.1, entry.2⟩

/-- The transactions of some blocks. -/
def transactionsOf (blocks : List Block) : List LocatedTransaction :=
  blocks.flatMap locatedIn

/-- What some blocks create. -/
def outputsOf (blocks : List Block) : List TransparentReceive :=
  (transactionsOf blocks).flatMap LocatedTransaction.outputs

/-- What some blocks consume. -/
def inputsOf (blocks : List Block) : List TransparentSpend :=
  (transactionsOf blocks).flatMap LocatedTransaction.inputs

/-! ## Blocks selected by height -/

variable {located : LocatedTransaction}

theorem height_of_mem_locatedIn {block : Block}
    (member : located ∈ locatedIn block) : located.height = block.header.height := by
  rcases mem_map.mp member with ⟨entry, _, is_entry⟩
  rw [← is_entry]

theorem height_of_mem_outputs {receive : TransparentReceive}
    (member : receive ∈ located.outputs) : receive.height = located.height := by
  rcases mem_map.mp member with ⟨entry, _, is_entry⟩
  rw [← is_entry]
  rfl

theorem height_of_mem_inputs {spend : TransparentSpend}
    (member : spend ∈ located.inputs) : spend.height = located.height := by
  rcases mem_map.mp member with ⟨entry, _, is_entry⟩
  rw [← is_entry]
  rfl

section ByHeight

variable (blocks : List Block) (p : Height → Bool)

theorem transactionsOf_filter : transactionsOf (blocks.filter fun block => p block.header.height) =
      (transactionsOf blocks).filter fun located => p located.height :=
  flatMap_filter_of_shared fun _ _ _ member => congrArg p (height_of_mem_locatedIn member)

theorem outputsOf_filter : outputsOf (blocks.filter fun block => p block.header.height) =
      (outputsOf blocks).filter fun receive => p receive.height := by
  unfold outputsOf
  rw [transactionsOf_filter]
  exact flatMap_filter_of_shared fun _ _ _ member => congrArg p (height_of_mem_outputs member)

theorem inputsOf_filter : inputsOf (blocks.filter fun block => p block.header.height) =
      (inputsOf blocks).filter fun spend => p spend.height := by
  unfold inputsOf
  rw [transactionsOf_filter]
  exact flatMap_filter_of_shared fun _ _ _ member => congrArg p (height_of_mem_inputs member)

end ByHeight

/-! ## Chains -/

/-- What the reads rely on in a chain, or in a part of one. -/
structure Chain where
  blocks : List Block
  /-- No two blocks share a height. -/
  heights : (blocks.map fun block => block.header.height.value).Nodup
  /-- No two transactions share an id. -/
  txids : ((blocks.flatMap fun block => block.transactions).map Transaction.txid).Nodup
  /-- No outpoint is consumed twice. -/
  noDoubleSpend : ((blocks.flatMap fun block => block.transactions).flatMap fun tx =>
    tx.transparent.inputs.map inputOutpoint).Nodup
  /-- A block spends nothing that a later block creates. -/
  ordered : ∀ block ∈ blocks, ∀ tx ∈ block.transactions, ∀ input ∈ tx.transparent.inputs,
    ∀ source ∈ blocks, ∀ created ∈ source.transactions, created.txid = input.prevTxid →
      source.header.height ≤ block.header.height
  /-- Counts come off the wire as 32-bit numbers. -/
  counts : ∀ block ∈ blocks, block.transactions.length ≤ 2 ^ 32 ∧
    ∀ tx ∈ block.transactions, tx.transparent.inputs.length ≤ 2 ^ 32 ∧
      tx.transparent.outputs.length ≤ 2 ^ 32

variable {blocks : List Block}

theorem mem_transactionsOf :
    located ∈ transactionsOf blocks ↔ ∃ block ∈ blocks, located.height = block.header.height ∧
      block.transactions[located.blockIndex.toNat]? = some located.transaction := by
  simp only [transactionsOf, locatedIn, mem_flatMap, mem_map, Prod.exists,
    mem_enumerated]
  constructor
  · intro found
    rcases found with ⟨block, member, index, tx, at_index, is_located⟩
    rw [← is_located]
    exact ⟨block, member, rfl, at_index⟩
  · intro found
    rcases found with ⟨block, member, at_height, at_index⟩
    refine ⟨block, member, located.blockIndex, located.transaction, at_index, ?_⟩
    rw [← at_height]

theorem mem_outputsOf {receive : TransparentReceive} : receive ∈ outputsOf blocks ↔
      ∃ located ∈ transactionsOf blocks, receive ∈ located.outputs :=
  mem_flatMap

theorem mem_inputsOf {spend : TransparentSpend} :
    spend ∈ inputsOf blocks ↔ ∃ located ∈ transactionsOf blocks, spend ∈ located.inputs :=
  mem_flatMap

namespace Chain

variable (chain : Chain)

/-- Every transaction of the chain, located. -/
def transactions : List LocatedTransaction := transactionsOf chain.blocks

/-- Everything the chain creates. -/
def outputs : List TransparentReceive := outputsOf chain.blocks

/-- Everything the chain consumes. -/
def inputs : List TransparentSpend := inputsOf chain.blocks

/-- The part of the chain at the selected heights. -/
def select (p : Height → Bool) : Chain where
  blocks := chain.blocks.filter fun block => p block.header.height
  heights := chain.heights.sublist (filter_sublist.map _)
  txids := chain.txids.sublist ((filter_sublist.flatMap _).map _)
  noDoubleSpend := chain.noDoubleSpend.sublist ((filter_sublist.flatMap _).flatMap _)
  ordered := fun block at_block tx at_tx input at_input source at_source =>
    chain.ordered block (mem_of_mem_filter at_block) tx at_tx input at_input source
      (mem_of_mem_filter at_source)
  counts := fun block at_block => chain.counts block (mem_of_mem_filter at_block)

@[simp]
theorem select_outputs (p : Height → Bool) :
    (chain.select p).outputs = chain.outputs.filter fun receive => p receive.height :=
  outputsOf_filter chain.blocks p

@[simp]
theorem select_inputs (p : Height → Bool) :
    (chain.select p).inputs = chain.inputs.filter fun spend => p spend.height :=
  inputsOf_filter chain.blocks p

theorem map_transaction_transactions : chain.transactions.map LocatedTransaction.transaction =
      chain.blocks.flatMap fun block => block.transactions := by
  unfold transactions transactionsOf
  rw [map_flatMap]
  refine flatMap_congr fun block member => ?_
  rw [locatedIn, map_map]
  exact map_snd_enumerated (chain.counts block member).1

theorem transactions_nodup :
    (chain.transactions.map fun located => located.transaction.txid).Nodup := by
  have ids : chain.transactions.map (fun located => located.transaction.txid) =
      (chain.blocks.flatMap fun block => block.transactions).map Transaction.txid := by
    rw [← chain.map_transaction_transactions, map_map]
    rfl
  rw [ids]
  exact chain.txids

/-- A transaction id names one transaction at one place. -/
theorem eq_of_txid_eq {first second : LocatedTransaction} (at_first : first ∈ chain.transactions)
    (at_second : second ∈ chain.transactions)
    (same : first.transaction.txid = second.transaction.txid) : first = second :=
  inj_on_of_nodup_map chain.transactions_nodup at_first at_second same

/-- A place holds one transaction. -/
theorem eq_of_place_eq {first second : LocatedTransaction} (at_first : first ∈ chain.transactions)
    (at_second : second ∈ chain.transactions) (height : first.height = second.height)
    (position : first.blockIndex = second.blockIndex) : first = second := by
  rcases mem_transactionsOf.mp at_first with ⟨block₁, at_block₁, height₁, tx₁⟩
  rcases mem_transactionsOf.mp at_second with ⟨block₂, at_block₂, height₂, tx₂⟩
  have same_block : block₁ = block₂ := by
    refine inj_on_of_nodup_map chain.heights at_block₁ at_block₂ ?_
    rw [← height₁, ← height₂, height]
  rw [same_block, position, tx₂, Option.some.injEq] at tx₁
  rcases first with ⟨h₁, i₁, t₁⟩
  rcases second with ⟨h₂, i₂, t₂⟩
  simp only at height position tx₁
  rw [height, position, tx₁]

/-- An outpoint is created once. -/
theorem outputs_nodup : (chain.outputs.map TransparentReceive.outpoint).Nodup := by
  refine nodup_map_flatMap Outpoint.txid chain.transactions_nodup (fun located _ => ?_)
    (fun located _ receive member => ?_)
  · have positions : (located.outputs.map TransparentReceive.outpoint).map Outpoint.index =
        (enumerated located.transaction.transparent.outputs).map Prod.fst := by
      rw [LocatedTransaction.outputs, map_map, map_map]
      rfl
    exact List.Nodup.of_map Outpoint.index (positions ▸ nodup_enumerated _)
  · rcases mem_map.mp member with ⟨entry, _, is_entry⟩
    rw [← is_entry]
    rfl

theorem map_outpoint_inputs : chain.inputs.map TransparentSpend.outpoint =
      (chain.blocks.flatMap fun block => block.transactions).flatMap fun tx =>
        tx.transparent.inputs.map inputOutpoint := by
  rw [← chain.map_transaction_transactions, flatMap_map]
  unfold inputs inputsOf
  rw [map_flatMap]
  refine flatMap_congr fun located member => ?_
  rcases mem_transactionsOf.mp member with ⟨block, at_block, _, at_index⟩
  have fits := ((chain.counts block at_block).2 _ (mem_of_getElem? at_index)).1
  exact located.map_outpoint_inputs fits

/-- An outpoint is consumed at most once. -/
theorem inputs_nodup : (chain.inputs.map TransparentSpend.outpoint).Nodup := by
  rw [map_outpoint_inputs]
  exact chain.noDoubleSpend

theorem output_eq {first second : TransparentReceive} (at_first : first ∈ chain.outputs)
    (at_second : second ∈ chain.outputs) (same : first.outpoint = second.outpoint) :
    first = second :=
  inj_on_of_nodup_map chain.outputs_nodup at_first at_second same

theorem input_eq {first second : TransparentSpend} (at_first : first ∈ chain.inputs)
    (at_second : second ∈ chain.inputs) (same : first.outpoint = second.outpoint) :
    first = second :=
  inj_on_of_nodup_map chain.inputs_nodup at_first at_second same

/-- Nothing is spent below the height that creates it. -/
theorem created_before_spent {receive : TransparentReceive} {spend : TransparentSpend}
    (created : receive ∈ chain.outputs) (spent : spend ∈ chain.inputs)
    (consumes : spend.outpoint = receive.outpoint) : receive.height ≤ spend.height := by
  rcases mem_outputsOf.mp created with ⟨source, at_source, from_source⟩
  rcases mem_inputsOf.mp spent with ⟨located, at_located, from_located⟩
  rw [height_of_mem_outputs from_source, height_of_mem_inputs from_located]
  rcases mem_transactionsOf.mp at_source with ⟨sourceBlock, at_sourceBlock, source_height, source_tx⟩
  rcases mem_transactionsOf.mp at_located with ⟨block, at_block, located_height, located_tx⟩
  rcases mem_map.mp from_source with ⟨output, _, is_output⟩
  rcases mem_map.mp from_located with ⟨⟨index, input⟩, at_input, is_input⟩
  rw [source_height, located_height]
  refine chain.ordered block at_block _ (mem_of_getElem? located_tx) input
    (mem_of_getElem? (mem_enumerated.mp at_input)) sourceBlock at_sourceBlock _
    (mem_of_getElem? source_tx) ?_
  have named : (located.spend (index, input)).outpoint.txid = (source.receive output).txid := by
    rw [is_input, is_output, consumes]
    rfl
  exact named.symm

end Chain

end Zaino.Transparent
