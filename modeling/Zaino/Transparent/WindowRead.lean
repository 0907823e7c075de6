import Zaino.ChainHead.Graph
import Zaino.Transparent.StoreAnswers

/-!
# Receives and spends over the retained window

The chain head answers two questions about the blocks it retains: which outputs pay an address, and
which of some given outpoints are consumed. It cannot attribute a spend to an address, since the
output consumed may lie below the window. Over a window that holds a chain both answers are
selections from that chain's ledger (`Window.receives_eq`, `Window.spends_eq`).
-/

namespace Zaino.Transparent

open Zaino Library ChainHead List

/-- Every canonical block of the window, by ascending height. -/
def bestChain (head : MapBackedSnapshot) : List ChainHeadBlock :=
  (sortByKey (fun height => [height.value]) head.heightsToHashes.keys).filterMap
    head.bestBlockByHeight

/-- The heights the window serves, from its lowest canonical block to the tip. -/
def coverage (head : MapBackedSnapshot) : Option HeightRange :=
  let stop := head.bestTip.height
  let start := match (bestChain head).head? with
    | some block => block.height
    | none => stop
  some ⟨start, stop⟩

/-- Every output of a transaction that pays an address. -/
def paidOutputs (parser : AddressParser) (transaction : Transaction)
    (address : TransparentAddress) (height : Height) (blockIndex : UInt32) :
    List TransparentReceive :=
  (transaction.transparent.outputs.zipIdx.filter fun entry =>
    scriptPays parser entry.1.script address).filterMap fun entry =>
      (u32TryFrom entry.2).map fun outputIndex =>
        { txid := transaction.txid
          outputIndex := outputIndex
          script := entry.1.script
          value := entry.1.value
          height := height
          blockIndex := blockIndex }

/-- Every input of a transaction that consumes one of some outpoints. -/
def consumed (transaction : Transaction) (outpoints : List Outpoint) (height : Height)
    (blockIndex : UInt32) : List TransparentSpend :=
  transaction.transparent.inputs.zipIdx.filterMap fun entry =>
    match outpoints.find? fun outpoint =>
      entry.1.prevTxid = outpoint.txid ∧ entry.1.prevIndex = outpoint.index with
    | none => none
    | some outpoint =>
      (u32TryFrom entry.2).map fun inputIndex =>
        { outpoint := outpoint
          spentBy := transaction.txid
          inputIndex := inputIndex
          height := height
          blockIndex := blockIndex }

/-- Every output in a range that pays an address. -/
def receives (head : MapBackedSnapshot) (parser : AddressParser) (address : TransparentAddress)
    (range : HeightRange) : List TransparentReceive :=
  (bestChain head).flatMap fun block =>
    if covers range block.height then
      (enumerated block.block.transactions).flatMap fun entry =>
        paidOutputs parser entry.2 address block.height entry.1
    else []

/-- Every spend in a range of one of some outpoints. -/
def spends (head : MapBackedSnapshot) (outpoints : List Outpoint) (range : HeightRange) :
    List TransparentSpend :=
  (bestChain head).flatMap fun block =>
    if covers range block.height then
      (enumerated block.block.transactions).flatMap fun entry =>
        consumed entry.2 outpoints block.height entry.1
    else []

/-! ## What the window answers -/

theorem paidOutputs_eq (parser : AddressParser) (transaction : Transaction)
    (address : TransparentAddress) (height : Height) (blockIndex : UInt32) :
    paidOutputs parser transaction address height blockIndex =
      (LocatedTransaction.outputs ⟨height, blockIndex, transaction⟩).filter fun receive =>
        scriptPays parser receive.script address := by
  rw [paidOutputs, LocatedTransaction.outputs, enumerated, map_filterMap,
    filter_filterMap, filterMap_filter]
  refine filterMap_congr fun entry _ => ?_
  cases u32TryFrom entry.2 with
  | none => cases scriptPays parser entry.1.script address <;> rfl
  | some index =>
    simp only [Option.map_some, Option.filter_some, LocatedTransaction.receive]

theorem consumed_eq (transaction : Transaction) (outpoints : List Outpoint) (height : Height)
    (blockIndex : UInt32) : consumed transaction outpoints height blockIndex =
      (LocatedTransaction.inputs ⟨height, blockIndex, transaction⟩).filter fun spend =>
        spend.outpoint ∈ outpoints := by
  rw [consumed, LocatedTransaction.inputs, enumerated, map_filterMap, filter_filterMap]
  refine filterMap_congr fun entry _ => ?_
  cases asked : outpoints.find? fun outpoint =>
      entry.1.prevTxid = outpoint.txid ∧ entry.1.prevIndex = outpoint.index with
  | none =>
    have absent : inputOutpoint entry.1 ∉ outpoints := fun member =>
      find?_eq_none.mp asked _ member (decide_eq_true ⟨rfl, rfl⟩)
    cases u32TryFrom entry.2 with
    | none => rfl
    | some index => simp [Option.filter_some, LocatedTransaction.spend, absent]
  | some outpoint =>
    have member := mem_of_find?_eq_some asked
    have found := find?_some asked
    have names := of_decide_eq_true found
    have is_outpoint : inputOutpoint entry.1 = outpoint := congrArg₂ Outpoint.mk names.1 names.2
    cases u32TryFrom entry.2 with
    | none => rfl
    | some index =>
      simp [Option.filter_some, LocatedTransaction.spend, is_outpoint, member]

/-- The window's canonical blocks are those of a chain. -/
structure Window (head : MapBackedSnapshot) (chain : Chain) : Prop where
  blocks : (bestChain head).map ChainHeadBlock.block = chain.blocks
  heights : ∀ block ∈ bestChain head, block.height = block.block.header.height

/-- Reading the transactions of the covered canonical blocks reads them off the chain. -/
theorem Window.flatMap_eq {head : MapBackedSnapshot} {chain : Chain} (window : Window head chain)
    {β : Type} (range : HeightRange) (read : LocatedTransaction → List β) :
    ((bestChain head).flatMap fun block =>
      if covers range block.height then (enumerated block.block.transactions).flatMap fun entry =>
          read ⟨block.height, entry.1, entry.2⟩ else []) =
      (chain.transactions.filter fun located => covers range located.height).flatMap read := by
  rw [Chain.transactions, transactionsOf, ← window.blocks, flatMap_map, filter_flatMap,
    flatMap_assoc]
  refine flatMap_congr fun block member => ?_
  have at_height : ∀ located ∈ locatedIn block.block,
      covers range located.height = covers range block.height := fun located at_located => by
    rw [height_of_mem_locatedIn at_located, window.heights block member]
  rw [filter_congr at_height]
  cases covered : covers range block.height with
  | false =>
    rw [if_neg Bool.false_ne_true, filter_false, flatMap_nil]
  | true =>
    rw [if_pos rfl, filter_true, locatedIn, flatMap_map, window.heights block member]

section Answers

variable {head : MapBackedSnapshot} {chain : Chain} (window : Window head chain)

include window

theorem Window.receives_eq (parser : AddressParser) (address : TransparentAddress)
    (range : HeightRange) : receives head parser address range =
      (chain.paying parser address).filter fun receive => covers range receive.height := by
  unfold receives Chain.paying Chain.outputs outputsOf
  simp only [paidOutputs_eq]
  rw [window.flatMap_eq range fun located => located.outputs.filter fun receive =>
    scriptPays parser receive.script address]
  rw [flatMap_filter_of_shared fun located _ receive member => ?_, ← filter_flatMap]
  · rfl
  · rw [height_of_mem_outputs (mem_of_mem_filter member)]

theorem Window.spends_eq (outpoints : List Outpoint) (range : HeightRange) :
    spends head outpoints range =
      chain.inputs.filter fun spend => covers range spend.height ∧ spend.outpoint ∈ outpoints := by
  unfold spends Chain.inputs inputsOf
  simp only [consumed_eq]
  rw [window.flatMap_eq range fun located => located.inputs.filter fun spend =>
    spend.outpoint ∈ outpoints]
  rw [flatMap_filter_of_shared fun located _ spend member => ?_, ← filter_flatMap,
    filter_filter]
  · refine filter_congr fun spend _ => ?_
    rw [Bool.decide_and, Bool.decide_eq_true]
  · rw [height_of_mem_inputs (mem_of_mem_filter member)]

end Answers

end Zaino.Transparent
