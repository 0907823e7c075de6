import Zaino.Transparent.StoreRead

/-!
# What the store answers

A store that has indexed a chain answers address reads from that chain's ledger. The central fact
is about the join every read projects from: `entries_returns` says that the scan of an address
returns each of its outputs once, with the spend the ledger has for it, whenever the budget covers
them. Each read's answer follows, up to the order it is listed in.
-/

namespace Zaino.Transparent

open Zaino Library List Fallible StoreSnapshot TransparentReceive List.Perm Chain Height

/-! ## The ledger by address -/

namespace Chain

variable (chain : Chain)

/-- The outputs that pay an address. -/
def paying (parser : AddressParser) (address : TransparentAddress) : List TransparentReceive :=
  chain.outputs.filter fun receive => scriptPays parser receive.script address

/-- The spend of an outpoint. -/
def spendOf (outpoint : Outpoint) : Option TransparentSpend :=
  chain.inputs.find? fun spend => spend.outpoint = outpoint

variable {chain}

/-- No two inputs consume one outpoint. -/
theorem inputs_unique (chain : Chain) (outpoint : Outpoint) :
    ∀ first ∈ chain.inputs, ∀ second ∈ chain.inputs, decide (first.outpoint = outpoint) = true →
      decide (second.outpoint = outpoint) = true → first = second :=
  fun _ at_first _ at_second names_first names_second => chain.input_eq at_first at_second
    ((of_decide_eq_true names_first).trans (of_decide_eq_true names_second).symm)

theorem spendOf_eq_some {outpoint : Outpoint} {spend : TransparentSpend} :
    chain.spendOf outpoint = some spend ↔ spend ∈ chain.inputs ∧ spend.outpoint = outpoint := by
  rw [spendOf, find?_eq_some_iff_of_unique (chain.inputs_unique outpoint), decide_eq_true_eq]

theorem spendOf_eq_none {outpoint : Outpoint} :
    chain.spendOf outpoint = none ↔ ∀ spend ∈ chain.inputs, spend.outpoint ≠ outpoint := by
  simp [spendOf]

variable {address : TransparentAddress} {parser : AddressParser}

theorem mem_paying {receive : TransparentReceive} : receive ∈ chain.paying parser address ↔
      receive ∈ chain.outputs ∧ scriptPays parser receive.script address = true :=
  mem_filter

theorem paying_nodup (parser : AddressParser) (address : TransparentAddress) :
    ((chain.paying parser address).map outpoint).Nodup :=
  chain.outputs_nodup.sublist (filter_sublist.map _)

@[simp]
theorem select_paying (p : Height → Bool) (parser : AddressParser) (address : TransparentAddress) :
    (chain.select p).paying parser address =
      (chain.paying parser address).filter fun receive => p receive.height := by
  unfold paying
  rw [select_outputs, filter_filter, filter_filter]
  exact filter_congr fun receive _ => Bool.and_comm _ _

variable (chain) in
/-- The outputs that pay an address and are spent, each with its spend. -/
def spentPairs (parser : AddressParser) (address : TransparentAddress) :
    List (TransparentReceive × TransparentSpend) :=
  (chain.paying parser address).filterMap fun receive =>
    (chain.spendOf receive.outpoint).map fun spend => (receive, spend)

variable {pair : TransparentReceive × TransparentSpend}

theorem mem_spentPairs :
    pair ∈ chain.spentPairs parser address ↔ pair.1 ∈ chain.paying parser address ∧
      pair.2 ∈ chain.inputs ∧ pair.2.outpoint = pair.1.outpoint := by
  simp only [spentPairs, mem_filterMap, Option.map_eq_some_iff, spendOf_eq_some]
  constructor
  · intro found
    rcases found with ⟨receive, member, spend, consumed, is_pair⟩
    rw [← is_pair]
    exact ⟨member, consumed⟩
  · intro found
    exact ⟨pair.1, found.1, pair.2, found.2, rfl⟩

theorem spentPairs_nodup (parser : AddressParser) (address : TransparentAddress) :
    (chain.spentPairs parser address).Nodup := by
  refine List.Nodup.filterMap ?_ (chain.paying_nodup parser address).of_map
  intro first second pair from_first from_second
  rcases Option.map_eq_some_iff.mp from_first with ⟨_, _, is_first⟩
  rcases Option.map_eq_some_iff.mp from_second with ⟨_, _, is_second⟩
  exact congrArg Prod.fst (is_first.trans is_second.symm)

theorem spentPairs_ordered
    (member : pair ∈ chain.spentPairs parser address) : pair.1.height ≤ pair.2.height := by
  rcases mem_spentPairs.mp member with ⟨pays, spent, consumes⟩
  exact chain.created_before_spent (mem_paying.mp pays).1 spent consumes

/-- The part of the chain below a height has the spends below it. -/
theorem select_spentPairs (bound : Nat) (parser : AddressParser) (address : TransparentAddress) :
    ((chain.select fun height => height.value < bound).spentPairs parser address).Perm
      ((chain.spentPairs parser address).filter fun pair => pair.2.height.value < bound) := by
  refine (perm_ext_iff_of_nodup (spentPairs_nodup _ _)
    ((spentPairs_nodup _ _).filter _)).mpr fun pair => ?_
  rw [mem_spentPairs, select_paying, select_inputs]
  simp only [mem_filter, mem_spentPairs, decide_eq_true_eq]
  constructor
  · intro found
    rcases found with ⟨⟨pays, _⟩, ⟨spent, below⟩, consumes⟩
    exact ⟨⟨pays, spent, consumes⟩, below⟩
  · intro found
    rcases found with ⟨⟨pays, spent, consumes⟩, below⟩
    have ordered := le_def.mp
      (chain.created_before_spent (mem_paying.mp pays).1 spent consumes)
    exact ⟨⟨pays, by omega⟩, ⟨spent, below⟩, consumes⟩

end Chain

/-- Where a spend happened, as the store reports it. -/
def TransparentSpend.site (spend : TransparentSpend) : SpendSite :=
  ⟨spend.spentBy, spend.height, spend.blockIndex, spend.inputIndex⟩

/-- An output, as the store's scan reports it. -/
def TransparentReceive.scanned (receive : TransparentReceive) : AddressReceive where
  addr := scriptKey receive.script
  height := receive.height.value
  txid := receive.txid
  outputIndex := receive.outputIndex
  value := receive.value

/-- An output joined with its spend, as the store reports it. -/
def Chain.entryOf (chain : Chain) (receive : TransparentReceive) : Entry where
  height := receive.height
  txid := receive.txid
  outputIndex := receive.outputIndex
  value := receive.value
  spent := (chain.spendOf receive.outpoint).map TransparentSpend.site

/-- An unspent output, as the store reports it: with the address's standard script. -/
def storeUtxo (parser : AddressParser) (address : TransparentAddress)
    (receive : TransparentReceive) : Utxo where
  address := address
  txid := receive.txid
  outputIndex := receive.outputIndex
  script := (scriptPaying parser address).getD []
  satoshis := receive.value
  height := receive.height

/-- The balance change of a receive. -/
def TransparentReceive.change (address : TransparentAddress) (receive : TransparentReceive) :
    AddressDelta where
  satoshis := ⟨receive.value.value, receive.value.bounded⟩
  txid := receive.txid
  index := receive.outputIndex
  height := receive.height
  address := address
  blockIndex := some receive.blockIndex

/-- The balance change of a spend. -/
def spentChange (address : TransparentAddress) (pair : TransparentReceive × TransparentSpend) :
    AddressDelta where
  satoshis := ⟨-pair.1.value.value, by rw [Int.natAbs_neg]; exact pair.1.value.bounded⟩
  txid := pair.2.spentBy
  index := pair.2.inputIndex
  height := pair.2.height
  address := address
  blockIndex := some pair.2.blockIndex

/-- Where an output was created, and by which transaction. -/
def TransparentReceive.place (receive : TransparentReceive) : Height × UInt32 × TransactionId :=
  (receive.height, receive.blockIndex, receive.txid)

/-- Where a spend happened, and by which transaction. -/
def TransparentSpend.place (spend : TransparentSpend) : Height × UInt32 × TransactionId :=
  (spend.height, spend.blockIndex, spend.spentBy)

namespace Chain

variable (chain : Chain) (parser : AddressParser) (address : TransparentAddress)
  (range : HeightRange)

/-- What is gathered about an address at the selected heights: something for each output that pays
it there, and something for each spend there of an output that pays it. -/
def gathered {β : Type} (p : Height → Bool) (onReceive : TransparentReceive → β)
    (onSpend : TransparentReceive × TransparentSpend → β) : List β :=
  ((chain.paying parser address).filter fun receive => p receive.height).map onReceive ++
    ((chain.spentPairs parser address).filter fun pair => p pair.2.height).map onSpend

/-- The outputs that pay an address between two heights. -/
abbrev payingWithin (start stop : Nat) : List TransparentReceive :=
  (chain.paying parser address).filter fun receive =>
    start ≤ receive.height.value ∧ receive.height.value ≤ stop

/-- The balance changes of an address in a range. -/
def changes : List AddressDelta :=
  chain.gathered parser address (covers range) (change address)
    (spentChange address)

/-- The transactions behind those changes, each with its height and position. -/
def touched : List (Height × UInt32 × TransactionId) :=
  chain.gathered parser address (covers range) place fun pair => pair.2.place

/-- Below a height, the part of the chain below it gathers what the chain does. -/
theorem select_gathered {β : Type} {bound : Nat} {p : Height → Bool}
    (below : ∀ height, p height = true → height.value < bound)
    (onReceive : TransparentReceive → β) (onSpend : TransparentReceive × TransparentSpend → β) :
    ((chain.select fun height => height.value < bound).gathered parser address p onReceive
      onSpend).Perm (chain.gathered parser address p onReceive onSpend) := by
  have narrower : ∀ height : Height, (p height && decide (height.value < bound)) = p height := by
    intro height
    rw [Bool.and_eq_left_iff_imp]
    exact fun selected => decide_eq_true (below height selected)
  unfold gathered
  rw [select_paying, filter_filter]
  simp only [narrower]
  refine append_left _ (map _ ?_)
  refine ((select_spentPairs bound parser address).filter _).trans (of_eq ?_)
  rw [filter_filter]
  simp only [narrower]

variable {chain parser address range} in
/-- A place in the list is that of a transaction of the chain. -/
theorem place_of_mem_touched {place : Height × UInt32 × TransactionId}
    (member : place ∈ chain.touched parser address range) : ∃ located ∈ chain.transactions,
      place = (located.height, located.blockIndex, located.transaction.txid) := by
  rcases mem_map_filter_append.mp member with ⟨receive, pays, _, rfl⟩ | ⟨pair, consumed, _, rfl⟩
  · rcases mem_outputsOf.mp (mem_paying.mp pays).1 with ⟨located, at_located, from_located⟩
    rcases mem_map.mp from_located with ⟨output, _, rfl⟩
    exact ⟨located, at_located, rfl⟩
  · rcases mem_inputsOf.mp (mem_spentPairs.mp consumed).2.1 with ⟨located, at_located, from_located⟩
    rcases mem_map.mp from_located with ⟨input, _, is_spend⟩
    refine ⟨located, at_located, ?_⟩
    rw [← is_spend]
    rfl

variable {chain parser address range} in
/-- Height and position determine the transaction. -/
theorem touched_faithful {first second : Height × UInt32 × TransactionId}
    (at_first : first ∈ chain.touched parser address range)
    (at_second : second ∈ chain.touched parser address range)
    (height : first.1 = second.1) (position : first.2.1 = second.2.1) : first = second := by
  rcases place_of_mem_touched at_first with ⟨located₁, at_located₁, is_first⟩
  rcases place_of_mem_touched at_second with ⟨located₂, at_located₂, is_second⟩
  rw [is_first, is_second] at height position
  rw [is_first, is_second, chain.eq_of_place_eq at_located₁ at_located₂ height position]

/-- A place as a read reports it. -/
def locatedTxid (place : Height × UInt32 × TransactionId) : LocatedTxid :=
  (some place.1, some place.2.1, place.2.2)

theorem locatedTxid_injective : Function.Injective locatedTxid := by
  intro first second same
  simpa [locatedTxid, Prod.ext_iff] using same

/-- What one output contributes to a range: something if it is created there, something if it is
spent there. -/
def contribution {β : Type} (onReceive : TransparentReceive → β)
    (onSpend : TransparentReceive × TransparentSpend → β) (receive : TransparentReceive) : List β :=
  (if covers range receive.height then [onReceive receive] else []) ++
    (((chain.spendOf receive.outpoint).filter fun spend => covers range spend.height).map
      fun spend => onSpend (receive, spend)).toList

/-- Gathered output by output up to the end of the range, the contributions are those of all
creations and all spends in the range. -/
theorem flatMap_contribution_perm {β : Type} (onReceive : TransparentReceive → β)
    (onSpend : TransparentReceive × TransparentSpend → β) :
    ((chain.payingWithin parser address 0 range.stop.value).flatMap
        (chain.contribution range onReceive onSpend)).Perm
      (chain.gathered parser address (covers range) onReceive onSpend) := by
  refine (flatMap_append_perm _ _ _).symm.trans (append ?_ ?_)
  · refine of_eq ?_
    rw [flatMap_ite_singleton, filter_filter]
    congr 1
    refine filter_congr fun receive _ => ?_
    rw [Bool.and_eq_left_iff_imp]
    intro covered
    exact decide_eq_true ⟨Nat.zero_le _, (of_decide_eq_true covered).2⟩
  · refine of_eq ?_
    rw [← filterMap_eq_flatMap_toList, filterMap_filter, spentPairs,
      filter_filterMap, map_filterMap]
    refine filterMap_congr fun receive pays => ?_
    cases spent : chain.spendOf receive.outpoint with
    | none => simp
    | some spend =>
      -- An output above the range is spent above it too.
      rcases spendOf_eq_some.mp spent with ⟨consumed, names⟩
      have ordered := le_def.mp
        (chain.created_before_spent (mem_paying.mp pays).1 consumed names)
      cases covered : covers range spend.height with
      | false => simp [Option.filter_some, covered]
      | true =>
        have below := le_def.mp (of_decide_eq_true covered).2
        have created_below : receive.height.value ≤ range.stop.value := by omega
        simp [Option.filter_some, covered, created_below]

end Chain

/-- The store has indexed the chain, and may be read. -/
structure StoreSnapshot.Serves (store : StoreSnapshot) (chain : Chain) : Prop where
  indexed : store.indexes = chain.indexes
  complete : ∀ namespaceId, store.isComplete namespaceId = true
  fresh : ∀ namespaceId, store.isFresh namespaceId = true

namespace StoreSnapshot.Serves

variable {store : StoreSnapshot} {chain : Chain} (serves : store.Serves chain)

include serves

variable {located : LocatedTransaction}

theorem location_of_mem (member : located ∈ chain.transactions) :
    store.location located.transaction.txid = some ⟨located.height.value, located.blockIndex⟩ := by
  rw [location, if_pos (serves.fresh _), serves.indexed]
  exact chain.lookup_txidLocation.mpr ⟨located, member, rfl, rfl⟩

/-- A transaction's transparent part is filed at its height and position. -/
theorem compact_of_mem (member : located ∈ chain.transactions) :
    ∃ txs : List TransparentTxCompact, store.transparentBlock located.height = some txs ∧
      txs[located.blockIndex.toNat]? = some
        { inputs := located.transaction.transparent.inputs.map fun input =>
            (input.prevTxid, input.prevIndex)
          outputs := located.transaction.transparent.outputs.map fun output =>
            (output.value, output.script) } := by
  rcases mem_transactionsOf.mp member with ⟨block, at_block, at_height, at_index⟩
  refine ⟨transparentTxs block, ?_, ?_⟩
  · rw [transparentBlock, if_pos (serves.fresh _), serves.indexed]
    exact chain.lookup_transparentData.mpr ⟨block, at_block, by rw [at_height], rfl⟩
  · rw [transparentTxs, getElem?_map, at_index, Option.map_some]

/-- The input recovered for a spend is the spend's own. -/
theorem inputIndex_of_mem {spend : TransparentSpend}
    (at_located : located ∈ chain.transactions) (consumes : spend ∈ located.inputs) :
    store.inputIndex ⟨located.height.value, located.blockIndex⟩ located.height spend.outpoint =
      .ok spend.inputIndex := by
  rcases mem_transactionsOf.mp at_located with ⟨block, at_block, _, at_index⟩
  rcases mem_map.mp consumes with ⟨⟨index, input⟩, at_input, is_spend⟩
  rcases serves.compact_of_mem at_located with ⟨txs, filed, compact⟩
  -- No other input of the transaction names the outpoint: it would be a second spend.
  have position : (located.transaction.transparent.inputs.map fun input =>
      (input.prevTxid, input.prevIndex)).findIdx? (fun input =>
        input.1 = spend.outpoint.txid ∧ input.2 = spend.outpoint.index) = some index.toNat := by
    rw [← is_spend]
    refine findIdx?_eq_some_of_unique (x := (input.prevTxid, input.prevIndex)) ?_ ?_ ?_
    · rw [getElem?_map, mem_enumerated.mp at_input, Option.map_some]
    · exact decide_eq_true ⟨rfl, rfl⟩
    · intro j named at_j names
      rw [getElem?_map, Option.map_eq_some_iff] at at_j
      rcases at_j with ⟨other, at_other, is_named⟩
      rw [← is_named] at names
      have names_both := of_decide_eq_true names
      have fits := ((chain.counts block at_block).2 _ (mem_of_getElem? at_index)).1
      have bound := (List.getElem?_eq_some_iff.mp at_other).1
      have narrow : (UInt32.ofNat j).toNat = j :=
        u32TryFrom_eq_some.mp (u32TryFrom_of_lt (by omega))
      have at_other' : (UInt32.ofNat j, other) ∈
          enumerated located.transaction.transparent.inputs :=
        mem_enumerated.mpr (narrow.symm ▸ at_other)
      have same : located.spend (UInt32.ofNat j, other) = located.spend (index, input) := by
        refine chain.input_eq (mem_inputsOf.mpr ⟨located, at_located, ?_⟩)
          (mem_inputsOf.mpr ⟨located, at_located, ?_⟩) ?_
        · exact mem_map_of_mem at_other'
        · exact mem_map_of_mem at_input
        · exact congrArg₂ Outpoint.mk names_both.1 names_both.2
      have index_eq : UInt32.ofNat j = index := congrArg TransparentSpend.inputIndex same
      rw [← index_eq, narrow]
  simp only [inputIndex, filed, compact, position]
  rw [u32TryFrom_eq_some.mpr rfl, ← is_spend]
  rfl

/-- The store resolves the spends of its chain. -/
theorem spendSite_eq (outpoint : Outpoint) : store.spendSite outpoint =
      .ok ((chain.spendOf outpoint).map TransparentSpend.site) := by
  unfold spendSite
  cases recorded : store.indexes.transparentSpends.lookup outpoint with
  | none =>
    have unspent : chain.spendOf outpoint = none := by
      refine spendOf_eq_none.mpr fun spend member names => ?_
      have filed := chain.lookup_transparentSpends.mpr ⟨spend, member, names, rfl⟩
      rw [serves.indexed, filed] at recorded
      cases recorded
    rw [unspent]
    rfl
  | some spentBy =>
    rw [serves.indexed] at recorded
    rcases chain.lookup_transparentSpends.mp recorded with ⟨spend, member, names, is_by⟩
    rcases mem_inputsOf.mp member with ⟨located, at_located, consumes⟩
    have spent : chain.spendOf outpoint = some spend := spendOf_eq_some.mpr ⟨member, names⟩
    have index := serves.inputIndex_of_mem at_located consumes
    have height : domainHeight located.height.value = .ok located.height := by
      rw [domainHeight, tryFrom_eq_some.mpr rfl]
    rcases mem_map.mp consumes with ⟨entry, _, is_spend⟩
    have by_located : spend.spentBy = located.transaction.txid := by rw [← is_spend]; rfl
    rw [← is_by, spent, by_located]
    simp only [serves.location_of_mem at_located]
    rw [← names, height]
    change (do
      let inputIndex ← store.inputIndex ⟨located.height.value, located.blockIndex⟩ located.height
        spend.outpoint
      .ok (some (⟨located.transaction.txid, located.height, located.blockIndex, inputIndex⟩ :
        SpendSite))) = Except.ok (some spend.site)
    rw [index, ← is_spend]
    rfl

/-- The join of an output of the chain. -/
theorem entry_scanned (receive : TransparentReceive) :
    store.entry receive.scanned = .ok (chain.entryOf receive) := by
  have height : domainHeight receive.scanned.height = .ok receive.height := by
    rw [domainHeight, scanned, tryFrom_eq_some.mpr rfl]
  rw [entry, height]
  rw [serves.spendSite_eq]
  rfl

/-- A scan returns each filed output of the address once. -/
theorem scanReceives_perm (addr : AddrId) (start stop : Nat) :
    (store.scanReceives addr start stop).Perm
      ((chain.outputs.filter fun receive => scriptKey receive.script = addr ∧
        start ≤ receive.height.value ∧ receive.height.value ≤ stop).map
          scanned) := by
  refine (sortByKey_perm _ _).trans ?_
  refine (perm_ext_iff_of_nodup ?_ ?_).mpr fun scanned => ?_
  · refine List.Nodup.map ?_ (store.indexes.addressHistory.nodupKeys.nodup.filter _)
    intro first second same
    rcases first with ⟨⟨addr₁, height₁, txid₁, index₁⟩, value₁⟩
    rcases second with ⟨⟨addr₂, height₂, txid₂, index₂⟩, value₂⟩
    cases same
    rfl
  · refine List.Nodup.of_map (fun scanned : AddressReceive =>
      (⟨scanned.txid, scanned.outputIndex⟩ : Outpoint)) ?_
    rw [map_map]
    exact chain.outputs_nodup.sublist (filter_sublist.map _)
  · simp only [mem_map, mem_filter, decide_eq_true_eq, Sigma.exists]
    constructor
    · intro found
      rcases found with ⟨key, value, ⟨member, of_addr, above, below⟩, is_scanned⟩
      have filed := HashMap.lookup_eq_some_iff.mpr member
      rw [serves.indexed] at filed
      rcases chain.lookup_addressHistory.mp filed with ⟨receive, created, is_key, is_value⟩
      subst is_key is_value
      exact ⟨receive, ⟨created, of_addr, above, below⟩, is_scanned⟩
    · intro found
      rcases found with ⟨receive, ⟨created, of_addr, above, below⟩, is_scanned⟩
      have filed := chain.lookup_addressHistory.mpr ⟨receive, created, rfl, rfl⟩
      rw [← serves.indexed] at filed
      exact ⟨_, _, ⟨HashMap.lookup_eq_some_iff.mp filed, of_addr, above, below⟩, is_scanned⟩

end StoreSnapshot.Serves

/-- A budget that covers a scan is charged for it and no more. -/
theorem chargeScan_returns (address : TransparentAddress) (receives : List AddressReceive)
    (limit remaining : Nat) :
    (chargeScan address receives).Returns ⟨limit, remaining + receives.length⟩ receives
      ⟨limit, remaining⟩ := by
  induction receives with
  | nil => exact rfl
  | cons receive rest ih =>
    refine .bind rfl ?_
    have charged : (⟨limit, remaining + (receive :: rest).length⟩ : ReadBudget).chargeOne =
        some ⟨limit, remaining + rest.length⟩ := rfl
    refine .bind rfl ?_
    exact ih.bind rfl

namespace StoreSnapshot.Serves

variable {store : StoreSnapshot} {chain : Chain} (serves : store.Serves chain)

include serves

/-- The outputs of an address between two heights. -/
theorem entries_returns (parser : AddressParser) (address : TransparentAddress)
    (start stop limit remaining : Nat) (bounded : stop + 1 < 2 ^ 64) : ∃ entries : List Entry,
      (store.entries parser address start stop).Returns
        ⟨limit, remaining + (chain.payingWithin parser address start stop).length⟩
        entries ⟨limit, remaining⟩ ∧
      entries.Perm ((chain.payingWithin parser address start stop).map chain.entryOf) := by
  unfold entries
  cases resolved : transparentAddressKey parser address with
  | none =>
    have nothing : chain.paying parser address = [] :=
      filter_eq_nil_iff.mpr fun receive _ =>
        ne_true_of_eq_false (scriptPays_of_no_key resolved)
    rw [payingWithin, nothing]
    exact ⟨[], rfl, nil⟩
  | some addr =>
    have paid : (chain.outputs.filter fun receive => scriptKey receive.script = addr ∧
        start ≤ receive.height.value ∧ receive.height.value ≤ stop) =
        chain.payingWithin parser address start stop := by
      rw [payingWithin, paying, filter_filter]
      refine filter_congr fun receive _ => ?_
      rw [Bool.eq_iff_iff, Bool.and_eq_true, scriptPays_eq_true_iff resolved]
      simp only [decide_eq_true_eq]
      exact and_comm
    have scan := serves.scanReceives_perm addr start stop
    rw [paid] at scan
    have gate : [Namespace.addressHistory, .transparentSpends, .txidLocation].all
        store.isComplete = true := all_eq_true.mpr fun namespaceId _ => serves.complete _
    have listed := (sortByKey_perm (fun receive : AddressReceive =>
      [receive.height, receive.outputIndex.toNat]) _).trans scan
    rcases exists_perm_of_perm_map listed with ⟨receives, is_listed, perm⟩
    refine ⟨receives.map chain.entryOf, ?_, perm.map _⟩
    dsimp only
    rw [if_pos gate, returns_bind]
    refine ⟨receives.map scanned, ⟨limit, remaining⟩, ?_, ?_⟩
    · rw [readReceives, if_pos bounded, returns_bind]
      have charged := chargeScan_returns address (store.scanReceives addr start stop)
        limit remaining
      rw [scan.length_eq, length_map] at charged
      exact ⟨_, _, charged, returns_pure.mpr ⟨is_listed, rfl⟩⟩
    · refine .ofExcept ?_
      rw [mapM_map]
      exact mapM_eq_ok fun receive _ => serves.entry_scanned receive

/-- Every output of an address that the chain leaves unspent. -/
theorem unspentOutpoints_returns (parser : AddressParser) (address : TransparentAddress)
    (limit remaining : Nat) : ∃ utxos : List Utxo, (store.unspentOutpoints parser address).Returns
        ⟨limit, remaining + (chain.paying parser address).length⟩ utxos ⟨limit, remaining⟩ ∧
      utxos.Perm (((chain.paying parser address).filter fun receive =>
        (chain.spendOf receive.outpoint).isNone).map (storeUtxo parser address)) := by
  have all : chain.payingWithin parser address 0 wholeHistoryEnd =
      chain.paying parser address := by
    refine filter_eq_self.mpr fun receive _ => decide_eq_true ⟨Nat.zero_le _, ?_⟩
    have bound := receive.height.bounded
    unfold maxHeight at bound
    unfold wholeHistoryEnd
    omega
  rcases serves.entries_returns parser address 0 wholeHistoryEnd limit remaining
    (by decide) with ⟨entries, returned, perm⟩
  rw [all] at returned perm
  have unspent : (entries.filter fun entry => entry.spent.isNone).Perm
      (((chain.paying parser address).filter fun receive =>
        (chain.spendOf receive.outpoint).isNone).map chain.entryOf) := by
    refine (perm.filter _).trans (of_eq ?_)
    rw [filter_map]
    congr 1
    exact filter_congr fun receive _ => Option.isNone_map
  refine ⟨(entries.filter fun entry => entry.spent.isNone).map fun entry =>
    ⟨address, entry.txid, entry.outputIndex, (scriptPaying parser address).getD [], entry.value,
      entry.height⟩, ?_, ?_⟩
  · refine returned.bind ?_
    dsimp only
    split
    · next none_left =>
      rw [isEmpty_iff.mp none_left]
      rfl
    · next some_left =>
      -- Something pays the address, so the address has a key and a standard script.
      rcases exists_mem_of_ne_nil _ (fun empty => some_left (isEmpty_iff.mpr empty))
        with ⟨entry, at_entry⟩
      rcases mem_map.mp (unspent.mem_iff.mp at_entry) with ⟨receive, at_receive, _⟩
      have pays := (mem_paying.mp (mem_filter.mp at_receive).1).2
      cases resolved : transparentAddressKey parser address with
      | none =>
        rw [scriptPays_of_no_key resolved] at pays
        cases pays
      | some key =>
        rcases scriptPaying_of_key resolved with ⟨script, is_script⟩
        refine .bind (a := script) (.ofExcept ?_) ?_
        · rw [scriptFor, is_script]
        · rw [is_script]
          rfl
  · refine (unspent.map _).trans (of_eq ?_)
    rw [map_map]
    rfl

/-! ## Balance changes -/

variable {receive : TransparentReceive}

theorem blockIndex_of_output (created : receive ∈ chain.outputs) :
    store.blockIndex receive.txid = some receive.blockIndex := by
  rcases mem_outputsOf.mp created with ⟨located, at_located, from_located⟩
  rcases mem_map.mp from_located with ⟨output, _, is_receive⟩
  have location := serves.location_of_mem at_located
  rw [← is_receive]
  exact congrArg (Option.map TxLocation.txIndex) location

/-- One entry's balance changes. -/
theorem entryDeltas_eq (address : TransparentAddress) (range : HeightRange)
    (created : receive ∈ chain.outputs) :
    store.entryDeltas address range (chain.entryOf receive) = .ok
      (chain.contribution range (change address) (spentChange address)
        receive) := by
  have received : store.receiveDelta address range (chain.entryOf receive) =
      .ok (if covers range receive.height then [receive.change address] else []) := by
    unfold receiveDelta entryOf
    rw [delta_positive, serves.blockIndex_of_output created]
    split
    · rfl
    · rfl
  have spent : spendDelta address range (chain.entryOf receive) =
      .ok (((chain.spendOf receive.outpoint).filter fun spend =>
        covers range spend.height).map fun spend => spentChange address (receive, spend)).toList := by
    unfold spendDelta entryOf
    dsimp only
    rw [delta_negative]
    cases chain.spendOf receive.outpoint with
    | none => rfl
    | some spend =>
      simp only [Option.map_some, Option.filter_some, TransparentSpend.site]
      cases covers range spend.height <;> rfl
  rw [entryDeltas, received, spent]
  rfl

/-- The outputs of an address up to the end of a range, and what a range gathers from them. -/
theorem receives_return (parser : AddressParser) (address : TransparentAddress)
    (range : HeightRange) (limit remaining : Nat) : ∃ receives : List TransparentReceive,
      (store.entries parser address 0 range.stop.value).Returns
        ⟨limit, remaining + (chain.payingWithin parser address 0 range.stop.value).length⟩
        (receives.map chain.entryOf) ⟨limit, remaining⟩ ∧
      (∀ receive ∈ receives, receive ∈ chain.outputs) ∧
      ∀ {β : Type} (onReceive : TransparentReceive → β)
        (onSpend : TransparentReceive × TransparentSpend → β),
        (receives.flatMap (chain.contribution range onReceive onSpend)).Perm
          (chain.gathered parser address (covers range) onReceive onSpend) := by
  have bound := range.stop.bounded
  unfold maxHeight at bound
  rcases serves.entries_returns parser address 0 range.stop.value limit remaining (by omega) with
    ⟨entries, returned, perm⟩
  rcases exists_perm_of_perm_map perm with ⟨receives, rfl, reordered⟩
  refine ⟨receives, returned, fun receive member => ?_, fun onReceive onSpend => ?_⟩
  · exact (mem_paying.mp (mem_of_mem_filter (reordered.mem_iff.mp member))).1
  · exact (reordered.flatMap_right _).trans
      (chain.flatMap_contribution_perm parser address range _ _)

/-- The balance changes of an address in a range. -/
theorem deltas_returns (parser : AddressParser) (address : TransparentAddress)
    (range : HeightRange) (limit remaining : Nat) : ∃ changes : List AddressDelta,
      (store.deltas parser address range).Returns
        ⟨limit, remaining + (chain.payingWithin parser address 0 range.stop.value).length⟩
        changes ⟨limit, remaining⟩ ∧ changes.Perm (chain.changes parser address range) := by
  rcases serves.receives_return parser address range limit remaining with
    ⟨receives, returned, created, perm⟩
  have traversed : (receives.map chain.entryOf).mapM (store.entryDeltas address range) =
      .ok (receives.map
        (chain.contribution range (change address) (spentChange address))) := by
    rw [mapM_map]
    exact mapM_eq_ok fun receive member => serves.entryDeltas_eq address range (created _ member)
  refine ⟨_, ?_, (sortByKey_perm AddressDelta.sortKey _).trans (perm _ _)⟩
  refine returned.bind ?_
  refine .bind (.ofExcept traversed) ?_
  rfl

/-! ## Transactions -/

/-- One entry's transactions. -/
theorem entryTxids_eq (range : HeightRange) (created : receive ∈ chain.outputs) :
    store.entryTxids range (chain.entryOf receive) =
      (chain.contribution range place (fun pair => pair.2.place) receive).map
        fun place => (place.1, some place.2.1, place.2.2) := by
  unfold entryTxids contribution entryOf
  rw [map_append]
  congr 1
  · rw [serves.blockIndex_of_output created]
    cases covers range receive.height <;> rfl
  · cases chain.spendOf receive.outpoint with
    | none => rfl
    | some spend =>
      simp only [Option.map_some, Option.filter_some, TransparentSpend.site]
      cases covers range spend.height <;> rfl

/-- The transactions that moved value for an address in a range. -/
theorem txIds_returns (parser : AddressParser) (address : TransparentAddress)
    (range : HeightRange) (limit remaining : Nat) : ∃ txids : List LocatedTxid,
      (store.txIds parser address range).Returns
        ⟨limit, remaining + (chain.payingWithin parser address 0 range.stop.value).length⟩
        txids ⟨limit, remaining⟩ ∧ txids.Nodup ∧ ∀ located, located ∈ txids ↔
        located ∈ (chain.touched parser address range).map locatedTxid := by
  rcases serves.receives_return parser address range limit remaining with
    ⟨receives, returned, created, perm⟩
  have gathered : (receives.map chain.entryOf).flatMap (store.entryTxids range) =
      (receives.flatMap (chain.contribution range place
        fun pair => pair.2.place)).map fun place => (place.1, some place.2.1, place.2.2) := by
    rw [flatMap_map, map_flatMap]
    exact flatMap_congr fun receive member => serves.entryTxids_eq range (created _ member)
  have places := perm place fun pair => pair.2.place
  refine ⟨(dedupAdjacent (sortByKey locatedKey
    ((receives.map chain.entryOf).flatMap (store.entryTxids range)))).map
    fun located => (some located.1, located.2.1, located.2.2), ?_, ?_, ?_⟩
  · exact returned.bind rfl
  · refine List.Nodup.map ?_ (nodup_dedupAdjacent (pairwise_sortByKey _ _) ?_)
    · intro first second same
      simpa [Prod.ext_iff] using same
    · intro first at_first second at_second same_key
      rw [(sortByKey_perm _ _).mem_iff, gathered, mem_map] at at_first at_second
      rcases at_first with ⟨place₁, at_place₁, is_first⟩
      rcases at_second with ⟨place₂, at_place₂, is_second⟩
      rw [← is_first, ← is_second, locatedKey, locatedKey, List.cons.injEq, List.cons.injEq]
        at same_key
      rcases same_key with ⟨height_eq, position_eq, _⟩
      rw [← is_first, ← is_second, touched_faithful (places.mem_iff.mp at_place₁)
        (places.mem_iff.mp at_place₂) (ext height_eq)
        (UInt32.toNat_inj.mp (Nat.succ.inj position_eq))]
  · intro located
    simp only [mem_map, mem_dedupAdjacent, (sortByKey_perm _ _).mem_iff, gathered,
      places.mem_iff]
    constructor
    · intro found
      rcases found with ⟨_, ⟨place, at_place, is_place⟩, is_located⟩
      exact ⟨place, at_place, by rw [← is_located, ← is_place]; rfl⟩
    · intro found
      rcases found with ⟨place, at_place, is_located⟩
      exact ⟨_, ⟨place, at_place, rfl⟩, is_located⟩

end StoreSnapshot.Serves

end Zaino.Transparent
