import Zaino.Transparent.UnspentSet

/-!
# The composed spend status

Whether an outpoint was spent, by which transaction, and where. The window walks its blocks for a
spend or a creation; the store looks the outpoint up among the recorded spends and, finding none,
asks whether the output exists. The composed read takes the window's answer only when it is a
spend: an output the window created and left unspent is asked of the store, which has not seen it.

Each tier answers truly over its own blocks (`Window.spendStatus_eq`, `Serves.spendStatus_eq`).
`spendStatus_exact_iff` says exactly when the composed answers are those of the chain up to the
window's tip.
-/

namespace Zaino.Transparent

open Zaino Library ChainHead List Chain StoreSnapshot

/-- Whether a view considers an output spent. -/
inductive SpendStatus
  | unspent
  | spent (spentBy : TransactionId)
  /-- Known to be spent, the spender not resolved. -/
  | spentSpenderUnknown
  /-- No transaction of the view created the output. -/
  | noSuchOutput
  deriving DecidableEq

/-! ## The window -/

namespace HeadSnapshot

/-- Whether an input consumes an outpoint. -/
def consumes (outpoint : Outpoint) (input : TransparentInput) : Bool :=
  input.prevTxid = outpoint.txid ∧ input.prevIndex = outpoint.index

/-- Whether a transaction spends an outpoint. -/
def spends (transaction : Transaction) (outpoint : Outpoint) : Bool :=
  transaction.transparent.inputs.any (consumes outpoint)

/-- Whether a transaction is the one that created an outpoint. -/
def creates (transaction : Transaction) (outpoint : Outpoint) : Bool :=
  if transaction.txid ≠ outpoint.txid then false
  else outpoint.index.toNat < transaction.transparent.outputs.length

/-- Walk transactions for a spend, noting a creation on the way. -/
def walkStatus (outpoint : Outpoint) : Bool → List Transaction → SpendStatus
  | created, [] => if created then .unspent else .noSuchOutput
  | created, transaction :: rest =>
    if spends transaction outpoint then .spent transaction.txid
    else walkStatus outpoint (created || creates transaction outpoint) rest

/-- What the window says of an outpoint. -/
def spendStatus (head : MapBackedSnapshot) (outpoint : Outpoint) : SpendStatus :=
  walkStatus outpoint false ((bestChain head).flatMap fun block => block.block.transactions)

/-- The spend of an outpoint by a transaction, if one of its inputs consumes it. -/
def spendOf (transaction : Transaction) (outpoint : Outpoint) (height : Height)
    (blockIndex : UInt32) : Option TransparentSpend :=
  match transaction.transparent.inputs.zipIdx.find? fun entry => consumes outpoint entry.1 with
  | none => none
  | some entry =>
    (u32TryFrom entry.2).map fun inputIndex =>
      { outpoint := outpoint
        spentBy := transaction.txid
        inputIndex := inputIndex
        height := height
        blockIndex := blockIndex }

/-- The window's spend of an outpoint. -/
def spendInfo (head : MapBackedSnapshot) (outpoint : Outpoint) : Option TransparentSpend :=
  (bestChain head).findSome? fun block =>
    (enumerated block.block.transactions).findSome? fun entry =>
      spendOf entry.2 outpoint block.height entry.1

end HeadSnapshot

/-! ## The store -/

namespace StoreSnapshot

variable (store : StoreSnapshot)

/-- Whether the store's blocks hold a transaction that created an outpoint. -/
def outputExists (outpoint : Outpoint) : Except AddressReadError Bool :=
  match store.location outpoint.txid with
  | none => .ok false
  | some location =>
    match Height.tryFrom location.height with
    | none => .error (.fatal "indexed height exceeds the protocol limit")
    | some height =>
      match store.transparentBlock height with
      | none =>
        let at_height := height.value
        .error (.fatal (s!"transaction located at height {at_height} but that block has " ++
          "no transparent data"))
      | some block =>
        match block[location.txIndex.toNat]? with
        | none =>
          let index := location.txIndex.toNat
          let at_height := height.value
          let held := block.length
          .error (.fatal (s!"transaction located at position {index} of height {at_height}, " ++
            s!"which holds {held} transactions"))
        | some tx => .ok (outpoint.index.toNat < tx.outputs.length)

/-- Refuse a spend read whose namespaces are still being built. -/
def spendStatusGate : Except AddressReadError Unit :=
  if [Namespace.transparentSpends, .txidLocation].all store.isComplete then .ok ()
  else .error (.notServiceable .spendStatus)

/-- What the store says of an outpoint. -/
def spendStatus (outpoint : Outpoint) : Except AddressReadError SpendStatus := do
  store.spendStatusGate
  match store.indexes.transparentSpends.lookup outpoint with
  | some spentBy => .ok (.spent spentBy)
  | none => do
    let created ← store.outputExists outpoint
    .ok (if created then .unspent else .noSuchOutput)

/-- The store's spend of an outpoint. -/
def spendInfo (outpoint : Outpoint) : Except AddressReadError (Option TransparentSpend) := do
  store.spendStatusGate
  let resolved ← store.spendSite outpoint
  .ok (resolved.map fun site =>
    { outpoint := outpoint
      spentBy := site.spentBy
      inputIndex := site.inputIndex
      height := site.height
      blockIndex := site.blockIndex })

end StoreSnapshot

/-! ## The composition -/

namespace ChainView

variable (view : ChainView)

/-- The window's answer where it is a spend, the store's otherwise. -/
def spendStatus (outpoint : Outpoint) : Except AddressReadError SpendStatus :=
  match HeadSnapshot.spendStatus view.nonFinalised outpoint with
  | .spent spentBy => .ok (.spent spentBy)
  | .spentSpenderUnknown => .ok .spentSpenderUnknown
  | .unspent => view.finalised.spendStatus outpoint
  | .noSuchOutput => view.finalised.spendStatus outpoint

/-- The window's spend of an outpoint, or else the store's. -/
def spendInfo (outpoint : Outpoint) : Except AddressReadError (Option TransparentSpend) :=
  match HeadSnapshot.spendInfo view.nonFinalised outpoint with
  | some spend => .ok (some spend)
  | none => view.finalised.spendInfo outpoint

end ChainView

/-! ## What a chain says of an outpoint -/

namespace Chain

variable (chain : Chain) (outpoint : Outpoint)

/-- The output that an outpoint names. -/
def creationOf : Option TransparentReceive :=
  chain.outputs.find? fun receive => receive.outpoint = outpoint

/-- The status a chain gives an outpoint. -/
def spendStatus : SpendStatus :=
  match chain.spendOf outpoint with
  | some spend => .spent spend.spentBy
  | none => if (chain.creationOf outpoint).isSome then .unspent else .noSuchOutput

theorem select_spendOf (p : Height → Bool) : (chain.select p).spendOf outpoint =
      (chain.spendOf outpoint).filter fun spend => p spend.height := by
  rw [spendOf, select_inputs]
  exact find?_filter_of_unique (chain.inputs_unique outpoint)

/-- No two outputs have one outpoint. -/
theorem outputs_unique :
    ∀ first ∈ chain.outputs, ∀ second ∈ chain.outputs, decide (first.outpoint = outpoint) = true →
      decide (second.outpoint = outpoint) = true → first = second :=
  fun _ at_first _ at_second names_first names_second => chain.output_eq at_first at_second
    ((of_decide_eq_true names_first).trans (of_decide_eq_true names_second).symm)

theorem select_creationOf (p : Height → Bool) : (chain.select p).creationOf outpoint =
      (chain.creationOf outpoint).filter fun receive => p receive.height := by
  rw [creationOf, select_outputs]
  exact find?_filter_of_unique (chain.outputs_unique outpoint)

variable {chain outpoint}

theorem creationOf_isSome : (chain.creationOf outpoint).isSome ↔
      ∃ receive ∈ chain.outputs, receive.outpoint = outpoint := by
  simp [creationOf]

theorem creationOf_eq_some {receive : TransparentReceive} :
    chain.creationOf outpoint = some receive ↔
      receive ∈ chain.outputs ∧ receive.outpoint = outpoint := by
  rw [creationOf, find?_eq_some_iff_of_unique (chain.outputs_unique outpoint), decide_eq_true_eq]

variable {located : LocatedTransaction}

theorem mem_outputs_iff : (∃ receive ∈ located.outputs, receive.outpoint = outpoint) ↔
      HeadSnapshot.creates located.transaction outpoint = true := by
  unfold HeadSnapshot.creates LocatedTransaction.outputs
  constructor
  · intro found
    rcases found with ⟨receive, member, names⟩
    rcases mem_map.mp member with ⟨⟨index, output⟩, at_output, is_receive⟩
    subst is_receive
    subst names
    have bound := (List.getElem?_eq_some_iff.mp (mem_enumerated.mp at_output)).1
    exact (if_neg fun differs => differs rfl).trans (decide_eq_true bound)
  · intro created
    split at created
    · cases created
    · next names =>
      have names' : located.transaction.txid = outpoint.txid := by
        by_contra differs
        exact names differs
      have at_index := getElem?_eq_getElem (of_decide_eq_true created)
      refine ⟨located.receive (outpoint.index, _),
        mem_map_of_mem (mem_enumerated.mpr at_index), ?_⟩
      exact congrArg₂ Outpoint.mk names' rfl

/-- An outpoint is created by the transactions that hold its output. -/
theorem any_creates :
    (chain.transactions.any fun located => HeadSnapshot.creates located.transaction outpoint) =
      (chain.creationOf outpoint).isSome := by
  rw [Bool.eq_iff_iff, creationOf_isSome, any_eq_true]
  constructor
  · intro found
    rcases found with ⟨located, member, created⟩
    rcases mem_outputs_iff.mpr created with ⟨receive, at_receive, names⟩
    exact ⟨receive, mem_outputsOf.mpr ⟨located, member, at_receive⟩, names⟩
  · intro found
    rcases found with ⟨receive, member, names⟩
    rcases mem_outputsOf.mp member with ⟨located, at_located, at_receive⟩
    exact ⟨located, at_located, mem_outputs_iff.mp ⟨receive, at_receive, names⟩⟩

theorem consumes_eq (input : TransparentInput) :
    HeadSnapshot.consumes outpoint input = decide (inputOutpoint input = outpoint) := by
  rcases outpoint with ⟨txid, index⟩
  simp [HeadSnapshot.consumes, inputOutpoint]

variable (member : located ∈ chain.transactions)

include member

theorem inputs_fit : located.transaction.transparent.inputs.length ≤ 2 ^ 32 := by
  rcases mem_transactionsOf.mp member with ⟨block, at_block, _, at_index⟩
  exact ((chain.counts block at_block).2 _ (mem_of_getElem? at_index)).1

/-- The window's search of a transaction finds what the transaction consumes. -/
theorem spendOf_located :
    HeadSnapshot.spendOf located.transaction outpoint located.height located.blockIndex =
      located.inputs.find? fun spend => spend.outpoint = outpoint := by
  have fits := inputs_fit member
  have searched : (located.inputs.find? fun spend => spend.outpoint = outpoint) =
      (located.transaction.transparent.inputs.zipIdx.find? fun entry =>
        HeadSnapshot.consumes outpoint entry.1).map fun entry =>
          located.spend (UInt32.ofNat entry.2, entry.1) := by
    rw [LocatedTransaction.inputs, enumerated_eq_map fits, map_map, find?_map]
    simp only [consumes_eq]
    rfl
  rw [searched, HeadSnapshot.spendOf]
  cases found : located.transaction.transparent.inputs.zipIdx.find? fun entry =>
      HeadSnapshot.consumes outpoint entry.1 with
  | none => rfl
  | some entry =>
    have position : entry.2 < located.transaction.transparent.inputs.length :=
      (mem_zipIdx' (mem_of_find?_eq_some found)).1
    have consumed := find?_some found
    rw [consumes_eq, decide_eq_true_eq] at consumed
    simp only [u32TryFrom_of_lt (Nat.lt_of_lt_of_le position fits), Option.map_some,
      LocatedTransaction.spend, consumed]

theorem spends_eq_isSome : HeadSnapshot.spends located.transaction outpoint =
      (HeadSnapshot.spendOf located.transaction outpoint located.height
        located.blockIndex).isSome := by
  rw [spendOf_located member, isSome_find?]
  have consumed := located.map_outpoint_inputs (inputs_fit member)
  have any_named := congrArg (List.any · fun named => decide (named = outpoint)) consumed
  simp only [any_map] at any_named
  refine Eq.trans ?_ any_named.symm
  exact congrArg (List.any _) (funext consumes_eq)

omit member

/-- The spend of an outpoint, searched for transaction by transaction. -/
theorem spendOf_eq_findSome? : chain.spendOf outpoint = chain.transactions.findSome? fun located =>
        HeadSnapshot.spendOf located.transaction outpoint located.height located.blockIndex := by
  have searched : chain.spendOf outpoint = chain.transactions.findSome? fun located =>
      located.inputs.find? fun spend => spend.outpoint = outpoint := find?_flatMap
  rw [searched]
  refine findSome?_congr fun located member => ?_
  exact (spendOf_located member).symm

end Chain

/-! ## What each tier answers -/

theorem walkStatus_eq (outpoint : Outpoint) (created : Bool) (transactions : List Transaction) :
    HeadSnapshot.walkStatus outpoint created transactions =
      match (transactions.find? fun tx => HeadSnapshot.spends tx outpoint).map Transaction.txid with
      | some spentBy => .spent spentBy
      | none =>
        if created || transactions.any fun tx => HeadSnapshot.creates tx outpoint then .unspent
        else .noSuchOutput := by
  induction transactions generalizing created with
  | nil => cases created <;> rfl
  | cons tx rest ih =>
    rw [HeadSnapshot.walkStatus, find?_cons, any_cons]
    cases spends : HeadSnapshot.spends tx outpoint with
    | true => rfl
    | false =>
      rw [if_neg Bool.false_ne_true, ih, Bool.or_assoc]

section Window

variable {head : MapBackedSnapshot} {chain : Chain} (window : Window head chain)
  (outpoint : Outpoint)

include window

/-- The window's status of an outpoint is that of its blocks. -/
theorem Window.spendStatus_eq :
    HeadSnapshot.spendStatus head outpoint = chain.spendStatus outpoint := by
  have walked : ((bestChain head).flatMap fun block => block.block.transactions) =
      chain.transactions.map LocatedTransaction.transaction := by
    rw [chain.map_transaction_transactions, ← window.blocks, flatMap_map]
  have spender : ((chain.transactions.map LocatedTransaction.transaction).find? fun tx =>
      HeadSnapshot.spends tx outpoint).map Transaction.txid =
        (chain.spendOf outpoint).map TransparentSpend.spentBy := by
    rw [spendOf_eq_findSome?, find?_map, Option.map_map]
    refine map_find?_eq_map_findSome? (fun located member => spends_eq_isSome member)
      fun located member spend found => ?_
    rw [spendOf_located member] at found
    rcases mem_map.mp (mem_of_find?_eq_some found) with ⟨entry, _, is_spend⟩
    rw [← is_spend]
    rfl
  rw [HeadSnapshot.spendStatus, walked, walkStatus_eq, spender, Chain.spendStatus, any_map,
    Bool.false_or]
  have creation : (chain.transactions.any fun located =>
      HeadSnapshot.creates located.transaction outpoint) = (chain.creationOf outpoint).isSome :=
    any_creates
  cases chain.spendOf outpoint with
  | none =>
    rw [← creation]
    rfl
  | some spend => rfl

/-- The window locates the spends of its blocks. -/
theorem Window.spendInfo_eq : HeadSnapshot.spendInfo head outpoint = chain.spendOf outpoint := by
  have by_block : chain.spendOf outpoint = chain.blocks.findSome? fun block =>
      (locatedIn block).findSome? fun located =>
        located.inputs.find? fun spend => spend.outpoint = outpoint := by
    rw [Chain.spendOf, inputs, inputsOf, transactionsOf, flatMap_assoc,
      find?_flatMap]
    exact findSome?_congr fun block _ => find?_flatMap
  rw [by_block, ← window.blocks, findSome?_map]
  refine findSome?_congr fun block member => ?_
  have at_block : block.block ∈ chain.blocks := window.blocks ▸ mem_map_of_mem member
  rw [Function.comp_apply, locatedIn, findSome?_map]
  refine findSome?_congr fun entry at_entry => ?_
  have located : (⟨block.block.header.height, entry.1, entry.2⟩ : LocatedTransaction) ∈
      chain.transactions :=
    mem_transactionsOf.mpr ⟨block.block, at_block, rfl, mem_enumerated.mp at_entry⟩
  rw [window.heights block member]
  exact spendOf_located located

end Window

namespace StoreSnapshot.Serves

variable {store : StoreSnapshot} {chain : Chain} (serves : store.Serves chain)
  (outpoint : Outpoint)

include serves

theorem outputExists_eq : store.outputExists outpoint = .ok (chain.creationOf outpoint).isSome := by
  rw [← any_creates, outputExists]
  by_cases mined : ∃ located ∈ chain.transactions, located.transaction.txid = outpoint.txid
  · rcases mined with ⟨located, member, names⟩
    rcases serves.compact_of_mem member with ⟨txs, filed, compact⟩
    have height : Height.tryFrom located.height.value = some located.height :=
      Height.tryFrom_eq_some.mpr rfl
    have created : (chain.transactions.any fun located =>
        HeadSnapshot.creates located.transaction outpoint) =
          decide (outpoint.index.toNat < located.transaction.transparent.outputs.length) := by
      rw [Bool.eq_iff_iff, any_eq_true, decide_eq_true_eq]
      constructor
      · intro found
        rcases found with ⟨other, at_other, creates⟩
        unfold HeadSnapshot.creates at creates
        split at creates
        · cases creates
        · next other_names =>
          have same := chain.eq_of_txid_eq at_other member
            ((not_ne_iff.mp other_names).trans names.symm)
          rw [same] at creates
          exact of_decide_eq_true creates
      · intro bound
        exact ⟨located, member, (if_neg (not_ne_iff.mpr names)).trans (decide_eq_true bound)⟩
    rw [← names, serves.location_of_mem member]
    simp only [height, filed, compact, length_map]
    rw [created]
  · have unlocated : store.location outpoint.txid = none := by
      rw [location, if_pos (serves.fresh _), serves.indexed]
      refine Option.eq_none_iff_forall_ne_some.mpr fun location filed => ?_
      rcases chain.lookup_txidLocation.mp filed with ⟨located, member, names, _⟩
      exact mined ⟨located, member, names⟩
    have uncreated : (chain.transactions.any fun located =>
        HeadSnapshot.creates located.transaction outpoint) = false := by
      refine any_eq_false.mpr fun located member => ?_
      have differs : located.transaction.txid ≠ outpoint.txid := fun names =>
        mined ⟨located, member, names⟩
      rw [HeadSnapshot.creates, if_pos differs]
      exact Bool.false_ne_true
    rw [unlocated, uncreated]

theorem spendStatusGate_eq : store.spendStatusGate = .ok () :=
  if_pos (all_eq_true.mpr fun namespaceId _ => serves.complete namespaceId)

/-- The store's status of an outpoint is that of its blocks. -/
theorem spendStatus_eq : store.spendStatus outpoint = .ok (chain.spendStatus outpoint) := by
  have exists_eq := serves.outputExists_eq outpoint
  rw [spendStatus, serves.spendStatusGate_eq, Chain.spendStatus]
  cases spent : chain.spendOf outpoint with
  | none =>
    have unrecorded : store.indexes.transparentSpends.lookup outpoint = none := by
      rw [serves.indexed]
      refine Option.eq_none_iff_forall_ne_some.mpr fun spentBy recorded => ?_
      rcases chain.lookup_transparentSpends.mp recorded with ⟨spend, member, names, _⟩
      exact spendOf_eq_none.mp spent spend member names
    rw [unrecorded, exists_eq]
    rfl
  | some spend =>
    rcases spendOf_eq_some.mp spent with ⟨member, names⟩
    have recorded : store.indexes.transparentSpends.lookup outpoint = some spend.spentBy := by
      rw [serves.indexed]
      exact chain.lookup_transparentSpends.mpr ⟨spend, member, names, rfl⟩
    rw [recorded]
    rfl

/-- The store locates the spends of its blocks. -/
theorem spendInfo_eq : store.spendInfo outpoint = .ok (chain.spendOf outpoint) := by
  rw [spendInfo, serves.spendStatusGate_eq, serves.spendSite_eq]
  cases spent : chain.spendOf outpoint with
  | none => rfl
  | some spend =>
    have names := (spendOf_eq_some.mp spent).2
    subst names
    rfl

end StoreSnapshot.Serves

/-! ## What the composed reads answer -/

/-- What is to be said of an outpoint over some blocks: it is spent by the transaction that spends
it there, unspent if they create it and do not spend it, and otherwise no output of theirs; and the
spend located is theirs. -/
structure Truthful (chain : Chain) (outpoint : Outpoint) (status : SpendStatus)
    (info : Option TransparentSpend) : Prop where
  spent : ∀ txid, status = .spent txid ↔
    ∃ spend ∈ chain.inputs, spend.outpoint = outpoint ∧ spend.spentBy = txid
  unspent : status = .unspent ↔
    (∃ receive ∈ chain.outputs, receive.outpoint = outpoint) ∧
      ∀ spend ∈ chain.inputs, spend.outpoint ≠ outpoint
  noSuchOutput : status = .noSuchOutput ↔
    (∀ receive ∈ chain.outputs, receive.outpoint ≠ outpoint) ∧
      ∀ spend ∈ chain.inputs, spend.outpoint ≠ outpoint
  located : ∀ spend, info = some spend ↔ spend ∈ chain.inputs ∧ spend.outpoint = outpoint

/-- A chain's own answers are truthful. -/
theorem Chain.truthful (chain : Chain) (outpoint : Outpoint) :
    Truthful chain outpoint (chain.spendStatus outpoint) (chain.spendOf outpoint) := by
  unfold Chain.spendStatus
  cases spent : chain.spendOf outpoint with
  | some spend =>
    rcases spendOf_eq_some.mp spent with ⟨member, names⟩
    refine ⟨fun txid => ⟨fun answered => ?_, fun found => ?_⟩,
      ⟨(fun answered => nomatch answered), fun kept => absurd names (kept.2 spend member)⟩,
      ⟨(fun answered => nomatch answered), fun kept => absurd names (kept.2 spend member)⟩,
      fun other => ?_⟩
    · exact ⟨spend, member, names, SpendStatus.spent.inj answered⟩
    · rcases found with ⟨other, at_other, other_names, is_by⟩
      rw [← is_by, chain.input_eq member at_other (names.trans other_names.symm)]
    · rw [← spent, spendOf_eq_some]
  | none =>
    have kept := spendOf_eq_none.mp spent
    have no_spend : ∀ {spend}, spend ∈ chain.inputs → ¬ spend.outpoint = outpoint :=
      fun member names => kept _ member names
    have unlocated : ∀ spend, none = some spend ↔
        spend ∈ chain.inputs ∧ spend.outpoint = outpoint :=
      fun spend => ⟨(fun found => nomatch found), fun found => absurd found.2 (no_spend found.1)⟩
    by_cases created : ∃ receive ∈ chain.outputs, receive.outpoint = outpoint
    · simp only [creationOf_isSome.mpr created, if_true]
      refine ⟨fun txid => ⟨(fun answered => nomatch answered), fun found => ?_⟩,
        ⟨fun _ => ⟨created, kept⟩, fun _ => rfl⟩,
        ⟨(fun answered => nomatch answered), fun absent => ?_⟩, unlocated⟩
      · rcases found with ⟨spend, member, names, _⟩
        exact absurd names (no_spend member)
      · rcases created with ⟨receive, member, names⟩
        exact absurd names (absent.1 receive member)
    · have absent : ∀ receive ∈ chain.outputs, receive.outpoint ≠ outpoint :=
        fun receive member names => created ⟨receive, member, names⟩
      simp only [mt creationOf_isSome.mp created]
      refine ⟨fun txid => ⟨(fun answered => nomatch answered), fun found => ?_⟩,
        ⟨(fun answered => nomatch answered), fun found => absurd found.1 created⟩,
        ⟨fun _ => ⟨absent, kept⟩, fun _ => rfl⟩, unlocated⟩
      rcases found with ⟨spend, member, names, _⟩
      exact absurd names (no_spend member)

/-- No other answers are. -/
theorem truthful_iff {chain : Chain} {outpoint : Outpoint} {status : SpendStatus}
    {info : Option TransparentSpend} : Truthful chain outpoint status info ↔
      status = chain.spendStatus outpoint ∧ info = chain.spendOf outpoint := by
  constructor
  · intro truthful
    have own := chain.truthful outpoint
    constructor
    · cases answered : chain.spendStatus outpoint with
      | spent txid => exact (truthful.spent txid).mpr ((own.spent txid).mp answered)
      | unspent => exact truthful.unspent.mpr (own.unspent.mp answered)
      | noSuchOutput => exact truthful.noSuchOutput.mpr (own.noSuchOutput.mp answered)
      | spentSpenderUnknown =>
        unfold Chain.spendStatus at answered
        split at answered
        · cases answered
        · split at answered <;> cases answered
    · exact Option.ext fun spend => (truthful.located spend).trans (own.located spend).symm
  · intro answers
    rw [answers.1, answers.2]
    exact chain.truthful outpoint

namespace Composed

variable {view : ChainView} {chain : Chain} {floor tip : Height}
  (composed : Composed view chain floor tip) (outpoint : Outpoint)

include composed

theorem floor_le_tip : floor ≤ tip := by
  have range := composed.covered
  simp only [coverage, Option.some.injEq, HeightRange.mk.injEq] at range
  cases lowest : (bestChain view.nonFinalised).head? with
  | none =>
    rw [lowest] at range
    exact Nat.le_of_eq (congrArg Height.value (range.1.symm.trans range.2))
  | some block =>
    have member := mem_of_mem_head? lowest
    have selected : block.block ∈ (chain.select fun height =>
        floor ≤ height ∧ height ≤ tip).blocks :=
      composed.windowed.blocks ▸ mem_map_of_mem member
    have inside := of_decide_eq_true (mem_filter.mp selected).2
    exact Nat.le_trans inside.1 inside.2

/-- A spend is known to the composed reads if it lies below the seam or up to the tip. -/
theorem known_iff (height : Height) :
    ((floor ≤ height ∧ height ≤ tip) ∨ height.value < seamOf view.finalised.watermark) ↔
      (height ≤ tip ∨ height.value < seamOf view.finalised.watermark) := by
  have meets := composed.meets
  have ordered := composed.floor_le_tip
  simp only [Height.le_def] at ordered ⊢
  omega

omit composed in
/-- The window's answer counts only where it is a spend. -/
theorem spendStatus_of_window {retained : Chain} (window : Window view.nonFinalised retained) :
    view.spendStatus outpoint = match retained.spendOf outpoint with
      | some spend => .ok (.spent spend.spentBy)
      | none => view.finalised.spendStatus outpoint := by
  rw [ChainView.spendStatus, window.spendStatus_eq, Chain.spendStatus]
  cases retained.spendOf outpoint with
  | some spend => rfl
  | none =>
    cases (retained.creationOf outpoint).isSome <;> rfl

/-- The composed reads locate every spend below the seam or up to the tip; where none is located, the
status is what the store says of the output. -/
theorem spendReads_eq : view.spendInfo outpoint = .ok ((chain.spendOf outpoint).filter fun spend =>
      spend.height ≤ tip ∨ spend.height.value < seamOf view.finalised.watermark) ∧
    view.spendStatus outpoint = .ok (match (chain.spendOf outpoint).filter fun spend =>
          spend.height ≤ tip ∨ spend.height.value < seamOf view.finalised.watermark with
      | some spend => .spent spend.spentBy
      | none =>
        if ((chain.creationOf outpoint).filter fun receive =>
            receive.height.value < seamOf view.finalised.watermark).isSome then .unspent
        else .noSuchOutput) := by
  rw [ChainView.spendInfo, composed.windowed.spendInfo_eq, composed.stored.spendInfo_eq,
    spendStatus_of_window outpoint composed.windowed, composed.stored.spendStatus_eq,
    Chain.spendStatus, select_spendOf, select_spendOf, select_creationOf]
  cases chain.spendOf outpoint with
  | none => exact ⟨rfl, rfl⟩
  | some spend =>
    have known := composed.known_iff spend.height
    simp only [Option.filter_some, decide_eq_true_eq, ← known]
    by_cases inside : floor ≤ spend.height ∧ spend.height ≤ tip
    · simp only [inside, and_self, true_or, if_true]
    · simp only [inside, false_or, if_false, and_self]

end Composed

/-- How the composed reads misjudge an outpoint. The last two ways need a store that reaches above
the window's tip. -/
inductive Misjudged (chain : Chain) (seam : Nat) (tip : Height) (outpoint : Outpoint) : Prop
  /-- Created above the store and not spent up to the tip: said not to exist. -/
  | createdAboveStore (receive : TransparentReceive) (created : receive ∈ chain.outputs)
      (names : receive.outpoint = outpoint) (above : seam ≤ receive.height.value)
      (below : receive.height ≤ tip)
      (kept : ∀ spend ∈ chain.inputs, spend.outpoint = outpoint → tip < spend.height)
  /-- Spent in the store above the tip: said to be spent too early. -/
  | spentAboveTip (spend : TransparentSpend) (spent : spend ∈ chain.inputs)
      (names : spend.outpoint = outpoint) (above : tip < spend.height)
      (stored : spend.height.value < seam)
  /-- Created in the store above the tip and not spent there: said to exist too early. -/
  | createdAboveTip (receive : TransparentReceive) (created : receive ∈ chain.outputs)
      (names : receive.outpoint = outpoint) (above : tip < receive.height)
      (stored : receive.height.value < seam)
      (kept : ∀ spend ∈ chain.inputs, spend.outpoint = outpoint → seam ≤ spend.height.value)

/-- The composed reads tell of an outpoint what the blocks up to the window's tip do to it exactly
when they do not misjudge it. -/
theorem spendStatus_exact_iff {view : ChainView} {chain : Chain} {floor tip : Height}
    (composed : Composed view chain floor tip) (outpoint : Outpoint) :
    (∃ (status : SpendStatus) (info : Option TransparentSpend),
      view.spendStatus outpoint = .ok status ∧ view.spendInfo outpoint = .ok info ∧
      Truthful (chain.select fun height => height ≤ tip) outpoint status info) ↔
      ¬ Misjudged chain (seamOf view.finalised.watermark) tip outpoint := by
  simp only [truthful_iff, (composed.spendReads_eq outpoint).1, (composed.spendReads_eq outpoint).2, Chain.spendStatus,
    Chain.select_spendOf, Chain.select_creationOf, Except.ok.injEq]
  generalize seamOf view.finalised.watermark = seam
  have unlocated : (∀ spend ∈ chain.inputs, spend.outpoint = outpoint →
      tip < spend.height ∧ seam ≤ spend.height.value) → (chain.spendOf outpoint).filter
        (fun spend => spend.height ≤ tip ∨ spend.height.value < seam) = none := by
    refine fun late => Option.filter_eq_none_iff.mpr fun spend found known => ?_
    have consumes := Chain.spendOf_eq_some.mp found
    obtain ⟨above, over_seam⟩ := late spend consumes.1 consumes.2
    exact (of_decide_eq_true known).elim (Nat.not_le_of_lt above) (Nat.not_lt_of_le over_seam)
  constructor
  · intro found misjudged
    rcases found with ⟨status, info, is_status, is_info, status_true, info_true⟩
    subst is_status is_info
    cases misjudged with
    | createdAboveStore receive created names above below kept =>
      have creation := Chain.creationOf_eq_some.mpr ⟨created, names⟩
      have late : ∀ spend ∈ chain.inputs, spend.outpoint = outpoint →
          tip < spend.height ∧ seam ≤ spend.height.value := fun spend member consumes =>
        ⟨kept spend member consumes, Nat.le_trans (Nat.le_trans above below)
          (Nat.le_of_lt (kept spend member consumes))⟩
      have not_stored : ¬ receive.height.value < seam := Nat.not_lt_of_le above
      rw [unlocated late] at info_true status_true
      rw [← info_true, creation] at status_true
      simp [Option.filter_some, below, not_stored] at status_true
    | spentAboveTip spend spent names above stored =>
      have spending := Chain.spendOf_eq_some.mpr ⟨spent, names⟩
      have not_below : ¬ spend.height ≤ tip := Nat.not_le_of_lt above
      simp [spending, Option.filter_some, not_below, stored] at info_true
    | createdAboveTip receive created names above stored kept =>
      have creation := Chain.creationOf_eq_some.mpr ⟨created, names⟩
      have late : ∀ spend ∈ chain.inputs, spend.outpoint = outpoint →
          tip < spend.height ∧ seam ≤ spend.height.value := fun spend member consumes =>
        ⟨Nat.lt_of_lt_of_le above (chain.created_before_spent created member
          (consumes.trans names.symm)), kept spend member consumes⟩
      have not_below : ¬ receive.height ≤ tip := Nat.not_le_of_lt above
      rw [unlocated late] at info_true status_true
      rw [← info_true, creation] at status_true
      simp [Option.filter_some, not_below, stored] at status_true
  · intro judged
    refine ⟨_, _, rfl, rfl, ?_⟩
    -- A spend the reads know of is not above the tip.
    have located : (chain.spendOf outpoint).filter
        (fun spend => spend.height ≤ tip ∨ spend.height.value < seam) =
          (chain.spendOf outpoint).filter fun spend => spend.height ≤ tip := by
      refine optionFilter_congr fun spend found => ?_
      have consumes := Chain.spendOf_eq_some.mp found
      rw [Bool.eq_iff_iff, decide_eq_true_eq, decide_eq_true_eq, or_iff_left_iff_imp]
      intro stored
      by_contra above
      exact judged (.spentAboveTip spend consumes.1 consumes.2 (Nat.lt_of_not_le above) stored)
    rw [located]
    refine ⟨?_, rfl⟩
    cases spending : (chain.spendOf outpoint).filter fun spend => spend.height ≤ tip with
    | some spend => rfl
    | none =>
      have late : ∀ spend ∈ chain.inputs, spend.outpoint = outpoint → tip < spend.height :=
        fun spend member names => Nat.lt_of_not_le fun below =>
          Option.filter_eq_none_iff.mp spending spend (Chain.spendOf_eq_some.mpr ⟨member, names⟩)
            (decide_eq_true below)
      -- Nothing up to the tip spends it: it exists below the seam if it does up to the tip.
      have created : (chain.creationOf outpoint).filter
          (fun receive => receive.height.value < seam) =
            (chain.creationOf outpoint).filter fun receive => receive.height ≤ tip := by
        refine optionFilter_congr fun receive found => ?_
        have creates := Chain.creationOf_eq_some.mp found
        rw [Bool.eq_iff_iff, decide_eq_true_eq, decide_eq_true_eq]
        constructor
        · intro stored
          by_contra above
          refine judged (.createdAboveTip receive creates.1 creates.2 (Nat.lt_of_not_le above)
            stored fun spend member names => Nat.le_of_not_lt fun spent_stored => ?_)
          exact judged (.spentAboveTip spend member names (late spend member names) spent_stored)
        · intro below
          by_contra above
          exact judged (.createdAboveStore receive creates.1 creates.2 (Nat.le_of_not_lt above)
            below late)
      rw [created]

/-- The output paid at height one, asked of a store and a window that meet below it. -/
def seamView (chain : Chain) (above : Block) : ChainView :=
  ⟨sampleStore chain .genesis, sampleWindow samplePaid [above]⟩

theorem seamView_spent_composed :
    Composed (seamView spentChain sampleSpent) spentChain ⟨1, by decide⟩ ⟨2, by decide⟩ where
  stored := ⟨rfl, fun _ => rfl, fun _ => rfl⟩
  windowed := ⟨by decide, by decide⟩
  covered := by decide
  meets := by decide

/-- An output created and spent above the store is told of truthfully. -/
theorem spendStatus_exact_spent : ¬ Misjudged spentChain 1 ⟨2, by decide⟩ ⟨1, 0⟩ ∧
    ∃ (status : SpendStatus) (info : Option TransparentSpend),
      (seamView spentChain sampleSpent).spendStatus ⟨1, 0⟩ = .ok status ∧
      (seamView spentChain sampleSpent).spendInfo ⟨1, 0⟩ = .ok info ∧
      Truthful (spentChain.select fun height => height ≤ ⟨2, by decide⟩) ⟨1, 0⟩ status info := by
  have judged : ¬ Misjudged spentChain 1 ⟨2, by decide⟩ ⟨1, 0⟩ := by
    have spend_height : ∀ spend ∈ spentChain.inputs, spend.height.value = 2 := by decide
    have spent : ∃ spend ∈ spentChain.inputs, spend.outpoint = ⟨1, 0⟩ := by decide
    have created : ∀ receive ∈ spentChain.outputs, receive.height.value = 1 := by decide
    intro misjudged
    cases misjudged with
    | createdAboveStore _ _ _ _ _ kept =>
      rcases spent with ⟨spend, member, names⟩
      have late : 2 < spend.height.value := kept spend member names
      rw [spend_height spend member] at late
      exact Nat.lt_irrefl 2 late
    | spentAboveTip spend member _ above _ =>
      have late : 2 < spend.height.value := above
      rw [spend_height spend member] at late
      exact Nat.lt_irrefl 2 late
    | createdAboveTip receive member _ above _ _ =>
      have late : 2 < receive.height.value := above
      omega
  exact ⟨judged, (spendStatus_exact_iff seamView_spent_composed ⟨1, 0⟩).mpr judged⟩

/-- An output created above the store and left unspent is said not to exist. -/
theorem spendStatus_denies_unspent :
    Composed (seamView keptChain (sampleMined 2 [])) keptChain ⟨1, by decide⟩ ⟨2, by decide⟩ ∧
    (seamView keptChain (sampleMined 2 [])).spendStatus ⟨1, 0⟩ = .ok .noSuchOutput ∧
    keptChain.spendStatus ⟨1, 0⟩ = .unspent :=
  ⟨⟨⟨rfl, fun _ => rfl, fun _ => rfl⟩, ⟨by decide, by decide⟩, by decide, by decide⟩,
    by decide +kernel, by decide +kernel⟩

end Zaino.Transparent
