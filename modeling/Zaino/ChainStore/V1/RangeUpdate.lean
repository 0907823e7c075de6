import Zaino.ChainStore.V1.BlockDelta

/-!
# The delta of a range

What `accumulateRange` computes on the rows of a valid chain: it adds what the range creates, takes
out what the range spends, and moves the transaction count by the range's own transactions and by
the earlier ones that it drains (`accumulateRange_eq_ok`). An earlier transaction is looked at only
when a spendable output of it is spent, so that, unlike in the delta of a block, what is counted as
leaving the set was in it.
-/

namespace Zaino.ChainStore

open Library List TxOutSetAccumulator Ledger List Or

/-! ## Walking heights -/

variable {hashes : Hashes} {blocks : List IndexedBlock} {α : Type} {scan scan' : RangeScan}
  {tx : CompactTxData} {txs : List CompactTxData}

theorem transparentAt_rowsOf (valid : ValidChain hashes blocks) {i : Nat} {block : IndexedBlock}
    (held : blocks[i]? = some block) : (rowsOf blocks).transparentAt i = .ok block.pairs := by
  have transparent : (rowsOf blocks).transparent[i]? = some (block.pairs.map Prod.snd) := by
    rw [show (rowsOf blocks).transparent[i]? = _ from getElem?_byHeight valid _ i, held]
    rfl
  have txids : (rowsOf blocks).txids[i]? = some (block.pairs.map Prod.fst) := by
    rw [show (rowsOf blocks).txids[i]? = _ from getElem?_byHeight valid _ i, held, map_fst_pairs]
    rfl
  rw [Rows.transparentAt, okOr_eq_ok.mpr transparent, ok_bind, okOr_eq_ok.mpr txids, ok_bind,
    if_neg (by simp), zip_map', map_id']
  rfl

/-- A walk over the heights of some blocks is a walk over what is done for each block. -/
theorem foldlM_heights {σ : Type} {step : σ → Nat → Except StoreError σ}
    {body : σ → α → Except StoreError σ} {items : IndexedBlock → List α}
    (first rest : List IndexedBlock)
    (each : ∀ (i : Nat) (block : IndexedBlock), (first ++ rest)[i]? = some block →
      ∀ state, step state i = (items block).foldlM body state) (state : σ) :
    (range' first.length rest.length).foldlM step state =
      (rest.flatMap items).foldlM body state := by
  induction rest generalizing first state with
  | nil => rfl
  | cons block rest ih =>
    have here : (first ++ block :: rest)[first.length]? = some block := by simp
    rw [length_cons, range'_succ, foldlM_cons, each _ block here, flatMap_cons,
      foldlM_append]
    refine bind_congr fun next => ?_
    have later := ih (first ++ [block]) (fun i other held => each i other (by
      rwa [append_assoc] at held)) next
    rwa [length_append, length_singleton] at later

/-! ## The first pass -/

/-- What the first pass holds after one more transaction. -/
def RangeScan.scanned (hashes : Hashes) (scan : RangeScan) (tx : CompactTxData) : RangeScan where
  acc := scan.acc + entrySum hashes (ledger.created tx)
  rangeTxids := tx.txid :: scan.rangeTxids
  rangeOutputs := scan.rangeOutputs.insertAll (ledger.created tx)
  createdOutpointsByTx :=
    if (ledger.created tx).isEmpty then scan.createdOutpointsByTx
    else scan.createdOutpointsByTx.insert tx.txid
      ((scan.createdOutpointsByTx.lookup tx.txid).getD [] ++ (ledger.created tx).map Prod.fst)
  spends := scan.spends ++ ledger.spent tx

theorem toStoreError_eq_ok {outcome : Except AccumulatorDeltaError α} {x : α} :
    toStoreError outcome = .ok x ↔ outcome = .ok x := by
  cases outcome <;> simp [toStoreError, Except.mapError]

theorem scanTx_eq_ok (fits : scan.acc.Fits) :
    scanTx hashes scan (tx.txid, transparentData tx.transparent) = .ok scan' ↔
      (scan.acc + entrySum hashes (ledger.created tx)).Fits ∧ scan' = scan.scanned hashes tx := by
  unfold scanTx transparentData
  by_cases empty : (tx.transparent.inputs.isEmpty && tx.transparent.outputs.isEmpty) = true
  · rw [if_pos empty]
    simp only [Bool.and_eq_true, List.isEmpty_iff] at empty
    have no_outputs : ledger.created tx = [] := by
      change spendableEntries tx.txid tx.transparent.outputs = []
      rw [empty.2]
      rfl
    have no_spends : ledger.spent tx = [] := by
      change tx.transparent.spentOutpoints = []
      rw [TransparentCompactTx.spentOutpoints, empty.1]
      rfl
    simp only [no_outputs, entrySum_nil, add_zero, fits, true_and, RangeScan.scanned, no_spends,
      HashMap.insertAll, foldl_nil, isEmpty_nil, if_true, append_nil, Except.ok.injEq]
    exact eq_comm
  · rw [if_neg empty]
    simp only [bind_eq_ok, toStoreError_eq_ok]
    constructor
    · rintro ⟨acc, added, returned⟩
      obtain ⟨acc_fits, rfl⟩ := (addOutputs_eq_ok fits).mp added
      exact ⟨acc_fits, (Except.ok.inj returned).symm⟩
    · rintro ⟨acc_fits, rfl⟩
      exact ⟨_, (addOutputs_eq_ok fits).mpr ⟨acc_fits, rfl⟩, rfl⟩

theorem scanTxs_eq_ok (fits : scan.acc.Fits) :
    txs.foldlM (fun scan tx => scanTx hashes scan (tx.txid, transparentData tx.transparent)) scan =
        .ok scan' ↔ (scan.acc + entrySum hashes (ledger.createdBy txs)).Fits ∧
        scan' = txs.foldl (RangeScan.scanned hashes) scan := by
  induction txs generalizing scan with
  | nil =>
    simp only [createdBy, flatMap_nil, entrySum_nil, add_zero, fits, true_and,
      foldlM_nil, foldl_nil, pure, Except.pure, Except.ok.injEq]
    exact eq_comm
  | cons tx txs ih =>
    rw [foldlM_cons, bind_eq_ok, createdBy, flatMap_cons, entrySum_append,
      ← add_assoc, foldl_cons]
    constructor
    · rintro ⟨next, stepped, rest⟩
      obtain ⟨next_fits, rfl⟩ := (scanTx_eq_ok fits).mp stepped
      exact (ih next_fits).mp rest
    · rintro ⟨all_fit, rfl⟩
      have next_fits := all_fit.of_add
      exact ⟨_, (scanTx_eq_ok fits).mpr ⟨next_fits, rfl⟩, (ih next_fits).mpr ⟨all_fit, rfl⟩⟩

/-- What the first pass holds after some transactions. -/
structure Scanned (hashes : Hashes) (acc : TxOutSetAccumulator) (txs : List CompactTxData)
    (scan : RangeScan) : Prop where
  acc : scan.acc = acc + entrySum hashes (ledger.createdBy txs)
  txids : ∀ txid, txid ∈ scan.rangeTxids ↔ txid ∈ txs.map CompactTxData.txid
  outputs : ∀ outpoint out, scan.rangeOutputs.lookup outpoint = some out ↔
    (outpoint, out) ∈ ledger.createdBy txs
  byTx : ∀ created, created ∈ pairsOf scan.createdOutpointsByTx ↔
    ∃ tx ∈ txs, ledger.created tx ≠ [] ∧ created = (tx.txid, (ledger.created tx).map Prod.fst)
  spends : scan.spends = ledger.spentBy txs

theorem Scanned.start (hashes : Hashes) (acc : TxOutSetAccumulator) :
    Scanned hashes acc [] ⟨acc, [], ∅, ∅, []⟩ where
  acc := (add_zero acc).symm
  txids txid := by simp
  outputs outpoint out := by simp [createdBy]
  byTx created := by simp [mem_pairsOf]
  spends := rfl

theorem Scanned.step {acc : TxOutSetAccumulator} (scanned : Scanned hashes acc txs scan)
    (distinct : ((txs ++ [tx]).map CompactTxData.txid).Nodup)
    (outputs : ((ledger.createdBy (txs ++ [tx])).map Prod.fst).Nodup) :
    Scanned hashes acc (txs ++ [tx]) (scan.scanned hashes tx) := by
  have created_append : ledger.createdBy (txs ++ [tx]) =
      ledger.createdBy txs ++ ledger.created tx := by
    simp [createdBy]
  rw [created_append, map_append, nodup_append'] at outputs
  rw [map_append, nodup_append'] at distinct
  have fresh : tx.txid ∉ txs.map CompactTxData.txid := fun earlier =>
    distinct.2.2 earlier (by simp)
  constructor
  · rw [created_append, entrySum_append, ← add_assoc, ← scanned.acc]
    rfl
  · intro txid
    rw [map_append, mem_append, ← scanned.txids]
    simp only [RangeScan.scanned, mem_cons, map_cons, map_nil, not_mem_nil,
      or_false]
    exact or_comm
  · intro outpoint out
    rw [created_append, mem_append, ← scanned.outputs]
    simp only [RangeScan.scanned]
    rw [HashMap.lookup_insertAll_eq_some outputs.2.1, or_comm]
    refine or_congr_left (and_iff_right_of_imp fun earlier here => ?_)
    have earlier := (scanned.outputs outpoint out).mp earlier
    exact outputs.2.2 (mem_map_of_mem earlier) here
  · intro created
    have named : ∀ {created}, created ∈ pairsOf scan.createdOutpointsByTx → created.1 ≠ tx.txid := by
      intro created listed same
      obtain ⟨tx', member, _, rfl⟩ := (scanned.byTx created).mp listed
      exact fresh (same ▸ mem_map_of_mem member)
    have absent : scan.createdOutpointsByTx.lookup tx.txid = none := by
      rw [Option.eq_none_iff_forall_ne_some]
      intro outpoints found
      have listed : (tx.txid, outpoints) ∈ pairsOf scan.createdOutpointsByTx :=
        mem_pairsOf.mpr found
      exact named listed rfl
    simp only [RangeScan.scanned, mem_append, mem_singleton, or_and_right, exists_or,
      exists_eq_left, ← scanned.byTx, absent, Option.getD_none, nil_append]
    by_cases empty : ledger.created tx = []
    · simp [empty]
    · rw [if_neg (by simpa using empty), mem_pairsOf, HashMap.lookup_insert_eq_some,
        ← mem_pairsOf, or_comm, and_iff_right_of_imp named]
      refine or_congr_right ?_
      rw [and_iff_right empty, Prod.ext_iff]
      exact and_congr_right fun _ => eq_comm
  · rw [spentBy_append, ← scanned.spends]
    simp [RangeScan.scanned, spentBy]

theorem Scanned.run {acc : TxOutSetAccumulator} (distinct : (txs.map CompactTxData.txid).Nodup)
    (outputs : ((ledger.createdBy txs).map Prod.fst).Nodup) :
    Scanned hashes acc txs (txs.foldl (RangeScan.scanned hashes) ⟨acc, [], ∅, ∅, []⟩) := by
  -- From the last transaction: each step finds the earlier ones scanned.
  induction txs using reverseRecOn with
  | nil => exact Scanned.start hashes acc
  | append_singleton txs tx ih =>
    have earlier_distinct : (txs.map CompactTxData.txid).Nodup := by
      rw [map_append] at distinct
      exact distinct.of_append_left
    have earlier_outputs : ((ledger.createdBy txs).map Prod.fst).Nodup := by
      rw [createdBy_append, map_append] at outputs
      exact outputs.of_append_left
    rw [foldl_append]
    exact (ih earlier_distinct earlier_outputs).step distinct outputs

/-! ## The second pass -/

/-- The spendable output that an outpoint names among some transactions. -/
def spendableAt (txs : List CompactTxData) (outpoint : Outpoint) :
    Option (Outpoint × TxOutCompact) :=
  (outputAt txs outpoint).bind fun out =>
    if isUnspendableTxOut out then none else some (outpoint, out)

theorem spendableAt_eq_some (valid : ValidChain hashes blocks) {outpoint : Outpoint}
    {entry : Outpoint × TxOutCompact} : spendableAt (txsOf blocks) outpoint = some entry ↔
      entry.1 = outpoint ∧ entry ∈ createdOutputs blocks := by
  rw [spendableAt, Option.bind_eq_some_iff, valid.mem_created]
  constructor
  · rintro ⟨out, found, spendable⟩
    rw [outputAt, Option.bind_eq_some_iff] at found
    obtain ⟨tx, found_tx, at_index⟩ := found
    split at spendable
    · cases spendable
    · rename_i is_spendable
      cases spendable
      have named := find?_some found_tx
      exact ⟨rfl, tx, mem_of_find?_eq_some found_tx, of_decide_eq_true named, at_index,
        by simpa using is_spendable⟩
  · rintro ⟨rfl, tx, member, named, at_index, spendable⟩
    refine ⟨entry.2, (outputAt_eq valid member named).trans at_index, ?_⟩
    rw [if_neg (by simp [spendable])]

section Second

variable {hashes : Hashes} {first range : List IndexedBlock}

/-- What the range spends, one by one. -/
theorem spentEntries_filterMap (valid : ValidChain hashes (first ++ range)) :
    SpentEntries first range
      ((spentOutpoints range).filterMap (spendableAt (txsOf (first ++ range)))) where
  nodup := by
    have distinct := valid.spends
    rw [spentOutpoints_append] at distinct
    apply distinct.of_append_right.filterMap
    intro outpoint outpoint' entry found found'
    rw [← ((spendableAt_eq_some valid).mp found).1, ← ((spendableAt_eq_some valid).mp found').1]
  mem entry := by
    rw [mem_filterMap]
    simp only [spendableAt_eq_some valid]
    constructor
    · rintro ⟨outpoint, spent, rfl, created⟩
      exact ⟨spent, created⟩
    · rintro ⟨spent, created⟩
      exact ⟨entry.1, spent, rfl, created⟩

/-- What the second pass notes of an earlier transaction. -/
def noteSpent (txs : List CompactTxData) (rangeTxids noted : List TransactionHash)
    (outpoint : Outpoint) : List TransactionHash :=
  if outpoint.prevTxid ∉ rangeTxids ∧ (spendableAt txs outpoint).isSome then
    noted.insert outpoint.prevTxid
  else noted

theorem createdOutputs_append (first rest : List IndexedBlock) :
    createdOutputs (first ++ rest) = createdOutputs first ++ createdOutputs rest := by
  rw [createdOutputs, txsOf_append, createdBy_append]
  rfl

variable {acc acc' : TxOutSetAccumulator} {scan : RangeScan} {outpoint : Outpoint}
  {state' : TxOutSetAccumulator × List TransactionHash} {blocks : List IndexedBlock}

variable (valid : ValidChain hashes (first ++ range))

include valid

/-- Among the range's own transactions the map of outputs knows what is spendable. -/
theorem lookup_rangeOutputs (scanned : Scanned hashes acc (txsOf range) scan)
    (in_range : outpoint.prevTxid ∈ scan.rangeTxids) : scan.rangeOutputs.lookup outpoint =
      (spendableAt (txsOf (first ++ range)) outpoint).map Prod.snd := by
  ext out
  rw [scanned.outputs, Option.map_eq_some_iff]
  constructor
  · intro created
    refine ⟨(outpoint, out), (spendableAt_eq_some valid).mpr ⟨rfl, ?_⟩, rfl⟩
    rw [createdOutputs_append]
    exact mem_append_right _ created
  · rintro ⟨entry, found, rfl⟩
    obtain ⟨rfl, created⟩ := (spendableAt_eq_some valid).mp found
    rw [createdOutputs_append, mem_append] at created
    refine created.resolve_left fun earlier => ?_
    -- An output of an earlier transaction names that transaction, which is none of the range.
    obtain ⟨tx, member, made⟩ := ledger.mem_createdBy.mp earlier
    apply valid.follows.not_in_rest member
    rw [← ledger.owned tx entry made]
    exact (scanned.txids _).mp in_range

theorem exists_outputAt (spent : outpoint ∈ spentOutpoints range) :
    ∃ out, outputAt (txsOf (first ++ range)) outpoint = some out ∧
      (rowsOf (first ++ range)).resolvePrevOutput outpoint = some out := by
  have spent_in_all : outpoint ∈ spentOutpoints (first ++ range) := by
    rw [spentOutpoints_append]
    exact mem_append_right _ spent
  obtain ⟨tx, member, named, bound⟩ := valid.exists_output spent_in_all
  have found := getElem?_eq_getElem bound
  exact ⟨_, (outputAt_eq valid member named).trans found,
    (output_rowsOf valid member named found).2⟩

variable (scanned : Scanned hashes acc (txsOf range) scan)

include scanned

theorem removeSpend_eq
    (state : TxOutSetAccumulator × List TransactionHash) (spent : outpoint ∈ spentOutpoints range) :
    removeSpend hashes (rowsOf (first ++ range)) scan state outpoint =
      match spendableAt (txsOf (first ++ range)) outpoint with
      | none => .ok state
      | some entry => do
        let acc ← toStoreError (applyRemovedOutput hashes state.1 entry)
        return (acc, noteSpent (txsOf (first ++ range)) scan.rangeTxids state.2 outpoint) := by
  obtain ⟨out, at_outpoint, resolved⟩ := exists_outputAt valid spent
  unfold removeSpend
  by_cases in_range : outpoint.prevTxid ∈ scan.rangeTxids
  · rw [if_pos in_range, lookup_rangeOutputs valid scanned in_range]
    cases found : spendableAt (txsOf (first ++ range)) outpoint with
    | none => rfl
    | some entry =>
      obtain ⟨rfl, _⟩ := (spendableAt_eq_some valid).mp found
      simp only [Option.map_some, noteSpent, in_range, not_true, false_and, if_false]
  · rw [if_neg in_range, resolved]
    cases unspendable : isUnspendableTxOut out with
    | true => simp only [spendableAt, at_outpoint, Option.bind_some, unspendable, if_true]
    | false =>
      have found : spendableAt (txsOf (first ++ range)) outpoint = some (outpoint, out) := by
        simp [spendableAt, at_outpoint, unspendable]
      simp only [unspendable, found, noteSpent, in_range, not_false_eq_true, Option.isSome_some,
        and_self, if_true]
      rfl

variable {state : TxOutSetAccumulator × List TransactionHash}

theorem removeSpend_eq_ok (spent : outpoint ∈ spentOutpoints range) :
    removeSpend hashes (rowsOf (first ++ range)) scan state outpoint = .ok state' ↔
      state'.1 + entrySum hashes (spendableAt (txsOf (first ++ range)) outpoint).toList = state.1 ∧
        state'.2 = noteSpent (txsOf (first ++ range)) scan.rangeTxids state.2 outpoint := by
  rw [removeSpend_eq valid scanned state spent]
  cases found : spendableAt (txsOf (first ++ range)) outpoint with
  | none =>
    simp only [Option.toList_none, entrySum_nil, add_zero, noteSpent, found, Option.isSome_none,
      Bool.false_eq_true, and_false, if_false, Except.ok.injEq, Prod.ext_iff]
    exact and_congr eq_comm eq_comm
  | some entry =>
    simp only [bind_eq_ok, toStoreError_eq_ok, applyRemovedOutput_eq_ok,
      Option.toList_some, entrySum_cons, entrySum_nil, add_zero, pure, Except.pure, Except.ok.injEq,
      Prod.ext_iff]
    constructor
    · rintro ⟨acc, removed, rfl, is_noted⟩
      exact ⟨removed, is_noted.symm⟩
    · rintro ⟨removed, is_noted⟩
      exact ⟨state'.1, removed, rfl, is_noted.symm⟩

theorem removeSpends_eq_ok {outpoints : List Outpoint}
    (spent : ∀ outpoint ∈ outpoints, outpoint ∈ spentOutpoints range) :
    outpoints.foldlM (removeSpend hashes (rowsOf (first ++ range)) scan) state = .ok state' ↔
      state'.1 + entrySum hashes (outpoints.filterMap (spendableAt (txsOf (first ++ range)))) =
          state.1 ∧
        state'.2 = outpoints.foldl (noteSpent (txsOf (first ++ range)) scan.rangeTxids) state.2 := by
  induction outpoints generalizing state with
  | nil =>
    simp only [foldlM_nil, foldl_nil, filterMap_nil, entrySum_nil, add_zero, pure,
      Except.pure, Except.ok.injEq, Prod.ext_iff]
    exact and_congr eq_comm eq_comm
  | cons outpoint outpoints ih =>
    have later := fun next member => spent next (mem_cons_of_mem outpoint member)
    have split : entrySum hashes
        ((outpoint :: outpoints).filterMap (spendableAt (txsOf (first ++ range)))) =
        entrySum hashes (outpoints.filterMap (spendableAt (txsOf (first ++ range)))) +
          entrySum hashes (spendableAt (txsOf (first ++ range)) outpoint).toList := by
      rw [filterMap_cons]
      cases spendableAt (txsOf (first ++ range)) outpoint with
      | none => simp
      | some entry => simp [entrySum_cons, add_comm]
    rw [foldlM_cons, bind_eq_ok, foldl_cons, split, ← add_assoc]
    constructor
    · rintro ⟨next, stepped, rest⟩
      obtain ⟨removed, noted⟩ :=
        (removeSpend_eq_ok valid scanned (spent outpoint mem_cons_self)).mp stepped
      obtain ⟨removed', noted'⟩ := (ih later).mp rest
      rw [removed', removed, noted', noted]
      exact ⟨rfl, rfl⟩
    · rintro ⟨removed, noted⟩
      refine ⟨(_, _), (removeSpend_eq_ok valid scanned (spent outpoint mem_cons_self)).mpr
        ⟨removed, rfl⟩, (ih later).mpr ⟨rfl, noted⟩⟩

omit scanned

omit valid

/-- The earlier transactions that the second pass notes. -/
theorem mem_noted (txs : List CompactTxData) (rangeTxids : List TransactionHash)
    (outpoints : List Outpoint) (noted : List TransactionHash) (txid : TransactionHash) :
    txid ∈ outpoints.foldl (noteSpent txs rangeTxids) noted ↔
      txid ∈ noted ∨ (txid ∉ rangeTxids ∧ ∃ outpoint ∈ outpoints, outpoint.prevTxid = txid ∧
        (spendableAt txs outpoint).isSome) := by
  induction outpoints generalizing noted with
  | nil => simp
  | cons outpoint outpoints ih =>
    rw [foldl_cons, ih, noteSpent]
    simp only [mem_cons, exists_eq_or_imp]
    split
    · rename_i notes
      rw [mem_insert_iff]
      constructor
      · rintro ((rfl | earlier) | later)
        · exact inr ⟨notes.1, inl ⟨rfl, notes.2⟩⟩
        · exact inl earlier
        · exact inr ⟨later.1, inr later.2⟩
      · rintro (earlier | ⟨outside, ⟨rfl, _⟩ | later⟩)
        · exact inl (inr earlier)
        · exact inl (inl rfl)
        · exact inr ⟨outside, later⟩
    · rename_i passes
      refine or_congr_right (and_congr_right fun outside => ?_)
      rw [or_iff_right]
      rintro ⟨rfl, spendable⟩
      exact passes ⟨outside, spendable⟩

theorem nodup_noted (txs : List CompactTxData) (rangeTxids : List TransactionHash)
    (outpoints : List Outpoint) {noted : List TransactionHash} (distinct : noted.Nodup) :
    (outpoints.foldl (noteSpent txs rangeTxids) noted).Nodup := by
  induction outpoints generalizing noted with
  | nil => exact distinct
  | cons outpoint outpoints ih =>
    apply ih
    unfold noteSpent
    split
    · exact distinct.insert
    · exact distinct

/-! ## The third pass -/

theorem isOutpointUnspent_rowsOf (valid : ValidChain hashes blocks) (outpoint : Outpoint) :
    (rowsOf blocks).isOutpointUnspent outpoint = decide (outpoint ∉ spentOutpoints blocks) := by
  rw [Bool.eq_iff_iff, decide_eq_true_eq, ← isSome_getOutpointSpender valid, Rows.isOutpointUnspent]
  simp

theorem countP_created (valid : ValidChain hashes (first ++ range))
    (scanned : Scanned hashes acc (txsOf range) scan)
    (visit : IterationOrder (TransactionHash × List Outpoint)) :
    (visit.order (pairsOf scan.createdOutpointsByTx)).countP (fun created =>
      created.2.any (rowsOf (first ++ range)).isOutpointUnspent) = enteredBy first range := by
  have any_unspent : ∀ tx : CompactTxData,
      ((ledger.created tx).map Prod.fst).any (rowsOf (first ++ range)).isOutpointUnspent =
        ledger.carries (spentOutpoints (first ++ range)) tx := by
    intro tx
    rw [any_map, carries]
    simp only [Function.comp_def, isOutpointUnspent_rowsOf valid]
  have range_nodup : ((txsOf range).map CompactTxData.txid).Nodup := by
    have distinct := valid.txids
    rw [txsOf_append, map_append] at distinct
    exact distinct.of_append_right
  have by_txid : enteredBy first range = (((txsOf range).filter
      (ledger.carries (spentOutpoints (first ++ range)))).map CompactTxData.txid).length := by
    rw [length_map, enteredBy, countP_eq_length_filter]
  rw [(visit.perm _).countP_eq, by_txid, countP_eq_length_filter,
    ← length_map (f := Prod.fst)]
  apply List.Perm.length_eq
  rw [perm_ext_iff_of_nodup ((nodup_pairsOf _).sublist (filter_sublist.map _))
    (range_nodup.sublist (filter_sublist.map _))]
  intro txid
  simp only [mem_map, mem_filter, scanned.byTx]
  constructor
  · rintro ⟨_, ⟨⟨tx, member, _, rfl⟩, unspent⟩, rfl⟩
    rw [any_unspent] at unspent
    exact ⟨tx, ⟨member, unspent⟩, rfl⟩
  · rintro ⟨tx, ⟨member, carried⟩, rfl⟩
    have non_empty : ledger.created tx ≠ [] := by
      obtain ⟨entry, created, _⟩ := ledger.carries_eq_true.mp carried
      exact ne_nil_of_mem created
    exact ⟨_, ⟨⟨tx, member, non_empty, rfl⟩, (any_unspent tx).trans carried⟩, rfl⟩

/-- The noted transactions are those of the chain before the range with a spendable output that the
range spends. -/
theorem exists_of_noted (valid : ValidChain hashes (first ++ range))
    (scanned : Scanned hashes acc (txsOf range) scan) {txid : TransactionHash}
    (noted : txid ∈ (spentOutpoints range).foldl
      (noteSpent (txsOf (first ++ range)) scan.rangeTxids) []) :
    ∃ tx ∈ txsOf first, tx.txid = txid ∧
      ∃ entry ∈ ledger.created tx, entry.1 ∈ spentOutpoints range := by
  rw [mem_noted, or_iff_right not_mem_nil] at noted
  obtain ⟨outside, outpoint, spent, rfl, spendable⟩ := noted
  obtain ⟨entry, found⟩ := Option.isSome_iff_exists.mp spendable
  obtain ⟨rfl, created⟩ := (spendableAt_eq_some valid).mp found
  rw [createdOutputs_append, mem_append] at created
  rcases created with earlier | later
  · obtain ⟨tx, member, made⟩ := ledger.mem_createdBy.mp earlier
    exact ⟨tx, member, (ledger.owned tx entry made).symm, entry, made, spent⟩
  · obtain ⟨tx, member, made⟩ := ledger.mem_createdBy.mp later
    refine absurd ((scanned.txids _).mpr ?_) outside
    rw [show entry.1.prevTxid = tx.txid from ledger.owned tx entry made]
    exact mem_map_of_mem member

theorem allSpent_eq_ok (valid : ValidChain hashes blocks) {tx : CompactTxData}
    (member : tx ∈ txsOf blocks) {entry : Outpoint × TxOutCompact}
    (created : entry ∈ ledger.created tx) :
    allSpent (rowsOf blocks) tx.txid = .ok (!ledger.carries (spentOutpoints blocks) tx) := by
  have has_output : tx.transparent.outputs ≠ [] := by
    intro none_created
    change entry ∈ spendableEntries tx.txid tx.transparent.outputs at created
    rw [none_created] at created
    exact absurd created not_mem_nil
  have data : transparentData tx.transparent = some tx.transparent := by
    rw [transparentData, if_neg]
    simp [has_output]
  rw [allSpent, getTransparentTx_rowsOf valid member, data]
  simp only [isOutpointUnspent_rowsOf valid, carries]
  rw [not_any_eq_all_not]
  rfl

theorem count_left (valid : ValidChain hashes (first ++ range))
    (scanned : Scanned hashes acc (txsOf range) scan) (visit : IterationOrder TransactionHash) :
    ∃ left, (visit.order ((spentOutpoints range).foldl
        (noteSpent (txsOf (first ++ range)) scan.rangeTxids) [])).mapM
          (allSpent (rowsOf (first ++ range))) = .ok left ∧
      left.count true = drainedBy first range := by
  let empties : TransactionHash → Bool := fun txid => decide (∃ tx ∈ txsOf first,
    tx.txid = txid ∧ ledger.carries (spentOutpoints (first ++ range)) tx = false)
  let noted := (spentOutpoints range).foldl
    (noteSpent (txsOf (first ++ range)) scan.rangeTxids) []
  have in_chain : ∀ tx ∈ txsOf first, tx ∈ txsOf (first ++ range) := fun tx member => by
    rw [txsOf_append]
    exact mem_append_left _ member
  have read : ∀ txid ∈ visit.order noted,
      allSpent (rowsOf (first ++ range)) txid = .ok (empties txid) := by
    intro txid listed
    obtain ⟨tx, member, rfl, entry, created, _⟩ :=
      exists_of_noted valid scanned (visit.mem_order.mp listed)
    rw [allSpent_eq_ok valid (in_chain tx member) created]
    congr 1
    rw [Bool.eq_iff_iff]
    simp only [empties, Bool.not_eq_true', decide_eq_true_eq]
    constructor
    · intro empty
      exact ⟨tx, member, rfl, empty⟩
    · rintro ⟨tx', member', same, empty⟩
      rwa [valid.of_append.tx_unique member member' same.symm]
  refine ⟨_, mapM_eq_ok read, ?_⟩
  have counted : ((visit.order noted).map empties).count true = (noted.filter empties).length := by
    rw [count_eq_countP, countP_map, (visit.perm noted).countP_eq,
      countP_eq_length_filter]
    congr 1
    apply filter_congr
    intro txid _
    simp
  rw [counted, drainedBy]
  refine length_eq_drained valid.follows
    ((nodup_noted _ _ _ nodup_nil).filter _) fun txid => ?_
  rw [mem_filter, ← txsOf_append]
  simp only [empties, decide_eq_true_eq]
  constructor
  · rintro ⟨is_noted, tx, member, rfl, empty⟩
    obtain ⟨tx', member', same, entry, created, spent⟩ := exists_of_noted valid scanned is_noted
    rw [valid.of_append.tx_unique member' member same] at created
    exact ⟨tx, member, rfl,
      ledger.carries_eq_true.mpr ⟨entry, created, valid.follows.fresh spent⟩, empty⟩
  · rintro ⟨tx, member, rfl, carried, empty⟩
    rw [txsOf_append] at empty
    obtain ⟨entry, created, spent, touched⟩ := valid.follows.touched_of_drained member carried empty
    have outside : tx.txid ∉ scan.rangeTxids := fun inside =>
      (mem_touched.mp touched).2 ((scanned.txids _).mp inside)
    refine ⟨(mem_noted _ _ _ _ _).mpr (inr ⟨outside, entry.1, spent,
      ledger.owned tx entry created, ?_⟩), tx, member, rfl, ?_⟩
    · rw [(spendableAt_eq_some valid).mpr ⟨rfl, ?_⟩]
      · rfl
      · exact ledger.mem_createdBy.mpr ⟨tx, in_chain tx member, created⟩
    · rw [spentOutpoints, txsOf_append]
      exact empty

/-! ## The whole update -/

theorem accumulateRange_eq_ok (valid : ValidChain hashes (first ++ range)) (nonempty : first ≠ [])
    (visits : Visits) (fits : acc.Fits) :
    accumulateRange hashes visits (rowsOf (first ++ range)) acc (first.length - 1)
        ((first ++ range).length - 1) = .ok acc' ↔
      (acc + entrySum hashes (createdOutputs range)).Fits ∧ ∃ settled transactions,
          settled + entrySum hashes (spentOutputs first range) =
            acc + entrySum hashes (createdOutputs range) ∧ moveTransactions settled.transactions
            ((enteredBy first range : Int) - drainedBy first range) = some transactions ∧
          acc' = { settled with transactions } := by
  have positive : 0 < first.length := length_pos_of_ne_nil nonempty
  have heights : range' (first.length - 1 + 1)
      ((first ++ range).length - 1 - (first.length - 1)) = range' first.length range.length := by
    rw [length_append]
    congr 1 <;> omega
  have walk : (range' first.length range.length).foldlM
      (scanHeight hashes (rowsOf (first ++ range))) ⟨acc, [], ∅, ∅, []⟩ =
      (txsOf range).foldlM (fun scan tx =>
        scanTx hashes scan (tx.txid, transparentData tx.transparent)) ⟨acc, [], ∅, ∅, []⟩ := by
    refine foldlM_heights first range (fun i block held scan => ?_) _
    rw [scanHeight, transparentAt_rowsOf valid held, ok_bind, IndexedBlock.pairs, foldlM_map]
  have follows := valid.follows
  have scanned : Scanned hashes acc (txsOf range) _ := Scanned.run
    (by
      have distinct := follows.ids
      rw [map_append] at distinct
      exact distinct.of_append_right)
    (by
      have distinct := follows.outputs
      rw [createdBy_append, map_append] at distinct
      exact distinct.of_append_right)
  have spent_sum : entrySum hashes ((spentOutpoints range).filterMap
      (spendableAt (txsOf (first ++ range)))) = entrySum hashes (spentOutputs first range) :=
    entrySum_perm hashes ((spentEntries_filterMap valid).perm (spentEntries_spentOutputs valid))
  obtain ⟨left, left_read, left_count⟩ := count_left valid scanned visits.priorTxids
  have starts : (⟨acc, [], ∅, ∅, []⟩ : RangeScan).acc.Fits := fits
  simp only [accumulateRange, heights, walk, bind_eq_ok, scanTxs_eq_ok starts]
  constructor
  · rintro ⟨_, ⟨all_fit, rfl⟩, ⟨settled, noted⟩, second, left', third, transactions, moved, returned⟩
    rw [scanned.spends] at second
    obtain ⟨removed, rfl⟩ := (removeSpends_eq_ok valid scanned fun _ spent => spent).mp second
    obtain rfl : left = left' := Except.ok.inj (left_read.symm.trans third)
    rw [countP_created valid scanned, left_count, okOr_eq_ok] at moved
    refine ⟨all_fit, settled, transactions, ?_, moved, (Except.ok.inj returned).symm⟩
    rw [← spent_sum]
    exact removed.trans scanned.acc
  · rintro ⟨all_fit, settled, transactions, removed, moved, rfl⟩
    refine ⟨_, ⟨all_fit, rfl⟩, (settled, _), ?_, left, left_read, transactions, ?_, rfl⟩
    · rw [scanned.spends]
      refine (removeSpends_eq_ok valid scanned fun _ spent => spent).mpr ⟨?_, rfl⟩
      rw [spent_sum, removed]
      exact scanned.acc.symm
    · rw [countP_created valid scanned, left_count, okOr_eq_ok]
      exact moved

theorem txOutSet_transactions_le (hashes : Hashes) (blocks : List IndexedBlock) :
    (txOutSet hashes blocks).transactions ≤ (txOutSet hashes blocks).transactionOutputs :=
  ledger.countP_carries_le (spentOutpoints blocks) (txsOf blocks)

/-- The totals after a block or a range are bounded by those before and what was created. -/
theorem txOutSet_append_le (valid : ValidChain hashes (first ++ range)) :
    (txOutSet hashes (first ++ range)).transactionOutputs ≤
        (txOutSet hashes first + entrySum hashes (createdOutputs range)).transactionOutputs ∧
      (txOutSet hashes (first ++ range)).bytesSerialized ≤
        (txOutSet hashes first + entrySum hashes (createdOutputs range)).bytesSerialized ∧
      (txOutSet hashes (first ++ range)).totalZatoshis ≤
        (txOutSet hashes first + entrySum hashes (createdOutputs range)).totalZatoshis := by
  have parts := TxOutSetAccumulator.ext_iff.mp
    (txOutSet_append valid (spentEntries_spentOutputs valid))
  simp only [add_transactionOutputs, add_bytesSerialized,
    add_totalZatoshis, carrying] at parts ⊢
  omega

/-- There are fewer outputs than a `u64` counts bytes of them, by far. -/
theorem transactions_lt_of_bytes (fits : (txOutSet hashes blocks).bytesSerialized < 2 ^ 64) :
    (txOutSet hashes blocks).transactions < 2 ^ 63 := by
  have fewer := txOutSet_transactions_le hashes blocks
  have bytes : (txOutSet hashes blocks).bytesSerialized =
      65 * (txOutSet hashes blocks).transactionOutputs := rfl
  omega

/-- From the summary of the chain before a range the update computes that of the chain with it,
unless what the range creates does not fit on top of it. -/
theorem accumulateRange_txOutSet (valid : ValidChain hashes (first ++ range))
    (nonempty : first ≠ []) (visits : Visits) (fits : (txOutSet hashes first).Fits) :
    accumulateRange hashes visits (rowsOf (first ++ range)) (txOutSet hashes first)
        (first.length - 1) ((first ++ range).length - 1) = .ok acc' ↔
      (txOutSet hashes first + entrySum hashes (createdOutputs range)).Fits ∧
        acc' = txOutSet hashes (first ++ range) := by
  rw [accumulateRange_eq_ok valid nonempty visits fits]
  refine and_congr_right fun all_fit => ?_
  have law := txOutSet_append valid (spentEntries_spentOutputs valid)
  have parts := TxOutSetAccumulator.ext_iff.mp law
  have no_transactions := entrySum_transactions hashes
  simp only [add_transactions, add_transactionOutputs,
    add_bytesSerialized, add_totalZatoshis,
    add_hashSerialized, carrying, no_transactions, Nat.add_zero,
    Nat.zero_add] at parts
  let settled : TxOutSetAccumulator :=
    { txOutSet hashes (first ++ range) with transactions := (txOutSet hashes first).transactions }
  have is_settled : settled + entrySum hashes (spentOutputs first range) =
      txOutSet hashes first + entrySum hashes (createdOutputs range) := by
    ext1
    · simp [settled, no_transactions]
    · exact parts.2.1
    · exact parts.2.2.1
    · simpa [settled] using parts.2.2.2.1
    · exact parts.2.2.2.2
  have moved : moveTransactions settled.transactions
      ((enteredBy first range : Int) - drainedBy first range) =
      some (txOutSet hashes (first ++ range)).transactions := by
    have before := transactions_lt_of_bytes fits.bytesSerialized
    have after := transactions_lt_of_bytes
      (Nat.lt_of_le_of_lt (txOutSet_append_le valid).2.1 all_fit.bytesSerialized)
    have counts := parts.1
    simp only [settled, moveTransactions]
    rw [if_pos (by omega), Option.some.injEq]
    omega
  constructor
  · rintro ⟨settled', transactions, is_settled', moved', rfl⟩
    obtain rfl : settled' = settled := add_right_cancel (is_settled'.trans is_settled.symm)
    obtain rfl := Option.some.inj (moved'.symm.trans moved)
    rfl
  · rintro rfl
    exact ⟨settled, _, is_settled, moved, rfl⟩

end Second

end Zaino.ChainStore
