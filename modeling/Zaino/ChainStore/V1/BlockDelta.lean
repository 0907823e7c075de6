import Zaino.ChainStore.V1.Moves

/-!
# The delta of one block

What `calculateAfterBlock` and `calculateAfterDeleteBlock` compute on the rows of a valid chain, as
equations between summaries: a block gains the outputs it creates and the transactions of it that
keep one (`gained`), and it loses the outputs it spends and the earlier transactions it leaves
without one (`lost`). The two functions index the block's outputs and spends in the same way and
differ in the rows they read, those before the block or those with it (`Around`).
-/

namespace Zaino.ChainStore

open Library AccumulatorDirection List HashMap AList

/-! ## Maps as lists of pairs -/

section Pairs

variable {K V : Type} [DecidableEq K]

theorem mem_pairsOf {m : HashMap K V} {pair : K × V} :
    pair ∈ pairsOf m ↔ m.lookup pair.1 = some pair.2 := by
  rw [HashMap.lookup_eq_some_iff, pairsOf, mem_map]
  constructor
  · rintro ⟨entry, member, rfl⟩
    exact member
  · intro member
    exact ⟨_, member, rfl⟩

omit [DecidableEq K] in
theorem nodup_pairsOf (m : HashMap K V) : ((pairsOf m).map Prod.fst).Nodup := by
  have keys := m.nodupKeys
  rw [pairsOf, map_map]
  exact keys

theorem pairsOf_insertAll_perm {pairs : List (K × V)} (distinct : (pairs.map Prod.fst).Nodup) :
    (pairsOf (insertAll ∅ pairs)).Perm pairs := by
  rw [perm_ext_iff_of_nodup (nodup_pairsOf _).of_map distinct.of_map]
  intro pair
  rw [mem_pairsOf, lookup_insertAll_empty distinct]

theorem mem_insertAll_empty {pairs : List (K × V)} (distinct : (pairs.map Prod.fst).Nodup) {k : K} :
    k ∈ insertAll (∅ : HashMap K V) pairs ↔ k ∈ pairs.map Prod.fst := by
  rw [← lookup_isSome, Option.isSome_iff_exists]
  simp only [lookup_insertAll_empty distinct]
  simp

end Pairs

/-! ## What a block creates -/

/-- The number of outputs of each transaction. -/
def outputCounts (txs : List CompactTxData) : HashMap TransactionHash Nat :=
  insertAll ∅ (txs.map fun tx => (tx.txid, tx.transparent.outputs.length))

/-- The number of spendable outputs of each transaction. -/
def spendableCounts (txs : List CompactTxData) : HashMap TransactionHash Nat :=
  insertAll ∅ (txs.map fun tx => (tx.txid, (ledger.created tx).length))

theorem outputs_transparentData (tx : TransparentCompactTx) :
    ((transparentData tx).map TransparentCompactTx.outputs).getD [] = tx.outputs := by
  unfold transparentData
  split
  · rename_i empty
    simp only [Bool.and_eq_true, List.isEmpty_iff] at empty
    simp [empty.2]
  · rfl

theorem length_spendableEntries (txid : TransactionHash) (outputs : List TxOutCompact) :
    (spendableEntries txid outputs).length =
      (outputs.filter fun out => !isUnspendableTxOut out).length := by
  have values : (outputs.mapIdx fun i out =>
      ((⟨txid, UInt32.ofNat i⟩ : Outpoint), out)).map Prod.snd = outputs := by
    rw [map_mapIdx_eq_map (g := Prod.snd) (h := id) (fun _ _ => rfl), map_id]
  calc (spendableEntries txid outputs).length
      = ((outputs.mapIdx fun i out => ((⟨txid, UInt32.ofNat i⟩ : Outpoint), out)).map
          Prod.snd).countP fun out => !isUnspendableTxOut out := by
        rw [spendableEntries, ← countP_eq_length_filter, countP_map]
        rfl
    _ = _ := by rw [values, countP_eq_length_filter]

section Created

variable {txs : List CompactTxData}

theorem nodup_counts (distinct : (txs.map CompactTxData.txid).Nodup) (size : CompactTxData → Nat) :
    ((txs.map fun tx => (tx.txid, size tx)).map Prod.fst).Nodup := by
  rw [map_map]
  exact distinct

theorem addCreatedOutputs_eq_ok {tx : CompactTxData}
    {maps : HashMap TransactionHash Nat × HashMap TransactionHash Nat}
    (count : tx.transparent.outputs.length < 2 ^ 32) (fresh : tx.txid ∉ maps.1) :
    addCreatedOutputs maps (tx.txid, transparentData tx.transparent) =
      .ok (maps.1.insert tx.txid tx.transparent.outputs.length,
        maps.2.insert tx.txid (ledger.created tx).length) := by
  have spendable : (ledger.created tx).length =
      (tx.transparent.outputs.filter fun out => !isUnspendableTxOut out).length :=
    length_spendableEntries _ _
  have spendable_count := Nat.lt_of_le_of_lt
    (length_filter_le (fun out => !isUnspendableTxOut out) tx.transparent.outputs) count
  simp only [addCreatedOutputs, outputs_transparentData]
  rw [if_neg (Nat.not_le.mpr count), if_neg (Nat.not_le.mpr spendable_count), if_neg fresh,
    spendable]

variable (distinct : (txs.map CompactTxData.txid).Nodup)

include distinct

theorem indexCreatedOutputs_eq_ok (bounded : ∀ tx ∈ txs, tx.transparent.outputs.length < 2 ^ 32) :
    indexCreatedOutputs (txs.map fun tx => (tx.txid, transparentData tx.transparent)) =
      .ok (outputCounts txs, spendableCounts txs) := by
  -- By induction with the maps built so far, which hold none of the hashes to come.
  suffices from_any : ∀ maps : HashMap TransactionHash Nat × HashMap TransactionHash Nat,
      (∀ tx ∈ txs, tx.txid ∉ maps.1) →
      (txs.map fun tx => (tx.txid, transparentData tx.transparent)).foldlM addCreatedOutputs maps =
        .ok (maps.1.insertAll (txs.map fun tx => (tx.txid, tx.transparent.outputs.length)),
          maps.2.insertAll (txs.map fun tx => (tx.txid, (ledger.created tx).length))) from
    from_any (∅, ∅) fun _ _ => notMem_empty _
  induction txs with
  | nil => exact fun maps _ => rfl
  | cons tx txs ih =>
    intro maps fresh
    rw [map_cons, nodup_cons] at distinct
    rw [map_cons, foldlM_cons, addCreatedOutputs_eq_ok (bounded tx mem_cons_self)
      (fresh tx mem_cons_self), ok_bind,
      ih distinct.2 (fun tx member => bounded tx (mem_cons_of_mem _ member))]
    · rfl
    · intro tx' member held
      rcases mem_insert _ |>.mp held with same | held
      · exact distinct.1 (same ▸ mem_map_of_mem member)
      · exact fresh tx' (mem_cons_of_mem _ member) held

theorem mem_outputCounts {txid : TransactionHash} :
    txid ∈ outputCounts txs ↔ txid ∈ txs.map CompactTxData.txid := by
  rw [outputCounts, mem_insertAll_empty (nodup_counts distinct _), map_map]
  rfl

theorem sum_spendableCounts (visit : IterationOrder (TransactionHash × Nat)) :
    ((visit.order (pairsOf (spendableCounts txs))).map Prod.snd).sum =
      (ledger.createdBy txs).length := by
  have reordered := (visit.perm _).trans
    (pairsOf_insertAll_perm (nodup_counts distinct fun tx => (ledger.created tx).length))
  calc ((visit.order (pairsOf (spendableCounts txs))).map Prod.snd).sum
      = ((txs.map fun tx => (tx.txid, (ledger.created tx).length)).map Prod.snd).sum :=
        (reordered.map Prod.snd).sum_eq
    _ = (txs.map fun tx => (ledger.created tx).length).sum := by
        rw [map_map]
        rfl
    _ = (ledger.createdBy txs).length := by
        rw [Ledger.createdBy, length_flatMap]

end Created

/-! ## What a block spends -/

/-- Outpoints, grouped by the transaction they name. -/
structure Groups (byTx : HashMap TransactionHash (List UInt32)) (outpoints : List Outpoint) :
    Prop where
  mem : ∀ txid index, index ∈ (byTx.lookup txid).getD [] ↔ (⟨txid, index⟩ : Outpoint) ∈ outpoints
  keys : ∀ txid, txid ∈ byTx ↔ ∃ outpoint ∈ outpoints, outpoint.prevTxid = txid

namespace Groups

variable {byTx : HashMap TransactionHash (List UInt32)} {outpoints : List Outpoint}

theorem empty : Groups ∅ [] where
  mem txid index := by simp
  keys txid := by simp [notMem_empty]

theorem of_perm {others : List Outpoint} (groups : Groups byTx outpoints)
    (same : outpoints.Perm others) : Groups byTx others where
  mem txid index := by rw [groups.mem, same.mem_iff]
  keys txid := by simp only [groups.keys, same.mem_iff]

theorem insert (groups : Groups byTx outpoints) (outpoint : Outpoint) :
    Groups (byTx.insert outpoint.prevTxid
      (outpoint.prevIndex :: (byTx.lookup outpoint.prevTxid).getD [])) (outpoint :: outpoints) where
  mem txid index := by
    rw [mem_cons, ← groups.mem]
    by_cases same : txid = outpoint.prevTxid
    · subst same
      simp only [lookup_insert, Option.getD_some, mem_cons]
      refine or_congr_left ?_
      constructor
      · rintro rfl
        rfl
      · intro is_outpoint
        rw [← is_outpoint]
    · rw [lookup_insert_ne same, or_iff_right]
      intro is_outpoint
      exact same (congrArg Outpoint.prevTxid is_outpoint)
  keys txid := by
    rw [mem_insert, groups.keys]
    simp [eq_comm]

end Groups

theorem indexSpentOutpoints_eq_ok (visits : Visits) (spentMap : SpentMap)
    (distinct : (spentMap.map Prod.fst).Nodup) :
    ∃ byTx, indexSpentOutpoints visits spentMap = .ok (byTx, visits.spentMap.order spentMap) ∧
      Groups byTx (spentMap.map Prod.fst) := by
  have reordered := (visits.spentMap.perm spentMap).map Prod.fst
  -- Along the visited spends, with those grouped so far.
  suffices from_any : ∀ (spends : SpentMap) (byTx : HashMap TransactionHash (List UInt32))
      (seen : List Outpoint), Groups byTx seen → (spends.map Prod.fst ++ seen).Nodup →
      ∃ byTx', spends.foldlM addSpentIndex byTx = .ok byTx' ∧ Groups byTx' (spends.map Prod.fst ++ seen) by
    obtain ⟨byTx, indexed, groups⟩ := from_any (visits.spentMap.order spentMap) ∅ [] Groups.empty
      (by rw [append_nil]; exact reordered.nodup_iff.mpr distinct)
    rw [append_nil] at groups
    refine ⟨byTx, ?_, groups.of_perm reordered⟩
    rw [indexSpentOutpoints, indexed, ok_bind]
    rfl
  intro spends
  induction spends with
  | nil => exact fun byTx seen groups _ => ⟨byTx, rfl, groups⟩
  | cons spend spends ih =>
    intro byTx seen groups fresh
    have moved : (spends.map Prod.fst ++ spend.1 :: seen).Perm
        (spend.1 :: (spends.map Prod.fst ++ seen)) := perm_middle
    have unseen : spend.1 ∉ seen := fun held =>
      (nodup_cons.mp fresh).1 (mem_append_right _ held)
    have absent : spend.1.prevIndex ∉ (byTx.lookup spend.1.prevTxid).getD [] := fun held =>
      unseen ((groups.mem _ _).mp held)
    obtain ⟨byTx', indexed, groups'⟩ := ih _ (spend.1 :: seen) (groups.insert spend.1)
      (moved.nodup_iff.mpr fresh)
    refine ⟨byTx', ?_, groups'.of_perm moved⟩
    rw [foldlM_cons, addSpentIndex, if_neg absent, ok_bind]
    exact indexed

/-! ## The rows around a block -/

/-- The rows hold the chain before a block, or the chain with it. -/
def Around (before : List IndexedBlock) (block : IndexedBlock) (held : List IndexedBlock) : Prop :=
  held = before ∨ held = before ++ [block]

section Around

variable {hashes : Hashes} {before held : List IndexedBlock} {block : IndexedBlock}
  (around : Around before block held)

include around

theorem Around.valid (valid : ValidChain hashes (before ++ [block])) : ValidChain hashes held := by
  rcases around with rfl | rfl
  · exact valid.of_append
  · exact valid

variable {tx : CompactTxData}

theorem Around.mem_txsOf (member : tx ∈ txsOf before) : tx ∈ txsOf held := by
  rcases around with rfl | rfl
  · exact member
  · rw [txsOf_append]
    exact mem_append_left _ member

variable {outpoint : Outpoint}

/-- What the block or the chain before it spends, as far as the rows hold it. -/
theorem Around.mem_spentOutpoints : outpoint ∈ spentOutpoints (before ++ [block]) ↔
      outpoint ∈ spentOutpoints [block] ∨ outpoint ∈ spentOutpoints held := by
  rcases around with rfl | rfl
  · rw [spentOutpoints_append, mem_append, or_comm]
  · rw [spentOutpoints_append, mem_append]
    tauto

omit around

theorem mem_txsOf_last (member : tx ∈ block.transactions) : tx ∈ txsOf (before ++ [block]) := by
  rw [txsOf_append, txsOf_singleton]
  exact mem_append_right _ member

theorem mem_txsOf_before (member : tx ∈ txsOf (before ++ [block]))
    (elsewhere : tx.txid ∉ block.transactions.map CompactTxData.txid) : tx ∈ txsOf before := by
  rw [txsOf_append, txsOf_singleton, mem_append] at member
  exact member.resolve_right fun here => elsewhere (mem_map_of_mem here)

variable (valid : ValidChain hashes (before ++ [block]))

include valid

/-- A spend of the block names an output of the chain. -/
theorem exists_spent_output (spent : outpoint ∈ spentOutpoints [block]) :
    ∃ tx ∈ txsOf (before ++ [block]), tx.txid = outpoint.prevTxid ∧
      ∃ out, tx.transparent.outputs[outpoint.prevIndex.toNat]? = some out := by
  have spent_in_all : outpoint ∈ spentOutpoints (before ++ [block]) := by
    rw [spentOutpoints_append]
    exact mem_append_right _ spent
  obtain ⟨tx, member, named, bound⟩ := valid.exists_output spent_in_all
  exact ⟨tx, member, named, _, getElem?_eq_getElem bound⟩

/-! ## Resolving the spends -/

theorem resolveSpentOutpoint_eq_ok (around : Around before block held) {out : TxOutCompact} (member : tx ∈ txsOf (before ++ [block]))
    (named : tx.txid = outpoint.prevTxid)
    (found : tx.transparent.outputs[outpoint.prevIndex.toNat]? = some out) :
    resolveSpentOutpoint (rowsOf held) block.pairs
      (insertAll ∅ (block.pairs.mapIdx fun i pair => (pair.1, i))) outpoint =
      .ok (outpoint, out) := by
  have keys : (block.pairs.mapIdx fun i pair => (pair.1, i)).map Prod.fst = block.txids := by
    rw [map_mapIdx_eq_map (h := Prod.fst), map_fst_pairs]
    exact fun _ _ => rfl
  have distinct : ((block.pairs.mapIdx fun i pair => (pair.1, i)).map Prod.fst).Nodup := by
    rw [keys]
    exact valid.nodup_txids
  unfold resolveSpentOutpoint
  cases indexed : (insertAll ∅ (block.pairs.mapIdx fun i pair => (pair.1, i))).lookup
      outpoint.prevTxid with
  | some i =>
    rw [lookup_insertAll_empty distinct, mem_mapIdx] at indexed
    obtain ⟨j, bound, same⟩ := indexed
    simp only [Prod.mk.injEq] at same
    obtain ⟨same_txid, rfl⟩ := same
    simp only [IndexedBlock.pairs, getElem_map, length_map] at same_txid bound
    -- The transaction at that index is the one that the spend names.
    have is_tx : block.transactions[j] = tx :=
      valid.tx_unique (mem_txsOf_last (getElem_mem bound)) member
        (same_txid.trans named.symm)
    have data : transparentData tx.transparent = some tx.transparent :=
      transparentData_of_output found
    simp only [IndexedBlock.pairs, getElem?_map, getElem?_eq_getElem bound, is_tx,
      Option.map_some, Option.bind_some, data, found]
  | none =>
    have elsewhere : tx.txid ∉ block.transactions.map CompactTxData.txid := by
      rw [named]
      intro here
      rw [lookup_eq_none, mem_insertAll_empty distinct, keys] at indexed
      exact indexed here
    have read := output_rowsOf (around.valid valid)
      (around.mem_txsOf (mem_txsOf_before member elsewhere)) named found
    simp only [read.1, ok_bind]
    rfl

end Around

/-! ## The entries -/

/-- The output that an outpoint names among some transactions. -/
def outputAt (txs : List CompactTxData) (outpoint : Outpoint) : Option TxOutCompact :=
  (txs.find? fun tx => decide (tx.txid = outpoint.prevTxid)).bind fun tx =>
    tx.transparent.outputs[outpoint.prevIndex.toNat]?

variable {hashes : Hashes} {first rest : List IndexedBlock}
  {byTx : HashMap TransactionHash (List UInt32)} {spentCounts : HashMap TransactionHash Nat}
  {direction : AccumulatorDirection} {acc acc' : TxOutSetAccumulator}

theorem outputAt_eq {blocks : List IndexedBlock} (valid : ValidChain hashes blocks)
    {tx : CompactTxData} {outpoint : Outpoint} (member : tx ∈ txsOf blocks)
    (named : tx.txid = outpoint.prevTxid) :
    outputAt (txsOf blocks) outpoint = tx.transparent.outputs[outpoint.prevIndex.toNat]? := by
  have found : (txsOf blocks).find? (fun tx => decide (tx.txid = outpoint.prevTxid)) = some tx := by
    rw [find?_eq_some_iff_of_unique]
    · exact ⟨member, by simp [named]⟩
    · intro tx tx_member tx' tx_member' is_named is_named'
      exact valid.tx_unique tx_member tx_member'
        ((of_decide_eq_true is_named).trans (of_decide_eq_true is_named').symm)
  rw [outputAt, found, Option.bind_some]

/-- The outputs that `rest` spends. -/
def spentOutputs (first rest : List IndexedBlock) : List (Outpoint × TxOutCompact) :=
  (createdOutputs (first ++ rest)).filter fun entry => decide (entry.1 ∈ spentOutpoints rest)

theorem spentEntries_spentOutputs (valid : ValidChain hashes (first ++ rest)) :
    SpentEntries first rest (spentOutputs first rest) where
  nodup := valid.nodup_created.of_map.filter _
  mem entry := by
    rw [spentOutputs, mem_filter, decide_eq_true_eq, and_comm]

theorem SpentEntries.perm {spent spent' : List _} (entries : SpentEntries first rest spent)
    (entries' : SpentEntries first rest spent') : spent.Perm spent' := by
  rw [perm_ext_iff_of_nodup entries.nodup entries'.nodup]
  intro entry
  rw [entries.mem, entries'.mem]

theorem flatMap_spendableEntries (block : IndexedBlock) : (block.pairs.flatMap fun pair =>
      spendableEntries pair.1 ((pair.2.map TransparentCompactTx.outputs).getD [])) =
      createdOutputs [block] := by
  rw [createdOutputs, txsOf_singleton, Ledger.createdBy, IndexedBlock.pairs, flatMap_map]
  simp only [outputs_transparentData]
  rfl

theorem lookup_countByTx (txid : TransactionHash) (entries : List (Outpoint × TxOutCompact)) :
    ((countByTx entries).lookup txid).getD 0 =
      entries.countP fun entry => decide (entry.1.prevTxid = txid) := by
  suffices from_any : ∀ counts : HashMap TransactionHash Nat,
      ((entries.foldl (fun (counts : HashMap TransactionHash Nat) entry =>
        counts.insert entry.1.prevTxid ((counts.lookup entry.1.prevTxid).getD 0 + 1)) counts).lookup
          txid).getD 0 = (counts.lookup txid).getD 0 +
            entries.countP fun entry => decide (entry.1.prevTxid = txid) by
    have from_empty := from_any ∅
    rwa [lookup_empty, Option.getD_none, Nat.zero_add] at from_empty
  induction entries with
  | nil => exact fun counts => rfl
  | cons entry rest ih =>
    intro counts
    rw [foldl_cons, ih, countP_cons]
    by_cases same : entry.1.prevTxid = txid
    · subst same
      simp only [lookup_insert, Option.getD_some, decide_true, if_true]
      omega
    · rw [lookup_insert_ne (Ne.symm same)]
      simp [same]

/-! ## The parts of a delta -/

/-- A step over one of the block's own transactions, none of whose spent outputs is out of range. -/
theorem stepCreated_of_range {txs : List CompactTxData}
    (distinct : (txs.map CompactTxData.txid).Nodup) {tx : CompactTxData} (member : tx ∈ txs)
    (in_range : ((byTx.lookup tx.txid).getD []).find? (fun index =>
      decide (tx.transparent.outputs.length ≤ index.toNat)) = none) :
    stepCreated (spendableCounts txs) byTx spentCounts direction acc
        (tx.txid, tx.transparent.outputs.length) =
      countIf ((spentCounts.lookup tx.txid).getD 0 < (ledger.created tx).length) direction.enter acc := by
  have held : (spendableCounts txs).lookup tx.txid = some (ledger.created tx).length :=
    (lookup_insertAll_empty (nodup_counts distinct _)).mpr (mem_map.mpr ⟨tx, member, rfl⟩)
  simp only [stepCreated, in_range, held, Option.getD_some, countIf, decide_eq_true_eq]
  rfl

/-- The transitions of a block's own transactions, when a step counts those that `counts` holds of. -/
theorem applyInBlockTransitions_of_steps (visits : Visits) {block : IndexedBlock}
    (distinct : block.txids.Nodup) {spentTotal : Nat} {counts : CompactTxData → Bool}
    (each : ∀ acc, ∀ tx ∈ block.transactions,
      stepCreated (spendableCounts block.transactions) byTx spentCounts direction acc
          (tx.txid, tx.transparent.outputs.length) =
        countIf (counts tx) direction.enter acc) (fits : acc.Fits) :
    applyInBlockTransitions visits acc (outputCounts block.transactions)
        (spendableCounts block.transactions) byTx spentCounts spentTotal direction = .ok acc' ↔
      ∃ entered transactionOutputs transactions,
        direction.Moves acc.transactionOutputs (createdOutputs [block]).length entered ∧
        direction.opposite.Moves entered spentTotal transactionOutputs ∧
        direction.Moves acc.transactions (block.transactions.countP counts) transactions ∧
        acc' = { acc with transactionOutputs, transactions } := by
  obtain ⟨txs, visited, reordered⟩ := exists_perm_of_perm_map
    ((visits.createdCounts.perm _).trans (pairsOf_insertAll_perm (nodup_counts distinct
      fun tx => tx.transparent.outputs.length)))
  have steps : ∀ acc acc' : TxOutSetAccumulator, acc.transactions < 2 ^ 64 →
      ((visits.createdCounts.order (pairsOf (outputCounts block.transactions))).foldlM
        (stepCreated (spendableCounts block.transactions) byTx spentCounts direction) acc =
          .ok acc' ↔ ∃ transactions,
        direction.Moves acc.transactions (block.transactions.countP counts) transactions ∧
          acc' = { acc with transactions }) := by
    intro acc acc' fits
    rw [outputCounts, visited, foldlM_map, ← reordered.countP_eq counts]
    have each_visited : ∀ acc, ∀ tx ∈ txs, _ = _ := fun acc tx member =>
      each acc tx (reordered.mem_iff.mp member)
    exact foldlM_counting direction.enter (fun _ _ _ => enter_eq_some) each_visited fits
  have created : (createdOutputs [block]).length =
      (ledger.createdBy block.transactions).length := by
    rw [createdOutputs, txsOf_singleton]
  rw [applyInBlockTransitions, bind_eq_ok, created]
  constructor
  · rintro ⟨total, summed, rest⟩
    rw [foldlM_checkedAdd Prod.snd _ (Nat.two_pow_pos 64),
      sum_spendableCounts distinct] at summed
    rw [bind_eq_ok] at rest
    obtain ⟨outputs, moved, rest⟩ := rest
    rw [okOr_eq_ok, Option.bind_eq_some_iff] at moved
    obtain ⟨entered, enters, leaves⟩ := moved
    rw [summed.2, Nat.zero_add] at enters
    obtain ⟨transactions, counts, is_last⟩ := 
      (steps { acc with transactionOutputs := outputs } acc' fits.transactions).mp rest
    exact ⟨entered, outputs, transactions, enter_eq_some.mp enters, leave_eq_some.mp leaves, counts,
      is_last⟩
  · rintro ⟨entered, outputs, transactions, enters, leaves, counts, rfl⟩
    refine ⟨(ledger.createdBy block.transactions).length, ?_, ?_⟩
    · rw [foldlM_checkedAdd Prod.snd _ (Nat.two_pow_pos 64),
        sum_spendableCounts distinct, AccumulatorDirection.Moves, Nat.zero_add]
      exact ⟨enters.amount_fits fits.transactionOutputs, rfl⟩
    · rw [bind_eq_ok]
      refine ⟨outputs, ?_, (steps _ _ ?_).mpr ⟨transactions, counts, rfl⟩⟩
      · rw [okOr_eq_ok, Option.bind_eq_some_iff]
        exact ⟨entered, enter_eq_some.mpr enters, leave_eq_some.mpr leaves⟩
      · exact fits.transactions

/-- The whole delta, from what its three parts do. -/
theorem applyTransitions_of_parts {visits : Visits} {rows : Rows} {pairs : TransparentPairs}
    {spentMap : SpentMap} {created spent : List (Outpoint × TxOutCompact)}
    {createdCounts spendableCounts : HashMap TransactionHash Nat} {entered left : Nat}
    (built : buildEntryData visits rows pairs spentMap = .ok (created, spent, spentCounts))
    (inBlock : ∀ acc acc' : TxOutSetAccumulator, acc.Fits →
      (applyInBlockTransitions visits acc createdCounts spendableCounts byTx spentCounts
          spent.length direction = .ok acc' ↔ ∃ middle transactionOutputs transactions,
          direction.Moves acc.transactionOutputs created.length middle ∧
          direction.opposite.Moves middle spent.length transactionOutputs ∧
          direction.Moves acc.transactions entered transactions ∧
          acc' = { acc with transactionOutputs, transactions }))
    (prior : ∀ acc acc' : TxOutSetAccumulator, acc.transactions < 2 ^ 64 →
      (applyPriorBlockTransitions visits rows acc byTx createdCounts direction = .ok acc' ↔
        ∃ transactions, direction.opposite.Moves acc.transactions left transactions ∧
          acc' = { acc with transactions })) (fits : acc.Fits) :
    applyTransitions hashes visits rows acc pairs spentMap createdCounts spendableCounts byTx
        direction = .ok acc' ↔ DeltaMoves direction (entrySum hashes created + carrying entered)
        (entrySum hashes spent + carrying left) acc acc' := by
  have outputs_gained : (entrySum hashes created + carrying entered).transactionOutputs =
      created.length := by
    simp [entrySum_transactionOutputs, carrying]
  have outputs_lost : (entrySum hashes spent + carrying left).transactionOutputs =
      spent.length := by
    simp [entrySum_transactionOutputs, carrying]
  have transactions_gained : (entrySum hashes created + carrying entered).transactions =
      entered := by
    simp [entrySum_transactions, carrying]
  have transactions_lost : (entrySum hashes spent + carrying left).transactions = left := by
    simp [entrySum_transactions, carrying]
  simp only [applyTransitions, built, ok_bind, bind_eq_ok]
  constructor
  · rintro ⟨acc₁, in_block, acc₂, drained, last⟩
    obtain ⟨middle, outputs, transactions, enters, leaves, counts, rfl⟩ :=
      (inBlock acc acc₁ fits).mp in_block
    obtain ⟨transactions', drains, rfl⟩ :=
      (prior _ acc₂ (by exact counts.fits fits.transactions)).mp drained
    obtain ⟨total, bytes, total_moves, bytes_moves, rfl⟩ :=
      (applyEntryDeltas_eq_ok (by exact fits.totalZatoshis) (by exact fits.bytesSerialized)).mp last
    exact {
      transactions := ⟨transactions, by rwa [transactions_gained], by rwa [transactions_lost]⟩
      transactionOutputs := ⟨middle, by rwa [outputs_gained], by rwa [outputs_lost]⟩
      bytesSerialized := bytes_moves
      totalZatoshis := total_moves
      hashSerialized := by simp [carrying] }
  · rintro ⟨⟨transactions, counts, drains⟩, ⟨middle, enters, leaves⟩, bytes_moves, total_moves,
      xored⟩
    rw [transactions_gained] at counts
    rw [transactions_lost] at drains
    rw [outputs_gained] at enters
    rw [outputs_lost] at leaves
    refine ⟨{ acc with transactionOutputs := acc'.transactionOutputs, transactions },
      (inBlock acc _ fits).mpr ⟨middle, _, _, enters, leaves, counts, rfl⟩,
      { acc with
        transactionOutputs := acc'.transactionOutputs
        transactions := acc'.transactions },
      (prior _ _ (by exact counts.fits fits.transactions)).mpr ⟨_, drains, rfl⟩,
      (applyEntryDeltas_eq_ok (by exact fits.totalZatoshis) (by exact fits.bytesSerialized)).mpr
        ⟨acc'.totalZatoshis, acc'.bytesSerialized, total_moves, bytes_moves, ?_⟩⟩
    ext1
    · rfl
    · rfl
    · rfl
    · simpa [carrying] using xored
    · rfl

section Around

variable {hashes : Hashes} {before held : List IndexedBlock} {block : IndexedBlock}

variable (valid : ValidChain hashes (before ++ [block]))

include valid

/-! ## The entries of a block on a chain -/

theorem buildEntryData_eq_ok (visits : Visits) (around : Around before block held) :
    ∃ spentEntries, buildEntryData visits (rowsOf held) block.pairs block.spends =
        .ok (createdOutputs [block], spentEntries, countByTx spentEntries) ∧
      SpentEntries before [block] spentEntries := by
  let outpoints := (visits.spentMap.order block.spends).map Prod.fst
  let resolve : Outpoint → Outpoint × TxOutCompact := fun outpoint =>
    (outpoint, (outputAt (txsOf (before ++ [block])) outpoint).getD ⟨0, 0, .p2pkh⟩)
  have reordered : outpoints.Perm (spentOutpoints [block]) := by
    rw [← map_fst_spends]
    exact (visits.spentMap.perm block.spends).map Prod.fst
  have resolved : outpoints.mapM (resolveSpentOutpoint (rowsOf held) block.pairs
      (insertAll ∅ (block.pairs.mapIdx fun i pair => (pair.1, i)))) =
      .ok (outpoints.map resolve) := by
    apply mapM_eq_ok
    intro outpoint member
    obtain ⟨tx, tx_member, named, out, found⟩ :=
      exists_spent_output valid (reordered.mem_iff.mp member)
    have at_tx := (outputAt_eq valid tx_member named).trans found
    rw [resolveSpentOutpoint_eq_ok valid around tx_member named found]
    simp only [resolve, at_tx, Option.getD_some]
  refine ⟨(outpoints.map resolve).filter fun entry => !isUnspendableTxOut entry.2, ?_, ?_⟩
  · rw [buildEntryData, resolved, ok_bind, flatMap_spendableEntries]
    rfl
  · constructor
    · apply List.Nodup.filter
      apply List.Nodup.of_map Prod.fst
      rw [map_map, show Prod.fst ∘ resolve = id from rfl, map_id]
      exact reordered.nodup_iff.mpr valid.nodup_spends
    · intro entry
      rw [mem_filter, mem_map, valid.mem_created]
      constructor
      · rintro ⟨⟨outpoint, member, rfl⟩, spendable⟩
        have spent := reordered.mem_iff.mp member
        obtain ⟨tx, tx_member, named, out, found⟩ := exists_spent_output valid spent
        have at_tx := (outputAt_eq valid tx_member named).trans found
        simp only [resolve, at_tx, Option.getD_some, Bool.not_eq_true'] at spendable ⊢
        exact ⟨spent, tx, tx_member, named, found, spendable⟩
      · rintro ⟨spent, tx, tx_member, named, found, spendable⟩
        have at_tx := (outputAt_eq valid tx_member named).trans found
        refine ⟨⟨entry.1, reordered.mem_iff.mpr spent, ?_⟩, by simp [spendable]⟩
        simp only [resolve, at_tx, Option.getD_some]

/-! ## Transactions of the block -/

variable {spent : List (Outpoint × TxOutCompact)}

/-- A transaction of the block keeps an output when fewer of its outputs are spent than it has. -/
theorem spentCount_lt_iff_carries (entries : SpentEntries before [block] spent) {tx : CompactTxData}
    (member : tx ∈ block.transactions) :
    ((countByTx spent).lookup tx.txid).getD 0 < (ledger.created tx).length ↔
      ledger.carries (spentOutpoints (before ++ [block])) tx = true := by
  have in_chain : tx ∈ txsOf (before ++ [block]) := mem_txsOf_last member
  have created_nodup : (ledger.created tx).Nodup :=
    (nodup_spendableEntries tx.txid (Nat.le_of_lt (valid.outputCounts tx in_chain))).of_map
  have same : (spent.filter fun entry => decide (entry.1.prevTxid = tx.txid)).Perm
      ((ledger.created tx).filter fun entry => decide (entry.1 ∈ spentOutpoints [block])) := by
    rw [perm_ext_iff_of_nodup (entries.nodup.filter _) (created_nodup.filter _)]
    intro entry
    rw [mem_filter, mem_filter, entries.mem, createdOutputs, Ledger.mem_createdBy,
      decide_eq_true_eq, decide_eq_true_eq]
    constructor
    · rintro ⟨⟨spent_here, tx', member', created⟩, owned⟩
      have owner := ledger.owned tx' entry created
      rw [← valid.tx_unique member' in_chain (owner.symm.trans owned)]
      exact ⟨created, spent_here⟩
    · rintro ⟨created, spent_here⟩
      exact ⟨⟨spent_here, tx, in_chain, created⟩, ledger.owned tx entry created⟩
  rw [lookup_countByTx, countP_eq_length_filter, same.length_eq, ← countP_eq_length_filter,
    Nat.lt_iff_le_and_ne, Ne, countP_eq_length, Ledger.carries_eq_true]
  -- What the block creates was not spent before it.
  have fresh : ∀ entry ∈ ledger.created tx,
      (entry.1 ∈ spentOutpoints (before ++ [block]) ↔ entry.1 ∈ spentOutpoints [block]) := by
    intro entry created
    have unspent : entry.1 ∉ spentOutpoints before := valid.follows.later entry (by
      rw [txsOf_singleton]
      exact ledger.mem_createdBy.mpr ⟨tx, member, created⟩)
    rw [spentOutpoints_append, mem_append, or_iff_right unspent]
  simp only [countP_le_length, true_and, decide_eq_true_eq, not_forall]
  constructor
  · rintro ⟨entry, created, unspent⟩
    exact ⟨entry, created, fun spent_here => unspent ((fresh entry created).mp spent_here)⟩
  · rintro ⟨entry, created, unspent⟩
    exact ⟨entry, created, fun spent_here => unspent ((fresh entry created).mpr spent_here)⟩

variable {byTx : HashMap TransactionHash (List UInt32)}

variable {tx : CompactTxData} {acc acc' : TxOutSetAccumulator}
  (groups : Groups byTx (spentOutpoints [block])) (direction : AccumulatorDirection)

include groups

/-- The spends of a transaction's outputs name outputs that it has. -/
theorem spent_in_range (member : tx ∈ txsOf (before ++ [block])) :
    ((byTx.lookup tx.txid).getD []).find? (fun index =>
      decide (tx.transparent.outputs.length ≤ index.toNat)) = none := by
  rw [find?_eq_none]
  intro index spent_index
  obtain ⟨tx', member', named, _, found⟩ :=
    exists_spent_output valid ((groups.mem tx.txid index).mp spent_index)
  rw [valid.tx_unique member' member named] at found
  simpa using (List.getElem?_eq_some_iff.mp found).1

theorem stepCreated_eq (entries : SpentEntries before [block] spent)
    (acc : TxOutSetAccumulator) (member : tx ∈ block.transactions) :
    stepCreated (spendableCounts block.transactions) byTx (countByTx spent) direction acc
        (tx.txid, tx.transparent.outputs.length) =
      countIf (ledger.carries (spentOutpoints (before ++ [block])) tx) direction.enter acc := by
  rw [stepCreated_of_range valid.nodup_txids member
    (spent_in_range valid groups (mem_txsOf_last member))]
  simp only [spentCount_lt_iff_carries valid entries member, Bool.decide_eq_true]

theorem applyInBlockTransitions_eq_ok (visits : Visits)
    (entries : SpentEntries before [block] spent) (fits : acc.Fits) :
    applyInBlockTransitions visits acc (outputCounts block.transactions)
        (spendableCounts block.transactions) byTx (countByTx spent) spent.length direction =
        .ok acc' ↔ ∃ entered transactionOutputs transactions,
        direction.Moves acc.transactionOutputs (createdOutputs [block]).length entered ∧
        direction.opposite.Moves entered spent.length transactionOutputs ∧
        direction.Moves acc.transactions (enteredBy before [block]) transactions ∧
        acc' = { acc with transactionOutputs, transactions } := by
  have each : ∀ acc, ∀ tx ∈ block.transactions, _ = _ := fun acc tx member =>
    stepCreated_eq valid groups direction entries acc member
  rw [enteredBy, txsOf_singleton]
  exact applyInBlockTransitions_of_steps visits valid.nodup_txids each fits

/-! ## Earlier transactions -/

variable (around : Around before block held)

include around

/-- An earlier transaction leaves the set when all its outputs are spent, by the block or by what the
rows hold. -/
theorem leavesSet_iff_mem_emptied (member : tx ∈ txsOf before) (spent_from : tx.txid ∈ byTx)
    (elsewhere : tx.txid ∉ block.transactions.map CompactTxData.txid) :
    ((((spendableEntries tx.txid tx.transparent.outputs).map Prod.fst).filter fun outpoint =>
        !decide (outpoint.prevIndex ∈ (byTx.lookup tx.txid).getD [])).all fun outpoint =>
          ((rowsOf held).getOutpointSpender outpoint).isSome) =
      decide (tx.txid ∈ ledger.emptied (txsOf before) block.transactions) := by
  have is_touched : tx.txid ∈ ledger.touched block.transactions := by
    rw [Ledger.mem_touched]
    obtain ⟨outpoint, spent, named⟩ := (groups.keys tx.txid).mp spent_from
    rw [spentOutpoints, txsOf_singleton] at spent
    exact ⟨⟨outpoint, spent, named⟩, elsewhere⟩
  have is_emptied : tx.txid ∈ ledger.emptied (txsOf before) block.transactions ↔
      ∀ entry ∈ ledger.created tx, entry.1 ∈ spentOutpoints (before ++ [block]) := by
    rw [Ledger.emptied, mem_filter, decide_eq_true_eq, ← txsOf_singleton, ← txsOf_append]
    constructor
    · rintro ⟨_, empty⟩
      exact ledger.carries_eq_false.mp (empty tx member rfl)
    · intro empty
      refine ⟨by rwa [txsOf_singleton], fun tx' member' same => ?_⟩
      rw [valid.of_append.tx_unique member' member same]
      exact ledger.carries_eq_false.mpr empty
  rw [Bool.eq_iff_iff, decide_eq_true_eq, is_emptied, all_eq_true]
  have spent_here : ∀ entry ∈ ledger.created tx,
      (entry.1.prevIndex ∈ (byTx.lookup tx.txid).getD [] ↔ entry.1 ∈ spentOutpoints [block]) := by
    intro entry created
    rw [groups.mem, ← show entry.1.prevTxid = tx.txid from ledger.owned tx entry created]
  constructor
  · intro all entry created
    rw [around.mem_spentOutpoints, ← spent_here entry created]
    by_cases here : entry.1.prevIndex ∈ (byTx.lookup tx.txid).getD []
    · exact Or.inl here
    · refine Or.inr ((isSome_getOutpointSpender (around.valid valid) entry.1).mp (all entry.1 ?_))
      exact mem_filter.mpr ⟨mem_map_of_mem created, by simp [here]⟩
  · intro all outpoint remaining
    obtain ⟨listed, unspent⟩ := mem_filter.mp remaining
    obtain ⟨entry, created, rfl⟩ := mem_map.mp listed
    have spent := all entry created
    rw [around.mem_spentOutpoints, ← spent_here entry created] at spent
    refine (isSome_getOutpointSpender (around.valid valid) entry.1).mpr (spent.resolve_left ?_)
    simpa using unspent

theorem stepPrior_eq (acc : TxOutSetAccumulator) {spent : TransactionHash × List UInt32}
    (member : spent ∈ pairsOf byTx) :
    stepPrior (rowsOf held) (outputCounts block.transactions) direction acc spent =
      countIf (spent.1 ∈ ledger.emptied (txsOf before) block.transactions) direction.leave acc := by
  obtain ⟨txid, indices⟩ := spent
  have looked_up : byTx.lookup txid = some indices := mem_pairsOf.mp member
  have spent_from : txid ∈ byTx := lookup_isSome.mp (by rw [looked_up]; rfl)
  unfold stepPrior
  by_cases here : txid ∈ block.transactions.map CompactTxData.txid
  · have untouched : txid ∉ ledger.emptied (txsOf before) block.transactions := fun emptied =>
      (Ledger.mem_touched.mp (mem_filter.mp emptied).1).2 here
    rw [if_pos ((mem_outputCounts valid.nodup_txids).mpr here)]
    simp only [untouched, decide_false]
    rfl
  · obtain ⟨outpoint, spent, rfl⟩ := (groups.keys txid).mp spent_from
    obtain ⟨tx, in_chain, named, out, found⟩ := exists_spent_output valid spent
    rw [← named] at here looked_up spent_from ⊢
    have in_before := mem_txsOf_before in_chain here
    obtain ⟨location, located, read⟩ :=
      getTransparent_rowsOf (around.valid valid) (around.mem_txsOf in_before)
    rw [transparentData_of_output found] at read
    have in_range := spent_in_range valid groups in_chain
    have leaves := leavesSet_iff_mem_emptied valid groups around in_before spent_from here
    rw [looked_up, Option.getD_some] at in_range leaves
    rw [if_neg (fun held => here ((mem_outputCounts valid.nodup_txids).mp held)), located]
    simp only [read, ok_bind]
    rw [if_neg (Nat.not_le.mpr (valid.outputCounts tx in_chain)), in_range]
    simp only [leaves]
    rfl

variable (visits : Visits)

theorem applyPriorBlockTransitions_eq_ok (fits : acc.transactions < 2 ^ 64) :
    applyPriorBlockTransitions visits (rowsOf held) acc byTx (outputCounts block.transactions)
        direction = .ok acc' ↔ ∃ transactions, direction.opposite.Moves acc.transactions
          (ledger.emptied (txsOf before) block.transactions).length transactions ∧
        acc' = { acc with transactions } := by
  have counted : (visits.spentIndices.order (pairsOf byTx)).countP (fun spent =>
      decide (spent.1 ∈ ledger.emptied (txsOf before) block.transactions)) =
      (ledger.emptied (txsOf before) block.transactions).length := by
    rw [((visits.spentIndices.perm _).countP_eq _), countP_eq_length_filter,
      ← length_map (f := Prod.fst)]
    have emptied_nodup : (ledger.emptied (txsOf before) block.transactions).Nodup :=
      (ledger.nodup_touched _).filter _
    apply List.Perm.length_eq
    rw [perm_ext_iff_of_nodup ((nodup_pairsOf byTx).sublist (filter_sublist.map _))
      emptied_nodup]
    intro txid
    rw [mem_map]
    constructor
    · rintro ⟨spent, listed, rfl⟩
      exact of_decide_eq_true (mem_filter.mp listed).2
    · intro emptied
      obtain ⟨⟨outpoint, spent, named⟩, _⟩ := Ledger.mem_touched.mp (mem_filter.mp emptied).1
      have spent_from : txid ∈ byTx := (groups.keys txid).mpr ⟨outpoint, by
        rw [spentOutpoints, txsOf_singleton]
        exact spent, named⟩
      obtain ⟨indices, looked_up⟩ := Option.isSome_iff_exists.mp (lookup_isSome.mpr spent_from)
      exact ⟨(txid, indices), mem_filter.mpr ⟨mem_pairsOf.mpr looked_up, by simpa using emptied⟩,
        rfl⟩
  have each : ∀ acc, ∀ spent ∈ visits.spentIndices.order (pairsOf byTx), _ = _ :=
    fun acc spent member => stepPrior_eq valid groups direction around acc
      (visits.spentIndices.mem_order.mp member)
  rw [applyPriorBlockTransitions, ← counted]
  exact foldlM_counting direction.leave (fun _ _ _ => leave_eq_some) each fits

/-! ## The whole delta -/

/-- What a block gains: the outputs it creates, and the transactions of it that keep one. -/
def gained (hashes : Hashes) (before : List IndexedBlock) (block : IndexedBlock) :
    TxOutSetAccumulator :=
  entrySum hashes (createdOutputs [block]) + carrying (enteredBy before [block])

/-- What a block loses: the outputs it spends, and the earlier transactions that it spends from and
that keep none. -/
def lost (hashes : Hashes) (before : List IndexedBlock) (block : IndexedBlock) :
    TxOutSetAccumulator :=
  entrySum hashes (spentOutputs before [block]) +
    carrying (ledger.emptied (txsOf before) block.transactions).length

theorem applyTransitions_eq_ok (fits : acc.Fits) :
    applyTransitions hashes visits (rowsOf held) acc block.pairs block.spends
        (outputCounts block.transactions) (spendableCounts block.transactions) byTx direction =
        .ok acc' ↔
      DeltaMoves direction (gained hashes before block) (lost hashes before block) acc acc' := by
  obtain ⟨spent, built, entries⟩ := buildEntryData_eq_ok valid visits around
  have same_spent := entries.perm (spentEntries_spentOutputs valid)
  rw [gained, lost, ← entrySum_perm hashes same_spent]
  exact applyTransitions_of_parts built
    (fun _ _ fits => applyInBlockTransitions_eq_ok valid groups direction visits entries fits)
    (fun _ _ fits => applyPriorBlockTransitions_eq_ok valid groups direction around visits fits)
    fits

omit groups around in
/-- Both functions index the block's outputs and spends first. -/
theorem index_eq_ok : indexCreatedOutputs block.pairs =
        .ok (outputCounts block.transactions, spendableCounts block.transactions) ∧
      ∃ byTx, indexSpentOutpoints visits block.spends =
          .ok (byTx, visits.spentMap.order block.spends) ∧
        Groups byTx (spentOutpoints [block]) := by
  refine ⟨indexCreatedOutputs_eq_ok valid.nodup_txids fun tx member =>
    valid.outputCounts tx (mem_txsOf_last member), ?_⟩
  rw [← map_fst_spends]
  exact indexSpentOutpoints_eq_ok visits block.spends (by
    rw [map_fst_spends]
    exact valid.nodup_spends)

end Around

variable {hashes : Hashes} {before : List IndexedBlock} {block : IndexedBlock} {db : DbV1}
  {acc acc' : TxOutSetAccumulator}

/-- The summary after a block: what is lost taken out of what there was and is gained. -/
theorem calculateAfterBlock_eq_ok (valid : ValidChain hashes (before ++ [block])) (visits : Visits)
    (rows : db.rows = rowsOf before) (starts : accumulatorBefore db block.height = .ok acc)
    (fits : acc.Fits) :
    calculateAfterBlock hashes visits db block.height block.pairs block.spends = .ok acc' ↔
      (acc + gained hashes before block).Fits ∧
        acc' + lost hashes before block = acc + gained hashes before block := by
  obtain ⟨created, byTx, indexed, groups⟩ := index_eq_ok valid visits
  have unspent : checkUnspent (rowsOf before) (outputCounts block.transactions)
      (visits.spentMap.order block.spends) = .ok () := by
    have none_spent : (visits.spentMap.order block.spends).find? (fun spend =>
        !decide (spend.1.prevTxid ∈ outputCounts block.transactions) &&
          ((rowsOf before).getOutpointSpender spend.1).isSome) = none := by
      rw [find?_eq_none]
      intro spend listed
      have spent : spend.1 ∈ spentOutpoints [block] := by
        rw [← map_fst_spends]
        exact mem_map_of_mem (visits.spentMap.mem_order.mp listed)
      have fresh : spend.1 ∉ spentOutpoints before := valid.follows.fresh spent
      rw [← isSome_getOutpointSpender valid.of_append] at fresh
      simp [fresh]
    rw [checkUnspent, none_spent]
  rw [calculateAfterBlock, starts, ok_bind, created]
  simp only [ok_bind, indexed, rows, unspent]
  rw [← deltaMoves_apply]
  exact applyTransitions_eq_ok valid groups .apply (Or.inl rfl) visits fits

/-- The summary after a block is deleted: what it gained taken out, and what it lost added. -/
theorem calculateAfterDeleteBlock_eq_ok (valid : ValidChain hashes (before ++ [block]))
    (visits : Visits) (rows : db.rows = rowsOf (before ++ [block]))
    (stored : db.txOutSetInfoAccumulator = some acc) (fits : acc.Fits) :
    calculateAfterDeleteBlock hashes visits db block.pairs block.spends = .ok acc' ↔
      acc'.Fits ∧ ∃ rest, rest + gained hashes before block = acc ∧
        acc' = rest + lost hashes before block := by
  obtain ⟨created, byTx, indexed, groups⟩ := index_eq_ok valid visits
  have spent_here : checkSpentHere (rowsOf (before ++ [block]))
      (visits.spentMap.order block.spends) = .ok () := by
    have all_here : (visits.spentMap.order block.spends).find? (fun spend =>
        !decide ((rowsOf (before ++ [block])).getOutpointSpender spend.1 = some spend.2)) = none := by
      rw [find?_eq_none]
      intro spend listed
      simp [getOutpointSpender_of_mem valid valid.mem_last (visits.spentMap.mem_order.mp listed)]
    rw [checkSpentHere, all_here]
  rw [calculateAfterDeleteBlock, okOr_eq_ok.mpr stored, ok_bind, created]
  simp only [ok_bind, indexed, rows, spent_here]
  rw [← deltaMoves_reverse]
  exact applyTransitions_eq_ok valid groups .reverse (Or.inr rfl) visits fits

end Zaino.ChainStore
