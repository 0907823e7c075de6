import Zaino.ChainStore.V1.Undo

/-!
# A write that fails

When the transaction of a write fails, nothing of it is kept, and `deleteBlock` is run for the block
all the same. That deletion was not preceded by a write, so it takes off what the block never added:
the totals of the outputs that it would have created, and the rows that stand under its height, its
transaction hashes and its spent outpoints, whoever wrote them. It is held back only where it cannot
be computed: a spend of the block has to be recorded at the block's own location, and the totals have
to cover what the block creates.

`writeBlockAmong` has the store as other processes left it when the transaction began, so that the key
that a put finds may be theirs.
-/

namespace Zaino.ChainStore

open Library AccumulatorDirection List TxOutSetAccumulator Visits

/-! ## What was checked before the transaction -/

section Prepared

variable {hashes : Hashes} {visits : Visits} {db : DbV1} {block : IndexedBlock}

theorem bounded_of_indexCreatedOutputs {txs : List CompactTxData}
    {maps maps' : HashMap TransactionHash Nat × HashMap TransactionHash Nat}
    (indexed : (txs.map fun tx => (tx.txid, transparentData tx.transparent)).foldlM
      addCreatedOutputs maps = .ok maps') : ∀ tx ∈ txs, tx.transparent.outputs.length < 2 ^ 32 := by
  induction txs generalizing maps with
  | nil => exact fun tx member => absurd member not_mem_nil
  | cons tx txs ih =>
    rw [map_cons, foldlM_cons, bind_eq_ok] at indexed
    obtain ⟨next, first, rest⟩ := indexed
    intro tx' member
    rcases mem_cons.mp member with rfl | later
    · by_contra large
      simp only [addCreatedOutputs, outputs_transparentData] at first
      rw [if_pos (Nat.not_lt.mp large)] at first
      cases first
    · exact ih rest tx' later

/-- A block that was prepared: its transaction hashes are distinct, its output counts are in range,
and its spends are collected in both directions. -/
structure Prepared (block : IndexedBlock) : Prop where
  txids : block.txids.Nodup
  outputCounts : ∀ tx ∈ block.transactions, tx.transparent.outputs.length < 2 ^ 32
  spends : collectSpends false block = .ok block.spends

theorem prepared_of_prepareBlock {prepared : SpentMap × Option TxOutSetAccumulator}
    (accepted : prepareBlock hashes visits true db block = .ok prepared) : Prepared block := by
  rw [prepareBlock, bind_eq_ok] at accepted
  obtain ⟨pools, extracted, accepted⟩ := accepted
  rw [bind_eq_ok] at accepted
  obtain ⟨spentMap, collected, accepted⟩ := accepted
  obtain ⟨-, distinct, rfl⟩ := collectSpends_eq_ok.mp collected
  obtain ⟨txids, rfl⟩ := extractBlockPoolLists_eq_ok.mp extracted
  refine ⟨txids, ?_, collectSpends_eq_ok.mpr ⟨(absurd · Bool.false_ne_true), distinct, rfl⟩⟩
  rw [if_pos rfl, bind_eq_ok] at accepted
  obtain ⟨acc, mapped, _⟩ := accepted
  cases calculated : calculateAfterBlock hashes visits db block.height block.poolLists.transactions
      block.spends with
  | error error =>
    rw [calculated] at mapped
    cases mapped
  | ok acc' =>
    rw [calculateAfterBlock, bind_eq_ok] at calculated
    obtain ⟨start, _, calculated⟩ := calculated
    rw [bind_eq_ok] at calculated
    obtain ⟨maps, indexed, _⟩ := calculated
    exact bounded_of_indexCreatedOutputs indexed

end Prepared

/-! ## Taking back a block without spends -/

/-- What a block adds to the totals when nothing of it is spent in it. -/
def createdTotals (hashes : Hashes) (block : IndexedBlock) : TxOutSetAccumulator :=
  entrySum hashes (createdOutputs [block]) +
    carrying (block.transactions.countP fun tx => decide (0 < (ledger.created tx).length))

section Created

variable {hashes : Hashes} {visits : Visits} {db : DbV1} {block : IndexedBlock}

theorem createdTotals_eq_zero_iff : createdTotals hashes block = 0 ↔ createdOutputs [block] = [] := by
  constructor
  · intro zero
    have outputs := congrArg transactionOutputs zero
    simp only [createdTotals, add_transactionOutputs,
      entrySum_transactionOutputs, carrying, Nat.add_zero,
      zero_transactionOutputs] at outputs
    exact eq_nil_of_length_eq_zero outputs
  · intro empty
    have none_created : block.transactions.countP
        (fun tx => decide (0 < (ledger.created tx).length)) = 0 := by
      rw [countP_eq_zero]
      intro tx member
      rw [createdOutputs, txsOf_singleton, Ledger.createdBy, flatMap_eq_nil_iff] at empty
      simp [empty tx member]
    rw [createdTotals, empty, none_created, entrySum_nil, carrying_zero, add_zero]

theorem order_nil {α : Type} (visit : IterationOrder α) : visit.order [] = [] :=
  (visit.perm []).eq_nil

theorem buildEntryData_of_no_spends (rows : Rows) :
    buildEntryData visits rows block.pairs [] = .ok (createdOutputs [block], [], countByTx []) := by
  rw [buildEntryData, order_nil, flatMap_spendableEntries]
  rfl

theorem stepCreated_of_no_spends (distinct : block.txids.Nodup) (direction : AccumulatorDirection)
    (acc : TxOutSetAccumulator) {tx : CompactTxData} (member : tx ∈ block.transactions) :
    stepCreated (spendableCounts block.transactions) ∅ (countByTx []) direction acc
        (tx.txid, tx.transparent.outputs.length) =
      countIf (0 < (ledger.created tx).length) direction.enter acc := by
  have none_spent : ((countByTx []).lookup tx.txid).getD 0 = 0 := lookup_countByTx tx.txid []
  rw [stepCreated_of_range distinct member rfl]
  simp only [none_spent]

theorem calculateAfterDeleteBlock_of_no_spends (prepared : Prepared block) (visits : Visits)
    {acc acc' : TxOutSetAccumulator} (stored : db.txOutSetInfoAccumulator = some acc)
    (fits : acc.Fits) : calculateAfterDeleteBlock hashes visits db block.pairs [] = .ok acc' ↔
      acc' + createdTotals hashes block = acc := by
  have indexed : indexSpentOutpoints visits [] = .ok (∅, []) := by
    rw [indexSpentOutpoints, order_nil]
    rfl
  have prior : ∀ acc acc' : TxOutSetAccumulator, acc.transactions < 2 ^ 64 →
      (applyPriorBlockTransitions visits db.rows acc ∅ (outputCounts block.transactions) .reverse =
          .ok acc' ↔
        ∃ transactions, AccumulatorDirection.reverse.opposite.Moves acc.transactions 0 transactions ∧
          acc' = { acc with transactions }) := by
    intro acc acc' fits
    rw [applyPriorBlockTransitions, show pairsOf (∅ : HashMap TransactionHash (List UInt32)) = []
      from rfl, order_nil, foldlM_nil]
    simp only [pure, Except.pure, Except.ok.injEq, moves_zero fits, exists_eq_left]
    exact eq_comm
  have delta := @applyTransitions_of_parts hashes _ _ .reverse acc acc' visits db.rows block.pairs
    [] (createdOutputs [block]) [] _ _ _ 0 (buildEntryData_of_no_spends db.rows)
    (fun _ _ fits => applyInBlockTransitions_of_steps visits prepared.txids
      (fun acc _ member => stepCreated_of_no_spends prepared.txids .reverse acc member) fits)
    prior fits
  rw [calculateAfterDeleteBlock, okOr_eq_ok.mpr stored, ok_bind, IndexedBlock.pairs,
    indexCreatedOutputs_eq_ok prepared.txids prepared.outputCounts]
  simp only [ok_bind, indexed, checkSpentHere, find?_nil]
  refine delta.trans ?_
  rw [deltaMoves_reverse, entrySum_nil, carrying_zero, add_zero]
  constructor
  · rintro ⟨_, rest, taken, rfl⟩
    rw [add_zero]
    exact taken
  · intro taken
    rw [← taken] at fits
    exact ⟨fits.of_add, acc', taken, (add_zero acc').symm⟩

end Created

/-! ## Rows under a block's keys -/

/-- No table holds a row under the block's height, its hash or one of its transaction hashes. -/
structure Rows.Lacks (rows : Rows) (block : IndexedBlock) : Prop where
  headers : rows.headers[block.height]? = none
  txids : rows.txids[block.height]? = none
  transparent : rows.transparent[block.height]? = none
  sapling : rows.sapling[block.height]? = none
  orchard : rows.orchard[block.height]? = none
  ironwood : rows.ironwood[block.height]? = none
  commitmentTreeData : rows.commitmentTreeData[block.height]? = none
  heights : rows.heights[hashBytes block.hash]? = none
  txidLocation : ∀ txid ∈ block.txids, rows.txidLocation[hashBytes txid]? = none

section Lacks

variable {κ β : Type} [Ord κ] [Std.TransOrd κ] [Std.LawfulEqOrd κ]

theorem erase_eq_self_iff {m : OrderedMap κ β} {key : κ} : m.erase key = m ↔ m[key]? = none := by
  constructor
  · intro same
    rw [← same, Std.ExtTreeMap.getElem?_erase_self]
  · exact erase_of_absent

theorem editAll_deletes_eq_self_iff [DecidableEq κ] {m : OrderedMap κ β} {keys : List κ} :
    m.editAll (Edit.deletes keys) = m ↔ ∀ key ∈ keys, m[key]? = none := by
  have lookups : ∀ key, (m.editAll (Edit.deletes keys))[key]? =
      if key ∈ keys then none else m[key]? := by
    intro key
    rw [OrderedMap.editAll_deletes, Std.ExtTreeMap.getElem?_filter']
    by_cases member : key ∈ keys
    · cases m[key]? <;> simp [member]
    · cases m[key]? <;> simp [member, Option.filter]
  constructor
  · intro same key member
    rw [← same, lookups, if_pos member]
  · intro absent
    apply Std.ExtTreeMap.ext_getElem?
    intro key
    rw [lookups]
    by_cases member : key ∈ keys
    · rw [if_pos member, absent key member]
    · rw [if_neg member]

end Lacks

theorem withoutBlock_eq_self_iff {rows : Rows} {block : IndexedBlock} :
    rows.withoutBlock block [] = rows ↔ rows.Lacks block := by
  rw [Rows.ext_iff]
  simp only [Rows.withoutBlock, erase_eq_self_iff, editAll_deletes_eq_self_iff, mem_map,
    forall_exists_index, and_imp, forall_apply_eq_imp_iff₂]
  constructor
  · rintro ⟨headers, txids, transparent, sapling, orchard, ironwood, commitmentTreeData, heights,
      txidLocation, _⟩
    exact ⟨headers, txids, transparent, sapling, orchard, ironwood, commitmentTreeData, heights,
      txidLocation⟩
  · rintro ⟨headers, txids, transparent, sapling, orchard, ironwood, commitmentTreeData, heights,
      txidLocation⟩
    exact ⟨headers, txids, transparent, sapling, orchard, ironwood, commitmentTreeData, heights,
      txidLocation, fun _ member => absurd member not_mem_nil⟩

/-! ## The deletion after a failed transaction -/

/-- The totals without the block can be computed from the store as it stands. -/
def Undoable (hashes : Hashes) (visits : Visits) (db : DbV1) (block : IndexedBlock) : Prop :=
  ∃ acc, calculateAfterDeleteBlock hashes visits db block.pairs block.spends = .ok acc

section CleanUp

variable {hashes : Hashes} {visits : Visits} {db : DbV1} {block : IndexedBlock}

/-- A deletion that is computed has found every spend of the block at the block's own location. -/
theorem Undoable.recorded (undoable : Undoable hashes visits db block) :
    ∀ spend ∈ block.spends, db.rows.getOutpointSpender spend.1 = some spend.2 := by
  obtain ⟨acc, calculated⟩ := undoable
  rw [calculateAfterDeleteBlock, bind_eq_ok] at calculated
  obtain ⟨start, _, calculated⟩ := calculated
  rw [bind_eq_ok] at calculated
  obtain ⟨maps, _, calculated⟩ := calculated
  rw [bind_eq_ok] at calculated
  obtain ⟨⟨byTx, outpoints⟩, indexed, calculated⟩ := calculated
  rw [bind_eq_ok] at calculated
  obtain ⟨_, spent_here, _⟩ := calculated
  have is_visited : outpoints = visits.spentMap.order block.spends := by
    rw [indexSpentOutpoints, bind_eq_ok] at indexed
    obtain ⟨_, _, returned⟩ := indexed
    exact (congrArg Prod.snd (Except.ok.inj returned)).symm
  intro spend member
  by_contra elsewhere
  cases found : outpoints.find? (fun spend =>
      !decide (db.rows.getOutpointSpender spend.1 = some spend.2)) with
  | none =>
    rw [find?_eq_none] at found
    refine found spend ?_ (by simpa using elsewhere)
    rw [is_visited]
    exact visits.spentMap.mem_order.mpr member
  | some misplaced =>
    rw [checkSpentHere, found] at spent_here
    cases spender : db.rows.getOutpointSpender misplaced.1 <;>
      simp only [spender] at spent_here <;> cases spent_here

variable (prepared : Prepared block)

include prepared

theorem deleteBlock_of_prepared : deleteBlock hashes visits .none db block =
      (calculateAfterDeleteBlock hashes visits db block.pairs block.spends).map fun acc =>
        { db with
          rows := db.rows.withoutBlock block block.spends
          txOutSetInfoAccumulator := some acc } := by
  have deduped : dedupPairs block.pairs = block.pairs := dedupPairs_eq_self (by
    rw [map_fst_pairs]
    exact prepared.txids)
  rw [deleteBlock, deduped, prepared.spends, ok_bind]
  cases calculateAfterDeleteBlock hashes visits db block.pairs block.spends <;> rfl

/-- When the deletion changes nothing: it cannot be computed, or the block has nothing in the
store. -/
theorem cleanUp_eq_self_iff (fits : ∀ acc, db.txOutSetInfoAccumulator = some acc → acc.Fits) :
    cleanUp hashes visits db block = db ↔ ¬ Undoable hashes visits db block ∨
        block.spends = [] ∧ createdOutputs [block] = [] ∧ db.rows.Lacks block := by
  rw [cleanUp, deleteBlock_of_prepared prepared]
  cases calculated : calculateAfterDeleteBlock hashes visits db block.pairs block.spends with
  | error error =>
    have cannot : ¬ Undoable hashes visits db block := by
      rintro ⟨acc, is_ok⟩
      rw [calculated] at is_ok
      cases is_ok
    simp [Except.map, cannot]
  | ok acc' =>
    have undoable : Undoable hashes visits db block := ⟨acc', calculated⟩
    simp only [Except.map, undoable, not_true, false_or]
    obtain ⟨rows, stored, built⟩ := db
    simp only [DbV1.mk.injEq, and_true]
    constructor
    · rintro ⟨same_rows, same_acc⟩
      have no_spends : block.spends = [] := by
        rw [eq_nil_iff_forall_not_mem]
        intro spend member
        have recorded := undoable.recorded spend member
        -- The deletion leaves nothing under the outpoint.
        have same_spent := congrArg Rows.spent same_rows
        have absent := editAll_deletes_eq_self_iff.mp same_spent spend.1.toBytes
          (mem_map_of_mem (f := fun spend : Outpoint × TxLocation => spend.1.toBytes) member)
        rw [Rows.getOutpointSpender, absent] at recorded
        cases recorded
      rw [no_spends] at same_rows calculated
      refine ⟨no_spends, ?_, withoutBlock_eq_self_iff.mp same_rows⟩
      have taken := (calculateAfterDeleteBlock_of_no_spends prepared visits same_acc.symm
        (fits acc' same_acc.symm)).mp calculated
      exact createdTotals_eq_zero_iff.mp (add_eq_left.mp taken)
    · rintro ⟨no_spends, none_created, lacks⟩
      rw [no_spends] at calculated ⊢
      refine ⟨withoutBlock_eq_self_iff.mpr lacks, ?_⟩
      cases stored with
      | none =>
        cases calculated
      | some acc =>
        have taken := (calculateAfterDeleteBlock_of_no_spends prepared visits rfl
          (fits acc rfl)).mp calculated
        rw [createdTotals_eq_zero_iff.mpr none_created, add_zero] at taken
        rw [taken]

/-- Without spends, the totals lose what the block would have created. -/
theorem cleanUp_of_no_spends (visits : Visits)
    {acc acc' : TxOutSetAccumulator} (stored : db.txOutSetInfoAccumulator = some acc)
    (fits : acc.Fits) (no_spends : block.spends = [])
    (taken : acc' + createdTotals hashes block = acc) :
    (cleanUp hashes visits db block).txOutSetInfoAccumulator = some acc' := by
  have calculated := (calculateAfterDeleteBlock_of_no_spends prepared visits stored fits).mpr taken
  rw [cleanUp, deleteBlock_of_prepared prepared, no_spends, calculated]
  rfl

theorem undoable_iff_of_no_spends
    (fits : ∀ acc, db.txOutSetInfoAccumulator = some acc → acc.Fits) (no_spends : block.spends = []) :
    Undoable hashes visits db block ↔
      ∃ acc, db.txOutSetInfoAccumulator = some acc ∧ acc.Covers (createdTotals hashes block) := by
  rw [Undoable, no_spends]
  constructor
  · rintro ⟨acc', calculated⟩
    cases stored : db.txOutSetInfoAccumulator with
    | none =>
      rw [calculateAfterDeleteBlock, stored] at calculated
      cases calculated
    | some acc =>
      have taken := (calculateAfterDeleteBlock_of_no_spends prepared visits stored
        (fits acc stored)).mp calculated
      exact ⟨acc, rfl, exists_add_eq_iff.mp ⟨acc', taken⟩⟩
  · rintro ⟨acc, stored, covers⟩
    obtain ⟨acc', taken⟩ := exists_add_eq_iff.mpr covers
    exact ⟨acc', (calculateAfterDeleteBlock_of_no_spends prepared visits stored
      (fits acc stored)).mpr taken⟩

end CleanUp

/-! ## The failed write -/

/-- The block was accepted and prepared, its transaction failed, and the call returned an error. -/
structure FailsInTransaction (hashes : Hashes)
    (validate : Rows → Nat → BlockHash → Except StoreError Unit) (visits visits' : Visits)
    (fault : WriteFault) (db current : DbV1) (block : IndexedBlock) : Prop where
  accepted : blockAlreadyExists db.rows block = .ok false
  failed : ∃ prepared, prepareBlock hashes visits true db block = .ok prepared ∧
    ∃ error, commitBlock visits fault current block prepared = .error error
  reported : ∃ error,
    (writeBlockAmong hashes validate visits visits' fault db current block).2 = .error error

section Failed

variable {hashes : Hashes} {validate : Rows → Nat → BlockHash → Except StoreError Unit}
  {visits visits' : Visits} {fault : WriteFault} {db current : DbV1} {block : IndexedBlock}

/-- With nothing written in between, this is `writeBlock`. -/
theorem writeBlockAmong_self : writeBlockAmong hashes validate visits visits fault db db block =
      writeBlock hashes visits fault db block := by
  rw [writeBlockAmong, writeBlock, writeBlockWithOptions]
  cases exists_already : blockAlreadyExists db.rows block with
  | error error => rfl
  | ok found =>
    cases found with
    | true => rfl
    | false =>
      -- A block that is not stored has no header at its height.
      have absent : db.rows.headers[block.height]? = none := by
        cases held : db.rows.headers[block.height]? with
        | none => rfl
        | some stored =>
          simp only [blockAlreadyExists, held] at exists_already
          split at exists_already <;> cases exists_already
      cases prepareBlock hashes visits true db block with
      | error error => rfl
      | ok prepared =>
        cases failure : commitBlock visits fault db block prepared with
        | ok stored => simp only [failure]
        | error error =>
          have keyExist : resolveKeyExist validate db.rows block = .error
              (.custom "KeyExist but block not found at height \x7b\x7d after sync"
                [block.height]) := by
            simp only [resolveKeyExist, absent]
          rw [cleanUp]
          by_cases key_exists : error = .lmdb .keyExist
          · subst key_exists
            simp only [failure, keyExist]
            cases deleteBlock hashes visits .none db block <;> rfl
          · simp only [failure]
            cases deleteBlock hashes visits .none db block <;> rfl

variable (fails : FailsInTransaction hashes validate visits visits' fault db current block)

include fails

theorem FailsInTransaction.prepared : Prepared block := by
  obtain ⟨prepared, accepted, _⟩ := fails.failed
  exact prepared_of_prepareBlock accepted

/-- What is left is what the deletion leaves of the others' store. -/
theorem FailsInTransaction.result :
    (writeBlockAmong hashes validate visits visits' fault db current block).1 =
      cleanUp hashes visits' current block := by
  obtain ⟨accepted, ⟨prepared, is_prepared, error, failure⟩, reported, is_reported⟩ := fails
  by_cases key_exists : error = .lmdb .keyExist
  · subst key_exists
    simp only [writeBlockAmong, accepted, is_prepared, failure] at is_reported ⊢
    cases resolved : resolveKeyExist validate current.rows block with
    | ok _ =>
      simp only [resolved] at is_reported
      cases is_reported
    | error _ => rfl
  · simp only [writeBlockAmong, accepted, is_prepared, failure]

omit fails

/-- A write whose transaction failed leaves the store as it would be without the call exactly when
the deletion that follows cannot be computed, or the block has nothing in the store. The deletion of
a block without spends is computed whenever the totals cover what the block creates; with spends, each
of them has to be recorded at the block's own location. -/
theorem failed_write_unchanged_iff
    (fails : FailsInTransaction hashes validate visits visits' fault db current block)
    (fits : ∀ acc, current.txOutSetInfoAccumulator = some acc → acc.Fits) :
    ((writeBlockAmong hashes validate visits visits' fault db current block).1 = current ↔
      ¬ Undoable hashes visits' current block ∨
        block.spends = [] ∧ createdOutputs [block] = [] ∧ current.rows.Lacks block) ∧
      (block.spends = [] → (Undoable hashes visits' current block ↔
        ∃ acc, current.txOutSetInfoAccumulator = some acc ∧
          acc.Covers (createdTotals hashes block))) ∧ (Undoable hashes visits' current block →
        ∀ spend ∈ block.spends, current.rows.getOutpointSpender spend.1 = some spend.2) := by
  refine ⟨?_, undoable_iff_of_no_spends fails.prepared fits, Undoable.recorded⟩
  rw [fails.result]
  exact cleanUp_eq_self_iff fails.prepared fits

/-- The write of a block that a chain could be extended with, refused by the database. -/
theorem writeBlockAmong_refused {blocks : List IndexedBlock} {written : DbV1}
    (valid : ValidChain hashes (blocks ++ [block])) (rows : db.rows = rowsOf blocks)
    (writes : writeBlock hashes visits .none db block = (written, .ok ())) :
    FailsInTransaction hashes validate visits visits' (.refused .mapFull) db db block ∧
      writeBlockAmong hashes validate visits visits' (.refused .mapFull) db db block =
        (cleanUp hashes visits' db block,
          .error (.custom "Database configuration error: \x7b\x7d" [])) := by
  obtain ⟨acc, calculated, _⟩ := (writeBlock_eq_ok valid visits rows).mp writes
  have accepted : blockAlreadyExists db.rows block = .ok false := by
    rw [rows]
    exact blockAlreadyExists_eq_ok valid
  have is_prepared : prepareBlock hashes visits true db block = .ok (block.spends, some acc) := by
    rw [prepareBlock_eq valid, calculated]
    rfl
  have reported : writeBlockAmong hashes validate visits visits' (.refused .mapFull) db db block =
      (cleanUp hashes visits' db block,
        .error (.custom "Database configuration error: \x7b\x7d" [])) := by
    simp only [writeBlockAmong, accepted, is_prepared, commitBlock, writeFailure]
  exact ⟨⟨accepted, ⟨_, is_prepared, _, rfl⟩, _, by rw [reported]⟩, reported⟩

end Failed

section Samples

/-- Nothing is found wrong with the rows that are read back. -/
def acceptsRows : Rows → Nat → BlockHash → Except StoreError Unit := fun _ _ _ => .ok ()

/-- The store of one block with an output of ten, whose next block spends it: refused by the database,
the write leaves the store alone, since the spend is not recorded. -/
theorem failed_write_unchanged_spending :
    ∃ db, writeAll zeroHashes (fun _ => Visits.listed) DbV1.empty
        [blockAt zeroHashes 0 [transferTx 1 [] [tenToKey]]] = .ok db ∧
      (writeBlockAmong zeroHashes acceptsRows Visits.listed Visits.listed (.refused .mapFull) db db
        (blockAt zeroHashes 1 [transferTx 2 [⟨1, 0⟩] [⟨6, 0, .p2pkh⟩, ⟨4, 0, .p2sh⟩]])).1 = db := by
  have valid := tenBlock_then (show Resolves spendingLayout by decide)
  have writes := (tenBlock_maintained.writeBlock_eq_ok valid Visits.listed).mpr
    ⟨by constructor <;> decide, ⟨1, 2, 130, 0, 10⟩, by decide, rfl⟩
  obtain ⟨fails, _⟩ := @writeBlockAmong_refused _ acceptsRows _ Visits.listed _ _ _ _ valid rfl writes
  refine ⟨_, tenBlock_written, (failed_write_unchanged_iff fails ?_).1.mpr (Or.inl fun undoable => ?_)⟩
  · rintro acc ⟨⟩
    constructor <;> decide
  · have recorded := undoable.recorded (⟨1, 0⟩, ⟨1, 0⟩) (by decide)
    have spent := (isSome_getOutpointSpender valid.of_append ⟨1, 0⟩).mp (by
      rw [show (rowsOf _).getOutpointSpender ⟨1, 0⟩ = _ from recorded]
      rfl)
    exact absurd spent (by decide)

/-- The next block creates an output of ten and spends nothing. -/
def creatingLayout : List (List CompactTxData) :=
  [[transferTx 1 [] [tenToKey]], [transferTx 2 [] [tenToKey]]]

/-- Refused by the database, the write of a block that creates an output of ten takes the ten of the
first block off the totals. -/
theorem failed_write_drops_totals :
    ∃ db after, writeAll zeroHashes (fun _ => Visits.listed) DbV1.empty
        [blockAt zeroHashes 0 [transferTx 1 [] [tenToKey]]] = .ok db ∧
      ValidChain zeroHashes (chainOf zeroHashes creatingLayout) ∧
      writeBlock zeroHashes Visits.listed (.refused .mapFull) db
          (blockAt zeroHashes 1 [transferTx 2 [] [tenToKey]]) =
        (after, .error (.custom "Database configuration error: \x7b\x7d" [])) ∧
      db.txOutSetInfoAccumulator = some ⟨1, 1, 65, 0, 10⟩ ∧
      after.txOutSetInfoAccumulator = some ⟨0, 0, 0, 0, 0⟩ := by
  have valid := tenBlock_then (show Resolves creatingLayout by decide)
  have writes := (tenBlock_maintained.writeBlock_eq_ok valid Visits.listed).mpr
    ⟨by constructor <;> decide, ⟨2, 2, 130, 0, 20⟩, by decide, rfl⟩
  obtain ⟨fails, reported⟩ :=
    @writeBlockAmong_refused _ acceptsRows _ Visits.listed _ _ _ _ valid rfl writes
  rw [writeBlockAmong_self] at reported
  refine ⟨_, _, tenBlock_written, valid, reported, rfl, ?_⟩
  exact cleanUp_of_no_spends fails.prepared Visits.listed rfl
    (show TxOutSetAccumulator.Fits ⟨1, 1, 65, 0, 10⟩ by constructor <;> decide) rfl (by decide)

end Samples

end Zaino.ChainStore
