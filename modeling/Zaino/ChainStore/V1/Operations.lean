import Zaino.ChainStore.V1.Rebuild

/-!
# The store's calls on the rows of a chain

What `writeBlock` and `deleteBlockAtHeight` do to a store whose rows are those of a valid chain: the
rows become those of the chain with one block more or less, and what decides the outcome is the
summary of the unspent outputs alone. A block that is written moves it by the block's delta, and
drifts from the chain's own summary by the transactions that the block spends from although they
carried nothing (`txOutSet_block`).
-/

namespace Zaino.ChainStore

open Library

section Calls

variable {hashes : Hashes} {blocks : List IndexedBlock} {block : IndexedBlock} {db : DbV1}

/-! ## Writing -/

variable (valid : ValidChain hashes (blocks ++ [block]))

include valid

variable (visits : Visits)

theorem prepareBlock_eq : prepareBlock hashes visits true db block =
      (calculateAfterBlock hashes visits db block.height block.pairs block.spends).map
        fun acc => (block.spends, some acc) := by
  rw [prepareBlock, extractBlockPoolLists_of_valid valid, ok_bind, collectSpends_of_valid valid,
    ok_bind, if_pos rfl, verifyHeaderMerkleRoot_eq_ok valid]
  change (calculateAfterBlock hashes visits db block.height block.pairs block.spends).map _ >>= _ = _
  cases calculateAfterBlock hashes visits db block.height block.pairs block.spends <;> rfl

/-- A block whose delta cannot be computed is refused, and nothing changes. -/
theorem writeBlock_of_error (fault : WriteFault) (rows : db.rows = rowsOf blocks)
    {error : StoreError}
    (failed : calculateAfterBlock hashes visits db block.height block.pairs block.spends = .error error) :
    writeBlock hashes visits fault db block = (db, .error error) := by
  rw [writeBlock, writeBlockWithOptions, rows, blockAlreadyExists_eq_ok valid]
  simp only [prepareBlock_eq valid, failed, Except.map]

/-- A block whose delta can be computed is stored with it. -/
theorem writeBlock_of_ok (rows : db.rows = rowsOf blocks) {acc : TxOutSetAccumulator}
    (calculated : calculateAfterBlock hashes visits db block.height block.pairs block.spends = .ok acc) :
    writeBlock hashes visits .none db block =
      (⟨rowsOf (blocks ++ [block]), some acc, some blocks.length⟩, .ok ()) := by
  rw [writeBlock, writeBlockWithOptions, rows, blockAlreadyExists_eq_ok valid,
    ← valid.height_next]
  simp only [prepareBlock_eq valid, calculated, Except.map, commitBlock, rows,
    putBlock_rowsOf valid visits, ok_bind]
  rfl

theorem writeBlock_eq_ok (rows : db.rows = rowsOf blocks) {db' : DbV1} :
    writeBlock hashes visits .none db block = (db', .ok ()) ↔
      ∃ acc, calculateAfterBlock hashes visits db block.height block.pairs block.spends = .ok acc ∧
        db' = ⟨rowsOf (blocks ++ [block]), some acc, some blocks.length⟩ := by
  cases calculated : calculateAfterBlock hashes visits db block.height block.pairs block.spends with
  | error error =>
    rw [writeBlock_of_error valid visits .none rows calculated]
    simp
  | ok acc =>
    rw [writeBlock_of_ok valid visits rows calculated]
    simp [eq_comm]

/-! ## Deleting -/

theorem nodup_spends_asStored : (spentOutpoints [block.asStored]).Nodup := by
  rw [← map_fst_spends, spends_asStored, map_fst_spends]
  exact valid.nodup_spends

theorem deleteBlock_asStored (fault : DeleteFault) (rows : db.rows = rowsOf (blocks ++ [block])) :
    deleteBlock hashes visits fault db block.asStored = (do
        let acc ← calculateAfterDeleteBlock hashes visits db block.pairs block.spends
        match fault with
        | .none => return { db with rows := rowsOf blocks, txOutSetInfoAccumulator := some acc }
        | .refused error => .error (.lmdb error)
        | .commitLost => return db) := by
  have collected : collectSpends false block.asStored = .ok block.spends := by
    rw [← spends_asStored]
    exact collectSpends_eq_ok.mpr ⟨nofun, nodup_spends_asStored valid, rfl⟩
  have deduped : dedupPairs block.asStored.pairs = block.pairs := by
    rw [pairs_asStored]
    apply dedupPairs_eq_self
    rw [map_fst_pairs]
    exact valid.nodup_txids
  have shrunk : db.rows.withoutBlock block.asStored block.spends = rowsOf blocks := by
    rw [← withoutBlock_rowsOf valid, rows, Rows.withoutBlock, Rows.withoutBlock, txids_asStored]
    rfl
  rw [deleteBlock, deduped, collected, ok_bind]
  cases fault <;> simp only [shrunk]

theorem headers_at_tip :
    ((rowsOf (blocks ++ [block])).headers.keys.filter fun key => decide (block.height ≤ key)) =
      [block.height] := by
  change (byHeight IndexedBlock.headerData (blocks ++ [block])).keys.filter _ = _
  rw [keys_byHeight valid, valid.height_next, List.length_append, List.length_singleton,
    List.range_succ, List.filter_append, List.filter_eq_nil_iff.mpr, List.nil_append]
  · simp
  · intro i member
    have := List.mem_range.mp member
    simp only [decide_eq_true_eq, Nat.not_le]
    exact this

theorem deleteBlockAtHeight_tip (fault : DeleteFault)
    (rows : db.rows = rowsOf (blocks ++ [block])) :
    deleteBlockAtHeight hashes visits fault db block.height = (do
        let acc ← calculateAfterDeleteBlock hashes visits db block.pairs block.spends
        match fault with
        | .none => return { db with rows := rowsOf blocks, txOutSetInfoAccumulator := some acc }
        | .refused error => .error (.lmdb error)
        | .commitLost => return db) := by
  rw [← deleteBlock_asStored valid visits fault rows, deleteBlockAtHeight, rows,
    headers_at_tip valid]
  simp only [ne_eq, not_true, if_false]
  rw [readChainBlock_rowsOf valid, ok_bind]

end Calls

/-! ## What a block does to the summary of its chain -/

section Drift

variable {hashes : Hashes} {before : List IndexedBlock} {block : IndexedBlock}

/-- The transactions that a block spends from although they carried nothing before it. -/
def strandedBy (before : List IndexedBlock) (block : IndexedBlock) : List TransactionHash :=
  ledger.stranded (txsOf before) block.transactions

/-- The delta of a block is off by the transactions that it spends from although they carried
nothing. -/
theorem txOutSet_block (valid : ValidChain hashes (before ++ [block])) :
    txOutSet hashes (before ++ [block]) + lost hashes before block =
      txOutSet hashes before + gained hashes before block +
        carrying (strandedBy before block).length := by
  have law := txOutSet_append valid (spentEntries_spentOutputs valid)
  have counts : (ledger.emptied (txsOf before) block.transactions).length =
      drainedBy before [block] + (strandedBy before block).length := by
    have split := Ledger.length_emptied valid.follows
    rw [txsOf_singleton] at split
    rw [split, drainedBy, txsOf_singleton]
    rfl
  calc txOutSet hashes (before ++ [block]) + lost hashes before block
      = txOutSet hashes (before ++ [block]) + (entrySum hashes (spentOutputs before [block]) +
          carrying (drainedBy before [block])) + carrying (strandedBy before block).length := by
        rw [lost, counts, carrying_add, ← add_assoc (entrySum _ _), ← add_assoc]
    _ = txOutSet hashes before + gained hashes before block +
          carrying (strandedBy before block).length := by
        rw [law, gained]

/-- What `calculateAfterBlock` returns, up to the same transactions. -/
theorem drift_of_calculateAfterBlock (valid : ValidChain hashes (before ++ [block]))
    {acc acc' : TxOutSetAccumulator} {drift : Nat}
    (drifted : acc + carrying drift = txOutSet hashes before)
    (moved : acc' + lost hashes before block = acc + gained hashes before block) :
    acc' + carrying (drift + (strandedBy before block).length) =
      txOutSet hashes (before ++ [block]) := by
  have law := txOutSet_block valid
  rw [← drifted] at law
  apply add_right_cancel (b := lost hashes before block)
  rw [law, carrying_add, add_right_comm, moved]
  ac_rfl

end Drift

end Zaino.ChainStore
