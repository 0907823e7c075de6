import Zaino.ChainStore.V1.Agreement

/-!
# Deleting the block that was just written

A block that is written and then deleted leaves the rows and the totals as they were, when both calls
succeed: the two deltas are inverse to each other. But deleting takes out what the block created
before it puts back what the block spent, so that the totals before the block have to cover everything
it spends, its own outputs included. And the height that the summary was built to is stamped by the
write and left alone by the deletion, so that the metadata never returns to what it was
(`write_delete_never_restores`).
-/

namespace Zaino.ChainStore

open Library

/-- Writing a block and deleting it gives back the store. -/
def Restores (hashes : Hashes) (visits visits' : Visits) (db : DbV1) (block : IndexedBlock) : Prop :=
  ∃ written, writeBlock hashes visits .none db block = (written, .ok ()) ∧
    deleteBlockAtHeight hashes visits' .none written block.height = .ok db

/-- Writing a block and deleting it gives back the rows and every total of the summary. -/
def RestoresRows (hashes : Hashes) (visits visits' : Visits) (db : DbV1) (block : IndexedBlock) :
    Prop :=
  ∃ written restored, writeBlock hashes visits .none db block = (written, .ok ()) ∧
    deleteBlockAtHeight hashes visits' .none written block.height = .ok restored ∧
    restored.rows = db.rows ∧ restored.summary = db.summary

section Undo

variable {hashes : Hashes} {blocks : List IndexedBlock} {block : IndexedBlock} {db : DbV1}

/-- What the two calls do one after the other: they succeed exactly when what the block gains fits on
top of the totals and the totals cover what it loses, and then only the built height has changed. -/
theorem Maintained.write_delete_eq_ok (maintained : Maintained hashes blocks db)
    (valid : ValidChain hashes (blocks ++ [block])) (visits visits' : Visits) {restored : DbV1} :
    (∃ written, writeBlock hashes visits .none db block = (written, .ok ()) ∧
        deleteBlockAtHeight hashes visits' .none written block.height = .ok restored) ↔
      ((db.summary + gained hashes blocks block).Fits ∧
        db.summary.Covers (lost hashes blocks block)) ∧
        restored = ⟨rowsOf blocks, some db.summary, some blocks.length⟩ := by
  -- Deleting the block from the store that writing it leaves behind.
  have deletes : ∀ acc, acc.Fits →
      (deleteBlockAtHeight hashes visits' .none
          ⟨rowsOf (blocks ++ [block]), some acc, some blocks.length⟩ block.height = .ok restored ↔
        ∃ acc', (acc'.Fits ∧ ∃ rest, rest + gained hashes blocks block = acc ∧
            acc' = rest + lost hashes blocks block) ∧
          restored = ⟨rowsOf blocks, some acc', some blocks.length⟩) := by
    intro acc acc_fits
    rw [deleteBlockAtHeight_tip valid visits' .none rfl, bind_eq_ok]
    refine exists_congr fun acc' => ?_
    rw [calculateAfterDeleteBlock_eq_ok valid visits' rfl rfl acc_fits]
    refine and_congr_right fun _ => ?_
    simp only [pure, Except.pure, Except.ok.injEq]
    exact eq_comm
  simp only [maintained.writeBlock_eq_ok valid visits]
  constructor
  · rintro ⟨_, ⟨all_fit, acc, moved, rfl⟩, deleted⟩
    have acc_fits : acc.Fits := by
      rw [← moved] at all_fit
      exact all_fit.of_add
    obtain ⟨acc', ⟨_, rest, taken, rfl⟩, rfl⟩ := (deletes acc acc_fits).mp deleted
    -- What was gained cancels.
    have back : rest + lost hashes blocks block = db.summary := by
      apply add_right_cancel (b := gained hashes blocks block)
      rw [← moved, ← taken, add_right_comm]
    exact ⟨⟨all_fit, TxOutSetAccumulator.exists_add_eq_iff.mp ⟨rest, back⟩⟩, by rw [back]⟩
  · rintro ⟨⟨all_fit, covers⟩, rfl⟩
    obtain ⟨rest, back⟩ := TxOutSetAccumulator.exists_add_eq_iff.mpr covers
    have moved : rest + gained hashes blocks block + lost hashes blocks block =
        db.summary + gained hashes blocks block := by
      rw [← back, add_right_comm]
    have acc_fits : (rest + gained hashes blocks block).Fits := by
      rw [← moved] at all_fit
      exact all_fit.of_add
    exact ⟨_, ⟨all_fit, _, moved, rfl⟩,
      (deletes _ acc_fits).mpr ⟨db.summary, ⟨maintained.fits, rest, rfl, back.symm⟩, rfl⟩⟩

/-- The built height is stamped with a height that it did not have. -/
theorem Maintained.built_ne (maintained : Maintained hashes blocks db) :
    db.txOutSetAccumulatorBuiltHeight ≠ some blocks.length := by
  rw [maintained.built]
  split
  · exact fun impossible => nomatch impossible
  · next nonempty =>
    have positive := List.length_pos_of_ne_nil nonempty
    intro same
    have equal := Option.some.inj same
    omega

/-- Writing the next block of a chain and deleting it never gives back the store. It gives back the
rows and the totals exactly when the totals cover what the block spends and hold what it creates. -/
theorem write_delete_never_restores (visits : Nat → Visits) (visits' visits'' : Visits)
    (written : writeAll hashes visits DbV1.empty blocks = .ok db)
    (valid : ValidChain hashes (blocks ++ [block])) : ¬ Restores hashes visits' visits'' db block ∧
      (RestoresRows hashes visits' visits'' db block ↔
        (db.summary + gained hashes blocks block).Fits ∧
          db.summary.Covers (lost hashes blocks block)) := by
  have maintained := (maintained_empty hashes).run valid.of_append written
  rw [List.nil_append] at maintained
  constructor
  · intro restores
    obtain ⟨_, is_db⟩ := (maintained.write_delete_eq_ok valid visits' visits'').mp restores
    apply maintained.built_ne
    rw [is_db]
  · constructor
    · rintro ⟨stored, restored, wrote, deleted, _⟩
      exact ((maintained.write_delete_eq_ok valid visits' visits'').mp ⟨stored, wrote, deleted⟩).1
    · intro condition
      obtain ⟨stored, wrote, deleted⟩ :=
        (maintained.write_delete_eq_ok valid visits' visits'').mpr ⟨condition, rfl⟩
      exact ⟨stored, _, wrote, deleted, maintained.rows.symm, rfl⟩

end Undo

/-! ## Two stores of one block -/

section Samples

/-- A block with an output of ten. -/
abbrev tenBlock : IndexedBlock := blockAt zeroHashes 0 [transferTx 1 [] [tenToKey]]

theorem tenBlock_then {txs : List CompactTxData}
    (resolves : Resolves [[transferTx 1 [] [tenToKey]], txs]) :
    ValidChain zeroHashes ([tenBlock] ++ [blockAt zeroHashes 1 txs]) :=
  valid_chainOf zeroHashes resolves

theorem tenBlock_written : writeAll zeroHashes (fun _ => Visits.listed) DbV1.empty [tenBlock] =
    .ok ⟨rowsOf [tenBlock], some ⟨1, 1, 65, 0, 10⟩, some 0⟩ := by
  have valid : ValidChain zeroHashes ([] ++ [tenBlock]) :=
    valid_chainOf zeroHashes (show Resolves [_] by decide)
  have written := ((maintained_empty zeroHashes).writeBlock_eq_ok valid Visits.listed).mpr
    ⟨by constructor <;> decide, ⟨1, 1, 65, 0, 10⟩, by decide, rfl⟩
  exact writeAll_cons (fun _ => Visits.listed) written rfl

theorem tenBlock_maintained :
    Maintained zeroHashes [tenBlock] ⟨rowsOf [tenBlock], some ⟨1, 1, 65, 0, 10⟩, some 0⟩ :=
  (maintained_empty zeroHashes).run
    (valid_chainOf zeroHashes (show Resolves [_] by decide)) tenBlock_written

/-- An output is spent at the next height. The rows and the totals come back, and the store does
not. -/
theorem write_delete_spending : ∃ db, writeAll zeroHashes (fun _ => Visits.listed) DbV1.empty
        [blockAt zeroHashes 0 [transferTx 1 [] [tenToKey]]] = .ok db ∧
      ¬ Restores zeroHashes Visits.listed Visits.listed db
        (blockAt zeroHashes 1 [transferTx 2 [⟨1, 0⟩] [⟨6, 0, .p2pkh⟩, ⟨4, 0, .p2sh⟩]]) ∧
      RestoresRows zeroHashes Visits.listed Visits.listed db
        (blockAt zeroHashes 1 [transferTx 2 [⟨1, 0⟩] [⟨6, 0, .p2pkh⟩, ⟨4, 0, .p2sh⟩]]) := by
  obtain ⟨never, rows_iff⟩ := write_delete_never_restores (fun _ => Visits.listed) Visits.listed
    Visits.listed tenBlock_written (tenBlock_then (show Resolves spendingLayout by decide))
  exact ⟨_, tenBlock_written, never, rows_iff.mpr ⟨by constructor <;> decide, by constructor <;> decide⟩⟩

/-- An output, and two transactions of the next block that spend it and one another's. -/
def chainedLayout : List (List CompactTxData) :=
  [[transferTx 1 [] [tenToKey]],
    [transferTx 2 [⟨1, 0⟩] [tenToKey], transferTx 3 [⟨2, 0⟩] [tenToKey]]]

/-- The block creates two outputs, and one is unspent after it: it is written, and deleting it takes
two from one. -/
theorem chained_spends_not_deleted :
    ∃ db written, writeAll zeroHashes (fun _ => Visits.listed) DbV1.empty
        [blockAt zeroHashes 0 [transferTx 1 [] [tenToKey]]] = .ok db ∧
      ValidChain zeroHashes (chainOf zeroHashes chainedLayout) ∧
      writeBlock zeroHashes Visits.listed .none db
        (blockAt zeroHashes 1 [transferTx 2 [⟨1, 0⟩] [tenToKey], transferTx 3 [⟨2, 0⟩] [tenToKey]]) =
          (written, .ok ()) ∧
      ∀ restored, deleteBlockAtHeight zeroHashes Visits.listed .none written 1 ≠ .ok restored := by
  have valid := tenBlock_then (show Resolves chainedLayout by decide)
  have wrote := (tenBlock_maintained.writeBlock_eq_ok valid Visits.listed).mpr
    ⟨by constructor <;> decide, ⟨1, 1, 65, 0, 10⟩, by decide, rfl⟩
  refine ⟨_, _, tenBlock_written, valid, wrote, fun restored deleted => ?_⟩
  obtain ⟨⟨_, covers⟩, _⟩ := (tenBlock_maintained.write_delete_eq_ok valid Visits.listed Visits.listed).mp
    ⟨_, wrote, deleted⟩
  exact absurd covers.transactionOutputs (by decide)

end Samples

end Zaino.ChainStore
