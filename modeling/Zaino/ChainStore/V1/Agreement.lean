import Zaino.ChainStore.V1.Layout
import Zaino.ChainStore.V1.Operations

/-!
# Do the three builders agree?

A chain can be summarised by moving the summary with every block that is written (`writeAll`), by
making up for ranges of blocks that were stored without it (`updateAll`), and by a rebuild. The
second and the third give the chain's summary whenever they return. The first counts a transaction
out of the set each time a block spends from it and leaves it without a spendable output, whether or
not it was in the set: a transaction whose only unspent outputs are unspendable ones is not, and
those can be spent too. So the three agree exactly on the chains in which blocks spend only from
transactions that are still in the set (`SpendsFromCarriers`), as far as the totals fit their
counters (`VolumeFits`).
-/

namespace Zaino.ChainStore

open Library List TxOutSetAccumulator Nat Visits DbV1

/-! ## The builders, run over a chain -/

/-- Writes one block, or gives the error. -/
def writeNext (hashes : Hashes) (visits : Nat → Visits) (db : DbV1) (block : IndexedBlock) :
    Except StoreError DbV1 :=
  match writeBlock hashes (visits block.height) .none db block with
  | (db, .ok ()) => .ok db
  | (_, .error error) => .error error

/-- Writes the blocks of a chain one by one. -/
def writeAll (hashes : Hashes) (visits : Nat → Visits) (db : DbV1) (blocks : List IndexedBlock) :
    Except StoreError DbV1 :=
  blocks.foldlM (writeNext hashes visits) db

/-- Stores a range of blocks as one batch and brings the summary over it. -/
def updateRange (hashes : Hashes) (visits : Nat → Visits) (db : DbV1) (range : List IndexedBlock) :
    Except StoreError DbV1 := do
  let rows ← writeBlockBatch hashes db.rows range
  match db.txOutSetAccumulatorBuiltHeight, rows.tipHeight with
  | some built, some tip => updateForRange hashes (visits tip) none { db with rows } built tip
  | _, _ => return { db with rows }

/-- Stores the blocks of a chain range by range. -/
def updateAll (hashes : Hashes) (visits : Nat → Visits) (db : DbV1)
    (ranges : List (List IndexedBlock)) : Except StoreError DbV1 :=
  ranges.foldlM (updateRange hashes visits) db

/-- The store that holds a chain with its summary. -/
def summarised (hashes : Hashes) (blocks : List IndexedBlock) : DbV1 :=
  ⟨rowsOf blocks, some (txOutSet hashes blocks), some (blocks.length - 1)⟩

/-- Every builder ends with the summary of the chain, however its heights are divided and sharded. A
rebuild may be refused, but not when its cap allows for the spends of each first byte. -/
structure BuildersAgree (hashes : Hashes) (chain : List IndexedBlock) : Prop where
  perBlock : ∀ visits, ∃ db, writeAll hashes visits empty chain = .ok db ∧
    db.txOutSetInfoAccumulator = some (txOutSet hashes chain)
  byRanges : ∀ visits first ranges, first ≠ [] → chain = first ++ ranges.flatten →
    ∃ db, updateAll hashes visits (summarised hashes first) ranges = .ok db ∧
      db.txOutSetInfoAccumulator = some (txOutSet hashes chain)
  rebuilt : ∀ shards maxSpentEntries acc,
    buildBlocking hashes (rowsOf chain) (chain.length - 1) shards maxSpentEntries = .ok acc →
      acc = txOutSet hashes chain
  rebuilds : ∀ shards maxSpentEntries,
    (∀ byte, shardSpends chain byte (byte + 1) ≤ max maxSpentEntries 1) →
      ∃ acc, buildBlocking hashes (rowsOf chain) (chain.length - 1) shards maxSpentEntries = .ok acc

/-! ## Blocks that spend from the set only -/

/-- A transaction that a block spends from has a spendable output that no block before it spends. -/
def SpendsFromCarriers (chain : List IndexedBlock) : Prop :=
  ∀ before block after, chain = before ++ block :: after →
    ∀ outpoint ∈ spentOutpoints [block], ∀ tx ∈ txsOf before, tx.txid = outpoint.prevTxid →
      ledger.carries (spentOutpoints before) tx = true

/-- How many times the blocks spend from an earlier transaction that carries nothing. -/
def strandedTotal (before : List IndexedBlock) : List IndexedBlock → Nat
  | [] => 0
  | block :: rest => (strandedBy before block).length + strandedTotal (before ++ [block]) rest

theorem strandedTotal_snoc (before rest : List IndexedBlock) (block : IndexedBlock) :
    strandedTotal before (rest ++ [block]) =
      strandedTotal before rest + (strandedBy (before ++ rest) block).length := by
  induction rest generalizing before with
  | nil => simp [strandedTotal]
  | cons head rest ih =>
    rw [cons_append, strandedTotal, strandedTotal, ih, add_assoc, append_assoc]
    rfl

theorem strandedTotal_eq_zero {before rest : List IndexedBlock} : strandedTotal before rest = 0 ↔
      ∀ front block after, rest = front ++ block :: after →
        strandedBy (before ++ front) block = [] := by
  induction rest generalizing before with
  | nil => simp [strandedTotal]
  | cons head rest ih =>
    rw [strandedTotal, Nat.add_eq_zero_iff, length_eq_zero_iff, ih]
    constructor
    · rintro ⟨here, later⟩ front block after split
      cases front with
      | nil =>
        cases split
        rw [append_nil]
        exact here
      | cons first front =>
        cases split
        have next := later front block after rfl
        rwa [append_assoc] at next
    · intro all
      refine ⟨?_, fun front block after split => ?_⟩
      · have first := all [] head rest rfl
        rwa [append_nil] at first
      · rw [append_assoc]
        exact all (head :: front) block after (by rw [split]; rfl)

theorem strandedBy_eq_nil {hashes : Hashes} {before : List IndexedBlock} {block : IndexedBlock}
    (valid : ValidChain hashes (before ++ [block])) : strandedBy before block = [] ↔
      ∀ outpoint ∈ spentOutpoints [block], ∀ tx ∈ txsOf before, tx.txid = outpoint.prevTxid →
        ledger.carries (spentOutpoints before) tx = true := by
  have follows := valid.follows
  rw [txsOf_singleton] at follows
  rw [strandedBy, Ledger.stranded, filter_eq_nil_iff]
  constructor
  · intro none_stranded outpoint spent tx member named
    have touched : tx.txid ∈ ledger.touched block.transactions := by
      rw [spentOutpoints, txsOf_singleton] at spent
      exact Ledger.mem_touched.mpr ⟨⟨outpoint, spent, named.symm⟩, follows.not_in_rest member⟩
    by_contra bare
    apply none_stranded tx.txid touched
    rw [decide_eq_true_eq]
    intro tx' member' same
    rw [valid.of_append.tx_unique member' member same]
    exact Bool.eq_false_iff.mpr bare
  · intro carried txid touched stranded
    rw [decide_eq_true_eq] at stranded
    obtain ⟨⟨outpoint, spent, named⟩, elsewhere⟩ := Ledger.mem_touched.mp touched
    have spent_here : outpoint ∈ spentOutpoints [block] := by
      rw [spentOutpoints, txsOf_singleton]
      exact spent
    obtain ⟨tx, member, is_named, _⟩ := exists_spent_output valid spent_here
    have is_txid : tx.txid = txid := is_named.trans named
    have earlier := mem_txsOf_before member (is_txid ▸ elsewhere)
    have carries := carried outpoint spent_here tx earlier is_named
    rw [show ledger.carries (spentOutpoints before) tx = false from stranded tx earlier is_txid]
      at carries
    cases carries

theorem spendsFromCarriers_iff {hashes : Hashes} {chain : List IndexedBlock}
    (valid : ValidChain hashes chain) : SpendsFromCarriers chain ↔ strandedTotal [] chain = 0 := by
  have prefixes : ∀ before block after, chain = before ++ block :: after →
      ValidChain hashes (before ++ [block]) := by
    rintro before block after rfl
    rw [← singleton_append, ← append_assoc] at valid
    exact valid.of_append
  rw [strandedTotal_eq_zero]
  constructor
  · intro carried before block after split
    exact (strandedBy_eq_nil (prefixes before block after split)).mpr
      (carried before block after split)
  · intro none_stranded before block after split
    exact (strandedBy_eq_nil (prefixes before block after split)).mp
      (none_stranded before block after split)

/-! ## Writing block by block -/

/-- The stored summary, or the empty one. -/
def DbV1.summary (db : DbV1) : TxOutSetAccumulator :=
  db.txOutSetInfoAccumulator.getD TxOutSetAccumulator.empty

/-- A store that holds a chain written block by block: its summary is the chain's, up to the
transactions that were counted out without being in. -/
structure Maintained (hashes : Hashes) (blocks : List IndexedBlock) (db : DbV1) : Prop where
  rows : db.rows = rowsOf blocks
  stored : db.txOutSetInfoAccumulator = if blocks = [] then none else some db.summary
  built : db.txOutSetAccumulatorBuiltHeight =
    if blocks = [] then none else some (blocks.length - 1)
  fits : db.summary.Fits
  drift : db.summary + carrying (strandedTotal [] blocks) = txOutSet hashes blocks

theorem maintained_empty (hashes : Hashes) : Maintained hashes [] empty where
  rows := rfl
  stored := rfl
  built := rfl
  fits := TxOutSetAccumulator.fits_zero
  drift := rfl

section Write

variable {hashes : Hashes} {blocks : List IndexedBlock} {block : IndexedBlock} {db db' : DbV1}

variable (maintained : Maintained hashes blocks db) (valid : ValidChain hashes (blocks ++ [block]))

include maintained valid

theorem Maintained.accumulatorBefore_eq : accumulatorBefore db block.height = .ok db.summary := by
  unfold accumulatorBefore
  rw [maintained.stored]
  by_cases empty : blocks = []
  · subst empty
    have no_tip : db.rows.tipHeight = none := by
      rw [maintained.rows, tipHeight_rowsOf valid.of_append, if_pos rfl]
    have unsummarised : db.summary = TxOutSetAccumulator.empty := by
      rw [DbV1.summary, maintained.stored, if_pos rfl, Option.getD_none]
    rw [if_pos rfl, unsummarised]
    exact if_pos ⟨no_tip, valid.height_next⟩
  · rw [if_neg empty]

/-- A block is accepted on top of a maintained store exactly when what it gains fits and what it
loses is covered. -/
theorem Maintained.writeBlock_eq_ok (visits : Visits) :
    writeBlock hashes visits .none db block = (db', .ok ()) ↔
      (db.summary + gained hashes blocks block).Fits ∧
        ∃ acc, acc + lost hashes blocks block = db.summary + gained hashes blocks block ∧
          db' = ⟨rowsOf (blocks ++ [block]), some acc, some blocks.length⟩ := by
  rw [Zaino.ChainStore.writeBlock_eq_ok valid visits maintained.rows]
  simp only [calculateAfterBlock_eq_ok valid visits maintained.rows
    (maintained.accumulatorBefore_eq valid) maintained.fits]
  constructor
  · rintro ⟨acc, ⟨all_fit, moved⟩, is_next⟩
    exact ⟨all_fit, acc, moved, is_next⟩
  · rintro ⟨all_fit, acc, moved, is_next⟩
    exact ⟨acc, ⟨all_fit, moved⟩, is_next⟩

/-- A written block keeps the store maintained. -/
theorem Maintained.step (visits : Visits)
    (written : writeBlock hashes visits .none db block = (db', .ok ())) :
    Maintained hashes (blocks ++ [block]) db' := by
  obtain ⟨all_fit, acc, moved, rfl⟩ := (maintained.writeBlock_eq_ok valid visits).mp written
  rw [← moved] at all_fit
  have nonempty : blocks ++ [block] ≠ [] := by simp
  refine ⟨rfl, (if_neg nonempty).symm, ?_, all_fit.of_add, ?_⟩
  · simp
  · rw [strandedTotal_snoc, nil_append]
    exact drift_of_calculateAfterBlock valid maintained.drift moved

omit maintained valid

theorem writeNext_eq_ok {visits : Nat → Visits} : writeNext hashes visits db block = .ok db' ↔
      writeBlock hashes (visits block.height) .none db block = (db', .ok ()) := by
  unfold writeNext
  split
  · next next is_written =>
    rw [is_written]
    simp
  · next is_written =>
    rw [is_written]
    simp

theorem writeAll_cons (visits : Nat → Visits) {rest : List IndexedBlock} {last : DbV1}
    (written : writeBlock hashes (visits block.height) .none db block = (db', .ok ()))
    (later : writeAll hashes visits db' rest = .ok last) :
    writeAll hashes visits db (block :: rest) = .ok last := by
  rw [writeAll, foldlM_cons, writeNext_eq_ok.mpr written, ok_bind]
  exact later

/-- Writing a chain block by block keeps the store maintained. -/
theorem Maintained.run {visits : Nat → Visits} {rest : List IndexedBlock}
    (maintained : Maintained hashes blocks db) (valid : ValidChain hashes (blocks ++ rest))
    (written : writeAll hashes visits db rest = .ok db') :
    Maintained hashes (blocks ++ rest) db' := by
  induction rest generalizing blocks db with
  | nil =>
    obtain rfl := Except.ok.inj written
    rwa [append_nil]
  | cons block rest ih =>
    rw [writeAll, foldlM_cons, bind_eq_ok] at written
    obtain ⟨next, first, later⟩ := written
    rw [← singleton_append, ← append_assoc] at valid ⊢
    exact ih (maintained.step valid.of_append _ (writeNext_eq_ok.mp first)) valid later

end Write

/-! ## What the counters have to hold -/

/-- The outputs of the first block fit the counters, and on top of what is left of them everything
that the later blocks create. -/
def VolumeFits (hashes : Hashes) : List IndexedBlock → Prop
  | [] => True
  | genesis :: rest =>
    (entrySum hashes (createdOutputs [genesis])).Fits ∧
      (txOutSet hashes [genesis] + entrySum hashes (createdOutputs rest)).Fits

/-- Smaller in every total but the transaction count. -/
structure OutputsWithin (part whole : TxOutSetAccumulator) : Prop where
  transactionOutputs : part.transactionOutputs ≤ whole.transactionOutputs
  bytesSerialized : part.bytesSerialized ≤ whole.bytesSerialized
  totalZatoshis : part.totalZatoshis ≤ whole.totalZatoshis

theorem OutputsWithin.fits {part whole : TxOutSetAccumulator} (within : OutputsWithin part whole)
    (fits : whole.Fits) (fewer : part.transactions ≤ part.transactionOutputs) : part.Fits where
  transactions := lt_of_le_of_lt (le_trans fewer within.transactionOutputs)
    fits.transactionOutputs
  transactionOutputs := lt_of_le_of_lt within.transactionOutputs fits.transactionOutputs
  bytesSerialized := lt_of_le_of_lt within.bytesSerialized fits.bytesSerialized
  totalZatoshis := lt_of_le_of_lt within.totalZatoshis fits.totalZatoshis

theorem OutputsWithin.add_right {part whole : TxOutSetAccumulator} (within : OutputsWithin part whole)
    (more : TxOutSetAccumulator) : OutputsWithin (part + more) (whole + more) where
  transactionOutputs := Nat.add_le_add_right within.transactionOutputs _
  bytesSerialized := Nat.add_le_add_right within.bytesSerialized _
  totalZatoshis := Nat.add_le_add_right within.totalZatoshis _

theorem OutputsWithin.trans {a b c : TxOutSetAccumulator} (first : OutputsWithin a b)
    (second : OutputsWithin b c) : OutputsWithin a c where
  transactionOutputs := le_trans first.transactionOutputs second.transactionOutputs
  bytesSerialized := le_trans first.bytesSerialized second.bytesSerialized
  totalZatoshis := le_trans first.totalZatoshis second.totalZatoshis

theorem outputsWithin_add (part more : TxOutSetAccumulator) : OutputsWithin part (part + more) where
  transactionOutputs := le_add_right _ _
  bytesSerialized := le_add_right _ _
  totalZatoshis := le_add_right _ _

theorem outputsWithin_append {hashes : Hashes} {first range : List IndexedBlock}
    (valid : ValidChain hashes (first ++ range)) : OutputsWithin (txOutSet hashes (first ++ range))
      (txOutSet hashes first + entrySum hashes (createdOutputs range)) :=
  ⟨(txOutSet_append_le valid).1, (txOutSet_append_le valid).2.1, (txOutSet_append_le valid).2.2⟩

theorem enteredBy_le (before : List IndexedBlock) (block : IndexedBlock) :
    enteredBy before [block] ≤ (createdOutputs [block]).length :=
  le_trans (ledger.countP_carries_le (spentOutpoints (before ++ [block])) (txsOf [block]))
    (length_filter_le _ _)

section Volume

variable {hashes : Hashes} {genesis : IndexedBlock} {rest : List IndexedBlock}

variable {front range later : List IndexedBlock}

variable (valid : ValidChain hashes (genesis :: rest))

include valid

/-- Whatever is left of a chain's beginning, with what a range after it creates, is within the
volume. -/
theorem outputsWithin_volume (split : rest = front ++ (range ++ later)) :
    OutputsWithin (txOutSet hashes (genesis :: front) + entrySum hashes (createdOutputs range))
      (txOutSet hashes [genesis] + entrySum hashes (createdOutputs rest)) := by
  subst split
  have front_valid : ValidChain hashes ([genesis] ++ front) := by
    exact valid.of_append
  have grown := (outputsWithin_append front_valid).add_right (entrySum hashes (createdOutputs range))
  refine grown.trans ?_
  rw [createdOutputs_append, createdOutputs_append, entrySum_append, entrySum_append, ← add_assoc,
    ← add_assoc]
  exact outputsWithin_add _ _

variable (volume : VolumeFits hashes (genesis :: rest))

include volume

theorem fits_range (split : rest = front ++ (range ++ later)) :
    (txOutSet hashes (genesis :: front) + entrySum hashes (createdOutputs range)).Fits := by
  refine (outputsWithin_volume valid split).fits volume.2 ?_
  have fewer := txOutSet_transactions_le hashes (genesis :: front)
  rw [add_transactions, add_transactionOutputs,
    entrySum_transactions]
  omega

theorem fits_txOutSet (split : rest = front ++ later) : (txOutSet hashes (genesis :: front)).Fits :=
  (fits_range valid volume (show rest = front ++ ([] ++ later) from split)).of_add

/-- What a block gains fits on top of what is left of the chain before it. -/
theorem fits_gained {before after : List IndexedBlock} {block : IndexedBlock}
    (split : genesis :: rest = before ++ block :: after) :
    (txOutSet hashes before + gained hashes before block).Fits := by
  have entered := enteredBy_le before block
  have fewer := txOutSet_transactions_le hashes before
  have counts : (txOutSet hashes before + gained hashes before block).transactions ≤
      (txOutSet hashes before + gained hashes before block).transactionOutputs := by
    simp only [gained, add_transactions,
      add_transactionOutputs, entrySum_transactions,
      entrySum_transactionOutputs, carrying]
    omega
  have same_outputs : OutputsWithin (txOutSet hashes before + gained hashes before block)
      (txOutSet hashes before + entrySum hashes (createdOutputs [block])) := by
    constructor <;> simp [gained, carrying]
  cases before with
  | nil =>
    cases split
    refine same_outputs.fits ?_ counts
    rw [txOutSet_nil, zero_add]
    exact volume.1
  | cons first front =>
    cases split
    exact same_outputs.fits (fits_range valid volume rfl) counts

end Volume

/-! ## The builders succeed -/

section Success

variable {hashes : Hashes} {genesis : IndexedBlock} {rest : List IndexedBlock}

theorem Maintained.summary_eq {blocks : List IndexedBlock} {db : DbV1}
    (maintained : Maintained hashes blocks db) (none_stranded : strandedTotal [] blocks = 0) :
    db.summary = txOutSet hashes blocks := by
  have drift := maintained.drift
  rwa [none_stranded, carrying_zero, add_zero] at drift

theorem exists_writeAll (valid : ValidChain hashes (genesis :: rest))
    (volume : VolumeFits hashes (genesis :: rest))
    (none_stranded : strandedTotal [] (genesis :: rest) = 0) (visits : Nat → Visits)
    {front later : List IndexedBlock} (split : genesis :: rest = front ++ later) :
    ∃ db, writeAll hashes visits empty front = .ok db ∧ Maintained hashes front db := by
  -- From the last block: the ones before it are written, and its delta is covered.
  induction front using List.reverseRecOn generalizing later with
  | nil => exact ⟨empty, rfl, maintained_empty hashes⟩
  | append_singleton front block ih =>
    rw [append_assoc, singleton_append] at split
    obtain ⟨db, written, maintained⟩ := ih split
    have front_valid : ValidChain hashes (front ++ [block]) := by
      rw [split, ← singleton_append, ← append_assoc] at valid
      exact valid.of_append
    have stranded := strandedTotal_eq_zero.mp none_stranded
    have here : strandedBy front block = [] := stranded front block later split
    have before : strandedTotal [] front = 0 := strandedTotal_eq_zero.mpr fun a b c is_front =>
      stranded a b (c ++ block :: later) (by rw [split, is_front]; simp)
    have law := txOutSet_block front_valid
    rw [here, length_nil, carrying_zero, add_zero, ← maintained.summary_eq before] at law
    have fits := fits_gained valid volume split
    rw [← maintained.summary_eq before] at fits
    have accepted := (maintained.writeBlock_eq_ok front_valid (visits block.height)).mpr
      ⟨fits, _, law, rfl⟩
    refine ⟨_, ?_, maintained.step front_valid _ accepted⟩
    rw [writeAll] at written
    rw [writeAll, foldlM_append, written, ok_bind]
    exact writeAll_cons visits accepted rfl

theorem updateRange_eq_ok {first range : List IndexedBlock} (nonempty : first ≠ [])
    (valid : ValidChain hashes (first ++ range)) (fits : (txOutSet hashes first).Fits)
    (visits : Nat → Visits) {db : DbV1} :
    updateRange hashes visits (summarised hashes first) range = .ok db ↔
      (txOutSet hashes first + entrySum hashes (createdOutputs range)).Fits ∧
        db = summarised hashes (first ++ range) := by
  have tip : (rowsOf (first ++ range)).tipHeight = some ((first ++ range).length - 1) := by
    rw [tipHeight_rowsOf valid, if_neg (by simp [nonempty])]
  rw [updateRange, show (summarised hashes first).rows = rowsOf first from rfl,
    writeBlockBatch_rowsOf valid, ok_bind, tip]
  simp only [summarised, updateForRange, okOr, ok_bind, bind_eq_ok,
    accumulateRange_txOutSet valid nonempty (visits _) fits, persistAccumulator]
  constructor
  · rintro ⟨_, ⟨all_fit, rfl⟩, returned⟩
    exact ⟨all_fit, (Except.ok.inj returned).symm⟩
  · rintro ⟨all_fit, rfl⟩
    exact ⟨_, ⟨all_fit, rfl⟩, rfl⟩

theorem exists_updateAll (valid : ValidChain hashes (genesis :: rest))
    (volume : VolumeFits hashes (genesis :: rest)) (visits : Nat → Visits)
    {front : List IndexedBlock} {ranges : List (List IndexedBlock)}
    (split : rest = front ++ ranges.flatten) :
    updateAll hashes visits (summarised hashes (genesis :: front)) ranges =
      .ok (summarised hashes (genesis :: rest)) := by
  induction ranges generalizing front with
  | nil =>
    rw [flatten_nil, append_nil] at split
    rw [split]
    rfl
  | cons range ranges ih =>
    rw [flatten_cons] at split
    have joined : rest = (front ++ range) ++ ranges.flatten := by rw [split, append_assoc]
    have range_valid : ValidChain hashes ((genesis :: front) ++ range) := by
      rw [joined, ← cons_append] at valid
      exact valid.of_append
    have updated := (updateRange_eq_ok (cons_ne_nil genesis front) range_valid
      (fits_txOutSet valid volume split) visits).mpr ⟨fits_range valid volume split, rfl⟩
    rw [updateAll, foldlM_cons, updated, ok_bind]
    exact ih joined

end Success

/-! ## When they agree -/

section Agree

variable {hashes : Hashes} {genesis : IndexedBlock} {rest : List IndexedBlock}

theorem spendsFromCarriers_of_agree (valid : ValidChain hashes (genesis :: rest))
    (agree : BuildersAgree hashes (genesis :: rest)) : SpendsFromCarriers (genesis :: rest) := by
  obtain ⟨db, written, summary⟩ := agree.perBlock fun _ => listed
  have maintained := (maintained_empty hashes).run valid written
  have drift := maintained.drift
  rw [nil_append, DbV1.summary, summary, Option.getD_some] at drift
  rw [spendsFromCarriers_iff valid]
  exact carrying_injective (add_eq_left.mp drift)

theorem volumeFits_of_agree (valid : ValidChain hashes (genesis :: rest))
    (agree : BuildersAgree hashes (genesis :: rest)) : VolumeFits hashes (genesis :: rest) := by
  have first_valid : ValidChain hashes ([] ++ [genesis]) := by
    exact valid.of_append
  have first_fits : (entrySum hashes (createdOutputs [genesis])).Fits := by
    obtain ⟨db, written, _⟩ := agree.perBlock fun _ => listed
    rw [writeAll, foldlM_cons, bind_eq_ok] at written
    obtain ⟨next, first, _⟩ := written
    have accepted := ((maintained_empty hashes).writeBlock_eq_ok first_valid _).mp
      (writeNext_eq_ok.mp first)
    have fits := accepted.1
    rw [show empty.summary = 0 from rfl, zero_add] at fits
    exact fits.of_add
  have summary_fits : (txOutSet hashes [genesis]).Fits := by
    have within := outputsWithin_append first_valid
    rw [txOutSet_nil, zero_add] at within
    exact within.fits first_fits (txOutSet_transactions_le hashes [genesis])
  refine ⟨first_fits, ?_⟩
  obtain ⟨db, updated, _⟩ := agree.byRanges (fun _ => listed) [genesis] [rest]
    (cons_ne_nil genesis []) (by simp)
  rw [updateAll, foldlM_cons, bind_eq_ok] at updated
  obtain ⟨next, first, _⟩ := updated
  exact ((updateRange_eq_ok (cons_ne_nil genesis []) valid summary_fits _).mp first).1

/-- The three builders agree on a chain, and give its summary, exactly when its blocks spend from
transactions of the set only and its volume fits. -/
theorem buildersAgree_iff (genesis : IndexedBlock) (rest : List IndexedBlock)
    (valid : ValidChain hashes (genesis :: rest)) : BuildersAgree hashes (genesis :: rest) ↔
      SpendsFromCarriers (genesis :: rest) ∧ VolumeFits hashes (genesis :: rest) := by
  have nonempty : genesis :: rest ≠ [] := cons_ne_nil genesis rest
  constructor
  · intro agree
    exact ⟨spendsFromCarriers_of_agree valid agree, volumeFits_of_agree valid agree⟩
  · rintro ⟨carried, volume⟩
    have none_stranded := (spendsFromCarriers_iff valid).mp carried
    have fits := fits_txOutSet valid volume (append_nil rest).symm
    refine ⟨fun visits => ?_, fun visits first ranges held split => ?_,
      fun shards maxSpentEntries acc => eq_of_buildBlocking valid nonempty,
      fun shards maxSpentEntries capped =>
        ⟨_, buildBlocking_eq_ok valid nonempty fits shards capped⟩⟩
    · obtain ⟨db, written, maintained⟩ :=
        exists_writeAll valid volume none_stranded visits (append_nil (genesis :: rest)).symm
      refine ⟨db, written, ?_⟩
      rw [maintained.stored, if_neg nonempty, maintained.summary_eq none_stranded]
    · cases first with
      | nil => exact absurd rfl held
      | cons head front =>
        cases split
        exact ⟨_, exists_updateAll valid volume visits rfl, rfl⟩

end Agree

/-! ## Small chains -/

def zeroHashes : Hashes := ⟨fun _ => 0, fun _ => 0⟩

/-- An output of ten zatoshis to a key. -/
def tenToKey : TxOutCompact := ⟨10, 0, .p2pkh⟩

/-- An output that is created and spent at the next height, two outputs in its place. -/
def spendingLayout : List (List CompactTxData) :=
  [[transferTx 1 [] [tenToKey]], [transferTx 2 [⟨1, 0⟩] [⟨6, 0, .p2pkh⟩, ⟨4, 0, .p2sh⟩]]]

/-- They agree on a chain in which an output is created and spent at the next height. -/
theorem buildersAgree_spending : ValidChain zeroHashes (chainOf zeroHashes spendingLayout) ∧
      BuildersAgree zeroHashes (chainOf zeroHashes spendingLayout) := by
  have valid := valid_chainOf zeroHashes (show Resolves spendingLayout by decide)
  refine ⟨valid, (buildersAgree_iff _ _ valid).mpr ⟨?_, ?_, ?_⟩⟩
  · exact (spendsFromCarriers_iff valid).mpr (by decide)
  · constructor <;> decide
  · constructor <;> decide

/-- The first block's transaction has a single output of a non-standard script. The second block
creates an output to a key, and spends the non-standard one. -/
def strandingLayout : List (List CompactTxData) :=
  [[transferTx 1 [] [⟨5, 0, .nonStandard⟩]],
    [transferTx 2 [] [tenToKey], transferTx 3 [⟨1, 0⟩] []]]

/-- The unspendable output's transaction never was in the set and is counted out of it: written block
by block, a chain with one unspent output is summarised as having no transaction with one. -/
theorem builders_disagree_stranding : ValidChain zeroHashes (chainOf zeroHashes strandingLayout) ∧
      txOutSet zeroHashes (chainOf zeroHashes strandingLayout) = ⟨1, 1, 65, 0, 10⟩ ∧
      (∃ db, writeAll zeroHashes (fun _ => Visits.listed) DbV1.empty
          (chainOf zeroHashes strandingLayout) = .ok db ∧
        db.txOutSetInfoAccumulator = some ⟨0, 1, 65, 0, 10⟩) ∧
      ¬ BuildersAgree zeroHashes (chainOf zeroHashes strandingLayout) := by
  have valid := valid_chainOf zeroHashes (show Resolves strandingLayout by decide)
  refine ⟨valid, by decide, ?_, fun agree => ?_⟩
  · let first := blockAt zeroHashes 0 [transferTx 1 [] [⟨5, 0, .nonStandard⟩]]
    let second := blockAt zeroHashes 1 [transferTx 2 [] [tenToKey], transferTx 3 [⟨1, 0⟩] []]
    have both_valid : ValidChain zeroHashes ([first] ++ [second]) := valid
    have first_valid : ValidChain zeroHashes ([] ++ [first]) := both_valid.of_append
    have first_written := ((maintained_empty zeroHashes).writeBlock_eq_ok first_valid
      Visits.listed).mpr ⟨by constructor <;> decide, 0, by decide, rfl⟩
    have maintained := (maintained_empty zeroHashes).step first_valid _ first_written
    have second_written := (maintained.writeBlock_eq_ok both_valid Visits.listed).mpr
      ⟨by constructor <;> decide, ⟨0, 1, 65, 0, 10⟩, by decide, rfl⟩
    exact ⟨⟨rowsOf ([first] ++ [second]), some ⟨0, 1, 65, 0, 10⟩, some [first].length⟩,
      writeAll_cons (fun _ => Visits.listed) first_written
        (writeAll_cons (fun _ => Visits.listed) second_written rfl), rfl⟩
  · have carried := (spendsFromCarriers_iff valid).mp (spendsFromCarriers_of_agree valid agree)
    exact absurd carried (by decide)

end Zaino.ChainStore
