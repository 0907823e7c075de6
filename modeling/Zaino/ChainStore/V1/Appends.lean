import Zaino.ChainStore.V1.Represents

/-!
# Appending a block to the rows and taking it off again

A block that may follow the stored chain passes every check of the write paths, its puts meet no
key that is held, and the rows become those of the longer chain, whether it is put alone
(`putBlock_rowsOf`) or in a batch (`writeBlockBatch_rowsOf`). Read back, the tip block differs from
the one that was written at most in shielded data without a spend or an output
(`readChainBlock_rowsOf`), and deleting it leaves the rows of the shorter chain
(`withoutBlock_rowsOf`).
-/

namespace Zaino.ChainStore

open Library List IndexedBlock OrderedMap

/-! ## Puts under new keys -/

section Puts

variable {κ β : Type} [Ord κ] [Std.TransOrd κ]

/-- A put that is accepted under every key that is not held. -/
def PutsAbsent (put : OrderedMap κ β → κ → β → Except StoreError (OrderedMap κ β)) : Prop :=
  ∀ m key value, m[key]? = none → put m key value = .ok (m.insert key value)

theorem putsAbsent_putNew : PutsAbsent (putNew : OrderedMap κ β → κ → β → _) := by
  intro m key value absent
  rw [putNew, Std.ExtTreeMap.contains_eq_isSome_getElem?, absent]
  rfl

theorem putsAbsent_putIdempotent [DecidableEq β] :
    PutsAbsent (putIdempotent : OrderedMap κ β → κ → β → _) := by
  intro m key value absent
  rw [putIdempotent, absent]

theorem putAll_of_absent [Std.LawfulEqOrd κ] [DecidableEq κ]
    {put : OrderedMap κ β → κ → β → Except StoreError (OrderedMap κ β)} (accepts : PutsAbsent put)
    {m : OrderedMap κ β} {entries : List (κ × β)} (distinct : (entries.map Prod.fst).Nodup)
    (absent : ∀ entry ∈ entries, m[entry.1]? = none) :
    putAll put m entries = .ok (m.editAll (Edit.puts entries)) := by
  induction entries generalizing m with
  | nil => rfl
  | cons entry entries ih =>
    rw [map_cons, nodup_cons] at distinct
    have still_absent : ∀ later ∈ entries, (m.insert entry.1 entry.2)[later.1]? = none := by
      intro later member
      have differs : entry.1 ≠ later.1 := fun same =>
        distinct.1 (same ▸ mem_map_of_mem member)
      rw [Std.ExtTreeMap.getElem?_insert, if_neg (by simpa using differs)]
      exact absent later (mem_cons_of_mem _ member)
    rw [putAll, foldlM_cons, accepts _ _ _ (absent entry mem_cons_self), ok_bind]
    exact ih distinct.2 still_absent

omit [Std.TransOrd κ] in
theorem sortedByKey_perm (entries : List (κ × β)) : (sortedByKey entries).Perm entries :=
  mergeSort_perm _ _

end Puts

/-! ## The checks of a block -/

theorem firstRepeated_eq_none {α : Type} [DecidableEq α] {seen items : List α} :
    firstRepeated seen items = none ↔ items.Nodup ∧ seen.Disjoint items := by
  induction items generalizing seen with
  | nil => simp [firstRepeated]
  | cons x items ih =>
    rw [firstRepeated]
    by_cases held : x ∈ seen
    · simp [held]
    · rw [if_neg held, ih, nodup_cons, disjoint_cons_left, disjoint_cons_right]
      tauto

variable {block : IndexedBlock}

/-- The duplicate check is all that the pool lists of a block can fail at. -/
theorem extractBlockPoolLists_eq_ok {pools : BlockPoolLists} :
    extractBlockPoolLists block = .ok pools ↔ block.txids.Nodup ∧ pools = block.poolLists := by
  have distinct_iff := @firstRepeated_eq_none _ _ [] block.txids
  rw [extractBlockPoolLists]
  cases repeated : firstRepeated [] block.txids with
  | none =>
    rw [repeated] at distinct_iff
    simp [(distinct_iff.mp rfl).1, eq_comm]
  | some hash =>
    have repeats : ¬block.txids.Nodup := by simpa [repeated] using distinct_iff
    simp [repeats]

theorem insertSpends_eq_ok {location : TxLocation} {noted spentMap : SpentMap}
    {outpoints : List Outpoint} : insertSpends block location noted outpoints = .ok spentMap ↔
      (outpoints.Nodup ∧ (noted.map Prod.fst).Disjoint outpoints) ∧
        spentMap = noted ++ outpoints.map fun outpoint => (outpoint, location) := by
  induction outpoints generalizing noted with
  | nil => simp [insertSpends, pure, Except.pure, eq_comm]
  | cons outpoint outpoints ih =>
    rw [insertSpends, foldlM_cons]
    by_cases held : outpoint ∈ noted.map Prod.fst
    · simp [held, bind, Except.bind]
    · rw [if_neg held, ok_bind, ← insertSpends, ih, map_append, append_assoc, nodup_cons,
        disjoint_cons_right, disjoint_append_left, map_singleton, singleton_disjoint, map_cons]
      tauto

/-- The spends of a block are collected if its outpoints do not repeat and its transaction indices
are accepted. -/
theorem collectSpends_eq_ok {checksIndex : Bool} {spentMap : SpentMap} :
    collectSpends checksIndex block = .ok spentMap ↔
      (checksIndex = true → block.transactions.length ≤ 2 ^ 16) ∧
        (spentOutpoints [block]).Nodup ∧ spentMap = block.spends := by
  have indices : (∀ entry ∈ block.transactions.zipIdx, checksIndex = true → entry.2 < 2 ^ 16) ↔
      (checksIndex = true → block.transactions.length ≤ 2 ^ 16) := by
    refine ⟨fun small checks => Nat.le_of_not_lt fun large => ?_, fun counted entry member checks => ?_⟩
    · exact absurd (small (_, 2 ^ 16) (mem_zipIdx_iff_getElem?.mpr (getElem?_eq_getElem large)) checks)
        (Nat.lt_irrefl _)
    · have := (List.getElem?_eq_some_iff.mp (mem_zipIdx_iff_getElem?.mp member)).1
      exact Nat.lt_of_lt_of_le this (counted checks)
  suffices run : ∀ (entries : List (CompactTxData × Nat)) (noted : SpentMap),
      entries.foldlM (fun spentMap entry =>
        if checksIndex && decide (2 ^ 16 ≤ entry.2) then
          .error (block.invalid "transaction index \x7b\x7d does not fit into u16" [entry.2])
        else
          insertSpends block ⟨block.height, UInt16.ofNat entry.2⟩ spentMap
            entry.1.transparent.spentOutpoints) noted = .ok spentMap ↔
        (∀ entry ∈ entries, checksIndex = true → entry.2 < 2 ^ 16) ∧
          ((entries.flatMap fun entry => entry.1.transparent.spentOutpoints).Nodup ∧
            (noted.map Prod.fst).Disjoint
              (entries.flatMap fun entry => entry.1.transparent.spentOutpoints)) ∧
          spentMap = noted ++ entries.flatMap fun entry =>
            entry.1.transparent.spentOutpoints.map fun outpoint =>
              (outpoint, ⟨block.height, UInt16.ofNat entry.2⟩) by
    rw [collectSpends, run, indices, ← map_fst_spends]
    simp only [spends, map_flatMap, map_map, Function.comp_def, map_id', map_nil,
      disjoint_nil_left, and_true, nil_append]
  intro entries
  induction entries with
  | nil =>
    intro noted
    rw [foldlM_nil, flatMap_nil, flatMap_nil, append_nil]
    exact ⟨fun same => ⟨forall_mem_nil _, ⟨nodup_nil, disjoint_nil_right _⟩, (Except.ok.inj same).symm⟩,
      fun same => same.2.2 ▸ rfl⟩
  | cons entry entries ih =>
    intro noted
    rw [foldlM_cons, bind_eq_ok]
    simp only [ih]
    rw [forall_mem_cons, flatMap_cons, flatMap_cons, nodup_append', disjoint_append_right]
    by_cases refused : checksIndex = true ∧ 2 ^ 16 ≤ entry.2
    · rw [if_pos (by simpa using refused)]
      refine ⟨?_, fun small => absurd (small.1.1 refused.1) (Nat.not_lt_of_le refused.2)⟩
      rintro ⟨_, first, _⟩
      cases first
    · have small : checksIndex = true → entry.2 < 2 ^ 16 := fun checks =>
        Nat.lt_of_not_le fun large => refused ⟨checks, large⟩
      rw [if_neg (by simpa using refused)]
      simp only [insertSpends_eq_ok]
      have own : ∀ location : TxLocation, (entry.1.transparent.spentOutpoints.map fun outpoint =>
          (outpoint, location)).map Prod.fst = entry.1.transparent.spentOutpoints := by
        simp [Function.comp_def]
      constructor
      · rintro ⟨_, ⟨⟨distinct, fresh⟩, is_next⟩, later_small, ⟨later, apart⟩, is_map⟩
        rw [is_next, map_append, own, disjoint_append_left] at apart
        rw [is_next, append_assoc] at is_map
        exact ⟨⟨small, later_small⟩, ⟨⟨distinct, later, apart.2⟩, fresh, apart.1⟩, is_map⟩
      · rintro ⟨⟨_, later_small⟩, ⟨⟨distinct, later, apart⟩, fresh, fresh_later⟩, is_map⟩
        refine ⟨_, ⟨⟨distinct, fresh⟩, rfl⟩, later_small, ⟨later, ?_⟩, by rw [append_assoc, is_map]⟩
        rw [map_append, own, disjoint_append_left]
        exact ⟨fresh_later, apart⟩

theorem dedupPairs_eq_self {pairs : TransparentPairs} (distinct : (pairs.map Prod.fst).Nodup) :
    dedupPairs pairs = pairs := by
  suffices run : ∀ (later kept : TransparentPairs), ((kept ++ later).map Prod.fst).Nodup →
      later.foldl (fun kept pair =>
        if pair.1 ∈ kept.map Prod.fst then kept else kept ++ [pair]) kept = kept ++ later from
    run pairs [] distinct
  intro later
  induction later with
  | nil => intro kept _; simp
  | cons pair later ih =>
    intro kept distinct
    have fresh : pair.1 ∉ kept.map Prod.fst := by
      rw [map_append, nodup_append'] at distinct
      exact fun member => distinct.2.2 member mem_cons_self
    rw [foldl_cons, if_neg fresh, ih _ (by simpa using distinct), append_assoc]
    rfl

/-! ## One more block -/

section Append

variable {hashes : Hashes} {blocks batch : List IndexedBlock} {block : IndexedBlock}

variable (valid : ValidChain hashes (blocks ++ [block]))

include valid

theorem ValidChain.height_next : block.height = blocks.length :=
  valid.heights blocks.length block (by simp)

theorem ValidChain.nodup_txids : block.txids.Nodup := by
  have distinct := valid.txids
  rw [txsOf_append, txsOf_singleton, map_append] at distinct
  exact (nodup_append'.mp distinct).2.1

theorem ValidChain.nodup_spends : (spentOutpoints [block]).Nodup := by
  have distinct := valid.spends
  rw [spentOutpoints_append] at distinct
  exact (nodup_append'.mp distinct).2.1

omit valid

theorem ValidChain.mem_last (_ : ValidChain hashes (blocks ++ [block])) :
    block ∈ blocks ++ [block] :=
  mem_append_right _ (mem_singleton_self block)

theorem map_fst_pairs (block : IndexedBlock) : block.pairs.map Prod.fst = block.txids := by
  rw [pairs, txids, map_map]
  rfl

include valid

theorem extractBlockPoolLists_of_valid : extractBlockPoolLists block = .ok block.poolLists :=
  extractBlockPoolLists_eq_ok.mpr ⟨valid.nodup_txids, rfl⟩

theorem collectSpends_of_valid
    (checksIndex : Bool) : collectSpends checksIndex block = .ok block.spends :=
  collectSpends_eq_ok.mpr ⟨fun _ => valid.txCounts block valid.mem_last, valid.nodup_spends, rfl⟩

theorem verifyHeaderMerkleRoot_eq_ok : verifyHeaderMerkleRoot hashes block = .ok () := by
  rw [verifyHeaderMerkleRoot, if_pos (valid.merkleRoots block valid.mem_last)]

theorem blockAlreadyExists_eq_ok : blockAlreadyExists (rowsOf blocks) block = .ok false := by
  have height := valid.height_next
  have absent : (rowsOf blocks).headers[block.height]? = none := by
    change (byHeight headerData blocks)[block.height]? = none
    rw [getElem?_byHeight valid.of_append, height, getElem?_eq_none (Nat.le_refl _)]
    rfl
  rw [blockAlreadyExists, absent]
  rw [tipHeight_rowsOf valid.of_append]
  by_cases none : blocks = []
  · subst none
    exact if_pos height
  · have nonempty : 0 < blocks.length := length_pos_iff.mpr none
    have bound : blocks.length - 1 < blocks.length := by omega
    have tip : (rowsOf blocks).headers[blocks.length - 1]? =
        some (blocks[blocks.length - 1].headerData) := by
      change (byHeight headerData blocks)[blocks.length - 1]? = _
      rw [getElem?_byHeight valid.of_append, getElem?_eq_getElem bound]
      rfl
    have linked := valid.linked (blocks.length - 1) blocks[blocks.length - 1] block
      (by rw [getElem?_append_left bound, getElem?_eq_getElem bound])
      (by rw [Nat.sub_add_cancel nonempty]; simp)
    rw [if_neg none]
    dsimp only
    rw [if_neg (by omega), tip]
    dsimp only
    rw [if_neg]
    rw [linked]
    exact not_not.mpr rfl

omit valid

/-! ### The rows of the longer chain -/

variable {β : Type} (row : IndexedBlock → β)

theorem byHeight_append (blocks : List IndexedBlock) (block : IndexedBlock) :
    byHeight row (blocks ++ [block]) = (byHeight row blocks).insert block.height (row block) := by
  rw [byHeight, map_append, ofEntries_append]
  rfl

include valid

theorem byHeight_absent : (byHeight row blocks)[block.height]? = none := by
  rw [getElem?_byHeight valid.of_append, valid.height_next, getElem?_eq_none (Nat.le_refl _)]
  rfl

theorem ironwood_absent : (rowsOf blocks).ironwood[block.height]? = none := by
  apply getElem?_ofEntries_eq_none
  intro member
  obtain ⟨entry, in_entries, same⟩ := List.mem_map.mp member
  obtain ⟨other, held, is_entry⟩ := mem_filterMap.mp in_entries
  obtain ⟨row, _, rfl⟩ := Option.map_eq_some_iff.mp is_entry
  obtain ⟨i, found⟩ := mem_iff_getElem?.mp held
  have inside := (List.getElem?_eq_some_iff.mp found).1
  have height := valid.of_append.heights i other found
  have next := valid.height_next
  omega

theorem heights_absent : (rowsOf blocks).heights[hashBytes block.hash]? = none := by
  apply getElem?_ofEntries_eq_none
  intro member
  obtain ⟨entry, in_entries, same⟩ := mem_map.mp member
  obtain ⟨other, held, rfl⟩ := mem_map.mp in_entries
  have distinct := valid.blockHashes
  rw [map_append, nodup_append'] at distinct
  apply distinct.2.2 (mem_map_of_mem held)
  rw [hashBytes_injective same]
  exact mem_singleton_self _

omit valid

/-! A scattered index holds the entries of every block, all under different keys. -/

section Scattered

variable {entriesOf : IndexedBlock → List (RawKey × TxLocation)}

theorem scattered_absent (distinct : (((blocks ++ batch).flatMap entriesOf).map Prod.fst).Nodup)
    {key : RawKey} (member : key ∈ (batch.flatMap entriesOf).map Prod.fst) :
    (ofEntries (blocks.flatMap entriesOf))[key]? = none := by
  apply getElem?_ofEntries_eq_none
  rw [flatMap_append, map_append, nodup_append'] at distinct
  exact fun before => distinct.2.2 before member

/-- The entries of some more blocks, put in any order. -/
theorem putAll_scattered {put : OrderedMap RawKey TxLocation → RawKey → TxLocation →
      Except StoreError (OrderedMap RawKey TxLocation)} (accepts : PutsAbsent put)
    (distinct : (((blocks ++ batch).flatMap entriesOf).map Prod.fst).Nodup)
    {entries : List (RawKey × TxLocation)} (listed : entries.Perm (batch.flatMap entriesOf)) :
    putAll put (ofEntries (blocks.flatMap entriesOf)) entries =
      .ok (ofEntries ((blocks ++ batch).flatMap entriesOf)) := by
  have absent : ∀ entry ∈ entries,
      (ofEntries (blocks.flatMap entriesOf))[entry.1]? = none := fun entry member =>
    scattered_absent distinct (mem_map_of_mem (listed.mem_iff.mp member))
  rw [flatMap_append, map_append, nodup_append'] at distinct
  have entries_distinct := (listed.map Prod.fst).nodup_iff.mpr distinct.2.1
  rw [putAll_of_absent accepts entries_distinct absent,
    editAll_puts_perm _ entries_distinct listed, flatMap_append,
    ofEntries_append]

/-- Deleting the entries of the last block. -/
theorem delete_scattered (distinct : (((blocks ++ [block]).flatMap entriesOf).map Prod.fst).Nodup)
    {keys : List RawKey} (same : keys = (entriesOf block).map Prod.fst) :
    (ofEntries ((blocks ++ [block]).flatMap entriesOf)).editAll (Edit.deletes keys) =
      ofEntries (blocks.flatMap entriesOf) := by
  have absent : ∀ key ∈ keys, (ofEntries (blocks.flatMap entriesOf))[key]? = none :=
    fun key member => scattered_absent distinct (by rwa [flatMap_singleton, ← same])
  rw [flatMap_append, flatMap_singleton, ofEntries_append]
  exact editAll_puts_deletes (fun entry member => same ▸ mem_map_of_mem member) absent

end Scattered

/-- The longer chain's ironwood rows. -/
theorem ironwood_append (blocks : List IndexedBlock) (block : IndexedBlock) :
    (rowsOf (blocks ++ [block])).ironwood = match ironwoodEntry block.poolLists.ironwood with
      | some row => (rowsOf blocks).ironwood.insert block.height row
      | none => (rowsOf blocks).ironwood := by
  change ofEntries (List.filterMap _ (blocks ++ [block])) = _
  rw [filterMap_append, ofEntries_append]
  cases entry : ironwoodEntry block.poolLists.ironwood with
  | none =>
    rw [filterMap_cons_none (by rw [entry]; rfl), filterMap_nil]
    rfl
  | some row =>
    rw [filterMap_cons_some (by rw [entry]; rfl), filterMap_nil]
    rfl

include valid

theorem putIronwood_eq_ok
    {put : OrderedMap Nat (List (Option OrchardCompactTx)) → Nat → List (Option OrchardCompactTx) →
      Except StoreError (OrderedMap Nat (List (Option OrchardCompactTx)))}
    (accepts : PutsAbsent put) :
    putIronwood put (rowsOf blocks).ironwood block.height block.poolLists.ironwood =
      .ok (rowsOf (blocks ++ [block])).ironwood := by
  rw [putIronwood, ironwood_append]
  cases ironwoodEntry block.poolLists.ironwood with
  | none => rfl
  | some row => exact accepts _ _ _ (ironwood_absent valid)

/-- One more block in a table keyed by height. -/
theorem put_byHeight {put : OrderedMap Nat β → Nat → β → Except StoreError (OrderedMap Nat β)}
    (accepts : PutsAbsent put) (row : IndexedBlock → β) :
    put (byHeight row blocks) block.height (row block) =
      .ok (byHeight row (blocks ++ [block])) := by
  rw [accepts _ _ _ (byHeight_absent valid row), byHeight_append]

theorem put_heights
    {put : OrderedMap RawKey Nat → RawKey → Nat → Except StoreError (OrderedMap RawKey Nat)}
    (accepts : PutsAbsent put) : put (rowsOf blocks).heights (hashBytes block.hash) block.height =
      .ok (rowsOf (blocks ++ [block])).heights := by
  rw [accepts _ _ _ (heights_absent valid)]
  change _ = Except.ok (ofEntries (List.map _ (blocks ++ [block])))
  rw [map_append, ofEntries_append]
  rfl

theorem putBlock_rowsOf (visits : Visits) :
    putBlock visits (rowsOf blocks) block block.spends = .ok (rowsOf (blocks ++ [block])) := by
  have rows : ∀ {β : Type} (row : IndexedBlock → β),
      putNew (byHeight row blocks) block.height (row block) =
        .ok (byHeight row (blocks ++ [block])) := fun row =>
    put_byHeight valid putsAbsent_putNew row
  have txidLocation : putAll putNew (rowsOf blocks).txidLocation (sortedByKey block.txidLocations) =
      .ok (rowsOf (blocks ++ [block])).txidLocation := by
    apply putAll_scattered putsAbsent_putNew valid.nodup_txidLocations
    rw [flatMap_singleton]
    exact sortedByKey_perm block.txidLocations
  have spent : putAll putNew (rowsOf blocks).spent
      ((visits.spentMap.order block.spends).map fun spend => (spend.1.toBytes, spend.2)) =
      .ok (rowsOf (blocks ++ [block])).spent := by
    apply putAll_scattered putsAbsent_putNew valid.nodup_spentLocations
    rw [flatMap_singleton, spentLocations_eq]
    exact (visits.spentMap.perm _).map _
  refine bind_eq_ok.mpr ⟨_, rows headerData, ?_⟩
  refine bind_eq_ok.mpr ⟨_, put_heights valid putsAbsent_putNew, ?_⟩
  refine bind_eq_ok.mpr ⟨_, rows txids, ?_⟩
  refine bind_eq_ok.mpr ⟨_, txidLocation, ?_⟩
  refine bind_eq_ok.mpr ⟨_, rows fun block => block.pairs.map Prod.snd, ?_⟩
  refine bind_eq_ok.mpr ⟨_, rows fun block => block.poolLists.sapling, ?_⟩
  refine bind_eq_ok.mpr ⟨_, rows fun block => block.poolLists.orchard, ?_⟩
  refine bind_eq_ok.mpr ⟨_, putIronwood_eq_ok valid putsAbsent_putNew, ?_⟩
  refine bind_eq_ok.mpr ⟨_, rows commitmentTreeData, ?_⟩
  exact bind_eq_ok.mpr ⟨_, spent, rfl⟩

/-! ### A batch of blocks -/

/-- The height and hash that a batch continues from. -/
def tipOf (blocks : List IndexedBlock) : Option (Nat × BlockHash) :=
  blocks.getLast?.map fun block => (block.height, block.hash)

theorem checkContinuity_eq_ok : checkContinuity (tipOf blocks) block = .ok () := by
  have height := valid.height_next
  cases last : blocks.getLast? with
  | none =>
    rw [getLast?_eq_none_iff] at last
    subst last
    exact if_neg (not_not.mpr height)
  | some tip =>
    obtain ⟨front, rfl⟩ := getLast?_eq_some_iff.mp last
    have tip_height := valid.of_append.height_next
    have linked := valid.linked front.length tip block (by simp) (by simp)
    simp only [tipOf, last, Option.map_some, checkContinuity]
    rw [if_neg (by simp [height, tip_height]), if_neg (not_not.mpr linked)]

omit valid

theorem previous_rowsOf (valid : ValidChain hashes blocks) :
    ((rowsOf blocks).tipHeight.bind fun tip =>
      (rowsOf blocks).headers[tip]?.map fun header => (tip, header.context.hash)) =
      tipOf blocks := by
  rw [tipHeight_rowsOf valid, tipOf]
  cases last : blocks.getLast? with
  | none =>
    rw [getLast?_eq_none_iff] at last
    rw [if_pos last]
    rfl
  | some tip =>
    obtain ⟨front, rfl⟩ := getLast?_eq_some_iff.mp last
    have header : (rowsOf (front ++ [tip])).headers[front.length]? = some tip.headerData := by
      change (byHeight headerData (front ++ [tip]))[front.length]? = _
      rw [getElem?_byHeight valid]
      simp
    rw [if_neg (by simp), Option.bind_some, length_append, length_singleton,
      Nat.add_sub_cancel, header, Option.map_some, Option.map_some, valid.height_next]
    rfl

/-- The rows of some blocks, of which the scattered indexes know only the first ones. -/
def heightRows (indexed blocks : List IndexedBlock) : Rows :=
  { rowsOf blocks with
    txidLocation := (rowsOf indexed).txidLocation
    spent := (rowsOf indexed).spent }

theorem putBatchBlock_heightRows (indexed : List IndexedBlock)
    (valid : ValidChain hashes (blocks ++ [block])) :
    putBatchBlock hashes (heightRows indexed blocks) (tipOf blocks) block =
      .ok (heightRows indexed (blocks ++ [block])) := by
  have rows : ∀ {β : Type} [DecidableEq β] (row : IndexedBlock → β),
      putIdempotent (byHeight row blocks) block.height (row block) =
        .ok (byHeight row (blocks ++ [block])) := fun row =>
    put_byHeight valid putsAbsent_putIdempotent row
  have counted : checkTxIndices block = .ok () :=
    if_neg (Nat.not_lt.mpr (valid.txCounts block valid.mem_last))
  refine bind_eq_ok.mpr ⟨_, checkContinuity_eq_ok valid, ?_⟩
  refine bind_eq_ok.mpr ⟨_, extractBlockPoolLists_of_valid valid, ?_⟩
  refine bind_eq_ok.mpr ⟨_, counted, ?_⟩
  refine bind_eq_ok.mpr ⟨_, verifyHeaderMerkleRoot_eq_ok valid, ?_⟩
  refine bind_eq_ok.mpr ⟨_, rows headerData, ?_⟩
  refine bind_eq_ok.mpr ⟨_, put_heights valid putsAbsent_putIdempotent, ?_⟩
  refine bind_eq_ok.mpr ⟨_, rows txids, ?_⟩
  refine bind_eq_ok.mpr ⟨_, rows fun block => block.pairs.map Prod.snd, ?_⟩
  refine bind_eq_ok.mpr ⟨_, rows fun block => block.poolLists.sapling, ?_⟩
  refine bind_eq_ok.mpr ⟨_, rows fun block => block.poolLists.orchard, ?_⟩
  refine bind_eq_ok.mpr ⟨_, putIronwood_eq_ok valid putsAbsent_putIdempotent, ?_⟩
  exact bind_eq_ok.mpr ⟨_, rows commitmentTreeData, rfl⟩

theorem putBatchBlocks_heightRows (indexed : List IndexedBlock)
    (valid : ValidChain hashes (blocks ++ batch)) :
    putBatchBlocks hashes (heightRows indexed blocks) (tipOf blocks) batch =
      .ok (heightRows indexed (blocks ++ batch)) := by
  induction batch generalizing blocks with
  | nil => rw [putBatchBlocks, append_nil]
  | cons block batch ih =>
    have split : blocks ++ block :: batch = (blocks ++ [block]) ++ batch := by simp
    rw [split] at valid ⊢
    rw [putBatchBlocks, putBatchBlock_heightRows indexed valid.of_append, ok_bind]
    have rest := ih valid
    rw [tipOf, getLast?_concat, Option.map_some] at rest
    exact rest

theorem writeBlockBatch_rowsOf (valid : ValidChain hashes (blocks ++ batch)) :
    writeBlockBatch hashes (rowsOf blocks) batch = .ok (rowsOf (blocks ++ batch)) := by
  rw [writeBlockBatch, previous_rowsOf valid.of_append]
  have rows : putBatchBlocks hashes (rowsOf blocks) (tipOf blocks) batch =
      .ok (heightRows blocks (blocks ++ batch)) := putBatchBlocks_heightRows blocks valid
  have spent : putAll putIdempotent (heightRows blocks (blocks ++ batch)).spent
      (sortedByKey (batch.flatMap spentLocations)) = _ :=
    putAll_scattered putsAbsent_putIdempotent valid.nodup_spentLocations (sortedByKey_perm _)
  have txidLocation : putAll putIdempotent (heightRows blocks (blocks ++ batch)).txidLocation
      (sortedByKey (batch.flatMap txidLocations)) = _ :=
    putAll_scattered putsAbsent_putIdempotent valid.nodup_txidLocations (sortedByKey_perm _)
  rw [rows, ok_bind, spent, ok_bind, txidLocation, ok_bind]
  rfl

/-! ### Taking a block off -/

theorem erase_insert_of_absent {κ β : Type} [Ord κ] [Std.TransOrd κ] [Std.LawfulEqOrd κ]
    {m : OrderedMap κ β} {key : κ} (value : β) (absent : m[key]? = none) :
    (m.insert key value).erase key = m := by
  apply Std.ExtTreeMap.ext_getElem?
  intro k
  rw [Std.ExtTreeMap.getElem?_erase, Std.ExtTreeMap.getElem?_insert]
  by_cases same : compare key k = .eq
  · have same_key : key = k := Std.LawfulEqOrd.compare_eq_iff_eq.mp same
    subst same_key
    rw [if_pos same, absent]
  · rw [if_neg same, if_neg same]

theorem erase_of_absent {κ β : Type} [Ord κ] [Std.TransOrd κ] [Std.LawfulEqOrd κ]
    {m : OrderedMap κ β} {key : κ} (absent : m[key]? = none) : m.erase key = m := by
  apply Std.ExtTreeMap.ext_getElem?
  intro k
  rw [Std.ExtTreeMap.getElem?_erase]
  by_cases same : compare key k = .eq
  · have same_key : key = k := Std.LawfulEqOrd.compare_eq_iff_eq.mp same
    subst same_key
    rw [if_pos same, absent]
  · rw [if_neg same]

include valid

theorem erase_byHeight :
    (byHeight row (blocks ++ [block])).erase block.height = byHeight row blocks := by
  rw [byHeight_append, erase_insert_of_absent _ (byHeight_absent valid row)]

theorem withoutBlock_rowsOf :
    (rowsOf (blocks ++ [block])).withoutBlock block block.spends = rowsOf blocks := by
  ext1
  · exact erase_byHeight valid _
  · exact erase_byHeight valid _
  · exact erase_byHeight valid _
  · exact erase_byHeight valid _
  · exact erase_byHeight valid _
  · change (rowsOf (blocks ++ [block])).ironwood.erase block.height = _
    rw [ironwood_append]
    cases ironwoodEntry block.poolLists.ironwood with
    | none => exact erase_of_absent (ironwood_absent valid)
    | some row => exact erase_insert_of_absent row (ironwood_absent valid)
  · exact erase_byHeight valid _
  · change (ofEntries (List.map _ (blocks ++ [block]))).erase (hashBytes block.hash) = _
    rw [map_append, ofEntries_append]
    exact erase_insert_of_absent _ (heights_absent valid)
  · refine delete_scattered valid.nodup_txidLocations ?_
    have keys := map_fst_txidLocations [block]
    rw [flatMap_singleton, txsOf_singleton] at keys
    exact keys.symm
  · refine delete_scattered valid.nodup_spentLocations ?_
    rw [spentLocations_eq, map_map]
    rfl

omit valid

/-! ### Reading the tip block back -/

/-- A block as it is read back: shielded data without a spend or an output is not stored. -/
def IndexedBlock.asStored (block : IndexedBlock) : IndexedBlock :=
  { block with
    transactions := block.transactions.map fun tx =>
      { tx with
        sapling := (saplingData tx.sapling).getD ⟨none, [], []⟩
        orchard := (orchardData tx.orchard).getD ⟨none, []⟩
        ironwood := (orchardData tx.ironwood).getD ⟨none, []⟩ } }

theorem transparentData_getD (tx : TransparentCompactTx) :
    (transparentData tx).getD ⟨[], []⟩ = tx := by
  unfold transparentData
  split
  · next none =>
    cases tx
    simp_all
  · rfl

theorem pairs_asStored (block : IndexedBlock) : block.asStored.pairs = block.pairs := by
  rw [pairs, asStored, map_map]
  rfl

theorem txids_asStored (block : IndexedBlock) : block.asStored.txids = block.txids := by
  rw [txids, asStored, map_map]
  rfl

theorem spends_asStored (block : IndexedBlock) : block.asStored.spends = block.spends := by
  rw [spends, asStored, zipIdx_map, flatMap_map]
  rfl

/-- The ironwood data of a transaction, from the row when there is one. -/
theorem ironwood_join (block : IndexedBlock) (i : Nat) :
    ((ironwoodEntry block.poolLists.ironwood).getD [])[i]?.join =
      block.poolLists.ironwood[i]?.join := by
  unfold ironwoodEntry
  split
  · rfl
  · next empty =>
    cases found : block.poolLists.ironwood[i]? with
    | none => rfl
    | some entry =>
      have no_entry : entry.isSome = false := by
        simp only [Bool.not_eq_true, any_eq_false] at empty
        simpa using empty entry (mem_of_getElem? found)
      rw [Option.isSome_eq_false_iff, Option.isNone_iff_eq_none] at no_entry
      rw [no_entry]
      rfl

include valid

theorem ironwood_last : (rowsOf (blocks ++ [block])).ironwood[block.height]? =
      ironwoodEntry block.poolLists.ironwood := by
  rw [ironwood_append]
  cases ironwoodEntry block.poolLists.ironwood with
  | none => exact ironwood_absent valid
  | some row => simp

theorem byHeight_last : (byHeight row (blocks ++ [block]))[block.height]? = some (row block) := by
  rw [getElem?_byHeight valid, valid.height_next]
  simp

theorem readChainBlock_rowsOf :
    (rowsOf (blocks ++ [block])).readChainBlock block.height = .ok block.asStored := by
  have lengths : (block.pairs.map Prod.snd).length = block.txids.length ∧
      block.poolLists.sapling.length = block.txids.length ∧
      block.poolLists.orchard.length = block.txids.length := by
    simp [pairs, txids, poolLists]
  have ironwood_length : ∀ row, ironwoodEntry block.poolLists.ironwood = some row →
      row.length = block.txids.length := by
    intro row entry
    unfold ironwoodEntry at entry
    split at entry
    · cases entry
      simp [txids, poolLists]
    · cases entry
  have matched : (!((ironwoodEntry block.poolLists.ironwood).getD []).isEmpty &&
      ((ironwoodEntry block.poolLists.ironwood).getD []).length != block.txids.length) = false := by
    cases entry : ironwoodEntry block.poolLists.ironwood with
    | none => rfl
    | some row => simp [ironwood_length row entry]
  have transactions : (block.txids.mapIdx fun i txid =>
      Rows.storedTx txid (block.pairs.map Prod.snd)[i]?.join block.poolLists.sapling[i]?.join
        block.poolLists.orchard[i]?.join
        ((ironwoodEntry block.poolLists.ironwood).getD [])[i]?.join) =
      block.asStored.transactions := by
    apply ext_getElem?
    intro i
    rw [getElem?_mapIdx, ironwood_join]
    simp only [txids, pairs, poolLists, getElem?_map,
      asStored]
    cases block.transactions[i]? with
    | none => rfl
    | some tx => simp [Rows.storedTx, transparentData_getD]
  have missing : ∀ {β : Type} (row : IndexedBlock → β) (e : StoreError),
      okOr (byHeight row (blocks ++ [block]))[block.height]? e = .ok (row block) := by
    intro β row e
    rw [byHeight_last valid row]
    rfl
  simp only [Rows.readChainBlock]
  rw [show okOr (rowsOf (blocks ++ [block])).headers[block.height]? _ = _ from missing _ _, ok_bind,
    show okOr (rowsOf (blocks ++ [block])).txids[block.height]? _ = _ from missing _ _, ok_bind,
    show okOr (rowsOf (blocks ++ [block])).transparent[block.height]? _ = _ from missing _ _,
    ok_bind,
    show okOr (rowsOf (blocks ++ [block])).sapling[block.height]? _ = _ from missing _ _, ok_bind,
    show okOr (rowsOf (blocks ++ [block])).orchard[block.height]? _ = _ from missing _ _, ok_bind,
    ironwood_last valid, matched, lengths.1, lengths.2.1, lengths.2.2]
  simp only [bne_self_eq_false, Bool.or_self, Bool.false_eq_true, if_false]
  rw [show okOr (rowsOf (blocks ++ [block])).commitmentTreeData[block.height]? _ = _ from
    missing _ _, ok_bind, transactions]
  rfl

end Append

end Zaino.ChainStore
