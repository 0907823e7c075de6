import Zaino.ChainStore.V1.RangeUpdate

/-!
# The sharded rebuild

What `buildBlocking` computes on the rows of a valid chain. The summary is a sum over the chain's
transactions of what each contributes (`txPart`), so that the part of a shard of the hash space is
the sum over the transactions in it and the parts of adjacent shards add up (`shardPart_add`).
A shard's scan computes its part: the keys of the spent index are sorted by the hash's first byte
right after their common tag, so that the walk from the shard's lower bound up to the first key
beyond it meets every spend of the shard's outputs (`accumulateShardBlocking_eq`).
-/

namespace Zaino.ChainStore

open Library List TxOutSetAccumulator

/-! ## Keys of the spent index -/

theorem firstByte_lt (txid : TransactionHash) : firstByte txid < 256 := by
  have fits : txid.toNat < 256 ^ 31 * 256 := Nat.lt_of_lt_of_eq txid.isLt rfl
  exact Nat.div_lt_of_lt_mul fits

/-- The second byte of a key is the first of the hash. -/
theorem toBytes_eq_cons (outpoint : Outpoint) :
    outpoint.toBytes = 1 :: UInt8.ofNat (firstByte outpoint.prevTxid) ::
      (bigEndian 31 outpoint.prevTxid.toNat ++ (bigEndian 4 outpoint.prevIndex.toNat).reverse) := rfl

theorem toNat_firstByte (txid : TransactionHash) :
    (UInt8.ofNat (firstByte txid)).toNat = firstByte txid :=
  UInt8.toNat_ofNat_of_lt' (firstByte_lt txid)

theorem firstByte_le_of_compare {a b : Outpoint} (ordered : compare a.toBytes b.toBytes = .lt) :
    firstByte a.prevTxid ≤ firstByte b.prevTxid := by
  rw [toBytes_eq_cons, toBytes_eq_cons, compare_cons, compare_cons,
    compare_byte _ _ (firstByte_lt _) (firstByte_lt _)] at ordered
  by_contra beyond
  rw [show compare (1 : UInt8) 1 = .eq from rfl,
    Nat.compare_eq_gt.mpr (Nat.lt_of_not_le beyond)] at ordered
  cases ordered

theorem eq_zero_of_mem_bigEndian_zero {width : Nat} {byte : UInt8}
    (member : byte ∈ bigEndian width 0) : byte = 0 := by
  induction width with
  | zero => exact absurd member not_mem_nil
  | succ width ih =>
    rw [bigEndian, Nat.zero_div] at member
    rcases mem_cons.mp member with rfl | later
    · rfl
    · exact ih later

/-- Nothing of the same length comes before a key of zeros. -/
theorem isLE_compare_zeros {zeros bytes : List UInt8} (all_zero : ∀ byte ∈ zeros, byte = 0)
    (shorter : zeros.length ≤ bytes.length) : (compare zeros bytes).isLE := by
  induction zeros generalizing bytes with
  | nil =>
    cases bytes with
    | nil => rfl
    | cons byte bytes => rfl
  | cons zero zeros ih =>
    cases bytes with
    | nil => exact absurd shorter (by simp)
    | cons byte bytes =>
      obtain rfl : zero = 0 := all_zero zero mem_cons_self
      have rest := ih (fun byte member => all_zero byte (mem_cons_of_mem _ member))
        (Nat.le_of_succ_le_succ shorter)
      have not_above : compare (0 : UInt8) byte ≠ .gt := by
        have as_numbers := compare_byte 0 byte.toNat (Nat.zero_lt_succ 255) byte.toNat_lt
        rw [UInt8.ofNat_toNat] at as_numbers
        rw [show (0 : UInt8) = UInt8.ofNat 0 from rfl, as_numbers, Ne, Nat.compare_eq_gt]
        exact Nat.not_lt_zero _
      rw [compare_cons]
      cases order : compare (0 : UInt8) byte with
      | lt => rfl
      | eq => exact rest
      | gt => exact absurd order not_above

/-- A shard's lower bound is not above the key of any outpoint whose hash starts in the shard. -/
theorem isLE_compare_shardLowerBound {lo : Nat} {outpoint : Outpoint}
    (within : lo ≤ firstByte outpoint.prevTxid) :
    (compare (shardLowerBound lo) outpoint.toBytes).isLE := by
  have bound := firstByte_lt outpoint.prevTxid
  have lo_fits : lo < 256 := Nat.lt_of_le_of_lt within bound
  have positive : 0 < 256 ^ 31 := Nat.pow_pos (Nat.zero_lt_succ 255)
  have number : (BitVec.ofNat 256 (lo * 256 ^ 31)).toNat = lo * 256 ^ 31 := by
    rw [BitVec.toNat_ofNat]
    apply Nat.mod_eq_of_lt
    calc lo * 256 ^ 31 < 256 * 256 ^ 31 := Nat.mul_lt_mul_of_pos_right lo_fits positive
      _ = 2 ^ 256 := rfl
  have first : firstByte (BitVec.ofNat 256 (lo * 256 ^ 31)) = lo := by
    rw [firstByte, number]
    exact Nat.mul_div_cancel lo positive
  have zeros : ∀ byte ∈ bigEndian 31 (BitVec.ofNat 256 (lo * 256 ^ 31)).toNat ++
      (bigEndian 4 (0 : UInt32).toNat).reverse, byte = 0 := by
    intro byte member
    rw [number, ← bigEndian_mod, Nat.mul_mod_left, mem_append, mem_reverse] at member
    rcases member with tail | index
    · exact eq_zero_of_mem_bigEndian_zero tail
    · exact eq_zero_of_mem_bigEndian_zero index
  rw [shardLowerBound, toBytes_eq_cons, toBytes_eq_cons, compare_cons, compare_cons,
    compare_byte _ _ (firstByte_lt _) bound]
  simp only [first]
  rw [show compare (1 : UInt8) 1 = .eq from rfl, Ordering.eq_then]
  rcases Nat.lt_or_eq_of_le within with below | same
  · rw [Nat.compare_eq_lt.mpr below, Ordering.lt_then]
    rfl
  · subst same
    rw [Nat.compare_eq_eq.mpr rfl, Ordering.eq_then]
    exact isLE_compare_zeros zeros (by rw [length_append, length_append]; simp)

/-! ## Loading a shard's spends -/

/-- Whether a hash starts within a shard. -/
def inShard (lo hi : Nat) (txid : TransactionHash) : Bool :=
  decide (lo ≤ firstByte txid) && decide (firstByte txid < hi)

/-- The walk over sorted keys collects the shard's, unless there are more than the cap allows. -/
theorem loadSpentSet_eq (lo hi maxSpentEntries : Nat) {outpoints : List Outpoint}
    (sorted : outpoints.Pairwise fun a b => firstByte a.prevTxid ≤ firstByte b.prevTxid)
    {spentSet : List RawKey} (within : spentSet.length ≤ maxSpentEntries) :
    loadSpentSet lo hi maxSpentEntries spentSet (outpoints.map Outpoint.toBytes) =
      if spentSet.length + (outpoints.countP fun outpoint => inShard lo hi outpoint.prevTxid) ≤
          maxSpentEntries then
        some (((outpoints.filter fun outpoint => inShard lo hi outpoint.prevTxid).map
          Outpoint.toBytes).reverse ++ spentSet) else none := by
  induction outpoints generalizing spentSet with
  | nil => simp [loadSpentSet, within]
  | cons outpoint outpoints ih =>
    rw [pairwise_cons] at sorted
    have read : outpoint.toBytes[1]? = some (UInt8.ofNat (firstByte outpoint.prevTxid)) := by
      rfl
    rw [map_cons, loadSpentSet, read]
    simp only [toNat_firstByte]
    by_cases beyond : hi ≤ firstByte outpoint.prevTxid
    · -- The keys are sorted, so that none of the shard is left.
      have none_left : ∀ later ∈ outpoint :: outpoints, inShard lo hi later.prevTxid = false := by
        intro later member
        have above : hi ≤ firstByte later.prevTxid := by
          rcases mem_cons.mp member with rfl | member
          · exact beyond
          · exact Nat.le_trans beyond (sorted.1 later member)
        simp [inShard, Nat.not_lt.mpr above]
      have no_count : (outpoint :: outpoints).countP
          (fun outpoint => inShard lo hi outpoint.prevTxid) = 0 := by
        rw [countP_eq_zero]
        intro later member
        simp [none_left later member]
      have no_entries : (outpoint :: outpoints).filter
          (fun outpoint => inShard lo hi outpoint.prevTxid) = [] := by
        rw [filter_eq_nil_iff]
        intro later member
        simp [none_left later member]
      rw [if_pos beyond, no_count, no_entries, Nat.add_zero, if_pos within]
      rfl
    · rw [if_neg beyond]
      by_cases reached : lo ≤ firstByte outpoint.prevTxid
      · have inside : inShard lo hi outpoint.prevTxid = true := by
          simp [inShard, reached, Nat.lt_of_not_le beyond]
        rw [if_pos reached, countP_cons, filter_cons, if_pos inside, if_pos inside]
        by_cases full : maxSpentEntries ≤ spentSet.length
        · rw [if_pos full, if_neg (by omega)]
        · rw [if_neg full, ih sorted.2 (by rw [length_cons]; omega), length_cons]
          simp only [map_cons, reverse_cons, append_assoc, singleton_append]
          congr 1
          exact propext (by omega)
      · have outside : ¬ inShard lo hi outpoint.prevTxid = true := by
          simp [inShard, reached]
        rw [if_neg reached, countP_cons, filter_cons, if_neg outside, if_neg outside]
        exact ih sorted.2 within

section Shard

variable {hashes : Hashes} {blocks : List IndexedBlock}

/-- The keys of the spent index, in order, are those of the spent outpoints. -/
theorem exists_spent_keys (valid : ValidChain hashes blocks) : ∃ outpoints : List Outpoint,
      (rowsOf blocks).spent.toList.map Prod.fst = outpoints.map Outpoint.toBytes ∧
      outpoints.Perm (spentOutpoints blocks) ∧
      outpoints.Pairwise fun a b => firstByte a.prevTxid ≤ firstByte b.prevTxid := by
  have keys_perm : ((rowsOf blocks).spent.toList.map Prod.fst).Perm
      ((spentOutpoints blocks).map Outpoint.toBytes) := by
    rw [Std.ExtTreeMap.map_fst_toList_eq_keys, ← map_fst_spentLocations]
    exact OrderedMap.keys_ofEntries_perm valid.nodup_spentLocations
  obtain ⟨outpoints, listed, reordered⟩ := exists_perm_of_perm_map keys_perm
  refine ⟨outpoints, listed, reordered, ?_⟩
  have ordered := Std.ExtTreeMap.ordered_keys (t := (rowsOf blocks).spent)
  rw [← Std.ExtTreeMap.map_fst_toList_eq_keys, listed, pairwise_map] at ordered
  exact ordered.imp firstByte_le_of_compare

/-! ## Scanning a shard -/

/-- What one transaction is to the summary, given everything that is spent. -/
def txPart (hashes : Hashes) (spends : List Outpoint) (tx : CompactTxData) : TxOutSetAccumulator :=
  entrySum hashes ((ledger.created tx).filter fun entry => decide (entry.1 ∉ spends)) +
    carrying (if ledger.carries spends tx then 1 else 0)

theorem sum_txPart (hashes : Hashes) (spends : List Outpoint) (txs : List CompactTxData) :
    (txs.map (txPart hashes spends)).sum =
      entrySum hashes ((ledger.createdBy txs).filter fun entry => decide (entry.1 ∉ spends)) +
        carrying (txs.countP (ledger.carries spends)) := by
  induction txs with
  | nil => simp [Ledger.createdBy]
  | cons tx txs ih =>
    have created : ledger.createdBy (tx :: txs) = ledger.created tx ++ ledger.createdBy txs := rfl
    rw [map_cons, sum_cons, ih, txPart, created, filter_append, entrySum_append,
      countP_cons, Nat.add_comm, carrying_add, add_add_add_comm]

theorem txOutSet_eq_sum (hashes : Hashes) (blocks : List IndexedBlock) :
    txOutSet hashes blocks = ((txsOf blocks).map (txPart hashes (spentOutpoints blocks))).sum := by
  rw [txOutSet_eq, sum_txPart]
  rfl

variable {acc acc' total : TxOutSetAccumulator} {lo mid hi shards maxSpentEntries : Nat}

theorem accumulateShardTx_eq_ok {spentSet : List RawKey} {spends : List Outpoint}
    {tx : CompactTxData}
    (agrees : ∀ entry ∈ ledger.created tx, (entry.1.toBytes ∈ spentSet ↔ entry.1 ∈ spends))
    (fits : acc.Fits) :
    accumulateShardTx hashes spentSet acc (tx.txid, transparentData tx.transparent) = .ok acc' ↔
      acc'.Fits ∧ acc' = acc + txPart hashes spends tx := by
  have unspent : (spendableEntries tx.txid (((transparentData tx.transparent).map
      TransparentCompactTx.outputs).getD [])).filter
        (fun entry => !decide (entry.1.toBytes ∈ spentSet)) =
      (ledger.created tx).filter fun entry => decide (entry.1 ∉ spends) := by
    rw [outputs_transparentData]
    apply filter_congr
    intro entry created
    simp [agrees entry created]
  have is_empty : ((ledger.created tx).filter fun entry => decide (entry.1 ∉ spends)).isEmpty =
      !ledger.carries spends tx := by
    rw [Bool.eq_iff_iff, List.isEmpty_iff, List.filter_eq_nil_iff, Bool.not_eq_true',
      Ledger.carries_eq_false]
    simp
  simp only [accumulateShardTx, unspent, is_empty, bind_eq_ok, toStoreError_eq_ok,
    addOutputs_eq_ok fits, txPart]
  cases carried : ledger.carries spends tx with
  | false =>
    simp only [Bool.not_false, if_true, Bool.false_eq_true, if_false, carrying_zero, add_zero, pure,
      Except.pure, Except.ok.injEq]
    constructor
    · rintro ⟨_, ⟨added_fit, rfl⟩, rfl⟩
      exact ⟨added_fit, rfl⟩
    · rintro ⟨added_fit, rfl⟩
      exact ⟨_, ⟨added_fit, rfl⟩, rfl⟩
  | true =>
    simp only [Bool.not_true, Bool.false_eq_true, if_false, if_true, ← add_assoc, bind_eq_ok,
      okOr_eq_ok, checkedAdd_eq_some, pure, Except.pure, Except.ok.injEq]
    have counted : ∀ middle : TxOutSetAccumulator,
        { middle with transactions := middle.transactions + 1 } = middle + carrying 1 := by
      intro middle
      ext1 <;> simp [carrying]
    constructor
    · rintro ⟨_, ⟨added_fit, rfl⟩, _, ⟨count_fits, rfl⟩, rfl⟩
      rw [counted]
      exact ⟨⟨count_fits, added_fit.transactionOutputs, added_fit.bytesSerialized,
        added_fit.totalZatoshis⟩, rfl⟩
    · rintro ⟨all_fit, rfl⟩
      exact ⟨_, ⟨all_fit.of_add, rfl⟩, _, ⟨all_fit.transactions, rfl⟩, counted _⟩

theorem accumulateShardTxs_eq_ok {spentSet : List RawKey} {spends : List Outpoint}
    {txs : List CompactTxData} (agrees : ∀ tx ∈ txs, ∀ entry ∈ ledger.created tx,
      (entry.1.toBytes ∈ spentSet ↔ entry.1 ∈ spends)) (fits : acc.Fits) :
    txs.foldlM (fun acc tx => accumulateShardTx hashes spentSet acc
        (tx.txid, transparentData tx.transparent)) acc = .ok acc' ↔
      acc'.Fits ∧ acc' = acc + (txs.map (txPart hashes spends)).sum :=
  foldlM_eq_ok_sum (fun tx member _ _ fits => accumulateShardTx_eq_ok (agrees tx member) fits) fits

/-- The part of the summary that a shard of the hashes contributes. -/
def shardPart (hashes : Hashes) (blocks : List IndexedBlock) (lo hi : Nat) : TxOutSetAccumulator :=
  (((txsOf blocks).filter fun tx => inShard lo hi tx.txid).map
    (txPart hashes (spentOutpoints blocks))).sum

/-- How many spends a shard has to hold. -/
def shardSpends (blocks : List IndexedBlock) (lo hi : Nat) : Nat :=
  (spentOutpoints blocks).countP fun outpoint => inShard lo hi outpoint.prevTxid

theorem accumulateShardHeights_eq (valid : ValidChain hashes blocks) (nonempty : blocks ≠ [])
    (lo hi : Nat) (spentSet : List RawKey) (acc : TxOutSetAccumulator) :
    (List.range (blocks.length - 1 + 1)).foldlM
        (accumulateShardHeight hashes (rowsOf blocks) lo hi spentSet) acc =
      ((txsOf blocks).filter fun tx => inShard lo hi tx.txid).foldlM (fun acc tx =>
        accumulateShardTx hashes spentSet acc (tx.txid, transparentData tx.transparent)) acc := by
  have positive : 0 < blocks.length := List.length_pos_of_ne_nil nonempty
  rw [Nat.sub_add_cancel positive, range_eq_range', txsOf, filter_flatMap]
  refine foldlM_heights [] blocks (fun i block held acc => ?_) acc
  rw [nil_append] at held
  have bound := (List.getElem?_eq_some_iff.mp held).1
  have bounded := valid.bounded
  rw [accumulateShardHeight, if_neg (by omega), transparentAt_rowsOf valid held, ok_bind,
    IndexedBlock.pairs, filter_map, foldlM_map]
  rfl

theorem accumulateShardBlocking_eq (valid : ValidChain hashes blocks) (nonempty : blocks ≠ [])
    (lo hi maxSpentEntries : Nat) (result : Option TxOutSetAccumulator) :
    accumulateShardBlocking hashes (rowsOf blocks) (blocks.length - 1) lo hi maxSpentEntries =
        .ok result ↔ (maxSpentEntries < shardSpends blocks lo hi ∧ result = none) ∨
        (shardSpends blocks lo hi ≤ maxSpentEntries ∧ (shardPart hashes blocks lo hi).Fits ∧
          result = some (shardPart hashes blocks lo hi)) := by
  obtain ⟨outpoints, listed, reordered, sorted⟩ := exists_spent_keys valid
  -- What the seek skips is not of the shard.
  let from_bound := outpoints.filter fun outpoint =>
    (compare (shardLowerBound lo) outpoint.toBytes).isLE
  have sought : ((rowsOf blocks).spent.toList.map Prod.fst).filter
      (fun key => (compare (shardLowerBound lo) key).isLE) = from_bound.map Outpoint.toBytes := by
    rw [listed, filter_map]
    rfl
  have kept : from_bound.filter (fun outpoint => inShard lo hi outpoint.prevTxid) =
      outpoints.filter fun outpoint => inShard lo hi outpoint.prevTxid := by
    rw [filter_filter]
    apply filter_congr
    intro outpoint _
    cases inside : inShard lo hi outpoint.prevTxid with
    | false => rfl
    | true =>
      simp only [inShard, Bool.and_eq_true, decide_eq_true_eq] at inside
      rw [isLE_compare_shardLowerBound inside.1]
      rfl
  have counted : from_bound.countP (fun outpoint => inShard lo hi outpoint.prevTxid) =
      shardSpends blocks lo hi := by
    rw [countP_eq_length_filter, kept, ← countP_eq_length_filter]
    exact reordered.countP_eq _
  have loaded : loadSpentSet lo hi maxSpentEntries [] (from_bound.map Outpoint.toBytes) = _ :=
    loadSpentSet_eq lo hi maxSpentEntries (sorted.sublist filter_sublist)
      (Nat.zero_le maxSpentEntries)
  rw [counted, kept, length_nil, Nat.zero_add, append_nil] at loaded
  rw [accumulateShardBlocking, sought, loaded]
  by_cases within : shardSpends blocks lo hi ≤ maxSpentEntries
  · have agrees : ∀ tx ∈ (txsOf blocks).filter (fun tx => inShard lo hi tx.txid),
        ∀ entry ∈ ledger.created tx,
          (entry.1.toBytes ∈ ((outpoints.filter fun outpoint =>
            inShard lo hi outpoint.prevTxid).map Outpoint.toBytes).reverse ↔
              entry.1 ∈ spentOutpoints blocks) := by
      intro tx member entry created
      have inside := (mem_filter.mp member).2
      rw [← show entry.1.prevTxid = tx.txid from ledger.owned tx entry created] at inside
      rw [mem_reverse, mem_map, ← reordered.mem_iff]
      constructor
      · rintro ⟨outpoint, spent, same⟩
        rw [← Outpoint.toBytes_injective same]
        exact (mem_filter.mp spent).1
      · intro spent
        exact ⟨entry.1, mem_filter.mpr ⟨spent, inside⟩, rfl⟩
    rw [if_pos within, or_iff_right (fun beyond => absurd within (Nat.not_le.mpr beyond.1)),
      and_iff_right within]
    simp only [accumulateShardHeights_eq valid nonempty, bind_eq_ok]
    rw [show empty = 0 from rfl]
    simp only [accumulateShardTxs_eq_ok agrees fits_zero, zero_add, pure,
      Except.pure, Except.ok.injEq]
    constructor
    · rintro ⟨_, ⟨part_fits, rfl⟩, rfl⟩
      exact ⟨part_fits, rfl⟩
    · rintro ⟨part_fits, rfl⟩
      exact ⟨_, ⟨part_fits, rfl⟩, rfl⟩
  · rw [if_neg within, or_iff_left (fun held => within held.1),
      and_iff_right (Nat.lt_of_not_le within)]
    simp only [Except.ok.injEq]
    exact eq_comm

/-! ## Joining the shards -/

theorem inShard_split (lower : lo ≤ mid) (upper : mid ≤ hi) (txid : TransactionHash) :
    inShard lo hi txid = (inShard lo mid txid || inShard mid hi txid) ∧
      ¬ (inShard lo mid txid = true ∧ inShard mid hi txid = true) := by
  rw [Bool.eq_iff_iff]
  simp only [inShard, Bool.or_eq_true, Bool.and_eq_true, decide_eq_true_eq]
  omega

/-- The parts of adjacent shards add up. -/
theorem shardPart_add (hashes : Hashes) (blocks : List IndexedBlock) (lower : lo ≤ mid)
    (upper : mid ≤ hi) : shardPart hashes blocks lo mid + shardPart hashes blocks mid hi =
      shardPart hashes blocks lo hi := by
  have split : ((txsOf blocks).filter (fun tx => inShard lo mid tx.txid) ++
      (txsOf blocks).filter fun tx => inShard mid hi tx.txid).Perm
      ((txsOf blocks).filter fun tx => inShard lo hi tx.txid) :=
    filter_append_filter_perm (fun tx _ => (inShard_split lower upper tx.txid).2)
      fun tx _ => (inShard_split lower upper tx.txid).1
  have sums := (split.map (txPart hashes (spentOutpoints blocks))).sum_eq
  rwa [map_append, sum_append] at sums

theorem shardPart_whole (hashes : Hashes) (blocks : List IndexedBlock) :
    shardPart hashes blocks 0 256 = txOutSet hashes blocks := by
  rw [shardPart, txOutSet_eq_sum, filter_eq_self.mpr]
  intro tx _
  simp [inShard, firstByte_lt]

theorem sum_initialShards (hashes : Hashes) (blocks : List IndexedBlock) (positive : 0 < shards) :
    ((initialShards shards).map fun shard => shardPart hashes blocks shard.1 shard.2).sum =
      shardPart hashes blocks 0 256 := by
  -- The first `k` shards reach up to where the next one starts.
  have reach : ∀ k, ((List.range k).map fun shard =>
      shardPart hashes blocks (shard * 256 / shards) ((shard + 1) * 256 / shards)).sum =
      shardPart hashes blocks 0 (k * 256 / shards) := by
    intro k
    induction k with
    | zero => simp [shardPart, inShard]
    | succ k ih =>
      rw [range_succ, map_append, sum_append, ih]
      simp only [map_cons, map_nil, sum_cons, sum_nil, add_zero]
      exact shardPart_add hashes blocks (Nat.zero_le _)
        (Nat.div_le_div_right (Nat.mul_le_mul_right 256 (Nat.le_succ k)))
  have all := reach shards
  rw [Nat.mul_div_cancel_left 256 positive] at all
  rw [← all, initialShards, map_reverse, sum_reverse, map_map]
  rfl

theorem initialShards_ordered {shard : Nat × Nat}
    (member : shard ∈ initialShards shards) : shard.1 ≤ shard.2 := by
  obtain ⟨i, _, rfl⟩ := mem_map.mp (mem_reverse.mp member)
  exact Nat.div_le_div_right (Nat.mul_le_mul_right 256 (Nat.le_succ i))

/-- What some shards contribute together. -/
def shardParts (hashes : Hashes) (blocks : List IndexedBlock) (pending : List (Nat × Nat)) :
    TxOutSetAccumulator :=
  (pending.map fun shard => shardPart hashes blocks shard.1 shard.2).sum

theorem shardParts_split (hashes : Hashes) (blocks : List IndexedBlock) (lower : lo ≤ mid)
    (upper : mid ≤ hi) (pending : List (Nat × Nat)) :
    shardParts hashes blocks ((mid, hi) :: (lo, mid) :: pending) =
      shardParts hashes blocks ((lo, hi) :: pending) := by
  simp only [shardParts, map_cons, sum_cons]
  rw [← shardPart_add hashes blocks lower upper, ← add_assoc, add_comm (shardPart _ _ mid hi)]

theorem shardSpends_self (blocks : List IndexedBlock) (lo : Nat) :
    shardSpends blocks lo lo = 0 := by
  rw [shardSpends, countP_eq_zero]
  intro outpoint _
  simp [inShard]

theorem halved_ordered {pending : List (Nat × Nat)}
    (ordered : ∀ shard ∈ (lo, hi) :: pending, shard.1 ≤ shard.2) (lower : lo ≤ mid)
    (upper : mid ≤ hi) : ∀ shard ∈ (mid, hi) :: (lo, mid) :: pending, shard.1 ≤ shard.2 := by
  rw [forall_mem_cons] at ordered
  rw [forall_mem_cons, forall_mem_cons]
  exact ⟨upper, lower, ordered.2⟩

/-- Whatever the cap makes the rebuild split, it returns the sum of the parts or fails. When no
single first byte has more spends than the cap allows, splitting comes to an end and it returns. -/
theorem buildPending_eq (valid : ValidChain hashes blocks) (nonempty : blocks ≠ [])
    {pending : List (Nat × Nat)} (ordered : ∀ shard ∈ pending, shard.1 ≤ shard.2) :
    buildPending hashes (rowsOf blocks) (blocks.length - 1) maxSpentEntries total pending =
        .ok (total + shardParts hashes blocks pending) ∨
      (∃ error, buildPending hashes (rowsOf blocks) (blocks.length - 1) maxSpentEntries total
          pending = .error error) ∧
        ¬ ((∀ byte, shardSpends blocks byte (byte + 1) ≤ maxSpentEntries) ∧
          (total + shardParts hashes blocks pending).Fits) := by
  have scans := accumulateShardBlocking_eq valid nonempty
  fun_induction buildPending hashes (rowsOf blocks) (blocks.length - 1) maxSpentEntries total
    pending with
  | case1 total =>
    rw [shardParts, map_nil, sum_nil, add_zero]
    exact .inl rfl
  | case2 total lo hi pending error scanned =>
    refine .inr ⟨⟨error, rfl⟩, fun ⟨_, fits⟩ => ?_⟩
    have part_fits : (shardPart hashes blocks lo hi).Fits := by
      rw [add_comm, shardParts, map_cons, sum_cons, add_assoc] at fits
      exact fits.of_add
    rcases Nat.lt_or_ge maxSpentEntries (shardSpends blocks lo hi) with beyond | within
    · cases scanned.symm.trans ((scans lo hi _ _).mpr (.inl ⟨beyond, rfl⟩))
    · cases scanned.symm.trans ((scans lo hi _ _).mpr (.inr ⟨within, part_fits, rfl⟩))
  | case3 total lo hi pending shardAcc scanned error combined =>
    refine .inr ⟨⟨error, rfl⟩, fun ⟨_, fits⟩ => ?_⟩
    obtain ⟨_, _, is_part⟩ := ((scans lo hi _ _).mp scanned).resolve_left (nomatch ·.2)
    cases is_part
    rw [shardParts, map_cons, sum_cons, ← add_assoc] at fits
    rw [toStoreError_eq_ok.mpr (combine_eq_ok.mpr ⟨fits.of_add, rfl⟩)]
      at combined
    cases combined
  | case4 total lo hi pending shardAcc scanned total' combined ih =>
    obtain ⟨_, _, is_part⟩ := ((scans lo hi _ _).mp scanned).resolve_left (nomatch ·.2)
    cases is_part
    have regrouped : total' + shardParts hashes blocks pending =
        total + shardParts hashes blocks ((lo, hi) :: pending) := by
      rw [(combine_eq_ok.mp (toStoreError_eq_ok.mp combined)).2, add_assoc]
      rfl
    rw [← regrouped]
    exact ih (forall_mem_cons.mp ordered).2
  | case5 total lo hi pending scanned narrow =>
    refine .inr ⟨⟨_, rfl⟩, fun ⟨capped, _⟩ => ?_⟩
    have order : lo ≤ hi := ordered (lo, hi) mem_cons_self
    obtain ⟨beyond, _⟩ := ((scans lo hi _ _).mp scanned).resolve_right (nomatch ·.2.2)
    rcases (show hi = lo ∨ hi = lo + 1 by omega) with rfl | rfl
    · rw [shardSpends_self] at beyond
      exact absurd beyond (Nat.not_lt_zero _)
    · exact absurd (capped lo) (Nat.not_le.mpr beyond)
  | case6 total lo hi pending scanned wide mid ih =>
    have lower : lo ≤ mid := Nat.le_add_right _ _
    have upper : mid ≤ hi := by
      omega
    rw [← shardParts_split hashes blocks lower upper]
    exact ih (halved_ordered ordered lower upper)

theorem shardParts_initial (hashes : Hashes) (blocks : List IndexedBlock) (shards : Nat) :
    empty + shardParts hashes blocks (initialShards (max shards 1)) =
      txOutSet hashes blocks := by
  rw [shardParts, sum_initialShards hashes blocks (Nat.lt_of_lt_of_le Nat.one_pos
    (Nat.le_max_right shards 1)), shardPart_whole]
  exact zero_add _

/-- A rebuild that returns, whatever its shards and its cap, returns the summary of the chain. -/
theorem eq_of_buildBlocking (valid : ValidChain hashes blocks) (nonempty : blocks ≠ [])
    (returned : buildBlocking hashes (rowsOf blocks) (blocks.length - 1) shards maxSpentEntries =
      .ok acc) : acc = txOutSet hashes blocks := by
  rw [← shardParts_initial hashes blocks shards]
  rcases buildPending_eq valid nonempty fun _ => initialShards_ordered with is_sum | ⟨⟨_, failed⟩, _⟩
  · exact Except.ok.inj (returned.symm.trans is_sum)
  · cases returned.symm.trans failed

theorem buildBlocking_eq_ok (valid : ValidChain hashes blocks) (nonempty : blocks ≠ [])
    (fits : (txOutSet hashes blocks).Fits) (shards : Nat)
    (capped : ∀ byte, shardSpends blocks byte (byte + 1) ≤ max maxSpentEntries 1) :
    buildBlocking hashes (rowsOf blocks) (blocks.length - 1) shards maxSpentEntries =
      .ok (txOutSet hashes blocks) := by
  rw [← shardParts_initial hashes blocks shards] at fits ⊢
  exact (buildPending_eq valid nonempty fun _ => initialShards_ordered).resolve_right
    fun ⟨_, outside⟩ => outside ⟨capped, fits⟩

end Shard

end Zaino.ChainStore
