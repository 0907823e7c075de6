import Zaino.ChainStore.V1.Appends
import Zaino.ChainStore.V1.Layout

/-!
# What a merkle root binds

An odd layer pairs its last hash with itself, so the root alone does not determine the hashes under
it. The write path refuses a block that repeats a transaction hash, and no layer above distinct hashes
repeats one either; a pair of equal hashes is then the end of an odd layer, and roots are compared
layer by layer from the top. Roots of different depths cannot meet, since a transaction hash is not
the hash of a pair.

A hash of 256 bits cannot be injective on inputs of 512; what is asked of it concerns the inputs that
the two roots hash.
-/

namespace Zaino.ChainStore

open Library List

variable {hashes : Hashes}

/-- What is hashed for the layer above a layer. -/
def merkleInputs : List (BitVec 256) → List (List UInt8)
  | left :: right :: rest => (hashBytes left ++ hashBytes right) :: merkleInputs rest
  | [left] => [hashBytes left ++ hashBytes left]
  | [] => []

/-- What is hashed for the root above a layer, by the recursion of `reduceLayers`. -/
def rootInputs (hashes : Hashes) : Nat → List (BitVec 256) → List (List UInt8)
  | _, [] => []
  | _, [_] => []
  | 0, _ :: _ :: _ => []
  | fuel + 1, layer => merkleInputs layer ++ rootInputs hashes fuel (merkleParents hashes layer)

theorem merkleParents_eq_map (layer : List (BitVec 256)) :
    merkleParents hashes layer = (merkleInputs layer).map hashes.sha256d := by
  fun_induction merkleInputs layer with
  | case1 left right rest ih => rw [merkleParents, ih, map_cons]
  | case2 left => rfl
  | case3 => rfl

theorem hashBytes_pair_inj {left right left' right' : BitVec 256}
    (same : hashBytes left ++ hashBytes right = hashBytes left' ++ hashBytes right') :
    left = left' ∧ right = right' := by
  obtain ⟨first, second⟩ := append_inj same (by simp [hashBytes])
  exact ⟨hashBytes_injective first, hashBytes_injective second⟩

theorem mem_of_mem_merkleInputs {layer : List (BitVec 256)} {input : List UInt8}
    (member : input ∈ merkleInputs layer) :
    ∃ left ∈ layer, ∃ right, input = hashBytes left ++ hashBytes right := by
  fun_induction merkleInputs layer with
  | case1 left right rest ih => grind
  | case2 left => grind
  | case3 => cases member

theorem nodup_merkleInputs {layer : List (BitVec 256)} (distinct : layer.Nodup) :
    (merkleInputs layer).Nodup := by
  fun_induction merkleInputs layer with
  | case1 left right rest ih =>
    refine nodup_cons.mpr ⟨fun again => ?_, ih distinct.of_cons.of_cons⟩
    obtain ⟨left', left_mem, right', same⟩ := mem_of_mem_merkleInputs again
    rw [← (hashBytes_pair_inj same).1] at left_mem
    simp [left_mem] at distinct
  | case2 left => exact nodup_singleton _
  | case3 => exact nodup_nil

/-! ## Layers up to a root -/

/-- A root lies some layers above a layer, with everything that is hashed on the way in a set. -/
def RootAbove (hashes : Hashes) (inputs : List (List UInt8)) :
    Nat → List (BitVec 256) → BitVec 256 → Prop
  | 0, layer, root => layer = [root]
  | depth + 1, layer, root => merkleInputs layer ⊆ inputs ∧
      RootAbove hashes inputs depth (merkleParents hashes layer) root

variable {inputs : List (List UInt8)} {layer layer' : List (BitVec 256)} {root : BitVec 256}
  {depth : Nat}

theorem rootAbove_of_reduceLayers {fuel : Nat} (reduced : reduceLayers hashes fuel layer = some root)
    (hashed : rootInputs hashes fuel layer ⊆ inputs) :
    ∃ depth, RootAbove hashes inputs depth layer root := by
  fun_induction reduceLayers hashes fuel layer with
  | case1 => cases reduced
  | case2 => exact ⟨0, congrArg (fun top => [top]) (Option.some.inj reduced)⟩
  | case3 => cases reduced
  | case4 fuel layer none_left many ih =>
    rw [rootInputs] at hashed
    · obtain ⟨now, later⟩ := append_subset.mp hashed
      obtain ⟨depth, above⟩ := ih reduced later
      exact ⟨depth + 1, now, above⟩
    · exact none_left
    · exact many

section

variable (injective : ∀ a ∈ inputs, ∀ b ∈ inputs, hashes.sha256d a = hashes.sha256d b → a = b)
include injective

theorem nodup_merkleParents (distinct : layer.Nodup)
    (hashed : merkleInputs layer ⊆ inputs) : (merkleParents hashes layer).Nodup := by
  rw [merkleParents_eq_map]
  exact (nodup_merkleInputs distinct).map_on fun a a_mem b b_mem same =>
    injective a (hashed a_mem) b (hashed b_mem) same

/-- A lone last hash is not mistaken for a pair, whose hashes differ. -/
theorem merkleParents_inj (distinct : layer.Nodup) (distinct' : layer'.Nodup)
    (hashed : merkleInputs layer ⊆ inputs) (hashed' : merkleInputs layer' ⊆ inputs)
    (same : merkleParents hashes layer = merkleParents hashes layer') : layer = layer' := by
  induction layer using merkleInputs.induct generalizing layer' with
  | case1 left right rest ih =>
    match layer' with
    | left' :: right' :: rest' =>
      obtain ⟨input, later⟩ := cons_subset.mp hashed
      obtain ⟨input', later'⟩ := cons_subset.mp hashed'
      obtain ⟨heads, tails⟩ := cons.inj same
      obtain ⟨rfl, rfl⟩ := hashBytes_pair_inj (injective _ input _ input' heads)
      rw [ih distinct.of_cons.of_cons distinct'.of_cons.of_cons later later' tails]
    | [left'] =>
      obtain ⟨rfl, rfl⟩ := hashBytes_pair_inj
        (injective _ (hashed mem_cons_self) _ (hashed' mem_cons_self) (cons.inj same).1)
      simp at distinct
    | [] => cases same
  | case2 left =>
    match layer' with
    | left' :: right' :: rest' =>
      obtain ⟨rfl, rfl⟩ := hashBytes_pair_inj
        (injective _ (hashed mem_cons_self) _ (hashed' mem_cons_self) (cons.inj same).1)
      simp at distinct'
    | [left'] =>
      obtain ⟨rfl, -⟩ := hashBytes_pair_inj
        (injective _ (hashed mem_cons_self) _ (hashed' mem_cons_self) (cons.inj same).1)
      rfl
    | [] => cases same
  | case3 =>
    match layer' with
    | _ :: _ :: _ => cases same
    | [_] => cases same
    | [] => rfl

/-- Distinct layers at one depth below a root are equal. -/
theorem RootAbove.layer_eq (above : RootAbove hashes inputs depth layer root)
    (above' : RootAbove hashes inputs depth layer' root) (distinct : layer.Nodup)
    (distinct' : layer'.Nodup) : layer = layer' := by
  induction depth generalizing layer layer' with
  | zero => exact Eq.trans above (Eq.symm above')
  | succ depth ih =>
    obtain ⟨hashed, above⟩ := above
    obtain ⟨hashed', above'⟩ := above'
    have parents := ih above above' (nodup_merkleParents injective distinct hashed)
      (nodup_merkleParents injective distinct' hashed')
    exact merkleParents_inj injective distinct distinct' hashed hashed' parents

/-- Some layers up, the hashes are still distinct and all of them are hashes of inputs. -/
theorem RootAbove.climb {extra : Nat}
    (above : RootAbove hashes inputs (depth + (extra + 1)) layer root) (distinct : layer.Nodup) :
    ∃ upper, RootAbove hashes inputs depth upper root ∧ upper.Nodup ∧
      ∀ hash ∈ upper, ∃ input ∈ inputs, hashes.sha256d input = hash := by
  induction extra generalizing layer with
  | zero =>
    obtain ⟨hashed, above⟩ := above
    refine ⟨_, above, nodup_merkleParents injective distinct hashed, fun hash member => ?_⟩
    rw [merkleParents_eq_map] at member
    obtain ⟨input, listed, is_hash⟩ := mem_map.mp member
    exact ⟨input, hashed listed, is_hash⟩
  | succ extra ih => exact ih above.2 (nodup_merkleParents injective distinct above.1)

/-- Of two layers at different depths below a root, the upper has a hash of an input. -/
theorem RootAbove.hash_mem_of_deeper {extra : Nat} (above : RootAbove hashes inputs depth layer root)
    (deeper : RootAbove hashes inputs (depth + (extra + 1)) layer' root) (distinct : layer.Nodup)
    (distinct' : layer'.Nodup) (nonempty : layer ≠ []) :
    ∃ input ∈ inputs, hashes.sha256d input ∈ layer := by
  obtain ⟨upper, upper_above, upper_distinct, images⟩ := deeper.climb injective distinct'
  obtain rfl := above.layer_eq injective upper_above distinct upper_distinct
  obtain ⟨input, listed, is_hash⟩ := images _ (head_mem nonempty)
  exact ⟨input, listed, is_hash ▸ head_mem nonempty⟩

end

/-! ## Accepted blocks -/

/-- A block that the write path takes: alone, when it is not found stored, or in a batch. -/
inductive Accepted (hashes : Hashes) (block : IndexedBlock) : Prop
  | single {visits : Visits} {fault : WriteFault} {updateTxOutSet : Bool} {db db' : DbV1}
      (unstored : blockAlreadyExists db.rows block = .ok false)
      (written : writeBlockWithOptions hashes visits fault updateTxOutSet db block = (db', .ok ()))
  | batched {rows rows' : Rows} {blocks : List IndexedBlock} (member : block ∈ blocks)
      (written : writeBlockBatch hashes rows blocks = .ok rows')

variable {block block' : IndexedBlock}

theorem merkleRoot_of_verified (verified : verifyHeaderMerkleRoot hashes block = .ok ()) :
    calculateBlockMerkleRoot hashes block.txids = some block.data.merkleRoot := by
  rw [verifyHeaderMerkleRoot] at verified
  split at verified
  · assumption
  · cases verified

theorem checked_of_putBatchBlocks {rows rows' : Rows} {previous : Option (Nat × BlockHash)}
    {blocks : List IndexedBlock} (written : putBatchBlocks hashes rows previous blocks = .ok rows')
    (member : block ∈ blocks) : block.txids.Nodup ∧
      calculateBlockMerkleRoot hashes block.txids = some block.data.merkleRoot := by
  induction blocks generalizing rows previous with
  | nil => cases member
  | cons first blocks ih =>
    rw [putBatchBlocks, bind_eq_ok] at written
    obtain ⟨next, put, rest⟩ := written
    rcases mem_cons.mp member with rfl | later
    · rw [putBatchBlock, bind_eq_ok] at put
      obtain ⟨_, _, put⟩ := put
      obtain ⟨pools, extracted, put⟩ := bind_eq_ok.mp put
      obtain ⟨_, _, put⟩ := bind_eq_ok.mp put
      obtain ⟨_, verified, _⟩ := bind_eq_ok.mp put
      exact ⟨(extractBlockPoolLists_eq_ok.mp extracted).1, merkleRoot_of_verified verified⟩
    · exact ih rest later

/-- What the write path checks of the transaction hashes of a block. -/
theorem Accepted.checked (accepted : Accepted hashes block) : block.txids.Nodup ∧
    calculateBlockMerkleRoot hashes block.txids = some block.data.merkleRoot := by
  cases accepted with
  | @single visits fault updateTxOutSet db db' unstored written =>
    rw [writeBlockWithOptions, unstored] at written
    cases prepared : prepareBlock hashes visits updateTxOutSet db block with
    | error error => simp [prepared] at written
    | ok result =>
      rw [prepareBlock, bind_eq_ok] at prepared
      obtain ⟨pools, extracted, prepared⟩ := prepared
      obtain ⟨_, _, prepared⟩ := bind_eq_ok.mp prepared
      obtain ⟨_, verified⟩ : ∃ acc, (verifyHeaderMerkleRoot hashes block >>= acc) = .ok result := by
        cases updateTxOutSet <;> exact ⟨_, (bind_eq_ok.mp prepared).choose_spec.2⟩
      obtain ⟨_, verified, _⟩ := bind_eq_ok.mp verified
      exact ⟨(extractBlockPoolLists_eq_ok.mp extracted).1, merkleRoot_of_verified verified⟩
  | batched member written =>
    rw [writeBlockBatch, bind_eq_ok] at written
    obtain ⟨_, put, _⟩ := written
    exact checked_of_putBatchBlocks put member

/-- What is hashed for the merkle root of a block. -/
def IndexedBlock.rootInputs (hashes : Hashes) (block : IndexedBlock) : List (List UInt8) :=
  ChainStore.rootInputs hashes block.txids.length block.txids

/-- Accepted blocks with one merkle root have the same transaction hashes, when the hash tells the
inputs of their roots apart and no transaction hash of theirs is the hash of one. -/
theorem txids_eq_of_merkleRoot_eq (accepted : Accepted hashes block)
    (accepted' : Accepted hashes block')
    (injective : ∀ a ∈ block.rootInputs hashes ++ block'.rootInputs hashes,
      ∀ b ∈ block.rootInputs hashes ++ block'.rootInputs hashes,
        hashes.sha256d a = hashes.sha256d b → a = b)
    (unhashed : ∀ input ∈ block.rootInputs hashes ++ block'.rootInputs hashes,
      hashes.sha256d input ∉ block.txids ++ block'.txids)
    (same : block.data.merkleRoot = block'.data.merkleRoot) : block.txids = block'.txids := by
  obtain ⟨distinct, rooted⟩ := accepted.checked
  obtain ⟨distinct', rooted'⟩ := accepted'.checked
  rw [← same] at rooted'
  obtain ⟨depth, above⟩ := rootAbove_of_reduceLayers rooted (subset_append_left _ _)
  obtain ⟨depth', above'⟩ := rootAbove_of_reduceLayers rooted' (subset_append_right _ _)
  have nonempty : ∀ {txids : List TransactionHash},
      calculateBlockMerkleRoot hashes txids = some block.data.merkleRoot → txids ≠ [] := by
    intro txids found empty
    subst empty
    cases found
  rcases Nat.lt_trichotomy depth depth' with less | rfl | greater
  · obtain ⟨extra, rfl⟩ := Nat.exists_eq_add_of_lt less
    obtain ⟨input, hashed, is_txid⟩ :=
      above.hash_mem_of_deeper injective above' distinct distinct' (nonempty rooted)
    exact absurd (mem_append_left _ is_txid) (unhashed input hashed)
  · exact above.layer_eq injective above' distinct distinct'
  · obtain ⟨extra, rfl⟩ := Nat.exists_eq_add_of_lt greater
    obtain ⟨input, hashed, is_txid⟩ :=
      above'.hash_mem_of_deeper injective above distinct' distinct (nonempty rooted')
    exact absurd (mem_append_right _ is_txid) (unhashed input hashed)

/-- Two blocks of three transactions, the last of which is paired with itself; they differ in an
output only. -/
theorem txids_eq_of_merkleRoot_eq_odd : let hashes : Hashes := ⟨fun _ => 0, fun input =>
      BitVec.ofNat 256 (1000 + 10 * (input.getD 31 0).toNat + (input.getD 63 0).toNat)⟩
    let txs := fun outputs => [transferTx 1 [] outputs, transferTx 2 [] [], transferTx 3 [] []]
    let block := blockAt hashes 0 (txs [])
    let block' := blockAt hashes 0 (txs [⟨10, 0, .p2pkh⟩])
    Accepted hashes block ∧ Accepted hashes block' ∧ block.txids = block'.txids := by
  intro hashes txs block block'
  have accepted : ∀ {txs}, Resolves [txs] → Accepted hashes (blockAt hashes 0 txs) := fun resolves =>
    .batched mem_cons_self (@writeBlockBatch_rowsOf _ [] _ (valid_chainOf hashes resolves))
  have first := accepted (show Resolves [txs []] by decide)
  have second := accepted (show Resolves [txs [⟨10, 0, .p2pkh⟩]] by decide)
  refine ⟨first, second, txids_eq_of_merkleRoot_eq first second ?_ ?_ rfl⟩
  · decide +kernel
  · decide +kernel

end Zaino.ChainStore
