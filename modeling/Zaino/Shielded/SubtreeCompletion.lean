import Zaino.Shielded.Seam

/-!
# The subtrees of a whole chain

Every block's subtrees are extracted from the tree state one height below it and the block's own leaves. Over
a whole chain, in any batches, the emitted entries are numbered 0, 1, 2, … without a gap or a repetition, each
with the root of its own leaves and the block that has the last of them; and a window that starts from a served
treestate finds the same entries (`emitted_exact`).
-/

namespace Zaino.Shielded

open Zaino Library List

variable {trees : NoteTrees}

/-- The entries of a pool that indexing batches emits, in order. -/
def emitted (pool : ShieldedPool) :
    IndexState trees → List (Grouping × List TreeStateCtx) → Except IndexError (List SubtreeEntry)
  | _, [] => .ok []
  | state, batch :: rest => do
    let next ← indexBatch state batch
    let here ← (batch.2.mapM fun ctx =>
      extractSubtrees trees pool ctx fun height => next.indexes.treeState.lookup height).mapError
        IndexError.subtrees
    let later ← emitted pool next rest
    .ok (here.flatten ++ later)

/-- However a chain is cut into batches, the entries are the subtrees that were open before it. -/
theorem emitted_returns (pool : ShieldedPool) {prior : List TreeStateCtx} {state : IndexState trees}
    {batches : List (Grouping × List TreeStateCtx)} (indexed : Indexed prior state)
    (indexable : Indexable trees (prior ++ batches.flatMap Prod.snd))
    (sized : ∀ batch ∈ batches, batch.1.operands = batch.2.length) :
    ∃ entries, emitted pool state batches = .ok entries ∧
      entries.map (fun entry => (entry.index, entry.root)) =
        numbered (subtreeAt trees pool (prior ++ batches.flatMap Prod.snd))
          (subtreeCount trees pool prior)
          (subtreeCount trees pool (prior ++ batches.flatMap Prod.snd)) := by
  induction batches generalizing prior state with
  | nil =>
    refine ⟨[], rfl, ?_⟩
    rw [flatMap_nil, append_nil, numbered_of_le (Nat.le_refl _)]
    rfl
  | cons batch rest ih =>
    rw [flatMap_cons, ← append_assoc] at indexable ⊢
    rcases indexBatch_indexed indexed indexable.left (sized batch mem_cons_self) with
      ⟨next, is_next, indexed_next⟩
    rcases mapM_extractSubtrees_returns pool indexable.left indexed_next.treeState with
      ⟨here, is_here, listed⟩
    rcases ih indexed_next indexable
      (fun later member => sized later (mem_cons_of_mem batch member)) with
      ⟨later, is_later, listed_later⟩
    refine ⟨here.flatten ++ later, ?_, ?_⟩
    · rw [emitted, show indexBatch state batch = .ok next from is_next, ok_bind, is_here,
        Except.mapError, ok_bind, is_later, ok_bind]
    · -- What the batch completes stays as it is in the whole chain.
      have settled := numbered_congr fun k (_ : subtreeCount trees pool prior ≤ k) complete =>
        (subtreeAt_append complete : subtreeAt trees pool
          (prior ++ batch.2 ++ rest.flatMap Prod.snd) k = _)
      rw [map_append, listed, listed_later, ← settled,
        numbered_append (subtreeCount_mono pool prior _) (subtreeCount_mono pool _ _)]

/-- The completing block has the last of the leaves. -/
theorem completing_spec {pool : ShieldedPool} {size : Nat} {blocks : List TreeStateCtx}
    {ctx : TreeStateCtx} (is_block : completing trees pool size blocks = some ctx) (filled : 0 < size) :
    ∃ before after, blocks = before ++ ctx :: after ∧ (leavesIn trees before pool).length < size ∧
      size ≤ (leavesIn trees before pool).length + (ctx.leaves trees pool).length := by
  induction blocks generalizing size with
  | nil => cases is_block
  | cons first rest ih =>
    rw [completing] at is_block
    split at is_block
    · next within =>
      cases is_block
      exact ⟨[], rest, rfl, filled, by rw [leavesIn]; simpa using within⟩
    · next beyond =>
      rcases ih is_block (by omega) with ⟨before, after, rfl, below, within⟩
      refine ⟨first :: before, after, rfl, ?_, ?_⟩
      · rw [leavesIn_cons, length_append]
        omega
      · rw [leavesIn_cons, length_append]
        omega

variable (trees) in
/-- What an entry says of a chain's leaves: the root of the perfect tree over its own, and the block with
the last of them. -/
def SubtreeEntry.Describes (pool : ShieldedPool) (blocks : List TreeStateCtx) (entry : SubtreeEntry) :
    Prop :=
  ∃ node before ctx after, blocks = before ++ ctx :: after ∧
    (leavesIn trees before pool).length ≤
      (entry.index + 1) * 2 ^ (trees.tree pool).subtreeLevel - 1 ∧
    (entry.index + 1) * 2 ^ (trees.tree pool).subtreeLevel - 1 <
      (leavesIn trees before pool).length + (ctx.leaves trees pool).length ∧
    merkleNode (trees.tree pool).combine
      (((leavesIn trees blocks pool).drop (entry.index * 2 ^ (trees.tree pool).subtreeLevel)).take
        (2 ^ (trees.tree pool).subtreeLevel)) (trees.tree pool).subtreeLevel 0 = some node ∧
    entry.root = ⟨(trees.tree pool).nodeBytes node, ctx.hash, ctx.height⟩

theorem describes_of_subtreeAt {pool : ShieldedPool} {blocks : List TreeStateCtx}
    {entry : SubtreeEntry} (is_subtree : subtreeAt trees pool blocks entry.index = some entry.root) :
    entry.Describes trees pool blocks := by
  rw [subtreeAt, merkleNode_eq_root] at is_subtree
  simp only [Option.bind_eq_bind, Option.bind_eq_some_iff, Option.some.injEq] at is_subtree
  rcases is_subtree with ⟨node, is_node, ctx, is_block, is_root⟩
  have filled : 0 < (entry.index + 1) * 2 ^ (trees.tree pool).subtreeLevel :=
    Nat.mul_pos (Nat.succ_pos _) (Nat.two_pow_pos _)
  rcases completing_spec is_block filled with ⟨before, after, split, below, within⟩
  exact ⟨node, before, ctx, after, split, by omega, by omega, is_node, is_root.symm⟩

/-- A subtree's entry, as the window reports it. -/
def SubtreeEntry.inWindow (entry : SubtreeEntry) : WindowSubtree :=
  WindowSubtree.ofRecord (entry.index, entry.root)

/-- Over a whole chain, in any batches, the entries are numbered from 0 on, each with the root of its leaves
and the block that completes it. And from the treestate of any height that the index holds, the window's
blocks give the entries that are left. -/
theorem emitted_exact (chain : Chain trees) (pool : ShieldedPool)
    (batches : List (Grouping × List TreeStateCtx))
    (divides : batches.flatMap Prod.snd = chain.blocks.map treeStateCtx)
    (sized : ∀ batch ∈ batches, batch.1.operands = batch.2.length) :
    ∃ final entries, indexAll (emptyIndexState trees) batches = .ok final ∧
      emitted pool (emptyIndexState trees) batches = .ok entries ∧
      entries.map SubtreeEntry.index = List.range
        ((leavesIn trees (chain.blocks.map treeStateCtx) pool).length /
          2 ^ (trees.tree pool).subtreeLevel) ∧
      (∀ entry ∈ entries, entry.Describes trees pool (chain.blocks.map treeStateCtx)) ∧
      ∀ at_ : Height, at_.value < chain.blocks.length → ∃ value,
        final.indexes.treeState.lookup at_.value = some value ∧
        ∀ (hash : BlockHash) (time : UInt32), ∃ seed, seedValue trees
            (some ⟨hash, at_, time, poolTreestates value chain.activations at_⟩) = .ok seed ∧
          windowSubtrees pool seed ((chain.blocks.drop (at_.value + 1)).map treeStateCtx) =
            .ok ((entries.drop (subtreeCount trees pool (chain.ctxs (at_.value + 1)))).map
              SubtreeEntry.inWindow) := by
  have whole : Indexable trees ([] ++ batches.flatMap Prod.snd) := by
    rw [nil_append, divides]
    exact chain.indexable
  rcases indexAll_indexed emptyIndexState_indexed whole sized with ⟨final, is_final, indexed⟩
  rcases emitted_returns pool emptyIndexState_indexed whole sized with
    ⟨entries, are_entries, listed⟩
  rw [nil_append, divides, show subtreeCount trees pool [] = 0 from Nat.zero_div _] at listed
  rw [nil_append, divides] at indexed
  have present : ∀ k, 0 ≤ k → k < subtreeCount trees pool (chain.blocks.map treeStateCtx) →
      (subtreeAt trees pool (chain.blocks.map treeStateCtx) k).isSome := fun k _ => subtreeAt_isSome
  refine ⟨final, entries, is_final, are_entries, ?_, ?_, ?_⟩
  · have numbers := congrArg (List.map Prod.fst) listed
    rw [map_fst_numbered present, map_map] at numbers
    rw [range_eq_range']
    exact numbers
  · intro entry member
    have is_listed := mem_map_of_mem (f := fun entry : SubtreeEntry => (entry.index, entry.root))
      member
    rw [listed] at is_listed
    exact describes_of_subtreeAt (eq_some_of_mem_numbered is_listed)
  · intro at_ within
    rcases indexed.treeState at_.value (by rw [length_map]; exact within) with
      ⟨value, is_value, of_value⟩
    rw [← map_take] at of_value
    refine ⟨value, is_value, fun hash time => ?_⟩
    rcases chain.seedValue_returns of_value hash time with ⟨seed, is_seed, of_seed⟩
    refine ⟨seed, is_seed, ?_⟩
    have joined := chain.ctxs_append (at_.value + 1)
    have completes := windowSubtrees_returns pool of_seed
      (fun ctx member => chain.indexable.canonical ctx (joined ▸ mem_append_right _ member))
      (fun pool => joined ▸ chain.indexable.fits pool)
    have fewer : subtreeCount trees pool (chain.ctxs (at_.value + 1)) ≤
        subtreeCount trees pool (chain.blocks.map treeStateCtx) :=
      joined ▸ subtreeCount_mono pool _ _
    rw [joined, ← drop_numbered present (Nat.zero_le _) fewer, ← listed, Nat.sub_zero,
      ← map_drop, map_map] at completes
    exact completes

/-- The middle block completes the first subtree. -/
theorem emitted_exact_shielded : ∃ entries, emitted .sapling (emptyIndexState countingTrees)
      [(.join .operand (.join .operand .operand), shieldedBlocks.map treeStateCtx)] = .ok entries ∧
    entries.map SubtreeEntry.index = [0] := by
  rcases emitted_exact shieldedChain .sapling
    [(.join .operand (.join .operand .operand), shieldedBlocks.map treeStateCtx)]
    (append_nil _) (fun batch member => by cases mem_singleton.mp member; rfl) with
    ⟨_, entries, _, are_entries, numbers, _⟩
  refine ⟨entries, are_entries, numbers.trans ?_⟩
  rw [show shieldedChain.blocks = shieldedBlocks from rfl, length_leavesIn_shieldedBlocks, if_pos rfl]
  exact congrArg List.range (Nat.div_self (Nat.two_pow_pos subtreeLevel))

end Zaino.Shielded
