import Zaino.Shielded.Subtrees

/-!
# Indexing the shielded pools

The store's tree-state and subtree namespaces, as batches of blocks build them: the tree state of a
batch is merged first, and every block's subtrees are then extracted from the tree state one height
below it, of this batch or of an earlier one. However a chain is cut into batches and however each
reduction is grouped, the namespaces hold the frontiers after every block and the chain's subtrees by
number (`indexAll_indexed`).
-/

namespace Zaino.Shielded

open Zaino Library List Nat HashMap

section Trees

variable (trees : NoteTrees)

/-- The namespaces, by key. -/
structure TreeIndexes where
  treeState : HashMap Nat (TreeStateValue trees)
  subtrees : Pools fun _ => OrderedMap Nat SubtreeRecord

/-- What is committed, and the frontiers carried to the next batch. -/
structure IndexState where
  indexes : TreeIndexes trees
  carry : TreeStateValue trees

/-- Nothing is indexed. -/
def emptyIndexState : IndexState trees :=
  ⟨⟨∅, Pools.build fun _ => ∅⟩, initialCarry⟩

variable {trees}

/-- Why a batch cannot be indexed. -/
inductive IndexError
  | treeState (error : BuildError)
  | subtrees (error : SubtreesError)
  deriving DecidableEq

/-- Index one batch, whose tree state is reduced as grouped. -/
def indexBatch (state : IndexState trees) (batch : Grouping × List TreeStateCtx) :
    Except IndexError (IndexState trees) := do
  let merged ← (mergeBatch batch.1 batch.2 state.carry).mapError IndexError.treeState
  let treeState := insertAll state.indexes.treeState
    (merged.1.map fun entry => (entry.height, entry.value))
  let subtrees ← Pools.buildM fun pool => do
    let entries ← (batch.2.mapM fun ctx =>
      extractSubtrees trees pool ctx fun height => treeState.lookup height).mapError
        IndexError.subtrees
    .ok ((state.indexes.subtrees.get pool).editAll
      (Edit.puts (entries.flatten.map fun entry => (entry.index, entry.root))))
  .ok ⟨⟨treeState, subtrees⟩, merged.2⟩

/-- Index batches one after the other. -/
def indexAll (state : IndexState trees) (batches : List (Grouping × List TreeStateCtx)) :
    Except IndexError (IndexState trees) :=
  batches.foldlM indexBatch state

/-- Blocks at the heights from genesis on, with canonical commitments that the trees hold. -/
structure Indexable (trees : NoteTrees) (blocks : List TreeStateCtx) : Prop where
  heights : blocks.map TreeStateCtx.height = List.range blocks.length
  canonical : ∀ ctx ∈ blocks, ctx.Canonical trees
  fits : ∀ pool, (leavesIn trees blocks pool).length ≤ 2 ^ depth

/-- The namespaces hold what some blocks say. -/
structure Indexed (blocks : List TreeStateCtx) (state : IndexState trees) : Prop where
  carry : FrontiersOf state.carry (leavesIn trees blocks)
  treeState : ∀ height < blocks.length, ∃ value, state.indexes.treeState.lookup height = some value ∧
    FrontiersOf value (leavesIn trees (blocks.take (height + 1)))
  subtrees : ∀ pool k, (state.indexes.subtrees.get pool)[k]? = subtreeAt trees pool blocks k

/-- A chain's first blocks are indexable if it is. -/
theorem Indexable.left {first second : List TreeStateCtx}
    (indexable : Indexable trees (first ++ second)) : Indexable trees first where
  heights := by
    have heights := indexable.heights
    rw [map_append, length_append, range_eq_range', ← range'_append_1] at heights
    rw [range_eq_range']
    exact append_inj_left heights (by rw [length_map, length_range'])
  canonical := fun ctx member => indexable.canonical ctx (mem_append_left _ member)
  fits := fun pool => by
    have total := indexable.fits pool
    rw [leavesIn_append, length_append] at total
    omega

/-! ## Subtrees of a longer chain -/

variable {pool : ShieldedPool} {blocks prior more : List TreeStateCtx} {k size : Nat}
  {before : (pool : ShieldedPool) → List (trees.tree pool).Node}
  {entries : List (TreeStateEntry trees)} {state : IndexState trees}

theorem subtreeAt_eq_none
    (open_still : subtreeCount trees pool blocks ≤ k) : subtreeAt trees pool blocks k = none := by
  have none : merkleNode (trees.tree pool).combine (leavesIn trees blocks pool) (trees.tree pool).subtreeLevel k =
      none := by
    rw [← Option.not_isSome_iff_eq_none, merkleNode_isSome]
    exact Nat.not_lt_of_le open_still
  rw [subtreeAt, none]
  rfl

theorem completing_isSome (filled : 0 < size)
    (within : size ≤ (leavesIn trees blocks pool).length) :
    (completing trees pool size blocks).isSome := by
  induction blocks generalizing size with
  | nil =>
    rw [leavesIn, flatMap_nil, length_nil] at within
    omega
  | cons ctx blocks ih =>
    rw [leavesIn_cons, length_append] at within
    rw [completing]
    split
    · rfl
    · exact ih (by omega) (by omega)

theorem subtreeAt_isSome
    (complete : k < subtreeCount trees pool blocks) : (subtreeAt trees pool blocks k).isSome := by
  have positive := Nat.two_pow_pos (trees.tree pool).subtreeLevel
  rcases exists_merkleNode (trees.tree pool).combine complete with ⟨node, is_node⟩
  have within := (le_div_iff_mul_le positive).mp (succ_le_of_lt complete)
  rcases Option.isSome_iff_exists.mp
    (completing_isSome (Nat.mul_pos (Nat.succ_pos k) positive) within) with ⟨ctx, is_block⟩
  rw [subtreeAt, is_node, is_block]
  rfl

theorem completing_append (filled : 0 < size) (within : size ≤ (leavesIn trees prior pool).length) :
    completing trees pool size (prior ++ more) = completing trees pool size prior := by
  induction prior generalizing size with
  | nil =>
    rw [leavesIn, flatMap_nil, length_nil] at within
    omega
  | cons ctx prior ih =>
    rw [leavesIn_cons, length_append] at within
    rw [cons_append, completing, completing]
    split
    · rfl
    · exact ih (by omega) (by omega)

/-- A completed subtree stays what it is. -/
theorem subtreeAt_append (complete : k < subtreeCount trees pool prior) :
    subtreeAt trees pool (prior ++ more) k = subtreeAt trees pool prior k := by
  have positive := Nat.two_pow_pos (trees.tree pool).subtreeLevel
  rcases exists_merkleNode (trees.tree pool).combine complete with ⟨node, is_node⟩
  have within := (le_div_iff_mul_le positive).mp (succ_le_of_lt complete)
  have filled : 0 < (k + 1) * 2 ^ (trees.tree pool).subtreeLevel := Nat.mul_pos (Nat.succ_pos k) positive
  rw [subtreeAt, subtreeAt, leavesIn_append, merkleNode_append is_node, is_node,
    completing_append filled within]

/-! ## One batch -/

/-- The subtrees of a batch are the chain's subtrees that were open before it. -/
theorem mapM_extractSubtrees_returns (pool : ShieldedPool)
    {treeStateAt : Nat → Option (TreeStateValue trees)}
    (indexable : Indexable trees (prior ++ blocks))
    (available : ∀ height < (prior ++ blocks).length, ∃ value, treeStateAt height = some value ∧
      FrontiersOf value (leavesIn trees ((prior ++ blocks).take (height + 1)))) :
    ∃ entries, (blocks.mapM fun ctx => extractSubtrees trees pool ctx treeStateAt) = .ok entries ∧
      entries.flatten.map (fun entry => (entry.index, entry.root)) =
        numbered (subtreeAt trees pool (prior ++ blocks)) (subtreeCount trees pool prior)
          (subtreeCount trees pool (prior ++ blocks)) := by
  induction blocks generalizing prior with
  | nil =>
    refine ⟨[], rfl, ?_⟩
    rw [append_nil, numbered_of_le (le_refl _)]
    rfl
  | cons ctx rest ih =>
    have joined : prior ++ ctx :: rest = prior ++ [ctx] ++ rest := by simp
    have at_height : ctx.height = prior.length := by
      have listed := congrArg (fun heights => heights[prior.length]?) indexable.heights
      simpa using listed
    have below : ctx.height ≠ 0 → ∃ value, treeStateAt (ctx.height - 1) = some value ∧
        FrontiersOf value (leavesIn trees prior) := by
      intro later
      rw [at_height] at later ⊢
      rcases available (prior.length - 1) (by rw [length_append, length_cons]; omega) with
        ⟨value, is_value, of_value⟩
      rw [Nat.sub_add_cancel (Nat.pos_of_ne_zero later), take_left' rfl] at of_value
      exact ⟨value, is_value, of_value⟩
    have canonical : ctx.Canonical trees :=
      indexable.canonical ctx (mem_append_right _ mem_cons_self)
    have fits : (leavesIn trees prior pool ++ ctx.leaves trees pool).length ≤ 2 ^ depth := by
      have total := indexable.fits pool
      rw [leavesIn_append, leavesIn_cons, ← append_assoc, length_append] at total
      omega
    have here := extractSubtrees_returns rest at_height below canonical fits
    rw [joined] at indexable available
    rcases ih indexable available with ⟨entries, are_entries, listed⟩
    refine ⟨(numbered (subtreeAt trees pool (prior ++ ctx :: rest)) (subtreeCount trees pool prior)
      (subtreeCount trees pool (prior ++ [ctx]))).map SubtreeEntry.ofRecord :: entries, ?_, ?_⟩
    · rw [mapM_cons, here, ok_bind, are_entries, ok_bind]
      rfl
    · have between : subtreeCount trees pool (prior ++ [ctx]) ≤
          subtreeCount trees pool (prior ++ ctx :: rest) := by
        rw [joined]
        exact subtreeCount_mono pool (prior ++ [ctx]) rest
      rw [flatten_cons, map_append, listed, ← joined, map_map,
        ← numbered_append (subtreeCount_mono pool prior [ctx]) between]
      congr 1
      exact map_id _

theorem map_height_of_entriesOf (of_entries : EntriesOf before blocks entries) :
    entries.map TreeStateEntry.height = blocks.map TreeStateCtx.height := by
  induction blocks generalizing before entries with
  | nil =>
    rw [show entries = [] from of_entries]
    rfl
  | cons ctx rest ih =>
    cases entries with
    | nil => exact of_entries.elim
    | cons entry entries =>
      rcases of_entries with ⟨at_height, _, of_rest⟩
      rw [map_cons, map_cons, at_height, ih of_rest]

theorem entry_of_entriesOf (of_entries : EntriesOf before blocks entries) {i : Nat}
    {ctx : TreeStateCtx} (is_block : blocks[i]? = some ctx) :
    ∃ entry ∈ entries, entry.height = ctx.height ∧ FrontiersOf entry.value fun pool =>
        before pool ++ leavesIn trees (blocks.take (i + 1)) pool := by
  induction blocks generalizing before entries i with
  | nil => cases is_block
  | cons first rest ih =>
    cases entries with
    | nil => exact of_entries.elim
    | cons entry entries =>
      rcases of_entries with ⟨at_height, of_value, of_rest⟩
      cases i with
      | zero =>
        have is_first : first = ctx := Option.some.inj is_block
        refine ⟨entry, mem_cons_self, at_height.trans (congrArg _ is_first), ?_⟩
        intro pool
        dsimp only
        rw [take_succ_cons, leavesIn_cons, take_zero]
        have alone : leavesIn trees [] pool = [] := rfl
        rw [alone, append_nil]
        exact of_value pool
      | succ i =>
        rcases ih of_rest is_block with ⟨later, member, later_height, of_later⟩
        refine ⟨later, mem_cons_of_mem _ member, later_height, ?_⟩
        intro pool
        dsimp only
        rw [take_succ_cons, leavesIn_cons, ← append_assoc]
        exact of_later pool

/-- The tree state a batch adds, beside what there was. -/
theorem lookup_treeState_insertAll (indexed : Indexed prior state)
    (indexable : Indexable trees (prior ++ blocks))
    (of_entries : EntriesOf (leavesIn trees prior) blocks entries) {height : Nat}
    (within : height < (prior ++ blocks).length) :
    ∃ value, (insertAll state.indexes.treeState
        (entries.map fun entry => (entry.height, entry.value))).lookup height = some value ∧
      FrontiersOf value (leavesIn trees ((prior ++ blocks).take (height + 1))) := by
  have keys : (entries.map fun entry => (entry.height, entry.value)).map Prod.fst =
      List.range' prior.length blocks.length := by
    have heights := indexable.heights
    rw [map_append, length_append, range_eq_range', ← range'_append_1,
      zero_add] at heights
    rw [map_map]
    exact (map_height_of_entriesOf of_entries).trans
      (append_inj_right heights (by rw [length_map, length_range']))
  have distinct : ((entries.map fun entry => (entry.height, entry.value)).map Prod.fst).Nodup := by
    rw [keys]
    exact nodup_range'
  rcases lt_or_ge height prior.length with earlier | here
  · rcases indexed.treeState height earlier with ⟨value, is_value, of_value⟩
    refine ⟨value, ?_, ?_⟩
    · rw [lookup_insertAll_eq_some distinct, keys, mem_range'_1]
      exact Or.inr ⟨by omega, is_value⟩
    · rw [take_append_of_le_length (by omega)]
      exact of_value
  · have bound : height - prior.length < blocks.length := by
      rw [length_append] at within
      omega
    have is_block := getElem?_eq_getElem bound
    rcases entry_of_entriesOf of_entries is_block with ⟨entry, member, at_height, of_value⟩
    have is_height : (blocks[height - prior.length]).height = height := by
      have listed := congrArg (fun heights => heights[height]?) indexable.heights
      rw [getElem?_map, getElem?_append_right here, is_block,
        getElem?_range within] at listed
      exact Option.some.inj listed
    refine ⟨entry.value, ?_, ?_⟩
    · rw [lookup_insertAll_eq_some distinct]
      refine Or.inl (mem_map.mpr ⟨entry, member, ?_⟩)
      rw [at_height, is_height]
    · have split : (prior ++ blocks).take (height + 1) =
          prior ++ blocks.take (height - prior.length + 1) := by
        rw [take_append, take_of_length_le (by omega)]
        congr 2
        omega
      intro pool
      rw [split, leavesIn_append]
      exact of_value pool

/-- Indexing one more batch. -/
theorem indexBatch_indexed {grouping : Grouping} (indexed : Indexed prior state)
    (indexable : Indexable trees (prior ++ blocks)) (sized : grouping.operands = blocks.length) :
    ∃ next, indexBatch state (grouping, blocks) = .ok next ∧ Indexed (prior ++ blocks) next := by
  have fits : ∀ pool, (leavesIn trees prior pool ++ leavesIn trees blocks pool).length ≤ 2 ^ depth :=
    fun pool => leavesIn_append prior blocks pool ▸ indexable.fits pool
  have canonical : ∀ ctx ∈ blocks, ctx.Canonical trees :=
    fun ctx member => indexable.canonical ctx (mem_append_right _ member)
  rcases mergeBatch_returns indexed.carry canonical fits sized with
    ⟨entries, carry, is_merged, of_entries, of_carry⟩
  have each : ∀ pool, ∃ held, (do
      let entries ← (blocks.mapM fun ctx => extractSubtrees trees pool ctx fun height =>
        (insertAll state.indexes.treeState
          (entries.map fun entry => (entry.height, entry.value))).lookup height).mapError
            IndexError.subtrees
      .ok ((state.indexes.subtrees.get pool).editAll
        (Edit.puts (entries.flatten.map fun entry => (entry.index, entry.root))))) =
          (.ok held : Except IndexError _) ∧
      ∀ k, held[k]? = subtreeAt trees pool (prior ++ blocks) k := by
    intro pool
    rcases mapM_extractSubtrees_returns pool indexable
      (fun height within => lookup_treeState_insertAll indexed indexable of_entries within) with
      ⟨found, are_found, listed⟩
    refine ⟨_, by rw [are_found]; rfl, fun k => ?_⟩
    rw [listed, getElem?_editAll_numbered _ _ (fun k _ => subtreeAt_isSome), indexed.subtrees]
    split
    · rfl
    · next outside =>
      rcases lt_or_ge k (subtreeCount trees pool prior) with earlier | later
      · exact (subtreeAt_append earlier).symm
      · rw [subtreeAt_eq_none later, subtreeAt_eq_none (by omega)]
  rcases Pools.exists_buildM_eq_ok each with ⟨subtrees, are_subtrees, hold⟩
  refine ⟨⟨⟨insertAll state.indexes.treeState
    (entries.map fun entry => (entry.height, entry.value)), subtrees⟩, carry⟩, ?_, ?_, ?_, hold⟩
  · rw [indexBatch, is_merged, Except.mapError, ok_bind]
    dsimp only
    rw [are_subtrees]
    rfl
  · intro pool
    rw [leavesIn_append]
    exact of_carry pool
  · intro height within
    exact lookup_treeState_insertAll indexed indexable of_entries within

theorem emptyIndexState_indexed : Indexed [] (emptyIndexState trees) where
  carry := initialCarry_of
  treeState := fun height within => absurd within (not_lt_zero height)
  subtrees := fun pool k => by
    have nothing : (emptyIndexState trees).indexes.subtrees.get pool = ∅ := Pools.get_build _ pool
    have open_still : subtreeCount trees pool [] ≤ k := by
      have none : subtreeCount trees pool [] = 0 := Nat.zero_div _
      omega
    rw [nothing, subtreeAt_eq_none open_still]
    exact Std.ExtTreeMap.getElem?_empty

/-- However a chain is cut into batches, indexing it holds what its blocks say. -/
theorem indexAll_indexed {batches : List (Grouping × List TreeStateCtx)}
    (indexed : Indexed prior state)
    (indexable : Indexable trees (prior ++ batches.flatMap Prod.snd))
    (sized : ∀ batch ∈ batches, batch.1.operands = batch.2.length) :
    ∃ final, indexAll state batches = .ok final ∧
      Indexed (prior ++ batches.flatMap Prod.snd) final := by
  induction batches generalizing prior state with
  | nil =>
    refine ⟨state, rfl, ?_⟩
    rw [flatMap_nil, append_nil]
    exact indexed
  | cons batch rest ih =>
    rw [flatMap_cons, ← append_assoc] at indexable ⊢
    rcases indexBatch_indexed indexed indexable.left (sized batch mem_cons_self) with
      ⟨next, is_next, indexed_next⟩
    rcases ih indexed_next indexable
      (fun later member => sized later (mem_cons_of_mem batch member)) with
      ⟨final, is_final, indexed_final⟩
    refine ⟨final, ?_, indexed_final⟩
    rw [indexAll, foldlM_cons, show indexBatch state batch = .ok next from is_next]
    exact is_final

end Trees

end Zaino.Shielded
