import Zaino.Shielded.LocalRead
import Zaino.Transparent.LocalRead

/-!
# Across the seam

A store and a window over one chain (`Composed`), where the window may begin anywhere. The treestate
answered for a window block is the one the store answers once it holds the block: the window refuses
unless its blocks reach the seam, and from there the fold is the store's own extraction.

Subtree roots are those of the chain that the window's blocks would make right after the watermark
(`Composed.subtreeRoots_returns`). They are the chain's own exactly when leaving out the blocks
between the two tiers changes no subtree of the asked page (`subtreeRoots_exact_iff`).
-/

namespace Zaino.Shielded

open Zaino Library ChainHead List Transparent Nat Except SubtreeRoot WindowSubtree UInt16 Height

section Trees

variable {trees : NoteTrees}

/-- Both tiers hold parts of one chain: the store every block up to its watermark, the window the
blocks from `floor` to `tip`, wherever it begins. -/
structure Composed (view : ChainView trees) (chain : Chain trees) (floor tip : Height) : Prop where
  stored : view.finalised.Serves chain
  reached : tip.value < chain.blocks.length
  windowed : (bestChain view.nonFinalised).map ChainHeadBlock.block =
    (chain.blocks.take (tip.value + 1)).drop floor.value
  named : ∀ block ∈ bestChain view.nonFinalised,
    block.height = block.block.header.height ∧ block.reference.hash = block.block.header.hash
  tipped : view.nonFinalised.bestTip.height = tip

/-- What both tiers hold together: the blocks below the seam, and the window's from the seam on. -/
def Chain.servedCtxs (chain : Chain trees) (seam floor tip : Nat) : List TreeStateCtx :=
  chain.ctxs seam ++ ((chain.blocks.take (tip + 1)).drop (max floor seam)).map treeStateCtx

/-! ## The seed -/

variable (chain : Chain trees)

theorem Chain.height_eq {i : Nat} {block : Block}
    (is_block : chain.blocks[i]? = some block) : block.header.height.value = i := by
  have within := (List.getElem?_eq_some_iff.mp is_block).1
  have listed := congrArg (fun heights => heights[i]?) chain.indexable.heights
  rw [List.getElem?_map, List.getElem?_map, is_block, List.length_map,
    getElem?_range within] at listed
  exact Option.some.inj listed

theorem Chain.height_lt_of_mem_take {count : Nat} {block : Block}
    (member : block ∈ chain.blocks.take count) : block.header.height.value < count := by
  rcases mem_iff_getElem?.mp member with ⟨i, is_block⟩
  rw [getElem?_take] at is_block
  split at is_block
  · next below =>
    rw [chain.height_eq is_block]
    exact below
  · cases is_block

variable {at_ : Height}

theorem Chain.leavesIn_eq_nil {pool : ShieldedPool}
    (inactive : ∀ activation, chain.activations.get pool = some activation → at_ < activation) :
    leavesIn trees (chain.ctxs (at_.value + 1)) pool = [] := by
  rw [leavesIn, flatMap_eq_nil_iff]
  intro ctx member
  rcases mem_map.mp member with ⟨block, at_block, rfl⟩
  have none_here : (treeStateCtx block).commitments pool = [] := by
    by_contra some_here
    rcases chain.activated block (mem_of_mem_take at_block) pool some_here with
      ⟨activation, scheduled, active⟩
    have above := lt_def.mp (inactive activation scheduled)
    have low := chain.height_lt_of_mem_take at_block
    have reached := le_def.mp active
    omega
  rw [TreeStateCtx.leaves, none_here]
  rfl

variable {value : TreeStateValue trees}

/-- The frontiers rendered at a block of the chain are read back from the rendering. -/
theorem Chain.seedValue_returns
    (of_value : FrontiersOf value (leavesIn trees (chain.ctxs (at_.value + 1))))
    (hash : BlockHash) (time : UInt32) : ∃ seed, seedValue trees
        (some ⟨hash, at_, time, poolTreestates value chain.activations at_⟩) = .ok seed ∧
      FrontiersOf seed (leavesIn trees (chain.ctxs (at_.value + 1))) := by
  refine @Pools.exists_buildM_eq_ok _ _ _ (fun pool frontier => Frontier.Of
    (trees.tree pool).combine frontier (leavesIn trees (chain.ctxs (at_.value + 1)) pool)) fun pool => ?_
  rw [Option.bind_some, poolTreestates, Pools.get_build]
  rcases poolTreestate_cases pool (value.get pool) (chain.activations.get pool) at_ with
    ⟨inactive, is_absent⟩ | is_rendered
  · rw [is_absent]
    exact ⟨none, rfl, chain.leavesIn_eq_nil inactive⟩
  · rw [is_rendered]
    exact ⟨_, (trees.tree pool).legacyRoundTrip _ _ (of_value pool)
      ((chain.indexable_ctxs _).fits pool), of_value pool⟩

variable {chain : Chain trees} {view : ChainView trees} {floor tip : Height}

/-- The seed carries the frontiers at the watermark. -/
theorem Composed.seed_returns (composed : Composed view chain floor tip) :
    ∃ seed value, view.seed = .ok seed ∧ seamNext seed = seamOf view.finalised.watermark ∧
      seedValue trees seed = .ok value ∧
      FrontiersOf value (leavesIn trees (chain.ctxs (seamOf view.finalised.watermark))) := by
  rw [ChainView.seed]
  cases pinned : view.finalised.watermark with
  | none => exact ⟨none, initialCarry, rfl, rfl, rfl, initialCarry_of⟩
  | some watermark =>
    have held := composed.stored.held
    rw [pinned] at held
    have within : watermark.value < chain.blocks.length := lt_of_succ_le held
    rcases composed.stored.treestate_returns (by rw [pinned]; exact lt_succ_self _)
      (getElem?_eq_getElem within) with ⟨value, of_value, is_treestate⟩
    rcases chain.seedValue_returns of_value (chain.blocks[watermark.value]).header.hash
      (chain.blocks[watermark.value]).header.time with ⟨seed, is_seed, of_seed⟩
    refine ⟨_, seed, ?_, rfl, is_seed, of_seed⟩
    dsimp only
    rw [is_treestate]
    rfl

/-! ## Subtree roots -/

/-- Blocks at consecutive heights, from a height on. -/
theorem filter_heights {blocks : List Block} {base : Nat}
    (heights : ∀ i block, blocks[i]? = some block → block.header.height.value = base + i)
    (seam : Nat) : (blocks.filter fun block => decide (seam ≤ block.header.height.value)) =
      blocks.drop (seam - base) := by
  induction blocks generalizing base with
  | nil => rw [filter_nil, drop_nil]
  | cons block rest ih =>
    have here : block.header.height.value = base := heights 0 block rfl
    have above := @ih (base + 1) fun i later is_later => by
      rw [heights (i + 1) later is_later]
      omega
    rw [filter_cons, here, above]
    by_cases inside : seam ≤ base
    · rw [if_pos (decide_eq_true inside), Nat.sub_eq_zero_of_le inside,
        Nat.sub_eq_zero_of_le (by omega)]
      rfl
    · rw [if_neg (by simp; omega), show seam - base = seam - (base + 1) + 1 by omega,
        drop_succ_cons]

/-- The blocks the window folds. -/
theorem Composed.windowCtxs_eq (composed : Composed view chain floor tip) (seam : Nat) :
    ((bestChain view.nonFinalised).filter fun block =>
        decide (seam ≤ block.height.value)).map (fun block => treeStateCtx block.block) =
      ((chain.blocks.take (tip.value + 1)).drop (max floor.value seam)).map treeStateCtx := by
  have by_header : ((bestChain view.nonFinalised).filter fun block =>
      decide (seam ≤ block.height.value)) =
      (bestChain view.nonFinalised).filter fun block =>
        decide (seam ≤ block.block.header.height.value) :=
    filter_congr fun block member => by rw [(composed.named block member).1]
  have mapped : ((bestChain view.nonFinalised).filter fun block =>
      decide (seam ≤ block.block.header.height.value)).map ChainHeadBlock.block =
      ((bestChain view.nonFinalised).map ChainHeadBlock.block).filter fun block =>
        decide (seam ≤ block.header.height.value) := by
    rw [filter_map]
    rfl
  have heights : ∀ i block, ((chain.blocks.take (tip.value + 1)).drop floor.value)[i]? = some block →
      block.header.height.value = floor.value + i := by
    intro i block is_block
    rw [getElem?_drop, getElem?_take] at is_block
    split at is_block
    · exact chain.height_eq is_block
    · cases is_block
  have split : floor.value + (seam - floor.value) = max floor.value seam := by omega
  rw [by_header, ← Function.comp_def, ← map_map, mapped, composed.windowed,
    filter_heights heights, drop_drop, split]

theorem Chain.servedCtxs_sublist (seam floor tip : Nat) :
    (chain.servedCtxs seam floor tip).Sublist (chain.blocks.map treeStateCtx) := by
  rw [Chain.servedCtxs, ← chain.ctxs_append seam]
  refine List.Sublist.append (List.Sublist.refl _) (List.Sublist.map _ ?_)
  have later : max floor seam = seam + (floor - seam) := by omega
  rw [later, ← drop_drop]
  exact (drop_sublist _ _).trans ((take_sublist _ _).drop seam)

/-- What the tiers hold together can be folded. -/
theorem Chain.servedCtxs_valid (seam floor tip : Nat) :
    (∀ ctx ∈ chain.servedCtxs seam floor tip, ctx.Canonical trees) ∧
      ∀ pool, (leavesIn trees (chain.servedCtxs seam floor tip) pool).length ≤ 2 ^ depth := by
  have part := chain.servedCtxs_sublist seam floor tip
  refine ⟨fun ctx member => chain.indexable.canonical ctx (part.subset member), fun pool => ?_⟩
  exact le_trans (List.Sublist.flatMap part _).length_le (chain.indexable.fits pool)

theorem Chain.mem_servedCtxs (seam floor tip : Nat) :
    ∀ ctx ∈ chain.servedCtxs seam floor tip, ∃ block ∈ chain.blocks, treeStateCtx block = ctx :=
  fun _ member => mem_map.mp ((chain.servedCtxs_sublist seam floor tip).subset member)

/-- The numbers of a page, cut out of a stretch. -/
theorem filter_inPage {pool : ShieldedPool} {blocks : List TreeStateCtx} {lo : Nat}
    (present : ∀ k < subtreeCount trees pool blocks, (subtreeAt trees pool blocks k).isSome)
    (startIndex : UInt16) (limit : Option UInt16) :
    ((numbered (subtreeAt trees pool blocks) lo (subtreeCount trees pool blocks)).filter
        fun pair => inPage startIndex limit pair.1) =
      numbered (subtreeAt trees pool blocks) (max lo startIndex.toNat)
        (pageEnd trees pool blocks startIndex.toNat (limit.map toNat)) := by
  have dense : ∀ k, lo ≤ k → k < subtreeCount trees pool blocks →
      (subtreeAt trees pool blocks k).isSome := fun k _ => present k
  cases limit with
  | none =>
    have cut := filter_numbered dense startIndex.toNat (subtreeCount trees pool blocks)
    rw [min_self] at cut
    rw [Option.map_none, pageEnd, ← cut]
    refine filter_congr fun pair member => ?_
    have below := (lt_of_mem_numbered member).2
    simp [inPage, below]
  | some n =>
    have cut := filter_numbered dense startIndex.toNat (startIndex.toNat + n.toNat)
    rw [Option.map_some, pageEnd, ← cut]
    refine filter_congr fun pair _ => ?_
    simp [inPage]

variable (composed : Composed view chain floor tip)

include composed

/-- The window's part of a page: its own completions, on the seed's frontiers. -/
theorem Composed.windowSubtreeRoots_returns
    {seed : Option Treestate} (reaches : seamNext seed = seamOf view.finalised.watermark)
    (is_value : seedValue trees seed = .ok value)
    (of_value : FrontiersOf value (leavesIn trees (chain.ctxs (seamOf view.finalised.watermark))))
    (pool : ShieldedPool) (startIndex : UInt16) (limit : Option UInt16) :
    ∃ roots, windowSubtreeRoots trees view.nonFinalised seed pool startIndex limit = .ok roots ∧
      roots.map SubtreeRoot.record = (numbered (subtreeAt trees pool
            (chain.servedCtxs (seamOf view.finalised.watermark) floor.value tip.value))
          (max (subtreeCount trees pool (chain.ctxs (seamOf view.finalised.watermark)))
            startIndex.toNat) (pageEnd trees pool
            (chain.servedCtxs (seamOf view.finalised.watermark) floor.value tip.value)
            startIndex.toNat (limit.map toNat))).map Prod.snd := by
  generalize is_seam : seamOf view.finalised.watermark = seam at reaches of_value ⊢
  have valid := chain.servedCtxs_valid seam floor.value tip.value
  have completes := windowSubtrees_returns pool of_value
    (fun ctx member => valid.1 ctx (mem_append_right _ member)) valid.2
  change _ = ok ((numbered (subtreeAt trees pool (chain.servedCtxs seam floor.value tip.value))
    _ (subtreeCount trees pool (chain.servedCtxs seam floor.value tip.value))).map _) at completes
  -- The page keeps the numbers from the start on and below the limit.
  have cut : (((numbered (subtreeAt trees pool (chain.servedCtxs seam floor.value tip.value))
      (subtreeCount trees pool (chain.ctxs seam))
      (subtreeCount trees pool (chain.servedCtxs seam floor.value tip.value))).map
        ofRecord).filter fun completion =>
          inPage startIndex limit completion.index) =
      (numbered (subtreeAt trees pool (chain.servedCtxs seam floor.value tip.value))
        (max (subtreeCount trees pool (chain.ctxs seam)) startIndex.toNat)
        (pageEnd trees pool (chain.servedCtxs seam floor.value tip.value) startIndex.toNat
          (limit.map toNat))).map ofRecord := by
    rw [filter_map]
    exact congrArg _ (filter_inPage (fun k below => subtreeAt_isSome below) startIndex limit)
  have served : ∀ completion ∈ (numbered
      (subtreeAt trees pool (chain.servedCtxs seam floor.value tip.value))
      (max (subtreeCount trees pool (chain.ctxs seam)) startIndex.toNat)
      (pageEnd trees pool (chain.servedCtxs seam floor.value tip.value) startIndex.toNat
        (limit.map toNat))).map ofRecord,
      ∃ root, domainSubtreeRoot completion = .ok root ∧ root.record =
        SubtreeRecord.mk completion.root completion.completingBlockHash
          completion.completingHeight := by
    intro completion member
    rcases mem_map.mp member with ⟨pair, at_pair, rfl⟩
    rcases mem_filterMap.mp at_pair with ⟨k, _, is_pair⟩
    rcases Option.map_eq_some_iff.mp is_pair with ⟨found, is_found, rfl⟩
    have bounded : found.completingHeight ≤ maxHeight :=
      chain.completingHeight_le (chain.mem_servedCtxs seam floor.value tip.value) is_found
    refine ⟨⟨found.root, found.completingBlockHash, ⟨found.completingHeight, bounded⟩⟩, ?_, rfl⟩
    rw [domainSubtreeRoot, ofRecord, tryFrom, dif_pos bounded, okOr, ok_bind]
  rcases exists_mapM_eq_ok SubtreeRoot.record served with ⟨roots, are_roots, are_records⟩
  refine ⟨roots, ?_, ?_⟩
  · rw [windowSubtreeRoots, reaches, composed.windowCtxs_eq, is_value, Except.mapError, ok_bind, completes, Except.mapError,
      ok_bind, cut, are_roots]
  · rw [are_records, map_map]
    rfl

/-- The composed read returns the page of the chain that the tiers make when put together. -/
theorem Composed.subtreeRoots_returns
    (pool : ShieldedPool) (startIndex : UInt16) (limit : Option UInt16) :
    ∃ roots, view.subtreeRoots pool startIndex limit = .ok roots ∧
      roots.map SubtreeRoot.record = subtreePage trees pool
        (chain.servedCtxs (seamOf view.finalised.watermark) floor.value tip.value)
        startIndex.toNat (limit.map toNat) := by
  rcases composed.stored.subtreeRoots_returns pool startIndex limit with ⟨stored, is_stored, records⟩
  rcases composed.seed_returns with ⟨seed, value, is_seed, reaches, is_value, of_value⟩
  rcases composed.windowSubtreeRoots_returns reaches is_value of_value pool startIndex limit with
    ⟨window, is_window, window_records⟩
  generalize seamOf view.finalised.watermark = seam at records window_records ⊢
  have few : subtreeCount trees pool (chain.ctxs seam) ≤
      subtreeCount trees pool (chain.servedCtxs seam floor.value tip.value) :=
    subtreeCount_mono pool _ _
  -- Below the store's count the chain of both tiers has the store's subtrees.
  have same : ∀ hi ≤ subtreeCount trees pool (chain.ctxs seam),
      numbered (subtreeAt trees pool (chain.ctxs seam)) startIndex.toNat hi =
        numbered (subtreeAt trees pool (chain.servedCtxs seam floor.value tip.value))
          startIndex.toNat hi :=
    fun hi within => numbered_congr fun k _ below =>
      (subtreeAt_append (lt_of_lt_of_le below within)).symm
  have dense : ∀ hi ≤ subtreeCount trees pool (chain.servedCtxs seam floor.value tip.value),
      ∀ k, startIndex.toNat ≤ k → k < hi →
        (subtreeAt trees pool (chain.servedCtxs seam floor.value tip.value) k).isSome :=
    fun hi within k _ below => subtreeAt_isSome (lt_of_lt_of_le below within)
  rw [subtreePage, same _ (pageEnd_le pool _ _ _)] at records
  rw [ChainView.subtreeRoots, is_stored, ok_bind, is_seed, ok_bind, is_window, ok_bind]
  cases limit with
  | none =>
    refine ⟨stored ++ window, rfl, ?_⟩
    rw [map_append, records, window_records, ← map_append, subtreePage]
    exact congrArg _ (numbered_append_max few)
  | some n =>
    refine ⟨(stored ++ window).take n.toNat, rfl, ?_⟩
    rw [map_take, map_append, records, window_records, ← map_append, subtreePage,
      ← map_take]
    refine congrArg _ ?_
    have whole := take_numbered (dense _ (pageEnd_le pool _ startIndex.toNat (some n.toNat))) n.toNat
    simp only [Option.map_some, pageEnd] at whole ⊢
    rcases Nat.eq_zero_or_pos n.toNat with none_asked | asked
    · rw [none_asked, take_zero, numbered_of_le (by omega)]
    · rw [max_eq_left asked]
      rcases lt_or_ge (subtreeCount trees pool (chain.ctxs seam)) (startIndex.toNat + n.toNat)
        with beyond | inside
      · rw [min_eq_left (Nat.le_of_lt beyond),
          numbered_append_max (Nat.le_min.mpr ⟨few, Nat.le_of_lt beyond⟩), whole]
        congr 1
        omega
      · -- The store's page is full, and the window adds nothing to it.
        rw [min_eq_right inside, min_eq_right (le_trans inside few),
          numbered_of_le (le_trans inside (le_max_left _ _)), append_nil]
        rw [min_eq_right (le_trans inside few)] at whole
        rw [whole, min_self]

/-! ## Treestates -/

/-- What the walk has collected: the chain's blocks from the seam on, and the asked block's identity
if it is among them. -/
structure WindowWalk.Along (walk : WindowWalk) (chain : Chain trees) (seam : Nat) (at_ : Height) :
    Prop where
  ordered : seam ≤ walk.expected
  ctxs : walk.ctxs = ((chain.blocks.take walk.expected).drop seam).map treeStateCtx
  identity : ∀ hash time, walk.identity = some (hash, time) →
    ∃ block, chain.blocks[at_.value]? = some block ∧ block.header.hash = hash ∧
      block.header.time = time

/-- A window block is the chain's block at its height. -/
theorem Composed.block_of_mem {block : ChainHeadBlock}
    (member : block ∈ bestChain view.nonFinalised) :
    chain.blocks[block.height.value]? = some block.block := by
  have listed : block.block ∈ (chain.blocks.take (tip.value + 1)).drop floor.value := by
    rw [← composed.windowed]
    exact mem_map_of_mem member
  rcases mem_iff_getElem?.mp (mem_of_mem_take (mem_of_mem_drop listed)) with
    ⟨i, is_block⟩
  rw [(composed.named block member).1, chain.height_eq is_block]
  exact is_block

/-- The walk stays along the chain. -/
theorem Composed.walkWindow_along {seam : Nat}
    {blocks : List ChainHeadBlock} {walk result : WindowWalk}
    (members : ∀ block ∈ blocks, block ∈ bestChain view.nonFinalised)
    (along : walk.Along chain seam at_) (walked : walkWindow seam at_ walk blocks = .ok result) :
    result.Along chain seam at_ := by
  induction blocks generalizing walk with
  | nil => exact ok.inj walked ▸ along
  | cons block rest ih =>
    have rest_members : ∀ later ∈ rest, later ∈ bestChain view.nonFinalised :=
      fun later member => members later (mem_cons_of_mem block member)
    have member := members block mem_cons_self
    have is_block := composed.block_of_mem member
    rw [walkWindow] at walked
    split at walked
    · exact ih rest_members along walked
    · split at walked
      · exact ok.inj walked ▸ along
      · split at walked
        · cases walked
        · next _ _ expected =>
          have at_expected : block.height.value = walk.expected := Decidable.not_not.mp expected
          refine ih rest_members ⟨?_, ?_, ?_⟩ walked
          · exact le_succ_of_le along.ordered
          · have bound := (List.getElem?_eq_some_iff.mp is_block).1
            rw [at_expected] at is_block bound
            rw [along.ctxs, take_add_one, is_block, Option.toList_some,
              drop_append_of_le_length, map_append]
            · rfl
            · rw [length_take, min_eq_left (Nat.le_of_lt bound)]
              exact along.ordered
          · intro hash time is_identity
            split at is_identity
            · next same =>
              have names := Prod.mk.inj (Option.some.inj is_identity)
              rw [← same]
              exact ⟨block.block, is_block, by rw [← names.1, (composed.named block member).2],
                names.2⟩
            · exact along.identity hash time is_identity

omit composed

/-- Folding blocks onto the frontiers of the blocks before them. -/
theorem foldWindow_returns {prior blocks : List TreeStateCtx} {seed : TreeStateValue trees}
    (of_prior : FrontiersOf seed (leavesIn trees prior))
    (canonical : ∀ ctx ∈ blocks, ctx.Canonical trees)
    (fits : ∀ pool, (leavesIn trees (prior ++ blocks) pool).length ≤ 2 ^ depth) :
    ∃ value, foldWindow seed blocks = .ok value ∧
      FrontiersOf value (leavesIn trees (prior ++ blocks)) := by
  induction blocks generalizing prior seed with
  | nil =>
    refine ⟨seed, rfl, ?_⟩
    rw [append_nil]
    exact of_prior
  | cons ctx rest ih =>
    obtain ⟨_, next, is_next, of_grown⟩ := extract_next of_prior (canonical ctx mem_cons_self) fits
    have joined : prior ++ ctx :: rest = prior ++ [ctx] ++ rest := by simp
    rw [joined] at fits ⊢
    rcases ih of_grown (fun later member => canonical later (mem_cons_of_mem _ member)) fits
      with ⟨value, is_value, of_value⟩
    refine ⟨value, ?_, of_value⟩
    rw [foldWindow, foldlM_cons, is_next, ok_bind, ok_bind]
    exact is_value

/-- A chain's treestate at a block: its hash and time, and the frontiers up to it, rendered. -/
def Chain.Treestate (chain : Chain trees) (at_ : Height) (answer : Shielded.Treestate) : Prop :=
  ∃ block value, chain.blocks[at_.value]? = some block ∧
    FrontiersOf value (leavesIn trees (chain.ctxs (at_.value + 1))) ∧
    answer = ⟨block.header.hash, at_, block.header.time, poolTreestates value chain.activations at_⟩

/-- A chain has one treestate at a height. -/
theorem Chain.Treestate.unique
    {first second : Shielded.Treestate} (is_first : chain.Treestate at_ first)
    (is_second : chain.Treestate at_ second) : first = second := by
  rcases is_first with ⟨block, value, is_block, of_value, rfl⟩
  rcases is_second with ⟨block', value', is_block', of_value', rfl⟩
  rw [Option.some.inj (is_block.symm.trans is_block'), of_value.unique of_value']

/-- A store that holds a block answers the chain's treestate at it. -/
theorem StoreSnapshot.Serves.treestate_of_chain {store : StoreSnapshot trees}
    (serves : store.Serves chain) (covered : at_.value < seamOf store.watermark) :
    ∃ answer, store.treestate at_ = .ok answer ∧ chain.Treestate at_ answer := by
  have within : at_.value < chain.blocks.length := lt_of_lt_of_le covered serves.held
  rcases serves.treestate_returns covered (getElem?_eq_getElem within) with
    ⟨value, of_value, is_treestate⟩
  exact ⟨_, is_treestate, _, value, getElem?_eq_getElem within, of_value, rfl⟩

/-- The blocks below the seam and those collected from it on are the chain's. -/
theorem WindowWalk.Along.ctxs_append {walk : WindowWalk} {seam : Nat}
    (along : walk.Along chain seam at_) :
    chain.ctxs seam ++ walk.ctxs = chain.ctxs walk.expected := by
  rw [along.ctxs, Chain.ctxs, Chain.ctxs, ← map_append]
  conv_rhs => rw [← take_append_drop seam (chain.blocks.take walk.expected)]
  rw [take_take, min_eq_left along.ordered]

/-- Whatever treestate the window answers is the chain's: it refuses a gap below the block. -/
theorem Composed.windowTreestate_of_ok (composed : Composed view chain floor tip)
    {seed : Option Treestate} {seam : Nat} (is_seam : seamNext seed = seam)
    (is_value : seedValue trees seed = .ok value)
    (of_value : FrontiersOf value (leavesIn trees (chain.ctxs seam))) {answer : Treestate}
    (answered : windowTreestate trees view.nonFinalised seed chain.activations at_ =
      .ok (some answer)) : chain.Treestate at_ answer := by
  rw [windowTreestate] at answered
  split at answered
  · cases answered
  · rw [is_seam] at answered
    dsimp only at answered
    cases walked : walkWindow seam at_ ⟨[], seam, none⟩
        (bestChain view.nonFinalised) with
    | error e =>
      rw [walked] at answered
      cases answered
    | ok walk =>
      have along : walk.Along chain seam at_ := by
        refine composed.walkWindow_along (fun _ member => member) ⟨le_refl _, ?_, ?_⟩ walked
        · rw [drop_take, Nat.sub_self, take_zero, map_nil]
        · exact fun _ _ none_here => nomatch none_here
      have joined := along.ctxs_append
      have indexable := chain.indexable_ctxs walk.expected
      rw [← joined] at indexable
      rcases foldWindow_returns of_value
        (fun ctx member => indexable.canonical ctx (mem_append_right _ member))
        indexable.fits with ⟨folded, is_folded, of_folded⟩
      rw [joined] at of_folded
      rw [walked, ok_bind] at answered
      split at answered
      · cases answered
      · next reached =>
        rw [Decidable.not_not.mp reached] at of_folded
        cases identity : walk.identity with
        | none =>
          rw [identity] at answered
          cases answered
        | some named =>
          rcases along.identity named.1 named.2 identity with ⟨block, is_block, is_hash, is_time⟩
          rw [identity, okOr, ok_bind, is_value, Except.mapError, ok_bind, is_folded,
            Except.mapError, ok_bind, ← is_hash, ← is_time] at answered
          exact ⟨block, folded, is_block, of_folded,
            (Option.some.inj (ok.inj answered)).symm⟩

/-- Whatever treestate the composed read answers is the chain's. -/
theorem Composed.treestate_of_ok (composed : Composed view chain floor tip) {answer : Treestate}
    (answered : view.treestate at_ = .ok answer) : chain.Treestate at_ answer := by
  rcases composed.seed_returns with ⟨seed, value, is_seed, is_seam, is_value, of_value⟩
  rw [ChainView.treestate] at answered
  by_cases covered : at_.value < seamOf view.finalised.watermark
  · rcases composed.stored.treestate_of_chain covered with ⟨held, is_held, of_chain⟩
    rw [if_pos (covered_iff.mpr covered), is_held] at answered
    exact ok.inj answered ▸ of_chain
  · rw [if_neg (fun finalised => covered (covered_iff.mp finalised)), is_seed, ok_bind,
      composed.stored.activations] at answered
    cases windowed : windowTreestate trees view.nonFinalised seed chain.activations at_ with
    | error e =>
      rw [windowed] at answered
      cases answered
    | ok found =>
      rw [windowed, ok_bind] at answered
      cases found with
      | none => cases answered
      | some treestate =>
        rw [ok.inj answered] at windowed
        exact composed.windowTreestate_of_ok is_seam is_value of_value windowed

/-! ## Both reads -/

/-- The treestate answered for a block is the one any store answers once it holds the block, and a
page of subtree roots is the chain's exactly when no subtree of the page changes by leaving out the
blocks between the watermark and the window. -/
theorem composedReads_exact_iff
    (composed : Composed view chain floor tip) (pool : ShieldedPool) (startIndex : UInt16)
    (limit : Option UInt16) : ((∀ roots, view.subtreeRoots pool startIndex limit = .ok roots →
        roots.map SubtreeRoot.record = subtreePage trees pool (chain.ctxs (tip.value + 1))
          startIndex.toNat (limit.map UInt16.toNat)) ∧
      ∀ at_ answer, view.treestate at_ = .ok answer → ∀ later : StoreSnapshot trees,
        later.Serves chain → at_.value < seamOf later.watermark →
          later.treestate at_ = .ok answer) ↔ ∀ i, Admits (limit.map UInt16.toNat) i →
        subtreeAt trees pool
            (chain.servedCtxs (seamOf view.finalised.watermark) floor.value tip.value)
            (startIndex.toNat + i) =
          subtreeAt trees pool (chain.ctxs (tip.value + 1)) (startIndex.toNat + i) := by
  rcases composed.subtreeRoots_returns pool startIndex limit with ⟨roots, is_roots, are_roots⟩
  rw [← subtreePage_eq_iff, ← are_roots]
  constructor
  · exact fun ⟨page, _⟩ => page roots is_roots
  · intro page
    refine ⟨?_, ?_⟩
    · intro answered is_answered
      rw [is_roots] at is_answered
      rw [← Except.ok.inj is_answered]
      exact page
    · intro at_ answer answered later serves covered
      rcases serves.treestate_of_chain covered with ⟨held, is_held, of_chain⟩
      rw [is_held, of_chain.unique (composed.treestate_of_ok answered)]

end Trees

/-! ## A gap that holds a subtree -/

/-- A tree that only counts its leaves. -/
def countingTree : NoteTree where
  Node := Unit
  combine := fun _ _ _ => ()
  leaf := fun _ => some ()
  nodeBytes := fun _ => 0
  root := fun _ => ()
  legacyTreeBytes := fun frontier => List.replicate frontier.treeSize 0
  legacyTreeFromBytes := fun bytes =>
    match bytes.length with
    | 0 => .ok none
    | position + 1 =>
      .ok (some ⟨position, (), List.replicate (pastAddrs 0 position).length ()⟩)
  legacyRoundTrip := by
    intro frontier leaves of_leaves _
    cases frontier with
    | none => rfl
    | some frontier =>
      dsimp only [Frontier.treeSize]
      rw [length_replicate]
      have counted := of_leaves.ommers.length_eq
      have ommers : frontier.ommers = List.replicate frontier.ommers.length () :=
        eq_replicate_iff.mpr ⟨rfl, fun _ _ => rfl⟩
      dsimp only
      rw [counted, ← ommers]

def countingTrees : NoteTrees := ⟨countingTree, countingTree⟩

/-- A transaction with some Sapling outputs. -/
def shieldingTransaction (outputs : Nat) : Transaction where
  txid := 1
  transparent := ⟨[], []⟩
  sapling := ⟨[], List.replicate outputs ⟨0, 0, 0⟩⟩

/-- Three blocks, the middle one with a subtree of Sapling outputs. -/
def shieldedBlocks : List Block :=
  [sampleMined 0 [],
    sampleMined 1 [shieldingTransaction (2 ^ subtreeLevel)],
    sampleMined 2 []]

theorem countingTrees_canonical (ctx : TreeStateCtx) : ctx.Canonical countingTrees := by
  intro pool commitment _
  cases pool <;> rfl

/-- The middle block's outputs are all the leaves there are. -/
theorem length_leavesIn_shieldedBlocks (pool : ShieldedPool) :
    (leavesIn countingTrees (shieldedBlocks.map treeStateCtx) pool).length =
      if pool = .sapling then 2 ^ subtreeLevel else 0 := by
  have counted : ∀ block : Block,
      ((treeStateCtx block).leaves countingTrees pool).length =
        ((treeStateCtx block).commitments pool).length :=
    fun block => length_leaves (countingTrees_canonical _) pool
  rw [shieldedBlocks, map_cons, map_cons, map_cons, map_nil, leavesIn_cons,
    leavesIn_cons, leavesIn_cons, length_append, length_append, length_append,
    counted, counted, counted]
  cases pool with
  | sapling =>
    simp [treeStateCtx, TreeStateCtx.commitments, sampleMined, shieldingTransaction,
      leavesIn]
  | orchard => rfl
  | ironwood => rfl

def shieldedChain : Chain countingTrees where
  activations := Pools.build fun _ => some genesis
  blocks := shieldedBlocks
  indexable := {
    heights := rfl
    canonical := fun ctx _ => countingTrees_canonical ctx
    fits := fun pool => by
      rw [length_leavesIn_shieldedBlocks]
      split <;> decide }
  activated := fun block _ pool _ => by
    rw [Pools.get_build]
    exact ⟨genesis, rfl, le_def.mpr (zero_le _)⟩

/-- A store that holds the first block. -/
def shieldedStore : StoreSnapshot countingTrees where
  watermark := some genesis
  activations := shieldedChain.activations
  indexes := match indexAll (emptyIndexState countingTrees) [(.operand, shieldedChain.ctxs 1)] with
    | .ok state => state.indexes
    | .error _ => (emptyIndexState countingTrees).indexes
  headers := HashMap.insertAll ∅ [(0, ⟨1, 0⟩)]
  isComplete := fun _ => true
  isFresh := fun _ => true

theorem shieldedStore_serves : shieldedStore.Serves shieldedChain where
  held := by decide
  activations := rfl
  indexed := by
    have sized : ∀ batch ∈ [(Grouping.operand, shieldedChain.ctxs 1)],
        batch.1.operands = batch.2.length := by
      intro batch member
      rw [mem_singleton.mp member]
      rfl
    rcases indexAll_indexed emptyIndexState_indexed (shieldedChain.indexable_ctxs 1) sized with
      ⟨state, is_state, _⟩
    refine ⟨_, state.carry, rfl, sized, ?_⟩
    rw [shieldedStore, is_state]
  headers := by
    intro height below block is_block
    rw [lt_one_iff.mp below] at is_block ⊢
    rw [← Option.some.inj is_block]
    rfl
  complete := fun _ => rfl
  fresh := fun _ => rfl

/-- The store below a window that begins at the middle block or above it. -/
def shieldedView (window : MapBackedSnapshot) : ChainView countingTrees := ⟨shieldedStore, window⟩

/-- A window that begins above the block that completes the subtree. -/
def gapWindow : MapBackedSnapshot :=
  sampleWindow (sampleMined 2 []) []

/-- A window that meets the store. -/
def meetingWindow : MapBackedSnapshot :=
  sampleWindow
    (sampleMined 1 [shieldingTransaction (2 ^ subtreeLevel)])
    [sampleMined 2 []]

theorem gapWindow_composed :
    Composed (shieldedView gapWindow) shieldedChain ⟨2, by decide⟩ ⟨2, by decide⟩ where
  stored := shieldedStore_serves
  reached := by decide
  windowed := rfl
  named := by
    have listed : bestChain gapWindow =
      [sampleWindow.retained (sampleMined 2 [])] := rfl
    intro block member
    rw [mem_singleton.mp member]
    exact ⟨rfl, rfl⟩
  tipped := rfl

theorem meetingWindow_composed :
    Composed (shieldedView meetingWindow) shieldedChain ⟨1, by decide⟩ ⟨2, by decide⟩ where
  stored := shieldedStore_serves
  reached := by decide
  windowed := rfl
  named := by
    have listed : bestChain meetingWindow =
      [sampleWindow.retained
          (sampleMined 1 [shieldingTransaction (2 ^ subtreeLevel)]),
        sampleWindow.retained (sampleMined 2 [])] := rfl
    intro block member
    rcases mem_pair.mp member with rfl | rfl <;> exact ⟨rfl, rfl⟩
  tipped := rfl

/-- A window that meets the store answers the subtree. -/
theorem composedReads_exact_meeting : (∀ i, Admits none i →
      subtreeAt countingTrees .sapling (shieldedChain.servedCtxs 1 1 2) (0 + i) =
        subtreeAt countingTrees .sapling (shieldedChain.ctxs 3) (0 + i)) ∧
    ∀ roots, (shieldedView meetingWindow).subtreeRoots .sapling 0 none = .ok roots →
      roots.map SubtreeRoot.record =
        subtreePage countingTrees .sapling (shieldedChain.ctxs 3) 0 none := by
  have same : ∀ i, Admits none i →
      subtreeAt countingTrees .sapling (shieldedChain.servedCtxs 1 1 2) (0 + i) =
        subtreeAt countingTrees .sapling (shieldedChain.ctxs 3) (0 + i) :=
    fun _ _ => rfl
  exact ⟨same, ((composedReads_exact_iff meetingWindow_composed .sapling 0 none).mpr same).1⟩

/-- The subtree that a block between the tiers completes is missing from the answer. -/
theorem subtreeRoots_misses_gap :
    Composed (shieldedView gapWindow) shieldedChain ⟨2, by decide⟩ ⟨2, by decide⟩ ∧
    (shieldedView gapWindow).subtreeRoots .sapling 0 none = .ok [] ∧
    subtreePage countingTrees .sapling (shieldedChain.ctxs 3) 0 none ≠ [] := by
  refine ⟨gapWindow_composed, ?_, ?_⟩
  · rcases gapWindow_composed.subtreeRoots_returns .sapling 0 none with ⟨roots, is_roots, records⟩
    have empty : subtreePage countingTrees .sapling (shieldedChain.servedCtxs 1 2 2) 0 none = [] :=
      rfl
    rw [is_roots, map_eq_nil_iff.mp (records.trans empty)]
  · have one : subtreeCount countingTrees .sapling (shieldedChain.ctxs 3) = 1 := by
      have whole : shieldedChain.ctxs 3 = shieldedBlocks.map treeStateCtx := rfl
      rw [subtreeCount, whole, length_leavesIn_shieldedBlocks, if_pos rfl]
      exact Nat.div_self (Nat.two_pow_pos subtreeLevel)
    have complete : (subtreeAt countingTrees .sapling (shieldedChain.ctxs 3) 0).isSome :=
      subtreeAt_isSome (one ▸ Nat.one_pos)
    have first := @getElem?_subtreePage countingTrees .sapling (shieldedChain.ctxs 3) 0 none 0
    rw [pageEnd, one, if_pos (by decide)] at first
    intro empty
    rw [empty] at first
    rw [← first] at complete
    cases complete

end Zaino.Shielded
