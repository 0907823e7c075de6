import Zaino.Library.Numbered
import Zaino.Shielded.Batch

/-!
# Subtree roots

A subtree is a perfect subtree over consecutive note commitments of a pool, `2 ^ 16` of them; it is complete
from the block on that adds the last of them. The index stores each completed subtree under its
number, with the block that completed it, and the window finds those that its own blocks complete.

Both look only at the frontier before a block and at the block's leaves. `subtreeAt` says what the
number of a subtree means for a chain of blocks: the root of its leaves, and the block that has the
last of them. The blocks folded onto the frontier of the blocks before them complete exactly the
subtrees of the whole chain that the earlier blocks had not (`windowSubtrees_returns`).
-/

namespace Zaino.Shielded

open Zaino Library List Nat

section Nodes

variable {H : Type} (combine : Nat → H → H → H)

/-- Fold a node with its left siblings, one for each level; `none` is the panic on a missing one. -/
def foldOmmers : Nat → Nat → H → List H → Option H
  | 0, _, acc, _ => some acc
  | _ + 1, _, _, [] => none
  | remaining + 1, level, acc, ommer :: rest =>
    foldOmmers remaining (level + 1) (combine level ommer acc) rest

/-- The root of the perfect subtree whose last leaf is a frontier's tip. -/
def subtreeRoot (frontier : NonEmptyFrontier H) (level : Nat) : Option H :=
  foldOmmers combine level 0 frontier.leaf frontier.ommers

/-- The subtrees that leaves complete on top of a frontier, by number. -/
def completedSubtrees (before : Frontier H) (leaves : List H) (level : Nat) :
    Option (List (Nat × H)) :=
  let sizeBefore := before.treeSize
  let sizeAfter := sizeBefore + leaves.length
  let span := 2 ^ level
  let first := sizeBefore / span + 1
  let last := sizeAfter / span
  if last < first then some []
  else do
    let lifted ← TreeSegment.lift combine leaves sizeBefore
    let combined := TreeSegment.combine combine (TreeSegment.carrySegment combine before) lifted
    (List.range' first (last + 1 - first)).mapM fun m => do
      let frontier ← combined.frontierAt (m * span)
      let root ← subtreeRoot combine frontier level
      some (m - 1, root)

variable {combine} {known : Nat → Nat → Option H}

/-- Folding a tip with its ommers climbs to the subtree that the tip completes. -/
theorem foldOmmers_returns (hashes : Hashes combine known) {remaining level index : Nat} {acc : H}
    {ommers : List H} (is_node : known level index = some acc)
    (are_ommers : NodesAt known (pastAddrs level index) ommers) {m : Nat}
    (ends : index + 1 = m * 2 ^ remaining) :
    ∃ root, foldOmmers combine remaining level acc ommers = some root ∧
      known (level + remaining) (m - 1) = some root := by
  induction remaining generalizing level index acc ommers with
  | zero =>
    have last : m - 1 = index := by omega
    exact ⟨acc, rfl, by rw [last]; exact is_node⟩
  | succ remaining ih =>
    have odd : index = 2 * (m * 2 ^ remaining - 1) + 1 := by
      rw [pow_succ] at ends
      have doubled : m * (2 ^ remaining * 2) = 2 * (m * 2 ^ remaining) := by
        rw [← mul_assoc, mul_comm]
      omega
    have filled : 0 < m * 2 ^ remaining := by
      rw [pow_succ, ← mul_assoc] at ends
      omega
    rw [odd] at is_node are_ommers
    rw [pastAddrs_odd] at are_ommers
    cases are_ommers with
    | cons is_ommer rest =>
      have parent := hashes level _ _ _ is_ommer is_node
      rcases ih parent rest (Nat.sub_add_cancel filled) with ⟨root, is_root, is_subtree⟩
      refine ⟨root, is_root, ?_⟩
      rw [show level + (remaining + 1) = level + 1 + remaining by omega]
      exact is_subtree

/-- The frontier at a subtree's last leaf gives the subtree's root. -/
theorem subtreeRoot_returns (hashes : Hashes combine known) {frontier : NonEmptyFrontier H}
    (in_known : frontier.In known) {level m : Nat} (ends : frontier.position + 1 = m * 2 ^ level) :
    ∃ root, subtreeRoot combine frontier level = some root ∧ known level (m - 1) = some root := by
  rcases foldOmmers_returns hashes in_known.leaf in_known.ommers ends with ⟨root, is_root, is_node⟩
  rw [zero_add] at is_node
  exact ⟨root, is_root, is_node⟩

/-- Leaves complete the subtrees whose last leaf is among them. -/
theorem completedSubtrees_returns {before : Frontier H} {prior more : List H} (level : Nat)
    (of_prior : Frontier.Of combine before prior) (fits : (prior ++ more).length ≤ 2 ^ depth) :
    completedSubtrees combine before more level =
      some (numbered (merkleNode combine (prior ++ more) level) (prior.length / 2 ^ level)
        ((prior ++ more).length / 2 ^ level)) := by
  have positive := Nat.two_pow_pos level
  have total : (prior ++ more).length = prior.length + more.length := length_append
  rw [completedSubtrees, Frontier.Of.treeSize of_prior, ← total]
  split
  · next none_completed => rw [numbered_of_le (by omega)]
  · next some_completed =>
    have size := Frontier.Of.treeSize of_prior
    rcases TreeSegment.lift_exact combine more prior.length with ⟨lifted, is_lifted, _⟩
    have built := (TreeSegment.Built.carry before).combine (TreeSegment.Built.lift (size ▸ is_lifted))
    have carries := TreeSegment.Origin.wellFormed_carry of_prior.wellFormed (by omega)
    have sound := built.sound carries (hashes_merkleNode combine _)
      (TreeSegment.Origin.knows_of of_prior more)
    have reaches := built.reaches carries
    rw [nil_append, size, ← total] at reaches
    have each : ∀ m ∈ List.range' (prior.length / 2 ^ level + 1)
        ((prior ++ more).length / 2 ^ level + 1 - (prior.length / 2 ^ level + 1)),
        ∃ pair : Nat × H, (do
          let frontier ← (TreeSegment.combine combine (TreeSegment.carrySegment combine before)
            lifted).frontierAt (m * 2 ^ level)
          let root ← subtreeRoot combine frontier level
          some (m - 1, root)) = some pair ∧
        pair.1 = m - 1 ∧ merkleNode combine (prior ++ more) level (m - 1) = some pair.2 := by
      intro m member
      have bounds := mem_range'_1.mp member
      have after : prior.length < m * 2 ^ level :=
        (div_lt_iff_lt_mul positive).mp (by omega)
      have inside : m * 2 ^ level ≤ (prior ++ more).length :=
        (le_div_iff_mul_le positive).mp (by omega)
      rcases reaches.frontierAt sound (le_of_lt after) inside (by omega) (by omega) with
        ⟨frontier, is_frontier, position, in_tree⟩
      rcases subtreeRoot_returns (hashes_merkleNode combine _) in_tree
        (show frontier.position + 1 = m * 2 ^ level by omega) with ⟨root, is_root, is_node⟩
      refine ⟨(m - 1, root), ?_, rfl, is_node⟩
      rw [is_frontier]
      dsimp only [bind, Option.bind]
      rw [is_root]
    rcases exists_mapM_eq_some each with ⟨pairs, are_pairs, related⟩
    have listed := eq_numbered related
    have last : prior.length / 2 ^ level +
        ((prior ++ more).length / 2 ^ level + 1 - (prior.length / 2 ^ level + 1)) =
      (prior ++ more).length / 2 ^ level := by omega
    rw [last] at listed
    rw [is_lifted]
    exact are_pairs.trans (congrArg some listed)

end Nodes

/-! ## Subtrees of a chain -/

/-- A completed subtree, as it is stored. -/
structure SubtreeRecord where
  root : TreeRoot
  completingBlockHash : BlockHash
  completingHeight : Nat
  deriving DecidableEq

/-- A completed subtree's number and record. -/
structure SubtreeEntry where
  index : Nat
  root : SubtreeRecord
  deriving DecidableEq

/-- Why a block's subtrees cannot be extracted. -/
inductive SubtreesError
  | missingTreeState (height : Nat)
  | nonCanonicalCommitment (pool : ShieldedPool)
  | subtreeIndexOverflow (index : Nat)
  | panicked (message : String)
  deriving DecidableEq

section Trees

variable (trees : NoteTrees)

/-- The leaves of some commitments, failing on the first that is not canonical. -/
def convertLeaves (pool : ShieldedPool) (commitments : List NoteCommitment) :
    Except SubtreesError (List (trees.tree pool).Node) :=
  commitments.mapM fun commitment =>
    okOr ((trees.tree pool).leaf commitment) (.nonCanonicalCommitment pool)

/-- The entries of the subtrees a block completes, counted before anything is decoded. -/
def subtreeEntries (pool : ShieldedPool) (before : Frontier (trees.tree pool).Node)
    (commitments : List NoteCommitment) (completingHeight : Nat)
    (completingBlockHash : BlockHash) : Except SubtreesError (List SubtreeEntry) := do
  let span := 2 ^ (trees.tree pool).subtreeLevel
  let sizeBefore := before.treeSize
  let sizeAfter := sizeBefore + commitments.length
  if sizeAfter / span < sizeBefore / span + 1 then .ok []
  else
    let leaves ← convertLeaves trees pool commitments
    match completedSubtrees (trees.tree pool).combine before leaves (trees.tree pool).subtreeLevel with
    | none => .error (.panicked "the completion frontier was retained")
    | some completed =>
      completed.mapM fun subtree =>
        if 2 ^ 32 ≤ subtree.1 then .error (.subtreeIndexOverflow subtree.1)
        else .ok ⟨subtree.1,
          ⟨(trees.tree pool).nodeBytes subtree.2, completingBlockHash, completingHeight⟩⟩

/-- The subtrees a block completes, from the tree state one height below. -/
def extractSubtrees (pool : ShieldedPool) (ctx : TreeStateCtx)
    (treeStateAt : Nat → Option (TreeStateValue trees)) :
    Except SubtreesError (List SubtreeEntry) :=
  let commitments := ctx.commitments pool
  if commitments = [] then .ok []
  else if ctx.height = 0 then subtreeEntries trees pool none commitments ctx.height ctx.hash
  else
    match treeStateAt (ctx.height - 1) with
    | none => .error (.missingTreeState (ctx.height - 1))
    | some prior =>
      subtreeEntries trees pool (prior.get pool) commitments ctx.height ctx.hash

/-- A subtree that a window block completes. -/
structure WindowSubtree where
  index : Nat
  root : TreeRoot
  completingHeight : Nat
  completingBlockHash : BlockHash
  deriving DecidableEq

variable {trees}

/-- The subtrees of a pool that some blocks complete, each folded onto the frontiers before it. -/
def windowSubtrees (pool : ShieldedPool) :
    TreeStateValue trees → List TreeStateCtx → Except BuildError (List WindowSubtree)
  | _, [] => .ok []
  | carry, ctx :: rest => do
    let leaves ← (leavesOf trees pool (ctx.commitments pool)).mapError BuildError.extract
    let completed ← expect
      (completedSubtrees (trees.tree pool).combine (carry.get pool) leaves (trees.tree pool).subtreeLevel)
      "the completion frontier was retained"
    let here ← completed.mapM fun subtree =>
      if 2 ^ 32 ≤ subtree.1 then
        .error (.panicked "a subtree index fits u32 within the pool depth")
      else .ok (WindowSubtree.mk subtree.1 ((trees.tree pool).nodeBytes subtree.2) ctx.height
        ctx.hash)
    let entry ← (extract ctx carry).mapError BuildError.extract
    let out ← windowSubtrees pool entry.value rest
    .ok (here ++ out)

variable (trees)

/-- The block that adds the leaf with which a pool has `size` leaves. -/
def completing (pool : ShieldedPool) : Nat → List TreeStateCtx → Option TreeStateCtx
  | _, [] => none
  | size, ctx :: rest =>
    if size ≤ (ctx.leaves trees pool).length then some ctx
    else completing pool (size - (ctx.leaves trees pool).length) rest

/-- The record of a subtree that a block completes. -/
def completedBy (pool : ShieldedPool) (ctx : TreeStateCtx) (node : (trees.tree pool).Node) :
    SubtreeRecord :=
  ⟨(trees.tree pool).nodeBytes node, ctx.hash, ctx.height⟩

/-- What a subtree's number means: the root of its leaves and the block that completed it. -/
def subtreeAt (pool : ShieldedPool) (blocks : List TreeStateCtx) (k : Nat) :
    Option SubtreeRecord := do
  let node ← merkleNode (trees.tree pool).combine (leavesIn trees blocks pool) (trees.tree pool).subtreeLevel k
  let ctx ← completing trees pool ((k + 1) * 2 ^ (trees.tree pool).subtreeLevel) blocks
  some (completedBy trees pool ctx node)

/-- How many subtrees some blocks complete. -/
def subtreeCount (pool : ShieldedPool) (blocks : List TreeStateCtx) : Nat :=
  (leavesIn trees blocks pool).length / 2 ^ (trees.tree pool).subtreeLevel

variable {trees}

theorem leavesIn_append (first second : List TreeStateCtx) (pool : ShieldedPool) :
    leavesIn trees (first ++ second) pool =
      leavesIn trees first pool ++ leavesIn trees second pool :=
  flatMap_append

variable {pool : ShieldedPool}

theorem completing_of_between {prior rest : List TreeStateCtx}
    {ctx : TreeStateCtx} {size : Nat} (after : (leavesIn trees prior pool).length < size)
    (within : size ≤ (leavesIn trees prior pool).length + (ctx.leaves trees pool).length) :
    completing trees pool size (prior ++ ctx :: rest) = some ctx := by
  induction prior generalizing size with
  | nil =>
    rw [leavesIn, flatMap_nil, length_nil, zero_add] at within
    rw [nil_append, completing, if_pos within]
  | cons earlier prior ih =>
    rw [leavesIn_cons, length_append] at after within
    rw [cons_append, completing, if_neg (by omega)]
    exact ih (by omega) (by omega)

/-- The subtrees a block completes, in a chain with blocks before and after it. -/
theorem subtreeAt_of_completes {prior rest : List TreeStateCtx}
    {ctx : TreeStateCtx} {k : Nat} (open_before : subtreeCount trees pool prior ≤ k)
    (complete_after : k < (leavesIn trees prior pool ++ ctx.leaves trees pool).length /
      2 ^ (trees.tree pool).subtreeLevel) : subtreeAt trees pool (prior ++ ctx :: rest) k =
      (merkleNode (trees.tree pool).combine (leavesIn trees prior pool ++ ctx.leaves trees pool)
        (trees.tree pool).subtreeLevel k).map (completedBy trees pool ctx) := by
  have positive := Nat.two_pow_pos (trees.tree pool).subtreeLevel
  rcases exists_merkleNode (trees.tree pool).combine complete_after with ⟨node, is_node⟩
  have after : (leavesIn trees prior pool).length < (k + 1) * 2 ^ (trees.tree pool).subtreeLevel :=
    (div_lt_iff_lt_mul positive).mp (lt_succ_of_le open_before)
  have within := (le_div_iff_mul_le positive).mp (succ_le_of_lt complete_after)
  rw [length_append] at within
  have extended := merkleNode_append is_node (leavesIn trees rest pool)
  rw [append_assoc, ← leavesIn_cons, ← leavesIn_append] at extended
  rw [subtreeAt, extended, completing_of_between after within, is_node]
  rfl

variable (trees) in
/-- What a block completes, as records of the chain it is in. -/
theorem map_numbered_completes (pool : ShieldedPool) (prior rest : List TreeStateCtx)
    (ctx : TreeStateCtx) : (numbered (merkleNode (trees.tree pool).combine
        (leavesIn trees prior pool ++ ctx.leaves trees pool) (trees.tree pool).subtreeLevel)
      ((leavesIn trees prior pool).length / 2 ^ (trees.tree pool).subtreeLevel)
      ((leavesIn trees prior pool ++ ctx.leaves trees pool).length / 2 ^ (trees.tree pool).subtreeLevel)).map
        (fun pair => (pair.1, completedBy trees pool ctx pair.2)) =
      numbered (subtreeAt trees pool (prior ++ ctx :: rest)) (subtreeCount trees pool prior)
        (subtreeCount trees pool (prior ++ [ctx])) := by
  have count : subtreeCount trees pool (prior ++ [ctx]) =
      (leavesIn trees prior pool ++ ctx.leaves trees pool).length / 2 ^ (trees.tree pool).subtreeLevel := by
    rw [subtreeCount, leavesIn_append, leavesIn_cons]
    simp [leavesIn]
  rw [map_numbered, count]
  exact numbered_congr fun k open_before complete_after =>
    (subtreeAt_of_completes open_before complete_after).symm

theorem subtreeCount_mono (pool : ShieldedPool) (first second : List TreeStateCtx) :
    subtreeCount trees pool first ≤ subtreeCount trees pool (first ++ second) := by
  rw [subtreeCount, subtreeCount, leavesIn_append, length_append]
  exact Nat.div_le_div_right (Nat.le_add_right _ _)

/-- The numbers of subtrees fit 32 bits, so numbered subtrees are all converted. -/
theorem mapM_numbered_subtrees {α β ε : Type} {f : Nat → Option α} {lo leaves level : Nat}
    {overflow : Nat × α → ε} {make : Nat × α → β} (within : leaves ≤ 2 ^ depth) :
    ((numbered f lo (leaves / 2 ^ level)).mapM fun subtree =>
      if 2 ^ 32 ≤ subtree.1 then .error (overflow subtree) else .ok (make subtree)) =
      (.ok ((numbered f lo (leaves / 2 ^ level)).map make) : Except ε (List β)) := by
  refine mapM_eq_ok fun subtree member => if_neg ?_
  have complete := (lt_of_mem_numbered member).2
  have most := div_le_self leaves (2 ^ level)
  rw [depth] at within
  omega

theorem leavesIn_concat (prior : List TreeStateCtx) (ctx : TreeStateCtx) (pool : ShieldedPool) :
    leavesIn trees (prior ++ [ctx]) pool = leavesIn trees prior pool ++ ctx.leaves trees pool := by
  simp [leavesIn]

/-- A record as the window reports it. -/
def WindowSubtree.ofRecord (pair : Nat × SubtreeRecord) : WindowSubtree :=
  ⟨pair.1, pair.2.root, pair.2.completingHeight, pair.2.completingBlockHash⟩

variable {prior : List TreeStateCtx} {ctx : TreeStateCtx}

/-- The first of some more blocks fits, and its frontiers are those of the blocks up to it. -/
theorem extract_next {rest : List TreeStateCtx} {carry : TreeStateValue trees}
    (of_prior : FrontiersOf carry (leavesIn trees prior)) (canonical : ctx.Canonical trees)
    (fits : ∀ pool, (leavesIn trees (prior ++ ctx :: rest) pool).length ≤ 2 ^ depth) :
    (∀ pool, (leavesIn trees prior pool ++ ctx.leaves trees pool).length ≤ 2 ^ depth) ∧
      ∃ next, extract ctx carry = .ok ⟨ctx.height, next⟩ ∧
        FrontiersOf next (leavesIn trees (prior ++ [ctx])) := by
  have fits_here : ∀ pool,
      (leavesIn trees prior pool ++ ctx.leaves trees pool).length ≤ 2 ^ depth := by
    intro pool
    have total := fits pool
    rw [leavesIn_append, leavesIn_cons, ← append_assoc, length_append] at total
    omega
  obtain ⟨next, is_next, of_next⟩ := extract_returns of_prior canonical fits_here
  refine ⟨fits_here, next, is_next, fun pool => ?_⟩
  rw [leavesIn_concat]
  exact of_next pool

/-- Blocks folded onto the frontiers of the blocks before them complete the subtrees of the whole
chain that were open. -/
theorem windowSubtrees_returns (pool : ShieldedPool) {blocks : List TreeStateCtx}
    {carry : TreeStateValue trees} (of_prior : FrontiersOf carry (leavesIn trees prior))
    (canonical : ∀ ctx ∈ blocks, ctx.Canonical trees)
    (fits : ∀ pool, (leavesIn trees (prior ++ blocks) pool).length ≤ 2 ^ depth) :
    windowSubtrees pool carry blocks =
      .ok ((numbered (subtreeAt trees pool (prior ++ blocks)) (subtreeCount trees pool prior)
        (subtreeCount trees pool (prior ++ blocks))).map WindowSubtree.ofRecord) := by
  induction blocks generalizing prior carry with
  | nil =>
    rw [append_nil, numbered_of_le (le_refl _)]
    rfl
  | cons ctx rest ih =>
    have here := canonical ctx mem_cons_self
    obtain ⟨fits_here, next, is_next, of_grown⟩ := extract_next of_prior here fits
    have joined : prior ++ ctx :: rest = prior ++ [ctx] ++ rest := by simp
    have onward := ih of_grown (fun later member => canonical later (mem_cons_of_mem _ member))
      (by rw [← joined]; exact fits)
    have completes := completedSubtrees_returns (trees.tree pool).subtreeLevel (of_prior pool) (fits_here pool)
    have listed := congrArg (List.map WindowSubtree.ofRecord)
      (map_numbered_completes trees pool prior rest ctx)
    rw [map_map] at listed
    rw [windowSubtrees, leavesOf_eq_ok here, Except.mapError, ok_bind, completes, expect, okOr,
      ok_bind, mapM_numbered_subtrees (fits_here pool), ok_bind, is_next, Except.mapError, ok_bind, onward, ok_bind, ← joined,
      ← numbered_append (subtreeCount_mono pool prior [ctx])
        (by rw [joined]; exact subtreeCount_mono pool (prior ++ [ctx]) rest), map_append,
      ← listed]
    rfl

/-- A record as the index keys it. -/
def SubtreeEntry.ofRecord (pair : Nat × SubtreeRecord) : SubtreeEntry := ⟨pair.1, pair.2⟩

theorem convertLeaves_eq_ok (canonical : ctx.Canonical trees) (pool : ShieldedPool) :
    convertLeaves trees pool (ctx.commitments pool) = .ok (ctx.leaves trees pool) :=
  mapM_decode_eq_ok _ (canonical pool)

/-- The entries of a block are the subtrees of the chain that it completes. -/
theorem subtreeEntries_returns (rest : List TreeStateCtx) {before : Frontier (trees.tree pool).Node}
    (of_prior : Frontier.Of (trees.tree pool).combine before (leavesIn trees prior pool))
    (canonical : ctx.Canonical trees)
    (fits : (leavesIn trees prior pool ++ ctx.leaves trees pool).length ≤ 2 ^ depth) :
    subtreeEntries trees pool before (ctx.commitments pool) ctx.height ctx.hash =
      .ok ((numbered (subtreeAt trees pool (prior ++ ctx :: rest)) (subtreeCount trees pool prior)
        (subtreeCount trees pool (prior ++ [ctx]))).map SubtreeEntry.ofRecord) := by
  have after : (leavesIn trees prior pool).length + (ctx.commitments pool).length =
      (leavesIn trees prior pool ++ ctx.leaves trees pool).length := by
    rw [length_append, length_leaves canonical]
  rw [subtreeEntries, Frontier.Of.treeSize of_prior, after]
  split
  · next none_completed =>
    rw [numbered_of_le (by rw [subtreeCount, subtreeCount, leavesIn_concat]; omega)]
    rfl
  · next some_completed =>
    have listed := congrArg (List.map SubtreeEntry.ofRecord)
      (map_numbered_completes trees pool prior rest ctx)
    rw [map_map] at listed
    rw [convertLeaves_eq_ok canonical, ok_bind,
      completedSubtrees_returns (trees.tree pool).subtreeLevel of_prior fits]
    dsimp only
    rw [mapM_numbered_subtrees fits, ← listed]
    rfl

/-- Extraction from the tree state one height below. -/
theorem extractSubtrees_returns (rest : List TreeStateCtx)
    {treeStateAt : Nat → Option (TreeStateValue trees)} (at_height : ctx.height = prior.length)
    (below : ctx.height ≠ 0 → ∃ value, treeStateAt (ctx.height - 1) = some value ∧
      FrontiersOf value (leavesIn trees prior)) (canonical : ctx.Canonical trees)
    (fits : (leavesIn trees prior pool ++ ctx.leaves trees pool).length ≤ 2 ^ depth) :
    extractSubtrees trees pool ctx treeStateAt =
      .ok ((numbered (subtreeAt trees pool (prior ++ ctx :: rest)) (subtreeCount trees pool prior)
        (subtreeCount trees pool (prior ++ [ctx]))).map SubtreeEntry.ofRecord) := by
  rw [extractSubtrees]
  split
  · next no_commitment =>
    have no_leaf : ctx.leaves trees pool = [] := by
      rw [TreeStateCtx.leaves, no_commitment]
      rfl
    rw [numbered_of_le (by rw [subtreeCount, subtreeCount, leavesIn_concat, no_leaf,
      append_nil])]
    rfl
  · split
    · next first =>
      have none_before : prior = [] := eq_nil_of_length_eq_zero (at_height.symm.trans first)
      subst none_before
      exact subtreeEntries_returns rest rfl canonical fits
    · next later =>
      rcases below later with ⟨value, is_value, of_prior⟩
      rw [is_value]
      exact subtreeEntries_returns rest (of_prior pool) canonical fits

end Trees

end Zaino.Shielded
