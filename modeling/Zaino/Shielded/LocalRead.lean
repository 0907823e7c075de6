import Zaino.Shielded.StoreRead
import Zaino.Transparent.WindowRead

/-!
# Treestates and subtree roots composed across the seam

The locally served reads. A treestate at or below the watermark is the store's; above it the window
folds its blocks onto the store's treestate at the watermark, and refuses unless they reach from the
watermark to the asked height without a gap. Subtree roots are the store's page followed by those that
the window's blocks complete on the same seed; here nothing checks that the window reaches the seam.
-/

namespace Zaino.Shielded

open Zaino Library ChainHead

section Trees

variable {trees : NoteTrees}

/-! ## The window -/

/-- The first height above the seed. -/
def seamNext (seed : Option Treestate) : Nat :=
  match seed with
  | none => 0
  | some seed => seed.height.value + 1

variable (trees) in
/-- The frontiers a served treestate was rendered from. -/
def seedValue (seed : Option Treestate) : Except String (TreeStateValue trees) :=
  Pools.buildM fun pool =>
    match seed.bind fun seed => seed.pools.get pool with
    | some treestate => (trees.tree pool).legacyTreeFromBytes treestate.finalState
    | none => .ok none

/-- Fold blocks onto frontiers. -/
def foldWindow (seed : TreeStateValue trees) (blocks : List TreeStateCtx) :
    Except TreeStateError (TreeStateValue trees) :=
  blocks.foldlM (fun carry ctx => do
    let entry ← extract ctx carry
    .ok entry.value) seed

/-- What the walk over the window has collected. -/
structure WindowWalk where
  ctxs : List TreeStateCtx
  expected : Nat
  identity : Option (BlockHash × UInt32)

/-- Collect the blocks from the seam to a height, refusing a gap. -/
def walkWindow (seam : Nat) (at_ : Height) : WindowWalk → List ChainHeadBlock →
    Except TreestateReadError WindowWalk
  | walk, [] => .ok walk
  | walk, block :: rest =>
    if block.height.value < seam then walkWindow seam at_ walk rest
    else if at_ < block.height then .ok walk
    else if block.height.value ≠ walk.expected then .error (.notServiceable .treestate)
    else
      walkWindow seam at_
        { ctxs := walk.ctxs ++ [treeStateCtx block.block]
          expected := walk.expected + 1
          identity :=
            if block.height = at_ then some (block.reference.hash, block.block.header.time)
            else walk.identity } rest

/-- The treestate of a window block, folded from the seed; `none` above the window. -/
def windowTreestate (trees : NoteTrees) (head : MapBackedSnapshot) (seed : Option Treestate)
    (activations : PoolActivations) (at_ : Height) :
    Except TreestateReadError (Option Treestate) := do
  if head.bestTip.height < at_ then .ok none
  else
    let seam := seamNext seed
    let walk ← walkWindow seam at_ ⟨[], seam, none⟩ (Transparent.bestChain head)
    if walk.expected ≠ at_.value + 1 then .error (.notServiceable .treestate)
    else
      let identity ← okOr walk.identity
        (.fatal "window covered `at` but produced no block identity")
      let seed ← (seedValue trees seed).mapError fun e =>
        TreestateReadError.fatal s!"decode seed frontier: {e}"
      let folded ← (foldWindow seed walk.ctxs).mapError fun e =>
        TreestateReadError.fatal s!"fold window treestate: {e.message}"
      .ok (some ⟨identity.1, at_, identity.2, poolTreestates folded activations at_⟩)

/-- A window subtree as it is served. -/
def domainSubtreeRoot (completion : WindowSubtree) : Except TreestateReadError SubtreeRoot := do
  let endHeight ← okOr (Height.tryFrom completion.completingHeight)
    (.fatal "a window subtree completing height exceeds the protocol limit")
  .ok ⟨completion.root, completion.completingBlockHash, endHeight⟩

/-- Whether a subtree number is in the asked page. -/
def inPage (startIndex : UInt16) (limit : Option UInt16) (index : Nat) : Bool :=
  decide (startIndex.toNat ≤ index) &&
    match limit with
    | none => true
    | some limit => decide (index < startIndex.toNat + limit.toNat)

/-- The subtrees of the asked page that the window's blocks above the seed complete. -/
def windowSubtreeRoots (trees : NoteTrees) (head : MapBackedSnapshot) (seed : Option Treestate)
    (pool : ShieldedPool) (startIndex : UInt16) (limit : Option UInt16) :
    Except TreestateReadError (List SubtreeRoot) := do
  let seam := seamNext seed
  let ctxs := ((Transparent.bestChain head).filter fun block =>
    decide (seam ≤ block.height.value)).map fun block => treeStateCtx block.block
  let seed ← (seedValue trees seed).mapError fun e =>
    TreestateReadError.fatal s!"decode seed frontier: {e}"
  let completions ← (windowSubtrees pool seed ctxs).mapError fun e =>
    match e with
    | .extract e => TreestateReadError.fatal s!"fold window subtree roots: {e.message}"
    | .panicked message => TreestateReadError.panicked message
  (completions.filter fun completion => inPage startIndex limit completion.index).mapM
    domainSubtreeRoot

/-! ## The composition -/

variable (trees) in
/-- The two tiers, captured together. -/
structure ChainView where
  finalised : StoreSnapshot trees
  nonFinalised : MapBackedSnapshot

namespace ChainView

/-- The store's treestate at the watermark. -/
def seed (view : ChainView trees) : Except TreestateReadError (Option Treestate) :=
  match view.finalised.watermark with
  | none => .ok none
  | some watermark => do
    let treestate ← view.finalised.treestate watermark
    .ok (some treestate)

/-- The trees after a block. -/
def treestate (view : ChainView trees) (at_ : Height) : Except TreestateReadError Treestate := do
  if view.finalised.watermark.any fun watermark => decide (at_ ≤ watermark) then
    view.finalised.treestate at_
  else
    let seed ← view.seed
    let answer ← windowTreestate trees view.nonFinalised seed view.finalised.activations at_
    okOr answer (.notServiceable .treestate)

/-- A page of a pool's completed subtrees. -/
def subtreeRoots (view : ChainView trees) (pool : ShieldedPool) (startIndex : UInt16)
    (limit : Option UInt16) : Except TreestateReadError (List SubtreeRoot) := do
  let roots ← view.finalised.subtreeRoots pool startIndex limit
  let seed ← view.seed
  let window ← windowSubtreeRoots trees view.nonFinalised seed pool startIndex limit
  match limit with
  | none => .ok (roots ++ window)
  | some limit => .ok ((roots ++ window).take limit.toNat)

end ChainView

end Trees

end Zaino.Shielded
