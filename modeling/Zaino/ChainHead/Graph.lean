import Zaino.Library.HashMap
import Zaino.Primitives

/-!
# The chain-head graph

The window of blocks the chain head retains, held as the source's `MapBackedSnapshot`: a tip,
the other retained blocks by hash, and which retained block is canonical at each height. The
moves `extend`, `rewindTo` and `removeFinalisedBlocks` mutate a graph in place, so each returns
the graph it leaves behind, refused or not.

`Representation` is the contract that the source's `ChainGraph` trait documents, stated for
blocks whose hash determines their height and parent (`HashIdentity`). Every move keeps it
(`Move.apply_representation`), hence so does every sequence of moves.
-/

namespace Zaino.ChainHead

open Zaino Library

/-- Work accumulated from the window's anchor, a 128-bit integer. -/
@[ext]
structure ChainHeadWork where
  value : Nat
  bounded : value < 2 ^ 128

instance : DecidableEq ChainHeadWork := fun _ _ => decidable_of_iff _ ChainHeadWork.ext_iff.symm

/-- The base of a new accumulation. -/
def ChainHeadWork.anchoredAt (blockWork : SingleBlockWork) : ChainHeadWork :=
  ⟨blockWork.value, blockWork.bounded⟩

/-- Extend the accumulation by one block's work, or refuse on overflow. -/
def ChainHeadWork.checkedAdd (work : ChainHeadWork) (blockWork : SingleBlockWork) :
    Option ChainHeadWork :=
  if fits : work.value + blockWork.value < 2 ^ 128 then some ⟨_, fits⟩ else none

/-- A block retained in the window. -/
structure ChainHeadBlock where
  reference : BlockRef
  parentHash : BlockHash
  work : ChainHeadWork
  block : Block
  deriving DecidableEq

/-- This block's hash. -/
def ChainHeadBlock.hash (b : ChainHeadBlock) : BlockHash := b.reference.hash

/-- This block's height. -/
def ChainHeadBlock.height (b : ChainHeadBlock) : Height := b.reference.height

/-- The retained graph. -/
structure MapBackedSnapshot where
  /-- The canonical tip. -/
  tip : ChainHeadBlock
  /-- Every retained block other than the tip, canonical and competing alike. -/
  others : HashMap BlockHash ChainHeadBlock
  /-- Which retained block is canonical at each height. -/
  heightsToHashes : HashMap Height BlockHash
  /-- Which publication this is. -/
  generation : Nat

/-- An `extend` block that does not sit directly above the tip. -/
structure NotChildOfTip where
  tip : BlockRef
  block : BlockRef
  deriving DecidableEq

/-- A `rewindTo` target that is not a retained canonical block. -/
structure NotOnBestChain where
  deriving DecidableEq

namespace MapBackedSnapshot

/-- Every retained block, tip first. -/
def blocks (g : MapBackedSnapshot) : List ChainHeadBlock :=
  g.tip :: g.others.values

/-- Installs `block` as the tip, demoting the old tip into `others`. -/
def replaceTip (g : MapBackedSnapshot) (block : ChainHeadBlock) : MapBackedSnapshot :=
  let others := g.others.erase block.hash
  { g with
    tip := block
    others := if g.tip.hash ≠ block.hash then others.insert g.tip.hash g.tip else others }

/-- A graph holding a single block. -/
def fromInitialBlock (block : ChainHeadBlock) : MapBackedSnapshot where
  tip := block
  others := ∅
  heightsToHashes := AList.singleton block.height block.hash
  generation := 0

theorem lookup_fromInitialBlock {block : ChainHeadBlock} {height : Height} {hash : BlockHash} :
    (fromInitialBlock block).heightsToHashes.lookup height = some hash ↔
      height = block.height ∧ block.hash = hash := by
  rw [fromInitialBlock, ← AList.insert_empty, HashMap.lookup_insert_eq_some]
  exact or_iff_left fun other => nomatch other.2

/-- The tip's height and hash. -/
def bestTip (g : MapBackedSnapshot) : BlockRef := g.tip.reference

/-- The retained block with a hash. -/
def blockByHash (g : MapBackedSnapshot) (hash : BlockHash) : Option ChainHeadBlock :=
  if g.tip.hash = hash then some g.tip else g.others.lookup hash

/-- The canonical block at a height. -/
def bestBlockByHeight (g : MapBackedSnapshot) (height : Height) : Option ChainHeadBlock :=
  (g.heightsToHashes.lookup height).bind g.blockByHash

/-- Whether the height index names this block. -/
def isOnBestChain (g : MapBackedSnapshot) (block : BlockRef) : Bool :=
  g.heightsToHashes.lookup block.height = some block.hash

/-- The retained block with the most accumulated work, the tip on a tie. `visit` is the order in
which the map yields its values. -/
def heaviestBlock (g : MapBackedSnapshot) (visit : IterationOrder ChainHeadBlock) :
    ChainHeadBlock :=
  (visit.order g.others.values).foldl
    (fun heaviest block => if heaviest.work.value < block.work.value then block else heaviest)
    g.tip

/-- Appends a block as the new tip. -/
def extend (g : MapBackedSnapshot) (block : ChainHeadBlock) :
    Except NotChildOfTip Unit × MapBackedSnapshot :=
  if block.parentHash = g.tip.hash ∧ g.tip.height.checkedAdd 1 = some block.height then
    (.ok (),
      { g with heightsToHashes := g.heightsToHashes.insert block.height block.hash }.replaceTip
        block)
  else
    (.error ⟨g.tip.reference, block.reference⟩, g)

/-- Makes a retained canonical block the tip, dropping the canonical status of everything above
it. -/
def rewindTo (g : MapBackedSnapshot) (block : BlockRef) :
    Except NotOnBestChain Unit × MapBackedSnapshot :=
  if block = g.tip.reference then (.ok (), g)
  else if g.isOnBestChain block then
    match g.others.lookup block.hash with
    | none => (.error {}, g)
    | some newTip =>
      (.ok (),
        { g with
          heightsToHashes := g.heightsToHashes.retain fun height _ => height ≤ block.height
          }.replaceTip newTip)
  else (.error {}, g)

/-- Drops retained blocks below `floor`, keeping the tip regardless. -/
def removeFinalisedBlocks (g : MapBackedSnapshot) (floor : Height) : MapBackedSnapshot :=
  let tipHash := g.tip.hash
  { g with
    others := g.others.retain fun _ block => floor ≤ block.height
    heightsToHashes :=
      g.heightsToHashes.retain fun height hash => floor ≤ height || hash = tipHash }

/-- Stamps the generation a publication carries: the previous one for the same tip, otherwise one
past the highest published, saturating at 64 bits. -/
def stampGeneration (g previous : MapBackedSnapshot) (highestPublished : Nat) :
    MapBackedSnapshot :=
  { g with
    generation :=
      if g.bestTip = previous.bestTip then previous.generation
      else Nat.min (highestPublished + 1) (2 ^ 64 - 1) }

end MapBackedSnapshot

/-- A block without transactions, of work `work`. -/
def sampleServed (hash parent : BlockHash) (height : Fin 100) (work : Fin 100) : Block :=
  let work : SingleBlockWork :=
    ⟨Nat.max work.val 1, Nat.lt_of_lt_of_le Nat.one_pos (Nat.le_max_right _ _),
      Nat.max_lt.mpr ⟨Nat.lt_trans work.isLt (by decide), by decide⟩⟩
  ⟨⟨hash, parent, sampleHeight height, ⟨0, work⟩, 0⟩, []⟩

/-- The same block as a window's anchor. -/
def sampleBlock (hash parent : BlockHash) (height : Fin 100) (work : Fin 100) : ChainHeadBlock :=
  let block := sampleServed hash parent height work
  ⟨⟨hash, block.header.height⟩, parent, .anchoredAt block.header.bits.toWork, block⟩

end Zaino.ChainHead
