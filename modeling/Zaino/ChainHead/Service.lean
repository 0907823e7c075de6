import Zaino.ChainHead.Graph
import Zaino.Finality.Seam
import Zaino.Library.Fallible

/-!
# The chain-head writer

One iteration of the writer task (`tick`): it reads the validator's tip, builds the next graph and
publishes it. The validator is arbitrary. Each request it answers may depend on how many requests
came before, so it may serve, withhold and reorganise between any two of them.

A tick mutates its own copy of the graph and, in passing, the seam; an error drops the copy but
not what the seam was told, so ticks are `Fallible` computations. `TickState.log` records what the
tick did to the window, in order; nothing in the tick reads it.
-/

namespace Zaino.ChainHead

open Zaino Library Finality

/-- A validator's answer to a request for a block: `absent` is its domain answer for "no such
block", `failed` any other failure. -/
inductive Answer (α : Type) where
  | found (a : α)
  | absent
  | failed
  deriving DecidableEq

/-- The validator. The first argument counts the requests made before this one. -/
structure Validator where
  getChainTip : Nat → Option BlockRef
  getBlock : Nat → Height → Answer Block
  getBlockByHash : Nat → BlockHash → Answer Block
  /-- Whether the request for a block's commitment tree roots is served. -/
  getCommitmentTreeRoots : Nat → BlockHash → Bool

/-- The writer's configuration: how far below the tip the window reaches. -/
structure ChainHeadConfig where
  maxDepth : Nat
  positive : 0 < maxDepth

/-- Why a tick failed. -/
inductive ChainHeadAdvanceError where
  | source
  | inconsistentSource
  | reorgFailure
  /-- The model's bound on the extension loop ran out; no execution of the source ends so. -/
  | outOfFuel
  deriving DecidableEq

/-- What a tick did to the window. -/
inductive TickEvent where
  /-- The window was rebuilt from a fresh anchor. -/
  | reanchored
  /-- A reorg walk started at `parentHash` over `graph`, after `requests` requests. -/
  | walked (graph : MapBackedSnapshot) (parentHash : BlockHash) (requests : Nat)
  /-- The seam accepted a horizon read from `graph`, after `requests` requests. -/
  | released (horizon : Released) (graph : MapBackedSnapshot) (requests : Nat)

/-- What outlives a tick's error. -/
structure TickState where
  requests : Nat
  seam : SeamState
  log : List TickEvent

/-- A step of a tick. -/
abbrev TickM (α : Type) : Type := Fallible TickState ChainHeadAdvanceError α

/-- Everything a tick depends on besides the published snapshot and the seam. -/
structure TickEnv where
  validator : Validator
  config : ChainHeadConfig
  /-- The order in which the retained blocks are visited. -/
  visit : IterationOrder ChainHeadBlock
  /-- The watermark that the durable tier has published when the tick reads the retention floor. -/
  durable : Option Committed
  /-- The bound on the extension loop. -/
  fuel : Nat

/-- Counts one request and returns its number. -/
def request : TickM Nat := do
  let s ← Fallible.get
  Fallible.modify fun s => { s with requests := s.requests + 1 }
  pure s.requests

/-- Records an event. -/
def record (event : TickEvent) : TickM Unit :=
  Fallible.modify fun s => { s with log := s.log ++ [event] }

/-- A block read as the chain head sees it: present, absent or failed. -/
def presentOrAbsent : Answer Block → TickM (Option Block)
  | .found block => pure (some block)
  | .absent => pure none
  | .failed => Fallible.fail .source

/-- `height - delta`, saturating at genesis. -/
def heightBelow (height : Height) (delta : Nat) : Height := height.saturatingSub delta

/-- The height one above, saturating at the protocol maximum. -/
def nextHeight (height : Height) : Height := (height.checkedAdd 1).getD height

namespace TickEnv

variable (env : TickEnv)

/-- One coherent height and hash pair from the source. -/
def chainTip : TickM BlockRef := do
  let n ← request
  match env.validator.getChainTip n with
  | some tip => pure tip
  | none => Fallible.fail .source

/-- A best-chain block by height. -/
def blockAtHeight (height : Height) : TickM (Option Block) := do
  let n ← request
  presentOrAbsent (env.validator.getBlock n height)

/-- A block by hash, side-chain blocks included. -/
def blockAtHash (hash : BlockHash) : TickM (Option Block) := do
  let n ← request
  presentOrAbsent (env.validator.getBlockByHash n hash)

/-- Commitment tree roots from the source. -/
def treeRoots (hash : BlockHash) : TickM Unit := do
  let n ← request
  if env.validator.getCommitmentTreeRoots n hash then pure () else Fallible.fail .source

/-- A block's work accumulated onto its parent's; only the anchor has no parent. -/
def accumulatedWork (blockWork : SingleBlockWork) :
    Option ChainHeadWork → Except ChainHeadAdvanceError ChainHeadWork
  | some parent =>
    match parent.checkedAdd blockWork with
    | some work => .ok work
    | none => .error .reorgFailure
  | none => .ok (.anchoredAt blockWork)

/-- Builds a retained block, accumulating work onto its parent's. -/
def chainHeadBlock (block : Block) (parentWork : Option ChainHeadWork) : TickM ChainHeadBlock := do
  let work ← Fallible.ofExcept (accumulatedWork block.header.bits.toWork parentWork)
  pure ⟨⟨block.header.hash, block.header.height⟩, block.header.prevHash, work, block⟩

/-- A block from the source as the child of `prevBlock`. -/
def blockToChainblock (prevBlock : ChainHeadBlock) (block : Block) : TickM ChainHeadBlock := do
  env.treeRoots block.header.hash
  chainHeadBlock block (some prevBlock.work)

/-- The window's anchor block. -/
def resolveAnchorBlock (anchorHeight : Height) : TickM ChainHeadBlock := do
  match ← env.blockAtHeight anchorHeight with
  | none => Fallible.fail .inconsistentSource
  | some block =>
    env.treeRoots block.header.hash
    chainHeadBlock block none

end TickEnv

/-- A block the reorg walk descends through: one the graph retained, or one fetched because the
graph did not hold it. -/
inductive BranchBlock where
  | retained (block : ChainHeadBlock)
  | fetched (block : Block)

/-- The hash of the parent. -/
def BranchBlock.parentHash : BranchBlock → BlockHash
  | .retained block => block.parentHash
  | .fetched block => block.header.prevHash

namespace TickEnv

variable (env : TickEnv)

/-- The block as retained above `prevBlock`. -/
def toChainHeadBlock (prevBlock : ChainHeadBlock) : BranchBlock → TickM ChainHeadBlock
  | .retained block => pure block
  | .fetched block => env.blockToChainblock prevBlock block

/-- The graph after a move, a refusal reported as a failed reorg. -/
def accept {ε : Type} : Except ε Unit × MapBackedSnapshot → TickM MapBackedSnapshot
  | (.ok _, graph) => pure graph
  | (.error _, _) => Fallible.fail .reorgFailure

/-- Descends by parent hash to the first block the graph holds on its best chain, collecting the
branch in between, newest first. `budget` counts the parents that may still be examined: the
source gives up once it has descended more than the configured depth. -/
def descend (graph : MapBackedSnapshot) :
    Nat → BlockHash → TickM (ChainHeadBlock × List BranchBlock)
  | 0, _ => Fallible.fail .reorgFailure
  | budget + 1, parentHash => do
    match graph.blockByHash parentHash with
    | some prev =>
      if graph.isOnBestChain prev.reference then pure (prev, [])
      else do
        let (fork, branch) ← descend graph budget prev.parentHash
        pure (fork, .retained prev :: branch)
    | none =>
      match ← env.blockAtHash parentHash with
      | none => Fallible.fail .inconsistentSource
      | some fetched => do
        let (fork, branch) ← descend graph budget fetched.header.prevHash
        pure (fork, .fetched fetched :: branch)

/-- Lays a branch down on the graph's tip, oldest first, and returns the last block laid. -/
def layDown : MapBackedSnapshot → ChainHeadBlock → List BranchBlock →
    TickM (MapBackedSnapshot × ChainHeadBlock)
  | graph, prevBlock, [] => pure (graph, prevBlock)
  | graph, prevBlock, pending :: rest => do
    let block ← env.toChainHeadBlock prevBlock pending
    let graph ← accept (graph.extend block)
    layDown graph block rest

/-- Moves the graph onto the branch that ends in `block`. -/
def handleReorg (graph : MapBackedSnapshot) (block : BranchBlock) : TickM MapBackedSnapshot := do
  let s ← Fallible.get
  record (.walked graph block.parentHash s.requests)
  let (forkPoint, branch) ← env.descend graph (env.config.maxDepth + 1) block.parentHash
  let graph ← accept (graph.rewindTo forkPoint.reference)
  let (graph, _) ← env.layDown graph forkPoint (branch.reverse ++ [block])
  pure graph

/-- Appends a served block that continues the tip, and reorganises onto any other. -/
def applyServed (graph : MapBackedSnapshot) (block : Block) : TickM MapBackedSnapshot := do
  if block.header.prevHash = graph.bestTip.hash then do
    let chainblock ← env.blockToChainblock graph.tip block
    accept (graph.extend chainblock)
  else env.handleReorg graph (.fetched block)

/-- Extends the graph to `chainHeight` one served block at a time. -/
def extendTo (chainHeight : Height) : Nat → MapBackedSnapshot → TickM MapBackedSnapshot
  | 0, _ => Fallible.fail .outOfFuel
  | fuel + 1, graph => do
    if graph.bestTip.height < chainHeight then
      match ← env.blockAtHeight (nextHeight graph.bestTip.height) with
      | none => pure graph
      | some block => do
        let graph ← env.applyServed graph block
        extendTo chainHeight fuel graph
    else pure graph

/-- Compares the tip with the block served at `target`; `below` is what to do when none is. -/
def checkAt (graph : MapBackedSnapshot) (target : Height) (below : TickM MapBackedSnapshot) :
    TickM MapBackedSnapshot := do
  if target.value + env.config.maxDepth < graph.bestTip.height.value then
    Fallible.fail .reorgFailure
  else
    match ← env.blockAtHeight target with
    | some block =>
      if block.header.hash ≠ graph.bestTip.hash then env.handleReorg graph (.fetched block)
      else pure graph
    | none => below

/-- Steps down from a height until the source can serve a block. -/
def checkDown (graph : MapBackedSnapshot) : (n : Nat) → n ≤ maxHeight → TickM MapBackedSnapshot
  | 0, bound => env.checkAt graph ⟨0, bound⟩ (pure graph)
  | n + 1, bound =>
    env.checkAt graph ⟨n + 1, bound⟩ (checkDown graph n (Nat.le_of_succ_le bound))

/-- Catches a reorg that did not raise the tip. -/
def checkForNonhigherReorgs (graph : MapBackedSnapshot) : TickM MapBackedSnapshot :=
  env.checkDown graph graph.bestTip.height.value graph.bestTip.height.bounded

/-- The window to build on: the published one, or a fresh anchor when the chain moved further than
the window covers. -/
def startingGraph (previous : MapBackedSnapshot) (chainHeight : Height) :
    TickM MapBackedSnapshot := do
  let anchorHeight := heightBelow chainHeight env.config.maxDepth
  if previous.bestTip.height < anchorHeight then do
    let anchor ← env.resolveAnchorBlock anchorHeight
    record .reanchored
    pure (.fromInitialBlock anchor)
  else pure previous

/-- Trims the graph below the lower of the reorg-safety floor and the seam's retention floor. -/
def trim (graph : MapBackedSnapshot) : TickM MapBackedSnapshot := do
  Fallible.modify fun s => { s with seam := { s.seam with committed := env.durable } }
  let s ← Fallible.get
  let reorgSafetyFloor := heightBelow graph.bestTip.height env.config.maxDepth
  let floor :=
    match ReorgHorizon.retentionFloor s.seam with
    | some retentionFloor => reorgSafetyFloor.min retentionFloor
    | none => Height.genesis
  pure (graph.removeFinalisedBlocks floor)

/-- Publishes the horizon that the graph's tip implies. A seam fault is reported, not raised. -/
def publishHorizon (graph : MapBackedSnapshot) : TickM Unit := do
  let s ← Fallible.get
  let tip := graph.bestTip.height
  let horizonHeight := heightBelow tip (ReorgHorizon.reorgDepth s.seam)
  match (graph.bestBlockByHeight horizonHeight).map ChainHeadBlock.hash with
  | none => pure ()
  | some hash =>
    match ReorgHorizon.advance s.seam tip hash with
    | (.ok released, seam) => do
      Fallible.modify fun s => { s with seam := seam }
      record (.released released graph s.requests)
    | (.error _, seam) => Fallible.modify fun s => { s with seam := seam }

/-- Moves to the most-work branch retained, when it has strictly more work than the tip. -/
def switchToHeaviest (graph : MapBackedSnapshot) : TickM MapBackedSnapshot := do
  let heaviest := graph.heaviestBlock env.visit
  if graph.tip.work.value < heaviest.work.value then env.handleReorg graph (.retained heaviest)
  else pure graph

/-- The graph as the tick trims it, before its horizon is published. -/
def caughtUp (previous : MapBackedSnapshot) (chainHeight : Height) : TickM MapBackedSnapshot := do
  let graph ← env.startingGraph previous chainHeight
  let graph ← env.extendTo chainHeight env.fuel graph
  let graph ← env.checkForNonhigherReorgs graph
  env.trim graph

/-- Builds the graph as it should be at `chainHeight`. -/
def nextGraph (previous : MapBackedSnapshot) (chainHeight : Height) :
    TickM MapBackedSnapshot := do
  let graph ← env.caughtUp previous chainHeight
  publishHorizon graph
  env.switchToHeaviest graph

end TickEnv

/-- What subscribers are told. -/
structure ChainStateEpoch where
  generation : Nat
  bestTip : BlockRef
  deriving DecidableEq

/-- The writer between ticks. -/
structure ChainHeadService where
  current : MapBackedSnapshot
  updates : ChainStateEpoch
  seam : SeamState

/-- Installs a snapshot and announces its epoch when the tip changed. -/
def ChainHeadService.publishSnapshot (service : ChainHeadService) (next : MapBackedSnapshot) :
    ChainHeadService :=
  let previous := service.current
  let next := next.stampGeneration previous service.updates.generation
  { service with
    current := next
    updates :=
      if next.bestTip ≠ previous.bestTip then ⟨next.generation, next.bestTip⟩
      else service.updates }

/-- The next snapshot, or `none` when the source's tip is the one held. -/
def TickEnv.advance (env : TickEnv) (previous : MapBackedSnapshot) :
    TickM (Option MapBackedSnapshot) := do
  let tip ← env.chainTip
  if tip = previous.bestTip then pure none
  else do
    let next ← env.nextGraph previous tip.height
    pure (some next)

/-- What a tick did: its outcome, the service it leaves behind and its log. -/
structure TickResult where
  outcome : Except ChainHeadAdvanceError Unit
  service : ChainHeadService
  log : List TickEvent

/-- One iteration: read the tip, build the next graph, publish it. -/
def ChainHeadService.tick (service : ChainHeadService) (env : TickEnv) : TickResult :=
  match (env.advance service.current).run ⟨0, service.seam, []⟩ with
  | (.ok none, s) => ⟨.ok (), { service with seam := s.seam }, s.log⟩
  | (.ok (some next), s) => ⟨.ok (), { service with seam := s.seam }.publishSnapshot next, s.log⟩
  | (.error e, s) => ⟨.error e, { service with seam := s.seam }, s.log⟩

/-- The answer of a validator that never fails. -/
def Answer.ofOption {α : Type} : Option α → Answer α
  | some a => .found a
  | none => .absent

theorem Answer.ofOption_eq_found {α : Type} {answer : Option α} {a : α} :
    ofOption answer = .found a ↔ answer = some a := by
  cases answer <;> simp [ofOption]

/-- A validator that serves one chain, oldest block first. -/
def sampleValidator (chain : List Block) : Validator where
  getChainTip _ := chain.getLast?.map fun block => ⟨block.header.hash, block.header.height⟩
  getBlock _ height := .ofOption (chain.find? fun block => block.header.height = height)
  getBlockByHash _ hash := .ofOption (chain.find? fun block => block.header.hash = hash)
  getCommitmentTreeRoots _ _ := true

/-- A tick against such a validator, the durable tier still empty. -/
def sampleTick (maxDepth : Nat) (positive : 0 < maxDepth) (chain : List Block) : TickEnv :=
  ⟨sampleValidator chain, ⟨maxDepth, positive⟩, .listed _, none, 10⟩

/-- A service over a fresh anchor and a fresh seam. -/
def sampleService (anchor : ChainHeadBlock) (reorgDepth : Nat) : ChainHeadService :=
  ⟨.fromInitialBlock anchor, ⟨0, anchor.reference⟩, .new reorgDepth 0⟩

end Zaino.ChainHead
