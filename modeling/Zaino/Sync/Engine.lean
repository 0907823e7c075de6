import Zaino.Finality.Seam
import Zaino.Library.Fallible
import Zaino.Sync.Scheduler

/-!
# The synchronisation engine

The engine stands between the blocks that arrive and the scheduler: it pushes blocks into a buffer,
runs the extractions the scheduler offers, merges and persists every index's finished batch, and
commits a batch with its watermark in one write once every index has persisted it. An index is an
`IndexPipeline`; its state is behind it and survives an error, as does the engine's.

Whatever the code leaves to chance is asked of an `Environment`: the order in which parallel
extractions end, which of them still run after one has failed, in which order a hash set is visited,
and whether the backend refuses a call. The `trace` records what has happened; nothing reads it.
-/

namespace Zaino.Sync

open Zaino Library Persistence Finality Fallible

/-! ## Blocks -/

/-- The blocks not yet evicted, from the offset `floor` on. -/
structure BlockBuffer (Ctx : Type) where
  blocks : List Ctx
  batchSize : Nat
  floor : Nat

namespace BlockBuffer

variable {Ctx : Type}

/-- A buffer without blocks. -/
def new (batchSize : Nat) : BlockBuffer Ctx := ⟨[], batchSize, 0⟩

/-- How many blocks have been pushed, evicted ones included. -/
def totalPushed (buffer : BlockBuffer Ctx) : Nat := buffer.floor + buffer.blocks.length

/-- Push a block at the next offset. -/
def push (buffer : BlockBuffer Ctx) (ctx : Ctx) : BlockBuffer Ctx :=
  { buffer with blocks := buffer.blocks ++ [ctx] }

/-- The block at an offset, unless it is evicted or still to come. -/
def get (buffer : BlockBuffer Ctx) (offset : Nat) : Option Ctx :=
  if offset < buffer.floor then none else buffer.blocks[offset - buffer.floor]?

/-- Evict every block of the batches up to `throughBatch`. -/
def evictThroughBatch (buffer : BlockBuffer Ctx) (throughBatch : Nat) : BlockBuffer Ctx :=
  let cutoff := (throughBatch + 1) * buffer.batchSize
  { buffer with blocks := buffer.blocks.drop (cutoff - buffer.floor), floor := cutoff }

end BlockBuffer

/-! ## Pipelines -/

/-- Read access to an index's declared dependencies: what they have committed, overlaid with what
they have persisted for batches that are not committed yet. -/
structure DepsReader (ι : Type) where
  read : Namespace → RawKey → Option RawValue
  allowed : List ι

/-- Why a read of a dependency fails. -/
inductive DepsReadError (ι : Type)
  | undeclared (dependency : ι)
  | decode (message : String)
  deriving DecidableEq

/-- Why a pipeline step fails. -/
inductive PipelineError (ι : Type)
  | extract (source : String)
  | merge (message : String)
  | decode (message : String)
  | incompatibleFormat (index : ι)
  | missingMergedState (index : ι)
  | scopeRouting (index : ι)
  deriving DecidableEq

/-- An index as the engine sees it. -/
structure IndexPipeline (ι Ctx : Type) where
  State : Type
  descriptor : Descriptor ι
  initial : State
  extractOne : Nat → Ctx → Fallible State (PipelineError ι) Unit
  extractOneCross : Nat → Ctx → DepsReader ι → Fallible State (PipelineError ι) Unit
  merge : Fallible State (PipelineError ι) Unit
  persist : Fallible State (PipelineError ι) (List WriteOp)
  loadState : Trees → Option Nat → Fallible State (PipelineError ι) Unit

/-- The indexes of an engine, with their graph. -/
structure BuiltIndexSet (ι Ctx : Type) where
  dag : DependencyDag ι
  pipeline : ι → IndexPipeline ι Ctx
  described : ∀ node ∈ dag.nodes, (pipeline node.descriptor.name).descriptor = node.descriptor

/-- Why a synchronisation fails; `panicked` stands for the process's panic. -/
inductive SyncError (ι : Type)
  | pipeline (error : PipelineError ι)
  | backendOpen
  | backendCommit
  | backendFlush
  | seam (fault : SeamFault)
  | panicked (message : String)
  deriving DecidableEq

/-! ## The environment -/

/-- One choice that the code does not make. -/
structure Choice (ι : Type) where
  /-- How a hash set of indexes is visited. -/
  visit : IterationOrder ι
  /-- The order in which parallel extractions end. -/
  order : IterationOrder (ExtractJob ι)
  /-- How many of them still run after one has failed. -/
  grace : Nat
  /-- Which merges have run when one of them has failed. -/
  ran : List (BatchHandle ι .fullyExtracted)
  /-- Whether the backend refuses the call. -/
  refuses : Bool

/-- The choices of a whole run, by number. -/
abbrev Environment (ι : Type) : Type := Nat → Choice ι

section Engine

variable {ι Ctx : Type}

/-- Something that has happened. -/
inductive Event (ι Ctx : Type)
  | pushed (offset height : Nat) (ctx : Ctx)
  | closed
  | emitted (jobs : List (ExtractJob ι))
  | extracted (index : ι) (offset : Nat) (ctx : Ctx) (reader : Option (DepsReader ι))
  | persisted (index : ι) (batch : Nat) (ops : List WriteOp)
  | committed (batch : Nat) (ops : List WriteOp) (watermark : Height)
  | evicted (batch : Nat)

/-- The engine. -/
structure SyncEngine (set : BuiltIndexSet ι Ctx) where
  scheduler : Scheduler ι
  states : (index : ι) → (set.pipeline index).State
  backend : Trees
  buffer : BlockBuffer Ctx
  /-- The height of the next block to be pushed. -/
  nextHeight : Nat
  /-- The highest height pushed into each batch. -/
  batchLastHeight : OrderedMap Nat Nat
  /-- What the indexes have persisted for batches that are not committed. -/
  pendingOps : OrderedMap Nat (List WriteOp)
  evictedThrough : Option Nat
  /-- The seam's durable half, where there is one. -/
  watermark : Option SeamState
  authorisation : Option Released
  /-- How many choices the environment has made. -/
  clock : Nat
  trace : List (Event ι Ctx)

/-- A computation over the engine. -/
abbrev SyncM (set : BuiltIndexSet ι Ctx) (α : Type) : Type :=
  Fallible (SyncEngine set) (SyncError ι) α

variable {set : BuiltIndexSet ι Ctx}

/-- What an engine is built with. -/
structure EngineConfig where
  batchSize : Nat
  positive : 0 < batchSize
  /-- The height of the first block of the run. -/
  startHeight : Nat

/-- Record an event. -/
def SyncEngine.record (engine : SyncEngine set) (event : Event ι Ctx) : SyncEngine set :=
  { engine with trace := engine.trace ++ [event] }

/-- The environment's next choice. -/
def choose (env : Environment ι) : SyncM set (Choice ι) := fun engine =>
  (.ok (env engine.clock), { engine with clock := engine.clock + 1 })

/-- What the source expects to be there. -/
def expect {α : Type} (found : Option α) (message : String) : SyncM set α :=
  match found with
  | some a => pure a
  | none => fail (.panicked message)

/-- Ask the backend, which may refuse. -/
def backendCall (env : Environment ι) (error : SyncError ι) : SyncM set Unit := do
  let choice ← choose env
  if choice.refuses then fail error else pure ()

variable [DecidableEq ι]

/-- Run a step of an index's pipeline on its state. -/
def onPipeline {α : Type} (index : ι)
    (step : Fallible (set.pipeline index).State (PipelineError ι) α) : SyncM set α := fun engine =>
  let outcome := step.run (engine.states index)
  let engine := { engine with states := Function.update engine.states index outcome.2 }
  match outcome.1 with
  | .ok a => (.ok a, engine)
  | .error e => (.error (.pipeline e), engine)

/-! ## Construction -/

/-- Load the states of some indexes from the backend, one after the other. -/
def loadStates (backend : Trees) (resumeFrom : Option Nat) :
    List ι → ((index : ι) → (set.pipeline index).State) →
      Except (SyncError ι) ((index : ι) → (set.pipeline index).State)
  | [], states => .ok states
  | index :: rest, states =>
    match ((set.pipeline index).loadState backend resumeFrom).run (states index) with
    | (.ok _, state) => loadStates backend resumeFrom rest (Function.update states index state)
    | (.error e, _) => .error (.pipeline e)

/-- An engine over a backend. The pipelines resume from what is committed; they are visited in the
order of a hash map. The backend may refuse to be read. -/
def SyncEngine.fromPipelines (set : BuiltIndexSet ι Ctx) (nodes : IterationOrder (DagNode ι))
    (visit : IterationOrder ι) (refuses : Bool) (backend : Trees) (config : EngineConfig) :
    Except (SyncError ι) (SyncEngine set) :=
  if refuses then .error .backendOpen
  else do
    let resumeFrom := (Watermark.read backend).map Height.value
    let states ← loadStates backend resumeFrom (visit.order set.dag.names) fun index =>
      (set.pipeline index).initial
    .ok
      { scheduler := Scheduler.new nodes set.dag config.batchSize
        states := states
        backend := backend
        buffer := BlockBuffer.new config.batchSize
        nextHeight := config.startHeight
        batchLastHeight := ∅
        pendingOps := ∅
        evictedThrough := none
        watermark := none
        authorisation := none
        clock := 0
        trace := [] }

/-- Give the engine the seam's durable half. -/
def SyncEngine.withWatermark (engine : SyncEngine set) (watermark : Option SeamState) :
    SyncEngine set :=
  { engine with watermark := watermark }

/-- Set the horizon that authorises the range about to be synced. -/
def SyncEngine.setAuthorisation (engine : SyncEngine set) (authorisedBy : Option Released) :
    SyncEngine set :=
  { engine with authorisation := authorisedBy }

/-! ## Arrivals -/

/-- Push one block, recording its height against the batch it lands in. -/
def SyncEngine.pushBlock (engine : SyncEngine set) (ctx : Ctx) : SyncEngine set :=
  let offset := engine.buffer.totalPushed
  let batch := offset / engine.scheduler.batchSize
  let buffer := engine.buffer.push ctx
  { engine with
    batchLastHeight := engine.batchLastHeight.insert batch engine.nextHeight
    nextHeight := engine.nextHeight + 1
    buffer := buffer
    scheduler := engine.scheduler.setBlocksAvailable buffer.totalPushed
    trace := engine.trace ++ [.pushed offset engine.nextHeight ctx] }

/-- No more blocks will arrive. -/
def SyncEngine.close (engine : SyncEngine set) : SyncEngine set :=
  { engine with
    scheduler := engine.scheduler.provisionerDone engine.buffer.totalPushed
    trace := engine.trace ++ [.closed] }

/-! ## Extractions -/

/-- Whether an index reads other indexes. -/
def isCross (set : BuiltIndexSet ι Ctx) (index : ι) : Bool :=
  decide ((set.pipeline index).descriptor.scope = .crossIndex)

/-- The blocks of some jobs. -/
def jobBlocks : List (ExtractJob ι) → SyncM set (List (ExtractJob ι × Ctx))
  | [] => pure []
  | job :: rest => do
    let engine ← get
    let ctx ← expect (engine.buffer.get job.globalOffset)
      "block available — scheduler verified watermark"
    let work ← jobBlocks rest
    pure ((job, ctx) :: work)

/-- Extract one block of an index that reads no other. -/
def extractLocal (work : ExtractJob ι × Ctx) : SyncM set Unit := do
  onPipeline work.1.index ((set.pipeline work.1.index).extractOne work.1.globalOffset work.2)
  modify fun engine =>
    engine.record (.extracted work.1.index work.1.globalOffset work.2 none)

/-- Run extractions in the order they end in. After a failure some of the others still run. -/
def runExtractions (grace : Nat) : List (ExtractJob ι × Ctx) → SyncM set Unit
  | [] => pure ()
  | work :: rest => fun engine =>
    match (extractLocal work).run engine with
    | (.ok _, engine) => runExtractions grace rest engine
    | (.error e, engine) =>
      (.error e, (rest.take grace).foldl (fun engine work => ((extractLocal work).run engine).2) engine)

/-- Run the extractions of the indexes that read no others, in parallel. -/
def runLocalExtractions (env : Environment ι) (jobs : List (ExtractJob ι)) : SyncM set Unit := do
  let choice ← choose env
  let work ← jobBlocks (choice.order.order jobs)
  runExtractions choice.grace work

/-- Everything persisted for batches that are not committed, later batches last. -/
def SyncEngine.pendingOverlay (engine : SyncEngine set) : List WriteOp :=
  engine.pendingOps.toList.flatMap Prod.snd

/-- The reader of an index's dependencies. -/
def SyncEngine.depsReader (engine : SyncEngine set) (index : ι) : DepsReader ι where
  read := fun name key =>
    match Edit.latest (WriteOp.editsFor name engine.pendingOverlay) key with
    | some pending => pending
    | none => (engine.backend name)[key]?
  allowed := (set.pipeline index).descriptor.dependencies

/-- Extract the blocks of indexes that read others, one after the other. -/
def extractCross : List (ExtractJob ι) → SyncM set Unit
  | [] => pure ()
  | job :: rest => do
    let engine ← get
    let ctx ← expect (engine.buffer.get job.globalOffset)
      "block available — scheduler verified watermark"
    let reader := engine.depsReader job.index
    onPipeline job.index ((set.pipeline job.index).extractOneCross job.globalOffset ctx reader)
    modify fun engine =>
      engine.record (.extracted job.index job.globalOffset ctx (some reader))
    extractCross rest

/-- Run the extractions of the indexes that read others. -/
def runCrossExtractions (env : Environment ι) (jobs : List (ExtractJob ι)) : SyncM set Unit := do
  if jobs.isEmpty then pure ()
  else
    backendCall env .backendOpen
    extractCross jobs

/-- Run extractions, by scope. -/
def runExtractionsParallel (env : Environment ι) (jobs : List (ExtractJob ι)) :
    SyncM set Unit := do
  runLocalExtractions env (jobs.filter fun job => !isCross set job.index)
  runCrossExtractions env (jobs.filter fun job => isCross set job.index)

/-! ## Commits -/

/-- The batch that is to be committed next. -/
def SyncEngine.candidate (engine : SyncEngine set) : Nat :=
  match engine.evictedThrough with
  | none => 0
  | some batch => batch + 1

/-- What publishing a committed watermark across the seam comes to, where there is one. -/
def SyncEngine.publishing (engine : SyncEngine set) (watermark : Height) :
    Except SeamFault Unit × Option SeamState :=
  match engine.watermark, engine.authorisation with
  | some seam, some authorisedBy =>
    let outcome := DurableWatermark.advance seam authorisedBy watermark
    (outcome.1.map fun _ => (), some outcome.2)
  | seam, _ => (.ok (), seam)

/-- Publish a committed watermark across the seam. -/
def publish (watermark : Height) : SyncM set Unit := fun engine =>
  let outcome := engine.publishing watermark
  (outcome.1.mapError SyncError.seam, { engine with watermark := outcome.2 })

/-- Evict a committed batch's blocks. -/
def SyncEngine.tryEvict (engine : SyncEngine set) (batch : Nat) : SyncEngine set :=
  { engine with
    buffer := engine.buffer.evictThroughBatch batch
    evictedThrough := some batch
    trace := engine.trace ++ [.evicted batch] }

/-- Write a batch and its watermark. -/
def commitBatch (env : Environment ι) (batch : Nat) (ops : List WriteOp) (watermark : Height) :
    SyncM set Unit := do
  backendCall env .backendOpen
  backendCall env .backendCommit
  modify fun engine =>
    { engine with
      backend := engine.backend.applyAll (ops ++ [Watermark.stamp watermark])
      trace := engine.trace ++ [.committed batch ops watermark] }

/-- Take a batch out of the pending ones; what it held, and its highest height. -/
def takePending (batch : Nat) : SyncM set (List WriteOp × Option Nat) := fun engine =>
  let ops := engine.pendingOps.getD batch []
  let height := engine.batchLastHeight[batch]?
  (.ok (ops, height),
    { engine with
      pendingOps := engine.pendingOps.erase batch
      batchLastHeight := engine.batchLastHeight.erase batch })

/-- Commit every batch that all indexes have persisted, in order. Every round takes one batch out of
the recorded heights, so there are no more rounds than those. -/
def tryCommitLoop (env : Environment ι) : Nat → SyncM set Unit
  | 0 => pure ()
  | rounds + 1 => do
    let engine ← get
    let candidate := engine.candidate
    if engine.scheduler.allCommittedThrough candidate then
      let pending ← takePending candidate
      match pending.2 with
      | none => pure ()
      | some committedHeight => do
        let watermark ← expect (Height.tryFrom committedHeight)
          "block height within the protocol limit"
        commitBatch env candidate pending.1 watermark
        publish watermark
        modify fun engine => engine.tryEvict candidate
        tryCommitLoop env rounds
    else pure ()

/-- Commit every batch that all indexes have persisted. -/
def tryCommit (env : Environment ι) : SyncM set Unit := do
  let engine ← get
  tryCommitLoop env (engine.batchLastHeight.size + 1)

/-! ## Merges -/

/-- Merge and persist an index's batch. -/
def mergePersist (handle : BatchHandle ι .fullyExtracted) : SyncM set (List WriteOp) :=
  onPipeline handle.index do
    (set.pipeline handle.index).merge
    (set.pipeline handle.index).persist

/-- Merge and persist one batch after the other. -/
def mergeEach : List (BatchHandle ι .fullyExtracted) →
    SyncM set (List (BatchHandle ι .fullyExtracted × List WriteOp))
  | [] => pure []
  | handle :: rest => do
    let ops ← mergePersist handle
    let results ← mergeEach rest
    pure ((handle, ops) :: results)

/-- Merge and persist batches in parallel. The pipelines do not see one another, so the order shows
only when one fails: then some of the others have run and some have not. -/
def mergeAll (env : Environment ι) (handles : List (BatchHandle ι .fullyExtracted)) :
    SyncM set (List (BatchHandle ι .fullyExtracted × List WriteOp)) := do
  let choice ← choose env
  fun engine =>
    match (mergeEach handles).run engine with
    | (.ok results, engine) => (.ok results, engine)
    | (.error e, _) =>
      (.error e, choice.ran.foldl (fun engine handle => ((mergePersist handle).run engine).2) engine)

/-- Stash what an index has persisted, and report it. -/
def stash (env : Environment ι) (result : BatchHandle ι .fullyExtracted × List WriteOp) :
    SyncM set Unit := do
  let choice ← choose env
  let engine ← get
  let batch := result.1.batch
  let handle ← expect
    ((engine.scheduler.readyForMerge choice.visit).find? fun handle =>
      decide (handle.index = result.1.index)) "handle must still be pending"
  modify fun engine =>
    let merged := engine.scheduler.mergeDone handle
    { engine with
      pendingOps := engine.pendingOps.insert batch (engine.pendingOps.getD batch [] ++ result.2)
      scheduler := merged.1.batchCommitted merged.2
      trace := engine.trace ++ [.persisted result.1.index batch result.2] }

/-- Stash results one after the other. -/
def stashEach (env : Environment ι) :
    List (BatchHandle ι .fullyExtracted × List WriteOp) → SyncM set Unit
  | [] => pure ()
  | result :: rest => do
    stash env result
    stashEach env rest

/-- Merge and persist finished batches, then commit what can be committed. -/
def mergePersistParallel (env : Environment ι)
    (handles : List (BatchHandle ι .fullyExtracted)) : SyncM set Unit := do
  let results ← mergeAll env handles
  stashEach env results
  tryCommit env

/-! ## Dispatch -/

/-- The extractions among some tasks. -/
def extractJobs (tasks : List (Task ι)) : List (ExtractJob ι) :=
  tasks.filterMap fun task =>
    match task with
    | .extract job => some job
    | .completeBatch _ _ => none

/-- Merge the batches that some tasks name and that still wait for it. -/
def completions (env : Environment ι) :
    List (Task ι) → SyncM set (List (BatchHandle ι .fullyExtracted))
  | [] => pure []
  | .extract _ :: rest => completions env rest
  | .completeBatch index _ :: rest => do
    let choice ← choose env
    let engine ← get
    let handles ← completions env rest
    match (engine.scheduler.readyForMerge choice.visit).find? fun handle =>
        decide (handle.index = index) with
    | some handle => pure (handle :: handles)
    | none => pure handles

/-- Handle the batch completions among some tasks; the extractions remain. -/
def flushBatchCompletions (env : Environment ι) (tasks : List (Task ι)) :
    SyncM set (List (ExtractJob ι)) := do
  let handles ← completions env tasks
  if handles.isEmpty then pure (extractJobs tasks)
  else
    mergePersistParallel env handles
    pure (extractJobs tasks)

/-- Report extractions, and merge the batches they complete. -/
def reportExtractions (env : Environment ι) (jobs : List (ExtractJob ι)) : SyncM set Unit := do
  let engine ← get
  let reported := engine.scheduler.reportAll jobs
  modify fun engine => { engine with scheduler := reported.1 }
  if reported.2.isEmpty then pure () else mergePersistParallel env reported.2

/-- Execute tasks. -/
def dispatchTasks (env : Environment ι) (tasks : List (Task ι)) : SyncM set Unit := do
  let jobs ← flushBatchCompletions env tasks
  runExtractionsParallel env jobs
  reportExtractions env jobs

/-- Ask for the work that is ready. -/
def readyTasks (env : Environment ι) : SyncM set (List (Task ι)) := do
  let choice ← choose env
  let engine ← get
  let tasks := engine.scheduler.readyWork choice.visit
  modify fun engine => engine.record (.emitted (extractJobs tasks))
  pure tasks

/-! ## Synchronisation -/

/-- Pull up to so many blocks from the source; whether it has ended, and what is left of it. -/
def supply : Nat → List Ctx → SyncM set (Bool × List Ctx)
  | 0, source => pure (false, source)
  | _ + 1, [] => do
    modify SyncEngine.close
    pure (true, [])
  | pulls + 1, ctx :: source => do
    modify fun engine => engine.pushBlock ctx
    supply pulls source

/-- Rounds of supply and demand over a source, until it has ended and no work is left; `false` if
there were not enough rounds. -/
def streamingLoop (env : Environment ι) : Nat → Bool → List Ctx → SyncM set Bool
  | 0, _, _ => pure false
  | rounds + 1, done, source => do
    let supplied ← if done then pure (true, source) else do
      let engine ← get
      let supplied ← supply engine.scheduler.batchSize source
      if supplied.1 then pure supplied
      else
        modify fun engine =>
          { engine with
            scheduler := engine.scheduler.setBlocksAvailable engine.buffer.totalPushed }
        pure supplied
    let tasks ← readyTasks env
    if tasks.isEmpty then
      if supplied.1 then pure true else streamingLoop env rounds false supplied.2
    else
      dispatchTasks env tasks
      streamingLoop env rounds supplied.1 supplied.2

/-- Sync blocks from an incremental source. -/
def syncStreaming (env : Environment ι) (rounds : Nat) (source : List Ctx) : SyncM set Bool := do
  let ended ← streamingLoop env rounds false source
  if ended then
    backendCall env .backendFlush
    pure true
  else pure false

/-- What a poll of the channel finds: a block, or none yet. The channel is closed when the list of
its polls has ended. -/
abbrev Arrivals (Ctx : Type) : Type := List (Option Ctx)

/-- Pull every block that is there; whether the channel is closed, and what is left of it. -/
def drainChannel : Arrivals Ctx → SyncM set (Bool × Arrivals Ctx)
  | [] => do
    modify SyncEngine.close
    pure (true, [])
  | none :: rest => pure (false, rest)
  | some ctx :: rest => do
    modify fun engine => engine.pushBlock ctx
    drainChannel rest

/-- Wait for the next block; whether the channel is closed, and what is left of it. -/
def awaitBlock : Arrivals Ctx → SyncM set (Bool × Arrivals Ctx)
  | [] => do
    modify SyncEngine.close
    pure (true, [])
  | none :: rest => awaitBlock rest
  | some ctx :: rest => do
    modify fun engine => engine.pushBlock ctx
    pure (false, rest)

/-- Rounds over a channel, until it is closed and no work is left; `false` if there were not enough
rounds. -/
def channelLoop (env : Environment ι) : Nat → Bool → Arrivals Ctx → SyncM set Bool
  | 0, _, _ => pure false
  | rounds + 1, done, arrivals => do
    let drained ← if done then pure (true, arrivals) else drainChannel arrivals
    let tasks ← readyTasks env
    if tasks.isEmpty then
      if drained.1 then pure true
      else do
        let awaited ← awaitBlock drained.2
        channelLoop env rounds awaited.1 awaited.2
    else
      dispatchTasks env tasks
      channelLoop env rounds drained.1 drained.2

/-- Sync blocks that arrive through a channel. -/
def syncChannel (env : Environment ι) (rounds : Nat) (arrivals : Arrivals Ctx) :
    SyncM set Bool := do
  let ended ← channelLoop env rounds false arrivals
  if ended then
    backendCall env .backendFlush
    pure true
  else pure false

end Engine

end Zaino.Sync
