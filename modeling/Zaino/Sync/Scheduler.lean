import Zaino.Sync.Dag

/-!
# The scheduler

What work is ready: the scheduler counts, for every index, the batch it works on, the blocks of it
already extracted and the batches it has persisted, and offers extractions of the blocks that have
arrived. It is passive; the engine reports arrivals, extractions, merges and persisted batches.

A handle says how far an index has come with a batch, so that a batch cannot be merged before it is
extracted, nor persisted before it is merged.
-/

namespace Zaino.Sync

open Zaino Library

/-- How far a batch of an index has come. -/
inductive Stage
  | fullyExtracted
  | merged

/-- An index's batch at a stage. -/
structure BatchHandle (ι : Type) (stage : Stage) where
  index : ι
  batch : Nat
  deriving DecidableEq

/-- One block of one index to extract. -/
structure ExtractJob (ι : Type) where
  index : ι
  batch : Nat
  /-- The block's place in its batch. -/
  blockOffset : Nat
  /-- The block's place in everything that has been pushed. -/
  globalOffset : Nat
  deriving DecidableEq

/-- A unit of work that may run now. -/
inductive Task (ι : Type)
  | extract (job : ExtractJob ι)
  | completeBatch (index : ι) (batch : Nat)

/-- The graph and the progress of every index. -/
structure Scheduler (ι : Type) where
  dag : DependencyDag ι
  batchSize : Nat
  /-- The blocks that have arrived. -/
  blocksAvailable : Nat
  /-- How many blocks there are in all, once the provisioner is done. -/
  totalBlocks : Option Nat
  allIndexes : List ι
  extractedInBatch : ι → Nat
  currentBatch : ι → Nat
  committedThrough : ι → Option Nat
  pendingMerge : ι → Bool
  pendingCommit : ι → Bool
  distinct : allIndexes.Nodup
  listed : ∀ index, index ∈ allIndexes ↔ index ∈ dag.names

namespace Scheduler

variable {ι : Type} [DecidableEq ι]

/-- A scheduler at its start. -/
def new (visit : IterationOrder (DagNode ι)) (dag : DependencyDag ι) (batchSize : Nat) :
    Scheduler ι where
  dag := dag
  batchSize := batchSize
  blocksAvailable := 0
  totalBlocks := none
  allIndexes := (dag.phases visit).flatten.map fun node => node.descriptor.name
  extractedInBatch := fun _ => 0
  currentBatch := fun _ => 0
  committedThrough := fun _ => none
  pendingMerge := fun _ => false
  pendingCommit := fun _ => false
  distinct := dag.nodup_flatten_phases visit
  listed := fun index => by
    rw [DependencyDag.names, List.mem_map, List.mem_map]
    exact exists_congr fun node => and_congr_left fun _ => dag.mem_flatten_phases visit

variable (scheduler : Scheduler ι)

/-- What an index waits for, and how. -/
def deps (index : ι) : List (ι × FiringRule) :=
  (scheduler.dag.edges.filter fun edge => edge.downstream = index).map fun edge =>
    (edge.upstream, edge.firing)

/-- The size of a batch: the last may be smaller, once it is known to be the last. -/
def effectiveBatchSize (batch : Nat) : Nat :=
  match scheduler.totalBlocks with
  | some total => min (total - batch * scheduler.batchSize) scheduler.batchSize
  | none => scheduler.batchSize

/-- Whether every dependency lets an index extract a batch. -/
def firingRulesSatisfied (index : ι) (batch : Nat) : Bool :=
  (scheduler.deps index).all fun dep =>
    match dep.2 with
    | .pipelined =>
      match scheduler.committedThrough dep.1 with
      | some committed => decide (batch ≤ committed)
      | none => false
    -- The end of a dependency's whole range is not tracked: a barrier never opens.
    | .barrier => false

/-- Whether the blocks of a batch may be extracted all at once. -/
def isParallel (index : ι) : Bool :=
  match scheduler.dag.node index with
  | some node =>
    match node.descriptor.scope with
    | .blockLocal => true
    | .crossIndex => true
    | .selfCumulative .orderedMonoid => true
    | .selfCumulative .sequential => false
  | none => false

/-- The job of a block of an index's current batch. -/
def job (index : ι) (offset : Nat) : ExtractJob ι where
  index := index
  batch := scheduler.currentBatch index
  blockOffset := offset
  globalOffset := scheduler.currentBatch index * scheduler.batchSize + offset

/-- The extractions of one index that may run now. -/
def readyFor (index : ι) : List (ExtractJob ι) :=
  if scheduler.pendingMerge index || scheduler.pendingCommit index then []
  else
    let batch := scheduler.currentBatch index
    let effective := scheduler.effectiveBatchSize batch
    let extracted := scheduler.extractedInBatch index
    if effective ≤ extracted then []
    else if scheduler.firingRulesSatisfied index batch then
      let limit := if scheduler.isParallel index then effective else extracted + 1
      ((List.range' extracted (limit - extracted)).map (scheduler.job index)).takeWhile fun job =>
        decide (job.globalOffset < scheduler.blocksAvailable)
    else []

/-- Which extractions may run now. -/
def readyExtractions : List (ExtractJob ι) :=
  scheduler.allIndexes.flatMap scheduler.readyFor

/-- Record that one extraction of an index is done; a handle if that was the last of its batch. -/
def extractionDone (index : ι) : Scheduler ι × Option (BatchHandle ι .fullyExtracted) :=
  let batch := scheduler.currentBatch index
  let count := scheduler.extractedInBatch index + 1
  let counted :=
    { scheduler with extractedInBatch := Function.update scheduler.extractedInBatch index count }
  if scheduler.effectiveBatchSize batch ≤ count then
    ({ counted with pendingMerge := Function.update scheduler.pendingMerge index true },
      some ⟨index, batch⟩)
  else (counted, none)

/-- Record that extractions are done, one after the other; the handles of the batches they complete. -/
def reportAll (scheduler : Scheduler ι) :
    List (ExtractJob ι) → Scheduler ι × List (BatchHandle ι .fullyExtracted)
  | [] => (scheduler, [])
  | job :: rest =>
    let reported := scheduler.extractionDone job.index
    let later := reported.1.reportAll rest
    (later.1, reported.2.toList ++ later.2)

/-- The batches that wait for their merge, in the order of a hash set. -/
def readyForMerge (visit : IterationOrder ι) : List (BatchHandle ι .fullyExtracted) :=
  (visit.order (scheduler.allIndexes.filter scheduler.pendingMerge)).map fun index =>
    ⟨index, scheduler.currentBatch index⟩

/-- Record that a batch is merged. -/
def mergeDone (handle : BatchHandle ι .fullyExtracted) :
    Scheduler ι × BatchHandle ι .merged :=
  ({ scheduler with
      pendingMerge := Function.update scheduler.pendingMerge handle.index false
      pendingCommit := Function.update scheduler.pendingCommit handle.index true },
    ⟨handle.index, handle.batch⟩)

/-- Record that a batch is persisted, and move on to the next. -/
def batchCommitted (handle : BatchHandle ι .merged) : Scheduler ι :=
  { scheduler with
    pendingCommit := Function.update scheduler.pendingCommit handle.index false
    committedThrough := Function.update scheduler.committedThrough handle.index (some handle.batch)
    currentBatch := Function.update scheduler.currentBatch handle.index (handle.batch + 1)
    extractedInBatch := Function.update scheduler.extractedInBatch handle.index 0 }

/-- All the work that may run now. -/
def readyWork (visit : IterationOrder ι) : List (Task ι) :=
  scheduler.readyExtractions.map .extract ++
    (scheduler.readyForMerge visit).map fun handle => .completeBatch handle.index handle.batch

/-- Say how many blocks have arrived. -/
def setBlocksAvailable (count : Nat) : Scheduler ι :=
  { scheduler with blocksAvailable := count }

/-- Say that no more blocks will arrive. -/
def provisionerDone (totalBlocks : Nat) : Scheduler ι :=
  { scheduler with totalBlocks := some totalBlocks, blocksAvailable := totalBlocks }

/-- Whether every index has persisted a batch. -/
def allCommittedThrough (batch : Nat) : Bool :=
  scheduler.allIndexes.all fun index =>
    match scheduler.committedThrough index with
    | some committed => decide (batch ≤ committed)
    | none => false

/-! ## What is offered -/

/-- The jobs of one index. -/
def jobsOf (jobs : List (ExtractJob ι)) (index : ι) : List (ExtractJob ι) :=
  jobs.filter fun job => decide (job.index = index)

/-! ## What is reported -/

/-- How many jobs an index has among some. -/
def share (jobs : List (ExtractJob ι)) (index : ι) : Nat := (jobsOf jobs index).length

theorem share_cons (job : ExtractJob ι) (rest : List (ExtractJob ι)) (index : ι) :
    share (job :: rest) index = share rest index + if job.index = index then 1 else 0 := by
  rw [share, jobsOf, List.filter_cons]
  by_cases own : job.index = index
  · rw [if_pos (decide_eq_true own), if_pos own, List.length_cons]
    rfl
  · rw [if_neg (by simpa using own), if_neg own]
    rfl

theorem extractionDone_eq (index : ι) : (scheduler.extractionDone index).1 = { scheduler with
        extractedInBatch := fun other =>
          scheduler.extractedInBatch other + if index = other then 1 else 0
        pendingMerge := fun other => scheduler.pendingMerge other ||
          (decide (index = other) &&
            decide (scheduler.effectiveBatchSize (scheduler.currentBatch other) ≤
              scheduler.extractedInBatch other + 1)) } := by
  have counted : Function.update scheduler.extractedInBatch index
        (scheduler.extractedInBatch index + 1) =
      fun other => scheduler.extractedInBatch other + if index = other then 1 else 0 := by
    funext other
    rw [Function.update_apply]
    by_cases own : index = other
    · rw [if_pos own.symm, if_pos own, own]
    · rw [if_neg (Ne.symm own), if_neg own, Nat.add_zero]
  rw [extractionDone]
  rw [counted]
  split
  · next full =>
    have marked : Function.update scheduler.pendingMerge index true =
        fun other => scheduler.pendingMerge other ||
          (decide (index = other) &&
            decide (scheduler.effectiveBatchSize (scheduler.currentBatch other) ≤
              scheduler.extractedInBatch other + 1)) := by
      funext other
      by_cases own : index = other
      · subst own
        simp [full]
      · simp [own, Ne.symm own]
    rw [marked]
  · next open_still =>
    have marked : scheduler.pendingMerge =
        fun other => scheduler.pendingMerge other ||
          (decide (index = other) &&
            decide (scheduler.effectiveBatchSize (scheduler.currentBatch other) ≤
              scheduler.extractedInBatch other + 1)) := by
      funext other
      by_cases own : index = other
      · subst own
        simp [open_still]
      · simp [own]
    conv_lhs => rw [marked]

/-- The reported extractions are counted; a batch that is complete waits for its merge. -/
theorem reportAll_eq (jobs : List (ExtractJob ι)) : (scheduler.reportAll jobs).1 = { scheduler with
        extractedInBatch := fun index => scheduler.extractedInBatch index + share jobs index
        pendingMerge := fun index => scheduler.pendingMerge index ||
          (decide (0 < share jobs index) &&
            decide (scheduler.effectiveBatchSize (scheduler.currentBatch index) ≤
              scheduler.extractedInBatch index + share jobs index)) } := by
  induction jobs generalizing scheduler with
  | nil =>
    have untouched : scheduler.pendingMerge = fun index => scheduler.pendingMerge index ||
        (decide (0 < share [] index) &&
          decide (scheduler.effectiveBatchSize (scheduler.currentBatch index) ≤
            scheduler.extractedInBatch index + share [] index)) := by
      funext index
      simp [share, jobsOf]
    rw [reportAll]
    rw [← untouched]
    rfl
  | cons job rest ih =>
    have counted : (fun index => scheduler.extractedInBatch index +
          (if job.index = index then 1 else 0) + share rest index) =
        fun index => scheduler.extractedInBatch index + share (job :: rest) index := by
      funext index
      rw [share_cons]
      omega
    have marked : (fun index => (scheduler.pendingMerge index ||
          (decide (job.index = index) &&
            decide (scheduler.effectiveBatchSize (scheduler.currentBatch index) ≤
              scheduler.extractedInBatch index + 1))) ||
          (decide (0 < share rest index) &&
            decide (scheduler.effectiveBatchSize (scheduler.currentBatch index) ≤
              scheduler.extractedInBatch index + (if job.index = index then 1 else 0) +
                share rest index))) =
        fun index => scheduler.pendingMerge index ||
          (decide (0 < share (job :: rest) index) &&
            decide (scheduler.effectiveBatchSize (scheduler.currentBatch index) ≤
              scheduler.extractedInBatch index + share (job :: rest) index)) := by
      funext index
      rw [share_cons, Bool.or_assoc]
      congr 1
      rw [Bool.eq_iff_iff, Bool.or_eq_true, Bool.and_eq_true, Bool.and_eq_true, Bool.and_eq_true,
        decide_eq_true_iff, decide_eq_true_iff, decide_eq_true_iff, decide_eq_true_iff,
        decide_eq_true_iff, decide_eq_true_iff]
      by_cases own : job.index = index
      · simp only [own, if_true, true_and]
        omega
      · simp only [own, if_false, false_and, false_or]
        omega
    rw [reportAll]
    dsimp only
    rw [ih, extractionDone_eq, ← counted, ← marked]
    rfl

/-! ## Persisted batches -/

end Scheduler

end Zaino.Sync
