import Zaino.Finality.Ratchet
import Zaino.Sync.Engine

/-!
# The watermarks an engine commits

Heights are counted as blocks are pushed, and every batch is stamped with the highest height pushed
into it. Batches are committed in order and a committed batch takes no further block, so the stamps
ascend, whatever the scheduler does and however a synchronisation ends (`Session.ascends`).

`Progress` is the part of an engine that the stamps depend on. Only pushing a block and committing a
batch change it.
-/

namespace Zaino.Sync

open Zaino Library Persistence Finality List Fallible SyncEngine Nat Std.ExtTreeMap

variable {ι Ctx : Type}

/-- The watermarks a trace has committed, in order. -/
def commits (trace : List (Event ι Ctx)) : List Height :=
  trace.filterMap fun event =>
    match event with
    | .committed _ _ watermark => some watermark
    | _ => none

theorem commits_append (first second : List (Event ι Ctx)) :
    commits (first ++ second) = commits first ++ commits second :=
  filterMap_append

theorem read_applyAll_stamp (trees : Trees) (ops : List WriteOp) (watermark : Height) :
    Watermark.read (trees.applyAll (ops ++ [Watermark.stamp watermark])) = some watermark := by
  rw [Trees.applyAll_append]
  exact Watermark.read_stamp _ watermark

/-- What the stamps depend on. -/
structure Progress (Ctx : Type) where
  persisted : Option Height
  commits : List Height
  batchSize : Nat
  buffer : BlockBuffer Ctx
  candidate : Nat
  nextHeight : Nat
  heights : OrderedMap Nat Nat

/-- The progress of an engine. -/
def SyncEngine.progress {set : BuiltIndexSet ι Ctx} (engine : SyncEngine set) : Progress Ctx where
  persisted := Watermark.read engine.backend
  commits := Sync.commits engine.trace
  batchSize := engine.scheduler.batchSize
  buffer := engine.buffer
  candidate := engine.candidate
  nextHeight := engine.nextHeight
  heights := engine.batchLastHeight

namespace Progress

/-- Everything that has been persisted, from the watermark the engine started over. -/
def seen (before : Option Height) (progress : Progress Ctx) : List Height :=
  before.toList ++ progress.commits

/-- The stamps ascend: those committed so far, and those recorded for the batches to come, which all
lie above them. -/
structure Ascends (before : Option Height) (progress : Progress Ctx) : Prop where
  positive : 0 < progress.batchSize
  sized : progress.buffer.batchSize = progress.batchSize
  floor : progress.buffer.floor = progress.candidate * progress.batchSize
  persisted : progress.persisted = (progress.seen before).getLast?
  ascending : (progress.seen before).Pairwise (· < ·)
  passed : ∀ height ∈ progress.seen before, height.value < progress.nextHeight
  above : ∀ {batch stamp : Nat}, progress.heights[batch]? = some stamp →
    ∀ height ∈ progress.seen before, height.value < stamp
  counted : ∀ {batch stamp : Nat}, progress.heights[batch]? = some stamp →
    stamp < progress.nextHeight
  open_ : ∀ {batch stamp : Nat}, progress.heights[batch]? = some stamp →
    progress.candidate ≤ batch ∧ batch ≤ progress.buffer.totalPushed / progress.batchSize
  ordered : ∀ {earlier later stamp stamp' : Nat}, progress.heights[earlier]? = some stamp →
    progress.heights[later]? = some stamp' → earlier < later → stamp < stamp'

variable {before : Option Height} {progress : Progress Ctx} (ascends : progress.Ascends before)

include ascends

/-- A block is pushed into the batch that its offset falls in. -/
theorem Ascends.push (ctx : Ctx) :
    Ascends before
      { progress with
        buffer := progress.buffer.push ctx
        nextHeight := progress.nextHeight + 1
        heights := progress.heights.insert (progress.buffer.totalPushed / progress.batchSize)
          progress.nextHeight } := by
  have pushed : (progress.buffer.push ctx).totalPushed = progress.buffer.totalPushed + 1 := by
    rw [BlockBuffer.totalPushed, BlockBuffer.push, length_append]
    rfl
  have found : ∀ {batch stamp : Nat},
      (progress.heights.insert (progress.buffer.totalPushed / progress.batchSize)
        progress.nextHeight)[batch]? = some stamp →
      (batch = progress.buffer.totalPushed / progress.batchSize ∧ stamp = progress.nextHeight) ∨
        (batch ≠ progress.buffer.totalPushed / progress.batchSize ∧
          progress.heights[batch]? = some stamp) := by
    intro batch stamp at_
    rw [Std.ExtTreeMap.getElem?_insert] at at_
    split at at_
    · next same =>
      exact Or.inl ⟨(Std.compare_eq_iff_eq.mp same).symm, (Option.some.inj at_).symm⟩
    · next different =>
      exact Or.inr ⟨fun same => different (Std.compare_eq_iff_eq.mpr same.symm), at_⟩
  have reached : progress.candidate ≤ progress.buffer.totalPushed / progress.batchSize := by
    rw [le_div_iff_mul_le ascends.positive, ← ascends.floor]
    exact le_add_right _ _
  have grows : progress.buffer.totalPushed / progress.batchSize ≤
      (progress.buffer.totalPushed + 1) / progress.batchSize :=
    Nat.div_le_div_right (Nat.le_succ _)
  refine ⟨ascends.positive, ascends.sized, ascends.floor, ascends.persisted, ascends.ascending,
    fun height member => lt_succ_of_lt (ascends.passed height member), ?_, ?_, ?_, ?_⟩
  · intro batch stamp at_
    rcases found at_ with ⟨_, rfl⟩ | ⟨_, old⟩
    · exact ascends.passed
    · exact ascends.above old
  · intro batch stamp at_
    rcases found at_ with ⟨_, rfl⟩ | ⟨_, old⟩
    · exact lt_succ_self _
    · exact lt_succ_of_lt (ascends.counted old)
  · intro batch stamp at_
    rw [pushed]
    rcases found at_ with ⟨rfl, _⟩ | ⟨_, old⟩
    · exact ⟨reached, grows⟩
    · exact ⟨(ascends.open_ old).1, Nat.le_trans (ascends.open_ old).2 grows⟩
  · intro earlier later stamp stamp' first second lt
    rcases found first with ⟨rfl, rfl⟩ | ⟨_, old⟩
    · rcases found second with ⟨rfl, _⟩ | ⟨_, old'⟩
      · exact absurd lt (lt_irrefl _)
      · exact absurd (ascends.open_ old').2 (Nat.not_le_of_lt lt)
    · rcases found second with ⟨_, rfl⟩ | ⟨_, old'⟩
      · exact ascends.counted old
      · exact ascends.ordered old old' lt

/-- The stamp of the next batch is taken out. -/
theorem Ascends.take :
    Ascends before { progress with heights := progress.heights.erase progress.candidate } := by
  have found : ∀ {batch stamp : Nat}, (progress.heights.erase progress.candidate)[batch]? = some stamp →
      progress.heights[batch]? = some stamp := by
    intro batch stamp at_
    rw [getElem?_erase] at at_
    split at at_
    · cases at_
    · exact at_
  exact ⟨ascends.positive, ascends.sized, ascends.floor, ascends.persisted, ascends.ascending,
    ascends.passed, fun at_ => ascends.above (found at_), fun at_ => ascends.counted (found at_),
    fun at_ => ascends.open_ (found at_),
    fun first second => ascends.ordered (found first) (found second)⟩

/-- The next batch is committed with its stamp. -/
theorem Ascends.commit {watermark : Height}
    (recorded : progress.heights[progress.candidate]? = some watermark.value) :
    Ascends before
      { progress with
        persisted := some watermark
        commits := progress.commits ++ [watermark]
        heights := progress.heights.erase progress.candidate } := by
  have seen_eq : ∀ heights : OrderedMap Nat Nat, seen before
      { progress with
        persisted := some watermark
        commits := progress.commits ++ [watermark]
        heights := heights } = progress.seen before ++ [watermark] :=
    fun _ => (append_assoc _ _ _).symm
  have found : ∀ {batch stamp : Nat}, (progress.heights.erase progress.candidate)[batch]? = some stamp →
      progress.heights[batch]? = some stamp ∧ progress.candidate < batch := by
    intro batch stamp at_
    rw [getElem?_erase] at at_
    split at at_
    · cases at_
    · next different =>
      refine ⟨at_, Nat.lt_of_le_of_ne (ascends.open_ at_).1 fun same => different ?_⟩
      exact Std.compare_eq_iff_eq.mpr same
  have taken := ascends.take
  refine ⟨ascends.positive, ascends.sized, ascends.floor, ?_, ?_, ?_, ?_, taken.counted, taken.open_,
    taken.ordered⟩
  · rw [seen_eq, getLast?_concat]
  · rw [seen_eq, pairwise_append]
    refine ⟨ascends.ascending, pairwise_singleton _ _, fun height member other last => ?_⟩
    rw [mem_singleton.mp last]
    exact ascends.above recorded height member
  · intro height member
    rw [seen_eq] at member
    rcases mem_append.mp member with older | last
    · exact ascends.passed height older
    · rw [mem_singleton.mp last]
      exact ascends.counted recorded
  · intro batch stamp at_ height member
    rw [seen_eq] at member
    obtain ⟨old, later⟩ := found at_
    rcases mem_append.mp member with older | last
    · exact ascends.above old height older
    · rw [mem_singleton.mp last]
      exact ascends.ordered recorded old later

/-- A batch whose stamp is out is evicted. -/
theorem Ascends.evict
    (unrecorded : progress.heights[progress.candidate]? = none) :
    Ascends before
      { progress with
        buffer := progress.buffer.evictThroughBatch progress.candidate
        candidate := progress.candidate + 1 } := by
  have cutoff : (progress.buffer.evictThroughBatch progress.candidate).floor =
      (progress.candidate + 1) * progress.batchSize := by
    rw [← ascends.sized]
    rfl
  have grows : progress.buffer.totalPushed ≤
      (progress.buffer.evictThroughBatch progress.candidate).totalPushed := by
    rw [BlockBuffer.totalPushed, BlockBuffer.totalPushed, cutoff, BlockBuffer.evictThroughBatch,
      length_drop, ascends.sized, ascends.floor, succ_mul]
    omega
  refine ⟨ascends.positive, ascends.sized, cutoff, ascends.persisted, ascends.ascending,
    ascends.passed, ascends.above, ascends.counted, ?_, ascends.ordered⟩
  intro batch stamp at_
  obtain ⟨reached, within⟩ := ascends.open_ at_
  refine ⟨Nat.lt_of_le_of_ne reached ?_, Nat.le_trans within (Nat.div_le_div_right grows)⟩
  rintro rfl
  rw [at_] at unrecorded
  cases unrecorded

end Progress

/-! ## Every function of the engine -/

section Engine

variable {set : BuiltIndexSet ι Ctx} (before : Option Height)

/-- An engine whose stamps ascend. -/
def SyncEngine.Ascending (engine : SyncEngine set) : Prop := engine.progress.Ascends before

variable {before} {engine : SyncEngine set} (ascending : engine.Ascending before)

include ascending

theorem SyncEngine.Ascending.trace
    {events : List (Event ι Ctx)} (uncommitted : commits events = []) :
    SyncEngine.Ascending before { engine with trace := engine.trace ++ events } := by
  have same : commits (engine.trace ++ events) = commits engine.trace := by
    rw [commits_append, uncommitted, append_nil]
  unfold SyncEngine.Ascending progress
  rw [same]
  exact ascending

theorem SyncEngine.Ascending.scheduler
    {scheduler : Scheduler ι} (sized : scheduler.batchSize = engine.scheduler.batchSize) :
    SyncEngine.Ascending before { engine with scheduler := scheduler } := by
  unfold SyncEngine.Ascending progress
  rw [sized]
  exact ascending

theorem SyncEngine.Ascending.tryEvict
    (unrecorded : engine.batchLastHeight[engine.candidate]? = none) :
    (engine.tryEvict engine.candidate).Ascending before := by
  have evicted : SyncEngine.Ascending before { engine with
      buffer := engine.buffer.evictThroughBatch engine.candidate
      evictedThrough := some engine.candidate } := ascending.evict unrecorded
  exact evicted.trace rfl

omit ascending

variable (set before) in
abbrev KeepsAscending {α : Type} (action : SyncM set α) : Prop :=
  action.Keeps (SyncEngine.Ascending before)

theorem choose_keeps (env : Environment ι) :
    KeepsAscending set before (choose env) :=
  fun _ ascending => ascending

theorem expect_keeps {α : Type} (found : Option α) (message : String) :
    KeepsAscending set before (expect found message) := by
  cases found with
  | none => exact keeps_fail _
  | some a => exact keeps_pure a

theorem backendCall_keeps (env : Environment ι) (error : SyncError ι) :
    KeepsAscending set before (backendCall env error) := by
  refine (choose_keeps env).bind fun choice => ?_
  split
  · exact keeps_fail _
  · exact keeps_pure _

variable [DecidableEq ι]

theorem onPipeline_keeps {α : Type} (index : ι)
    (step : Fallible (set.pipeline index).State (PipelineError ι) α) :
    KeepsAscending set before (onPipeline index step) := by
  intro engine ascending
  rw [Fallible.run, onPipeline]
  split <;> exact ascending

omit [DecidableEq ι] in
theorem jobBlocks_keeps (jobs : List (ExtractJob ι)) :
    KeepsAscending set before (jobBlocks jobs) := by
  induction jobs with
  | nil => exact keeps_pure _
  | cons job rest ih =>
    exact keeps_get.bind fun _ => (expect_keeps _ _).bind fun _ =>
      ih.bind fun _ => keeps_pure _

theorem extractLocal_keeps (work : ExtractJob ι × Ctx) :
    KeepsAscending set before (extractLocal work) :=
  (onPipeline_keeps _ _).bind fun _ =>
    keeps_modify fun _ ascending => ascending.trace rfl

theorem runExtractions_keeps (grace : Nat) (work : List (ExtractJob ι × Ctx)) :
    KeepsAscending set before (runExtractions grace work) := by
  induction work with
  | nil => exact keeps_pure _
  | cons first rest ih =>
    intro engine ascending
    have kept := extractLocal_keeps first engine ascending
    unfold runExtractions run at kept ⊢
    beta_reduce
    cases outcome : extractLocal first engine with
    | mk result engine' =>
      rw [outcome] at kept
      cases result with
      | ok _ => exact ih engine' kept
      | error e =>
        -- Those that still run after the failure change no more than the others.
        refine List.foldlRecOn (rest.take grace) _ kept fun reached kept' work _ => ?_
        exact extractLocal_keeps work reached kept'

theorem runLocalExtractions_keeps (env : Environment ι) (jobs : List (ExtractJob ι)) :
    KeepsAscending set before (runLocalExtractions env jobs) :=
  (choose_keeps env).bind fun _ => (jobBlocks_keeps _).bind fun _ => runExtractions_keeps _ _

theorem extractCross_keeps (jobs : List (ExtractJob ι)) :
    KeepsAscending set before (extractCross jobs) := by
  induction jobs with
  | nil => exact keeps_pure _
  | cons job rest ih =>
    exact keeps_get.bind fun _ => (expect_keeps _ _).bind fun _ =>
      (onPipeline_keeps _ _).bind fun _ =>
        (keeps_modify fun _ ascending => ascending.trace rfl).bind fun _ => ih

theorem runExtractionsParallel_keeps (env : Environment ι) (jobs : List (ExtractJob ι)) :
    KeepsAscending set before (runExtractionsParallel env jobs) := by
  refine (runLocalExtractions_keeps env _).bind fun _ => ?_
  rw [runCrossExtractions]
  split
  · exact keeps_pure _
  · exact (backendCall_keeps env _).bind fun _ => extractCross_keeps _

variable {engine : SyncEngine set} {watermark : Height}

omit [DecidableEq ι] in
/-- The watermark is stamped in one write, unless the backend refuses. -/
theorem commitBatch_ensures (env : Environment ι) (ascending : engine.Ascending before)
    {batch : Nat} {ops : List WriteOp} {post : SyncEngine set → Prop} (committed : ∀ clock, post
      { engine with
        backend := engine.backend.applyAll (ops ++ [Watermark.stamp watermark])
        clock := clock
        trace := engine.trace ++ [.committed batch ops watermark] }) :
    (commitBatch env batch ops watermark).Ensures engine (fun _ engine' => post engine')
      fun _ engine' => engine'.Ascending before := by
  rw [commitBatch, ensures_bind, backendCall, ensures_bind]
  change Fallible.Ensures (ite _ _ _) { engine with clock := engine.clock + 1 } _ _
  split
  · exact ascending
  · rw [ensures_pure, ensures_bind, backendCall, ensures_bind]
    change Fallible.Ensures (ite _ _ _) { engine with clock := engine.clock + 1 + 1 } _ _
    split
    · exact ascending
    · exact committed _

omit [DecidableEq ι] in
/-- Publishing changes no more than the seam. -/
theorem publish_ensures :
    (publish watermark).Ensures engine
      (fun _ engine' => ∃ seam, engine' = { engine with watermark := seam })
      fun _ engine' => ∃ seam, engine' = { engine with watermark := seam } := by
  unfold Fallible.Ensures Fallible.run publish
  dsimp only
  cases (engine.publishing watermark).1 with
  | ok _ => exact ⟨_, rfl⟩
  | error _ => exact ⟨_, rfl⟩

omit [DecidableEq ι] in
/-- A round commits the candidate with its stamp, or fails on the way. -/
theorem tryCommitLoop_keeps (env : Environment ι) (rounds : Nat) :
    KeepsAscending set before (tryCommitLoop env rounds) := by
  induction rounds with
  | zero => exact keeps_pure _
  | succ rounds ih =>
    refine Fallible.Ensures.keeps fun engine ascending => ?_
    rw [tryCommitLoop, ensures_bind, ensures_get]
    dsimp only
    split
    · change Fallible.Ensures _ { engine with
        pendingOps := engine.pendingOps.erase engine.candidate
        batchLastHeight := engine.batchLastHeight.erase engine.candidate } _ _
      dsimp only
      have taken : SyncEngine.Ascending before { engine with
          pendingOps := engine.pendingOps.erase engine.candidate
          batchLastHeight := engine.batchLastHeight.erase engine.candidate } := ascending.take
      split
      · exact taken
      · next stamp recorded =>
        rw [ensures_bind]
        cases tried : Height.tryFrom stamp with
        | none => exact taken
        | some watermark =>
          have stamped : engine.batchLastHeight[engine.candidate]? = some watermark.value := by
            rw [recorded, Height.tryFrom_eq_some.mp tried]
          change Fallible.Ensures (_ >>= _) _ _ _
          rw [ensures_bind]
          refine (commitBatch_ensures env taken fun clock => ?_).mono (fun _ _ next => next)
            fun _ _ kept => kept
          have committed : SyncEngine.Ascending before { engine with
              pendingOps := engine.pendingOps.erase engine.candidate
              batchLastHeight := engine.batchLastHeight.erase engine.candidate
              backend := engine.backend.applyAll
                (engine.pendingOps.getD engine.candidate [] ++ [Watermark.stamp watermark])
              clock := clock
              trace := engine.trace ++ [.committed engine.candidate
                (engine.pendingOps.getD engine.candidate []) watermark] } := by
            unfold SyncEngine.Ascending progress
            rw [commits_append, read_applyAll_stamp]
            exact ascending.commit stamped
          have unrecorded : (engine.batchLastHeight.erase engine.candidate)[engine.candidate]? =
              none :=
            getElem?_erase_self
          rw [ensures_bind]
          refine publish_ensures.mono ?_ ?_
          · rintro _ _ ⟨seam, rfl⟩
            exact ih.ensures (SyncEngine.Ascending.tryEvict
              (show SyncEngine.Ascending before _ from committed) unrecorded)
          · rintro _ _ ⟨seam, rfl⟩
            exact committed
    · exact ascending

omit [DecidableEq ι] in
theorem tryCommit_keeps (env : Environment ι) :
    KeepsAscending set before (tryCommit env) :=
  keeps_get.bind fun _ => tryCommitLoop_keeps env _

theorem mergeEach_keeps (handles : List (BatchHandle ι .fullyExtracted)) :
    KeepsAscending set before (mergeEach handles) := by
  induction handles with
  | nil => exact keeps_pure _
  | cons handle rest ih =>
    exact (onPipeline_keeps _ _).bind fun _ => ih.bind fun _ => keeps_pure _

variable (env : Environment ι)

include env

theorem mergeAll_keeps (handles : List (BatchHandle ι .fullyExtracted)) :
    KeepsAscending set before (mergeAll env handles) := by
  refine (choose_keeps env).bind fun choice engine ascending => ?_
  have kept := mergeEach_keeps handles engine ascending
  unfold run at kept ⊢
  beta_reduce
  cases outcome : mergeEach handles engine with
  | mk result engine' =>
    rw [outcome] at kept
    cases result with
    | ok _ => exact kept
    | error e =>
      refine List.foldlRecOn choice.ran _ ascending fun reached kept' handle _ => ?_
      exact onPipeline_keeps _ _ reached kept'

theorem stash_keeps (result : BatchHandle ι .fullyExtracted × List WriteOp) :
    KeepsAscending set before (stash env result) := by
  refine (choose_keeps env).bind fun _ => keeps_get.bind fun _ =>
    (expect_keeps _ _).bind fun _ => keeps_modify fun engine ascending => ?_
  exact (SyncEngine.Ascending.scheduler ascending rfl).trace rfl

theorem stashEach_keeps (results : List (BatchHandle ι .fullyExtracted × List WriteOp)) :
    KeepsAscending set before (stashEach env results) := by
  induction results with
  | nil => exact keeps_pure _
  | cons result rest ih => exact (stash_keeps env result).bind fun _ => ih

theorem mergePersistParallel_keeps (handles : List (BatchHandle ι .fullyExtracted)) :
    KeepsAscending set before (mergePersistParallel env handles) :=
  (mergeAll_keeps env handles).bind fun _ => (stashEach_keeps env _).bind fun _ => tryCommit_keeps env

theorem completions_keeps (tasks : List (Task ι)) :
    KeepsAscending set before (completions env tasks) := by
  induction tasks with
  | nil => exact keeps_pure _
  | cons task rest ih =>
    cases task with
    | extract job => exact ih
    | completeBatch index batch =>
      refine (choose_keeps env).bind fun _ => keeps_get.bind fun _ => ih.bind fun _ => ?_
      split <;> exact keeps_pure _

theorem reportExtractions_keeps (jobs : List (ExtractJob ι)) :
    KeepsAscending set before (reportExtractions env jobs) := by
  refine Fallible.Ensures.keeps fun engine ascending => ?_
  rw [reportExtractions, ensures_bind, ensures_get]
  rw [ensures_bind, ensures_modify]
  have reported : SyncEngine.Ascending before
      { engine with scheduler := (engine.scheduler.reportAll jobs).1 } := by
    refine ascending.scheduler ?_
    rw [Scheduler.reportAll_eq]
  split
  · exact reported
  · exact (mergePersistParallel_keeps env _).ensures reported

theorem dispatchTasks_keeps (tasks : List (Task ι)) :
    KeepsAscending set before (dispatchTasks env tasks) := by
  have flushed : (flushBatchCompletions env tasks : SyncM set _).Keeps
      (SyncEngine.Ascending before) := by
    refine (completions_keeps env tasks).bind fun handles => ?_
    split
    · exact keeps_pure _
    · exact (mergePersistParallel_keeps env _).bind fun _ => keeps_pure _
  exact flushed.bind fun _ => (runExtractionsParallel_keeps env _).bind fun _ =>
    reportExtractions_keeps env _

theorem readyTasks_keeps : KeepsAscending set before (readyTasks env) :=
  (choose_keeps env).bind fun _ => keeps_get.bind fun _ =>
    (keeps_modify fun _ ascending => ascending.trace rfl).bind fun _ => keeps_pure _

omit env

omit [DecidableEq ι] in
theorem SyncEngine.Ascending.pushBlock (ascending : engine.Ascending before) (ctx : Ctx) :
    (engine.pushBlock ctx).Ascending before := by
  have pushed : SyncEngine.Ascending before { engine with
      batchLastHeight := engine.batchLastHeight.insert
        (engine.buffer.totalPushed / engine.scheduler.batchSize) engine.nextHeight
      nextHeight := engine.nextHeight + 1
      buffer := engine.buffer.push ctx } := ascending.push ctx
  exact (SyncEngine.Ascending.scheduler pushed rfl).trace rfl

omit [DecidableEq ι] in
theorem SyncEngine.Ascending.close (ascending : engine.Ascending before) :
    engine.close.Ascending before :=
  (SyncEngine.Ascending.scheduler ascending rfl).trace rfl

omit [DecidableEq ι] in
theorem supply_keeps (pulls : Nat) (source : List Ctx) :
    KeepsAscending set before (supply pulls source) := by
  induction pulls generalizing source with
  | zero => exact keeps_pure _
  | succ pulls ih =>
    cases source with
    | nil =>
      exact (keeps_modify fun _ ascending => ascending.close).bind fun _ =>
        keeps_pure _
    | cons ctx source =>
      exact (keeps_modify fun _ ascending => ascending.pushBlock ctx).bind fun _ => ih source

theorem streamingLoop_keeps (env : Environment ι) (rounds : Nat) (done : Bool) (source : List Ctx) :
    KeepsAscending set before (streamingLoop env rounds done source) := by
  induction rounds generalizing done source with
  | zero => exact keeps_pure _
  | succ rounds ih =>
    have demanded : ∀ supplied : Bool × List Ctx, KeepsAscending set before
        (do
          let tasks ← readyTasks env
          if tasks.isEmpty then
            if supplied.1 then pure true else streamingLoop env rounds false supplied.2
          else
            dispatchTasks env tasks
            streamingLoop env rounds supplied.1 supplied.2) := by
      intro supplied
      refine (readyTasks_keeps env).bind fun tasks => ?_
      split
      · split
        · exact keeps_pure _
        · exact ih _ _
      · exact (dispatchTasks_keeps env _).bind fun _ => ih _ _
    rw [streamingLoop]
    split
    · exact (keeps_pure _).bind demanded
    · refine keeps_get.bind fun _ => (supply_keeps _ _).bind fun _ => ?_
      split
      · exact (keeps_pure _).bind demanded
      · refine Fallible.Keeps.bind (keeps_modify fun engine ascending => ?_) fun _ =>
          (keeps_pure _).bind demanded
        exact ascending.scheduler rfl

theorem syncStreaming_keeps (env : Environment ι) (rounds : Nat) (source : List Ctx) :
    KeepsAscending set before (syncStreaming env rounds source) := by
  refine (streamingLoop_keeps env rounds false source).bind fun ended => ?_
  split
  · exact (backendCall_keeps env _).bind fun _ => keeps_pure _
  · exact keeps_pure _

omit [DecidableEq ι] in
theorem drainChannel_keeps (arrivals : Arrivals Ctx) :
    KeepsAscending set before (drainChannel arrivals) := by
  induction arrivals with
  | nil =>
    exact (keeps_modify fun _ ascending => ascending.close).bind fun _ =>
      keeps_pure _
  | cons arrival rest ih =>
    cases arrival with
    | none => exact keeps_pure _
    | some ctx =>
      exact (keeps_modify fun _ ascending => ascending.pushBlock ctx).bind fun _ => ih

omit [DecidableEq ι] in
theorem awaitBlock_keeps (arrivals : Arrivals Ctx) :
    KeepsAscending set before (awaitBlock arrivals) := by
  induction arrivals with
  | nil =>
    exact (keeps_modify fun _ ascending => ascending.close).bind fun _ =>
      keeps_pure _
  | cons arrival rest ih =>
    cases arrival with
    | none => exact ih
    | some ctx =>
      exact (keeps_modify fun _ ascending => ascending.pushBlock ctx).bind fun _ =>
        keeps_pure _

theorem channelLoop_keeps (env : Environment ι) (rounds : Nat) (done : Bool)
    (arrivals : Arrivals Ctx) :
    KeepsAscending set before (channelLoop env rounds done arrivals) := by
  induction rounds generalizing done arrivals with
  | zero => exact keeps_pure _
  | succ rounds ih =>
    have demanded : ∀ drained : Bool × Arrivals Ctx, KeepsAscending set before
        (do
          let tasks ← readyTasks env
          if tasks.isEmpty then
            if drained.1 then pure true
            else do
              let awaited ← awaitBlock drained.2
              channelLoop env rounds awaited.1 awaited.2
          else
            dispatchTasks env tasks
            channelLoop env rounds drained.1 drained.2) := by
      intro drained
      refine (readyTasks_keeps env).bind fun tasks => ?_
      split
      · split
        · exact keeps_pure _
        · exact (awaitBlock_keeps _).bind fun _ => ih _ _
      · exact (dispatchTasks_keeps env _).bind fun _ => ih _ _
    rw [channelLoop]
    split
    · exact (keeps_pure _).bind demanded
    · exact (drainChannel_keeps _).bind demanded

theorem syncChannel_keeps (env : Environment ι) (rounds : Nat) (arrivals : Arrivals Ctx) :
    KeepsAscending set before (syncChannel env rounds arrivals) := by
  refine (channelLoop_keeps env rounds false arrivals).bind fun ended => ?_
  split
  · exact (backendCall_keeps env _).bind fun _ => keeps_pure _
  · exact keeps_pure _

end Engine

/-! ## Sessions -/

section Session

variable [DecidableEq ι] (set : BuiltIndexSet ι Ctx)

/-- What becomes of an engine that was built over a backend with the watermark `before`: it resumes
above that watermark and synchronises any number of ranges, whichever of them fail. -/
inductive Session (before : Option Height) : SyncEngine set → Prop
  | built {nodes : IterationOrder (DagNode ι)} {visit : IterationOrder ι} {refuses : Bool}
      {backend : Trees} {config : EngineConfig} {engine : SyncEngine set} :
      Watermark.read backend = before →
      (∀ height ∈ before, height.value < config.startHeight) →
      fromPipelines set nodes visit refuses backend config = .ok engine →
      Session before engine
  | withWatermark {engine : SyncEngine set} (watermark : Option SeamState) :
      Session before engine → Session before (engine.withWatermark watermark)
  | setAuthorisation {engine : SyncEngine set} (authorisedBy : Option Released) :
      Session before engine → Session before (engine.setAuthorisation authorisedBy)
  | streamed {engine : SyncEngine set} (env : Environment ι) (rounds : Nat) (source : List Ctx) :
      Session before engine → Session before ((syncStreaming env rounds source).run engine).2
  | channelled {engine : SyncEngine set} (env : Environment ι) (rounds : Nat)
      (arrivals : Arrivals Ctx) :
      Session before engine → Session before ((syncChannel env rounds arrivals).run engine).2

variable {set}

theorem SyncEngine.fromPipelines_eq_ok {nodes : IterationOrder (DagNode ι)} {visit : IterationOrder ι}
    {refuses : Bool} {backend : Trees} {config : EngineConfig} {engine : SyncEngine set}
    (built : fromPipelines set nodes visit refuses backend config = .ok engine) :
    ∃ states, engine =
      { scheduler := Scheduler.new nodes set.dag config.batchSize
        states := states
        backend := backend
        buffer := BlockBuffer.new config.batchSize
        nextHeight := config.startHeight
        batchLastHeight := ∅
        pendingOps := ∅
        evictedThrough := none
        watermark := none
        authorisation := none
        clock := 0
        trace := [] } := by
  unfold fromPipelines at built
  split at built
  · cases built
  · dsimp only at built
    cases loaded : loadStates backend ((Watermark.read backend).map Height.value)
        (visit.order set.dag.names) fun index => (set.pipeline index).initial with
    | error e =>
      rw [loaded] at built
      cases built
    | ok states =>
      rw [loaded] at built
      cases built
      exact ⟨states, rfl⟩

theorem Session.ascends {before : Option Height} {engine : SyncEngine set}
    (session : Session set before engine) : engine.Ascending before := by
  induction session with
  | @built nodes visit refuses backend config engine read above built =>
    obtain ⟨states, rfl⟩ := fromPipelines_eq_ok built
    -- Nothing is recorded or committed yet; what has been seen is the watermark itself.
    have seen_eq : before.toList ++ commits ([] : List (Event ι Ctx)) = before.toList :=
      append_nil _
    have unrecorded : ∀ {batch stamp : Nat}, (∅ : OrderedMap Nat Nat)[batch]? ≠ some stamp := by
      intro batch stamp recorded
      cases recorded
    have passed : ∀ height ∈ before.toList, height.value < config.startHeight :=
      fun height member => above height (Option.mem_toList.mp member)
    refine ⟨config.positive, rfl, (zero_mul _).symm, ?_, ?_, ?_, fun recorded => ?_,
      fun recorded => ?_, fun recorded => ?_, fun recorded => ?_⟩
    · change Watermark.read backend = (before.toList ++ commits ([] : List (Event ι Ctx))).getLast?
      rw [seen_eq, read]
      cases before <;> rfl
    · change (before.toList ++ commits ([] : List (Event ι Ctx))).Pairwise _
      cases before with
      | none => exact .nil
      | some height => exact pairwise_singleton _ _
    · change ∀ height ∈ before.toList ++ commits ([] : List (Event ι Ctx)), _
      rw [seen_eq]
      exact passed
    all_goals exact absurd recorded unrecorded
  | withWatermark watermark _ ih => exact ih
  | setAuthorisation authorisedBy _ ih => exact ih
  | streamed env rounds source _ ih => exact syncStreaming_keeps env rounds source _ ih
  | channelled env rounds arrivals _ ih => exact syncChannel_keeps env rounds arrivals _ ih

variable (set) in
/-- In some session `watermark` is committed while `persisted` is the watermark in the backend. -/
def CommitsNext (persisted : Option Height) (watermark : Height) : Prop :=
  ∃ before engine, Session set before engine ∧ ∃ earlier later,
    commits engine.trace = earlier ++ watermark :: later ∧
      persisted = (before.toList ++ earlier).getLast?

/-- A commit raises the watermark. -/
theorem CommitsNext.rises {persisted : Option Height} {watermark : Height}
    (next : CommitsNext set persisted watermark) : NotAbove persisted (some watermark) := by
  obtain ⟨before, engine, session, earlier, later, committed, rfl⟩ := next
  have ascending := session.ascends.ascending
  change (before.toList ++ commits engine.trace).Pairwise (· < ·) at ascending
  rw [committed, ← append_assoc, pairwise_append] at ascending
  refine notAbove_some.mpr fun height last => Nat.le_of_lt ?_
  exact ascending.2.2 height (mem_of_getLast? last) watermark mem_cons_self

variable (set) in
/-- A backend's watermark and all those committed to it, by engines that each resume above the last one's. -/
inductive Restarts : Option Height → List Height → Prop
  | fresh : Restarts none []
  | session {persisted : Option Height} {committed : List Height} {engine : SyncEngine set} :
      Restarts persisted committed → Session set persisted engine →
      Restarts (Watermark.read engine.backend) (committed ++ commits engine.trace)

/-- Whichever synchronisations fail, the watermarks ascend over all restarts, and the last is the backend's. -/
theorem Restarts.ascend {persisted : Option Height} {committed : List Height}
    (restarts : Restarts set persisted committed) :
    committed.Pairwise (· < ·) ∧ persisted = committed.getLast? := by
  induction restarts with
  | fresh => exact ⟨.nil, rfl⟩
  | @session persisted committed engine _ session ih =>
    obtain ⟨ascending, rfl⟩ := ih
    obtain ⟨last, above⟩ := And.intro session.ascends.persisted session.ascends.ascending
    rcases eq_nil_or_concat' committed with rfl | ⟨earlier, newest, rfl⟩
    · exact ⟨above, last⟩
    · rw [getLast?_concat] at last above
      rw [append_assoc]
      refine ⟨pairwise_append.mpr ⟨(pairwise_append.mp ascending).1, above, ?_⟩, ?_⟩
      · intro height old later member
        have lt : height < newest := (pairwise_append.mp ascending).2.2 height old newest mem_cons_self
        rcases mem_cons.mp member with rfl | new
        · exact lt
        · exact Nat.lt_trans lt ((pairwise_cons.mp above).1 later new)
      · exact last.trans (getLast?_append_of_ne_nil _ (cons_ne_nil _ _)).symm

end Session

/-! ## A sample -/

/-- An index that keeps nothing. -/
def samplePipeline : IndexPipeline Unit Unit where
  State := Unit
  descriptor := ⟨(), .blockLocal, .append, [], .none, .walkOrdered⟩
  initial := ()
  extractOne _ _ := pure ()
  extractOneCross _ _ _ := pure ()
  merge := pure ()
  persist := pure []
  loadState _ _ := pure ()

/-- The set of that one index. -/
def sampleSet : BuiltIndexSet Unit Unit where
  dag :=
    { nodes := [⟨samplePipeline.descriptor, 0⟩]
      edges := []
      unique := by decide
      registered := by decide
      declared := by decide
      ascending := by decide }
  pipeline := fun _ => samplePipeline
  described := by decide

/-- Nothing is refused, and everything is visited in order. -/
def sampleEnvironment : Environment Unit := fun _ => ⟨.listed _, .listed _, 0, [], false⟩

/-- An engine over an empty backend, with batches of one block. -/
def sampleEngine : SyncEngine sampleSet where
  scheduler := Scheduler.new (.listed _) sampleSet.dag 1
  states := fun _ => ()
  backend := fun _ => ∅
  buffer := BlockBuffer.new 1
  nextHeight := 0
  batchLastHeight := ∅
  pendingOps := ∅
  evictedThrough := none
  watermark := none
  authorisation := none
  clock := 0
  trace := []

theorem sampleEngine_session : Session sampleSet none sampleEngine := by
  have built : fromPipelines sampleSet (.listed _) (.listed _) false (fun _ => ∅)
      ⟨1, Nat.one_pos, 0⟩ = .ok sampleEngine := rfl
  have read : Watermark.read (fun _ => ∅) = none := by decide +kernel
  exact .built read (fun _ absent => nomatch absent) built

/-- Given two blocks, the engine commits height 0 over an empty store and then height 1. -/
theorem sampleEngine_commits :
    CommitsNext sampleSet none .genesis ∧
      CommitsNext sampleSet (some .genesis) ⟨1, by decide⟩ := by
  have session := sampleEngine_session.streamed sampleEnvironment 10 [(), ()]
  have committed : commits ((syncStreaming sampleEnvironment 10 [(), ()]).run sampleEngine).2.trace =
      [.genesis, ⟨1, by decide⟩] := by
    decide +kernel
  exact ⟨⟨none, _, session, [], _, committed, rfl⟩, ⟨none, _, session, [.genesis], _, committed, rfl⟩⟩

theorem restarts_ascend_sample :
    Watermark.read ((syncStreaming sampleEnvironment 10 [(), ()]).run sampleEngine).2.backend =
      some (sampleHeight 1) := by
  rw [(Restarts.ascend (.session .fresh (sampleEngine_session.streamed sampleEnvironment 10 [(), ()]))).2]
  decide +kernel

end Zaino.Sync
