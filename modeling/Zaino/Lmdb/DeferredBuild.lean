import Zaino.Lmdb.DeferredContents

/-!
# A deferred build against a direct one

A backend is opened on an empty store and then serves any sequence of operations: entering bulk
mode, commits that are accepted or refused, bulk loads that finish or are interrupted, and crashes
followed by a reopen. `Reaches` is the set of states of such runs with their history. When a run's
commits put nothing at or below the resume mark of an interrupted merge, then whenever `finishBulk`
has just returned, the trees are what the committed batches build one after another.
-/

namespace Zaino.Lmdb

open Library Persistence Fallible List

/-! ## Runs -/

/-- What happened in one step of a run. -/
inductive Event where
  | beganBulk
  | committed (ops : List WriteOp)
  | refused (ops : List WriteOp)
  | finished
  | interrupted
  | reopened
  deriving DecidableEq

/-- One operation of a backend, or a crash and the reopen after it. A panic ends the process, which
is a crash. -/
inductive Step (chunkCap : Nat) : Backend → Event → Backend → Prop
  | beginBulk {backend : Backend} (enabled : Bool) :
    Step chunkCap backend .beganBulk (backend.beginBulk enabled)
  | commit {backend after : Backend} {visit : IterationOrder Namespace} {durable : Bool}
    {ops : List WriteOp} :
    (Lmdb.commit visit durable ops).Returns backend () after →
    Step chunkCap backend (.committed ops) after
  | refuse {backend after : Backend} {visit : IterationOrder Namespace} {durable : Bool}
    {ops : List WriteOp} {e : CommitError} :
    (Lmdb.commit visit durable ops).Fails backend (.error e) after →
    Step chunkCap backend (.refused ops) after
  | finish {backend after : Backend} {visit : IterationOrder (Namespace × RunLog)}
    {budget left : Nat} :
    (finishBulk chunkCap visit).Returns (backend, budget) () (after, left) →
    Step chunkCap backend .finished after
  | interrupt {backend after : Backend} {visit : IterationOrder (Namespace × RunLog)}
    {budget left : Nat} {e : CommitError} :
    (finishBulk chunkCap visit).Fails (backend, budget) e (after, left) →
    Step chunkCap backend .interrupted after
  | reopen {backend after : Backend} {disk : Disk} {specs : List NamespaceSpec} :
    Crashed backend disk → openBackend specs disk = .ok after →
    Step chunkCap backend .reopened after

/-- The states of runs from an empty store each of whose steps is `allowed` where it is taken. -/
inductive Reaches (chunkCap : Nat) (allowed : Backend → Event → Prop) :
    Backend → List Event → Prop
  | opened {backend : Backend} {specs : List NamespaceSpec}
    {logs : Namespace → Option (List UInt8)} :
    openBackend specs ⟨fun _ => ∅, logs⟩ = .ok backend →
    Reaches chunkCap allowed backend []
  | step {backend after : Backend} {events : List Event} {event : Event} :
    Reaches chunkCap allowed backend events → allowed backend event →
    Step chunkCap backend event after →
    Reaches chunkCap allowed after (events ++ [event])

/-- The batches that a run committed, in order. -/
def committedOps (events : List Event) : List WriteOp :=
  events.flatMap fun event =>
    match event with
    | .committed ops => ops
    | _ => []

/-- The batches that a run committed, applied directly to empty trees. -/
def directBuild (events : List Event) : Trees :=
  Trees.applyAll (fun _ => ∅) (committedOps events)

theorem directBuild_committed (events : List Event) (ops : List WriteOp) :
    directBuild (events ++ [.committed ops]) = (directBuild events).applyAll ops := by
  rw [directBuild, committedOps, flatMap_append, ← committedOps, Trees.applyAll_append,
    ← directBuild, flatMap_singleton]

variable {event : Event} {disk : Disk} {chunkCap : Nat} {backend after : Backend}
  {allowed : Backend → Event → Prop} {events : List Event}

theorem directBuild_other (events : List Event) (other : ∀ ops, event ≠ .committed ops) :
    directBuild (events ++ [event]) = directBuild events := by
  have none_more : committedOps (events ++ [event]) = committedOps events := by
    rw [committedOps, flatMap_append, flatMap_singleton, ← committedOps]
    cases event with
    | committed ops => exact absurd rfl (other ops)
    | _ => exact append_nil _
  rw [directBuild, directBuild, none_more]

/-! ## The manifest in every state of a run -/

/-- The batches write to no reserved name. -/
def CallerEvent : Event → Prop
  | .committed ops => CallerOps ops
  | .refused ops => CallerOps ops
  | _ => True

theorem kept_empty (logs : Namespace → Option (List UInt8)) :
    Kept ⟨fun _ => ∅, logs⟩ fun _ => none where
  pending _ _ found := nomatch found
  marks _ _ := Std.ExtTreeMap.getElem?_empty
  manifest _ _ := Std.ExtTreeMap.getElem?_empty

/-- Every step keeps the manifest in step with the logs. -/
theorem Step.kept (step : Step chunkCap backend event after) (caller : CallerEvent event)
    (kept : Kept backend.toDisk backend.logged) : Kept after.toDisk after.logged := by
  have finishing := finishBulk_ensures (I := fun _ => True) (fun _ _ _ _ => trivial) chunkCap
  cases step with
  | beginBulk => exact ⟨kept.pending, kept.marks, kept.manifest⟩
  | commit returned =>
    obtain ⟨names, actions, committed⟩ := returned.ensured (commit_ensures _ _ _ backend)
    exact committed.kept caller kept
  | refuse failed =>
    have refused := failed.ensured (commit_ensures _ _ _ backend)
    exact refused.kept kept
  | finish returned => exact (returned.ensured (finishing _ _ kept trivial)).1.1
  | interrupt failed => exact (failed.ensured (finishing _ _ kept trivial)).1
  | reopen crashed opened =>
    have on_disk := kept.of_logs crashed.trees crashed.logs
    exact (on_disk.opened opened).kept on_disk

theorem Reaches.kept (run : Reaches chunkCap allowed backend events)
    (caller : ∀ backend event, allowed backend event → CallerEvent event) :
    Kept backend.toDisk backend.logged := by
  induction run with
  | opened accepted => exact ((kept_empty _).opened accepted).kept (kept_empty _)
  | step _ permitted step ih => exact step.kept (caller _ _ permitted) ih

/-! ## Finished builds -/

/-- An accepted commit puts nothing at or below the resume mark of its namespace, a refused one has
segments that encode, and neither writes to a reserved name. -/
def Resumable (backend : Backend) : Event → Prop
  | .committed ops => CallerOps ops ∧ BehindMarks backend.trees ops
  | .refused ops => CallerOps ops ∧ Encodes ops
  | _ => True

theorem Resumable.caller (resumable : Resumable backend event) : CallerEvent event := by
  cases event with
  | committed ops => exact resumable.1
  | refused ops => exact resumable.1
  | _ => trivial

/-- The relations that a resumable run keeps, together. -/
structure Consistent (backend : Backend) (expected : Trees) : Prop where
  kept : Kept backend.toDisk backend.logged
  tidy : Tidy backend.toDisk backend.logged
  holds : Holds backend.toDisk backend.logged expected

theorem consistent_finish (chunkCap : Nat) (visit : IterationOrder (Namespace × RunLog))
    {expected : Trees} (state : Backend × Nat) (consistent : Consistent state.1 expected) :
    (finishBulk chunkCap visit).Ensures state
      (fun _ after => Consistent after.1 expected ∧ ∀ name, after.1.logged name = none)
      (fun _ after => Consistent after.1 expected) := by
  have finishing := finishBulk_ensures
    (I := fun backend => Tidy backend.toDisk backend.logged ∧
      Holds backend.toDisk backend.logged expected)
    (fun kept ⟨tidy, holds⟩ logged merged =>
      ⟨merged.tidy logged tidy, merged.contents kept holds logged⟩)
    chunkCap visit state consistent.kept ⟨consistent.tidy, consistent.holds⟩
  exact finishing.mono (fun _ _ ⟨⟨kept, tidy, holds⟩, complete⟩ => ⟨⟨kept, tidy, holds⟩, complete⟩)
    fun _ _ ⟨kept, tidy, holds⟩ => ⟨kept, tidy, holds⟩

theorem Step.consistent (step : Step chunkCap backend event after)
    (resumable : Resumable backend event) (consistent : Consistent backend (directBuild events)) :
    Consistent after (directBuild (events ++ [event])) := by
  have kept := step.kept resumable.caller consistent.kept
  cases step with
  | beginBulk =>
    rw [directBuild_other events (fun _ => Event.noConfusion)]
    exact ⟨kept, ⟨consistent.tidy.committed, consistent.tidy.closed⟩,
      ⟨consistent.holds.pending, consistent.holds.settled, consistent.holds.reserved⟩⟩
  | commit returned =>
    obtain ⟨names, actions, committed⟩ := returned.ensured (commit_ensures _ _ _ backend)
    rw [directBuild_committed]
    exact ⟨kept, committed.tidy consistent.tidy,
      committed.holds resumable.1 consistent.kept consistent.tidy consistent.holds resumable.2⟩
  | refuse failed =>
    have refused := failed.ensured (commit_ensures _ _ _ backend)
    rw [directBuild_other events (fun _ => Event.noConfusion)]
    rcases refused.exact resumable.2 consistent.tidy with panicked | same
    · cases panicked
    · rw [same]
      exact consistent
  | finish returned =>
    rw [directBuild_other events (fun _ => Event.noConfusion)]
    exact (returned.ensured (consistent_finish chunkCap _ _ consistent)).1
  | interrupt failed =>
    rw [directBuild_other events (fun _ => Event.noConfusion)]
    exact failed.ensured (consistent_finish chunkCap _ _ consistent)
  | reopen crashed opened =>
    rw [directBuild_other events (fun _ => Event.noConfusion)]
    have on_disk := consistent.kept.of_logs crashed.trees crashed.logs
    have is_opened := on_disk.opened opened
    exact ⟨kept, is_opened.tidy on_disk, is_opened.holds on_disk
      (consistent.holds.of_logs consistent.kept crashed.trees crashed.logs)⟩

theorem Reaches.consistent (run : Reaches chunkCap Resumable backend events) :
    Consistent backend (directBuild events) := by
  induction run with
  | @opened backend specs logs accepted =>
    have opened := (kept_empty logs).opened accepted
    have empty : Holds ⟨fun _ => ∅, logs⟩ (fun _ => none) (directBuild []) :=
      ⟨fun _ _ found => (nomatch found), fun _ _ _ => rfl, rfl⟩
    exact ⟨opened.kept (kept_empty logs), opened.tidy (kept_empty logs),
      opened.holds (kept_empty logs) empty⟩
  | step _ permitted step ih => exact step.consistent permitted ih

/-- Deferred equals direct: in a run whose commits put nothing at or below the resume mark of an
interrupted merge, whenever `finishBulk` has just returned, every namespace holds what the committed
batches build in commit order from empty trees. -/
theorem finishBulk_eq_directBuild {chunkCap : Nat} {backend after : Backend} {events : List Event}
    {visit : IterationOrder (Namespace × RunLog)} {budget left : Nat}
    (run : Reaches chunkCap Resumable backend events)
    (finished : (finishBulk chunkCap visit).Returns (backend, budget) () (after, left)) :
    after.trees = directBuild events := by
  obtain ⟨consistent, complete⟩ :=
    finished.ensured (consistent_finish chunkCap visit (backend, budget) run.consistent)
  exact consistent.holds.trees_eq consistent.kept complete

/-! A run on one scattered namespace: the merge of a first batch is interrupted before its manifest
entries are cleared, the store is reopened, and a second batch puts one more key. -/

def sampleName : Namespace := ⟨"address_history".toUTF8.toList⟩

def sampleSpecs : List NamespaceSpec := [⟨sampleName, .scattered⟩]

def samplePuts (keys : List UInt8) : List WriteOp :=
  keys.map fun key => .put sampleName [key] [key]

/-- The backend that opening gives. -/
def sampleOpen (specs : List NamespaceSpec) (disk : Disk) : Backend :=
  match openBackend specs disk with
  | .ok backend => backend
  | .error _ => ⟨disk, fun _ => none, false, false, fun _ => false, ∅⟩

theorem sampleOpen_eq {specs : List NamespaceSpec} (opens : (openBackend specs disk).isOk = true) :
    openBackend specs disk = .ok (sampleOpen specs disk) := by
  unfold sampleOpen
  cases outcome : openBackend specs disk with
  | ok backend => rfl
  | error e =>
    rw [outcome] at opens
    cases opens

def sampleCommit (keys : List UInt8) : BackendM Unit :=
  commit (IterationOrder.listed Namespace) true (samplePuts keys)

def sampleFinish : MergeM Unit :=
  finishBulk chunkSize (IterationOrder.listed (Namespace × RunLog))

/-- The start of the bulk load. -/
def sampleBulk : Backend := (sampleOpen sampleSpecs ⟨fun _ => ∅, fun _ => none⟩).beginBulk true

/-- After the first batch. -/
def sampleFirst : Backend := ((sampleCommit [5, 7]).run sampleBulk).2

/-- The merge stops after its only chunk. -/
def sampleStopped : Backend := (sampleFinish.run (sampleFirst, 1)).2.1

/-- After the restart, in bulk mode again. -/
def sampleResumed : Backend := (sampleOpen sampleSpecs sampleStopped.toDisk).beginBulk true

/-- After the second batch. -/
def sampleSecond (key : UInt8) : Backend := ((sampleCommit [key]).run sampleResumed).2

def sampleEvents (key : UInt8) : List Event :=
  [.beganBulk, .committed (samplePuts [5, 7]), .interrupted, .reopened, .beganBulk,
    .committed (samplePuts [key])]

theorem crashed_self (backend : Backend) : Crashed backend backend.toDisk := by
  refine ⟨rfl, fun name run log _ held => ⟨log.drop run.len, ?_⟩⟩
  rw [take_append_drop]
  exact held

/-- The beginning of the sample run, with the first batch. -/
theorem sample_filled (began : ∀ backend, allowed backend .beganBulk)
    (first : allowed sampleBulk (.committed (samplePuts [5, 7]))) :
    Reaches chunkSize allowed sampleFirst [.beganBulk, .committed (samplePuts [5, 7])] :=
  Reaches.step (Reaches.step (Reaches.opened (sampleOpen_eq (by decide +kernel))) (began _)
      (Step.beginBulk true)) first
    (Step.commit (returns_of_ok (m := sampleCommit [5, 7]) (by decide +kernel)))

/-- The sample run, when its two commits are allowed and the second is accepted. -/
theorem sample_reaches {key : UInt8} (first : allowed sampleBulk (.committed (samplePuts [5, 7])))
    (second : allowed sampleResumed (.committed (samplePuts [key])))
    (began : ∀ backend, allowed backend .beganBulk)
    (stops : ∀ backend, allowed backend .interrupted ∧ allowed backend .reopened)
    (accepted : ((sampleCommit [key]).run sampleResumed).1 = .ok ()) :
    Reaches chunkSize allowed (sampleSecond key) (sampleEvents key) := by
  have filled := sample_filled began first
  have stopped := Reaches.step filled (stops _).1
    (Step.interrupt (fails_of_error (m := sampleFinish) (s := (sampleFirst, 1))
      (e := .writeFailed "commit finish txn") (by decide +kernel)))
  have reopened := Reaches.step stopped (stops _).2
    (Step.reopen (crashed_self sampleStopped)
      (show openBackend sampleSpecs _ = _ from sampleOpen_eq (by decide +kernel)))
  have resumed := Reaches.step reopened (began _) (Step.beginBulk true)
  exact Reaches.step resumed second
    (Step.commit (returns_of_ok (m := sampleCommit [key]) accepted))

theorem samplePuts_caller (keys : List UInt8) : CallerOps (samplePuts keys) := by
  have name_ok : sampleName ≠ manifestName ∧ isRunKey (runKey sampleName) = true := by
    decide +kernel
  intro op member
  obtain ⟨key, _, rfl⟩ := mem_map.mp member
  exact name_ok

theorem samplePuts_behind {trees : Trees} {keys : List UInt8}
    (fresh : ∀ key ∈ keys, alreadyLoaded (readLoadedThrough trees sampleName) [key] = false) :
    BehindMarks trees (samplePuts keys) := by
  intro name key value member
  obtain ⟨own, listed, same⟩ := mem_map.mp member
  cases same
  exact fresh own listed

/-- A key above the mark survives the interrupted merge and the restart. -/
theorem finishBulk_eq_directBuild_resumed : (sampleFinish.run (sampleSecond 9, 5)).1 = .ok () ∧
      (sampleFinish.run (sampleSecond 9, 5)).2.1.trees = directBuild (sampleEvents 9) := by
  have run : Reaches chunkSize Resumable (sampleSecond 9) (sampleEvents 9) :=
    sample_reaches ⟨samplePuts_caller _, samplePuts_behind (by decide +kernel)⟩
      ⟨samplePuts_caller _, samplePuts_behind (by decide +kernel)⟩ (fun _ => trivial)
      (fun _ => ⟨trivial, trivial⟩) (by decide +kernel)
  have finishes : (sampleFinish.run (sampleSecond 9, 5)).1 = .ok () := by decide +kernel
  have finished : sampleFinish.Returns (sampleSecond 9, 5) () (sampleFinish.run (sampleSecond 9, 5)).2 :=
    returns_of_ok finishes
  exact ⟨finishes, finishBulk_eq_directBuild run finished⟩

/-- A key below the mark does not: the batch that puts it is committed, and after `finishBulk` it
is missing. -/
theorem finishBulk_loses_committed_put : ∃ backend events after,
      Reaches chunkSize (fun _ event => CallerEvent event) backend events ∧
      (∃ budget left visit, (finishBulk chunkSize visit).Returns (backend, budget) () (after, left)) ∧
      after.trees ≠ directBuild events := by
  have run : Reaches chunkSize (fun _ event => CallerEvent event) (sampleSecond 3)
      (sampleEvents 3) :=
    sample_reaches (samplePuts_caller _) (samplePuts_caller _) (fun _ => trivial)
      (fun _ => ⟨trivial, trivial⟩) (by decide +kernel)
  have finishes : (sampleFinish.run (sampleSecond 3, 5)).1 = .ok () := by decide +kernel
  have missing : ((sampleFinish.run (sampleSecond 3, 5)).2.1.trees sampleName)[([3] : RawKey)]? =
      none := by decide +kernel
  have present : (directBuild (sampleEvents 3) sampleName)[([3] : RawKey)]? = some [3] := by
    decide +kernel
  refine ⟨_, _, _, run, ⟨5, _, _, returns_of_ok (m := sampleFinish) finishes⟩, ?_⟩
  intro same
  rw [same, present] at missing
  cases missing

end Zaino.Lmdb
