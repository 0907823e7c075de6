import Zaino.Lmdb.DeferredBuild

/-!
# Crashes that lose unsynced transactions

The environment is opened without a sync on commit, so a crash may bring back the store as it was
after any transaction since the last sync, while what was appended to a run log, and the removal of
one, stay. `Snapshot`s are the states a crash may bring back. A store comes back whole when none of
the transactions lost cleared the manifest entry of a log that the surviving one still names: that
log is gone from the disk.
-/

namespace Zaino.Lmdb

open Library Persistence List Nat

/-! ## Runs with snapshots -/

/-- The backend after a transaction, and the history up to it. -/
structure Snapshot where
  backend : Backend
  events : List Event

/-- The backend that `finishBulk` leaves when LMDB completes `budget` more transactions. -/
def finishState (chunkCap : Nat) (visit : IterationOrder (Namespace × RunLog)) (backend : Backend)
    (budget : Nat) : Backend :=
  ((finishBulk chunkCap visit).run (backend, budget)).2.1

def finishEvent (chunkCap : Nat) (visit : IterationOrder (Namespace × RunLog)) (backend : Backend)
    (budget : Nat) : Event :=
  match ((finishBulk chunkCap visit).run (backend, budget)).1 with
  | .ok _ => .finished
  | .error _ => .interrupted

/-- The states after each transaction of a `finishBulk`. -/
def finishSnapshots (chunkCap : Nat) (visit : IterationOrder (Namespace × RunLog))
    (backend : Backend) (events : List Event) (budget : Nat) : List Snapshot :=
  (List.range (budget + 1)).map fun used =>
    ⟨finishState chunkCap visit backend used, events⟩

/-- What a crash leaves when the transactions after `survivor` are lost. -/
structure CrashedTo (backend survivor : Backend) (disk : Disk) : Prop where
  trees : disk.trees = survivor.trees
  logs : SameCommitted backend.logged backend.logs disk.logs

/-- The states of runs of a store with a fixed configuration, with their history and the snapshots
a crash may bring back, the oldest first. Steps are `allowed` where they are taken; a crash may lose
what is `losable` after the survivor. -/
inductive Survives (specs : List NamespaceSpec) (chunkCap : Nat)
    (allowed : Backend → Event → Prop) (losable : Backend → List Snapshot → Prop) :
    Backend → List Event → List Snapshot → Prop
  | opened {backend : Backend} {logs : Namespace → Option (List UInt8)} :
    openBackend specs ⟨fun _ => ∅, logs⟩ = .ok backend →
    Survives specs chunkCap allowed losable backend [] [⟨backend, []⟩]
  | beginBulk {backend : Backend} {events : List Event} {snapshots : List Snapshot}
    (enabled : Bool) :
    Survives specs chunkCap allowed losable backend events snapshots →
    Survives specs chunkCap allowed losable (backend.beginBulk enabled) (events ++ [.beganBulk])
      snapshots
  | commit {backend after : Backend} {events : List Event} {snapshots : List Snapshot}
    {visit : IterationOrder Namespace} {durable : Bool} {ops : List WriteOp} :
    Survives specs chunkCap allowed losable backend events snapshots →
    allowed backend (.committed ops) →
    (Lmdb.commit visit durable ops).Returns backend () after →
    Survives specs chunkCap allowed losable after (events ++ [.committed ops])
      (snapshots ++ [⟨after, events ++ [.committed ops]⟩])
  | refuse {backend after : Backend} {events : List Event} {snapshots : List Snapshot}
    {visit : IterationOrder Namespace} {durable : Bool} {ops : List WriteOp} {e : CommitError} :
    Survives specs chunkCap allowed losable backend events snapshots →
    allowed backend (.refused ops) →
    (Lmdb.commit visit durable ops).Fails backend (.error e) after →
    Survives specs chunkCap allowed losable after (events ++ [.refused ops]) snapshots
  | finish {backend : Backend} {events : List Event} {snapshots : List Snapshot}
    (visit : IterationOrder (Namespace × RunLog)) (budget : Nat) :
    Survives specs chunkCap allowed losable backend events snapshots →
    Survives specs chunkCap allowed losable (finishState chunkCap visit backend budget)
      (events ++ [finishEvent chunkCap visit backend budget])
      (snapshots ++ finishSnapshots chunkCap visit backend events budget)
  | flush {backend : Backend} {events : List Event} {snapshots : List Snapshot} :
    Survives specs chunkCap allowed losable backend events snapshots →
    Survives specs chunkCap allowed losable backend events [⟨backend, events⟩]
  | reopen {backend after : Backend} {events : List Event} {earlier lost : List Snapshot}
    {survivor : Snapshot} {disk : Disk} :
    Survives specs chunkCap allowed losable backend events (earlier ++ survivor :: lost) →
    losable survivor.backend lost → CrashedTo backend survivor.backend disk →
    openBackend specs disk = .ok after →
    Survives specs chunkCap allowed losable after (survivor.events ++ [.reopened])
      [⟨after, survivor.events ++ [.reopened]⟩]

/-- No lost transaction cleared the entry of a log that the survivor names. -/
def LogsRemain (survivor : Backend) (lost : List Snapshot) : Prop :=
  ∀ snapshot ∈ lost, ∀ name, survivor.logged name ≠ none → snapshot.backend.logged name ≠ none

/-! ## Logs only grow -/

/-- The log that `older` names is still open, at least as long and with the same beginning. -/
def Continues (older newer : Backend) (name : Namespace) : Prop :=
  ∀ run log, older.logged name = some run → older.logs name = some log →
    ∃ run' log', newer.logged name = some run' ∧ newer.logs name = some log' ∧
      run.len ≤ run'.len ∧ log'.take run.len = log.take run.len

theorem Continues.refl (backend : Backend) (name : Namespace) : Continues backend backend name :=
  fun run log found held => ⟨run, log, found, held, le_refl _, rfl⟩

variable {older newer backend after before : Backend} {name : Namespace} {ops : List WriteOp}
  {names : List Namespace} {actions : List SegmentAction} {specs : List NamespaceSpec}
  {events events' : List Event} {snapshots : List Snapshot}

theorem Continues.trans {middle : Backend} (first : Continues older middle name)
    (second : Continues middle newer name) : Continues older newer name := by
  intro run log found held
  obtain ⟨run', log', found', held', longer', same'⟩ := first run log found held
  obtain ⟨run'', log'', found'', held'', longer'', same''⟩ := second run' log' found' held'
  refine ⟨run'', log'', found'', held'', le_trans longer' longer'', ?_⟩
  calc log''.take run.len
      = (log''.take run'.len).take run.len := by rw [take_take, min_eq_left longer']
    _ = (log'.take run'.len).take run.len := by rw [same'']
    _ = log.take run.len := by rw [take_take, min_eq_left longer', same']

theorem Committed.continues (committed : Committed backend ops names actions after)
    (kept : Kept backend.toDisk backend.logged) (name : Namespace) :
    Continues backend after name := by
  intro run log found held
  have lookups := committed.lookups name
  have logs := committed.logs name
  by_cases member : name ∈ names
  · obtain ⟨action, _, is_action, _⟩ := committed.action_of_mem member
    rw [if_pos member, is_action] at lookups
    rw [if_pos member, held, Option.getD_some] at logs
    obtain ⟨log', held', enough⟩ := (kept.pending name run found).log
    have same : log' = log := Option.some.inj (held'.symm.trans held)
    subst same
    refine ⟨_, _, lookups, logs, ?_, take_append_of_le_length enough⟩
    cases appends_of_appended is_action with
    | existing was_open =>
      cases was_open.symm.trans found
      exact le_add_right _ _
    | new was_closed => exact nomatch was_closed.symm.trans found
  · rw [if_neg member] at lookups logs
    exact ⟨run, log, lookups.trans found, logs.trans held, le_refl _, rfl⟩

/-- A log that is still open after merging is as it was. -/
def Untouched (before backend : Backend) : Prop :=
  ∀ name, backend.logged name ≠ none →
    backend.logged name = before.logged name ∧ backend.logs name = before.logs name

theorem Untouched.refl (backend : Backend) : Untouched backend backend :=
  fun _ _ => ⟨rfl, rfl⟩

theorem Merged.untouched {run : RunLog} (merged : Merged backend name run after)
    (logged : backend.logged name = some run) (untouched : Untouched before backend) :
    Untouched before after := by
  intro other still_open
  obtain ⟨other_run, found⟩ := Option.ne_none_iff_exists'.mp still_open
  obtain ⟨was_logged, logs, _⟩ := merged.of_logged logged found
  rw [found, logs, ← was_logged]
  exact untouched other (by simp [was_logged])

/-- Every state of a `finishBulk` is consistent, and the logs still open in it are untouched. -/
theorem finishState_spec {expected : Trees} (consistent : Consistent backend expected)
    (chunkCap : Nat) (visit : IterationOrder (Namespace × RunLog)) (budget : Nat) :
    Consistent (finishState chunkCap visit backend budget) expected ∧
      Untouched backend (finishState chunkCap visit backend budget) ∧
      (finishState chunkCap visit backend budget).keyOrders = backend.keyOrders := by
  have finishing := finishBulk_ensures
    (I := fun state => Tidy state.toDisk state.logged ∧ Holds state.toDisk state.logged expected ∧
      Untouched backend state ∧ state.keyOrders = backend.keyOrders)
    (fun kept ⟨tidy, holds, untouched, keyOrders⟩ logged merged =>
      ⟨merged.tidy logged tidy, merged.contents kept holds logged, merged.untouched logged untouched,
        merged.keyOrders.trans keyOrders⟩)
    chunkCap visit (backend, budget) consistent.kept
    ⟨consistent.tidy, consistent.holds, Untouched.refl backend, rfl⟩
  unfold finishState
  unfold Fallible.Ensures at finishing
  split at finishing
  · next _ after outcome =>
    obtain ⟨⟨kept, tidy, holds, rest⟩, _⟩ := finishing
    rw [outcome]
    exact ⟨⟨kept, tidy, holds⟩, rest⟩
  · next _ after outcome =>
    obtain ⟨kept, tidy, holds, rest⟩ := finishing
    rw [outcome]
    exact ⟨⟨kept, tidy, holds⟩, rest⟩

theorem Untouched.continues (first : Untouched backend older) (second : Untouched backend newer)
    (still_open : newer.logged name ≠ none) : Continues older newer name := by
  intro run log found held
  obtain ⟨same_run, same_log⟩ := first name (by simp [found])
  obtain ⟨same_run', same_log'⟩ := second name still_open
  refine ⟨run, log, ?_, ?_, le_refl _, rfl⟩
  · rw [same_run', ← same_run, found]
  · rw [same_log', ← same_log, held]

/-! ## Every snapshot can be brought back -/

/-- The namespaces with logs are declared. -/
def Declared (specs : List NamespaceSpec) (backend : Backend) : Prop :=
  ∀ name, backend.logged name ≠ none → openKeyOrders specs name ≠ none

/-- A snapshot is whole by itself, and its logs that no later snapshot has closed go on in the
backend. -/
structure Recallable (specs : List NamespaceSpec) (backend : Backend) (survivor : Snapshot)
    (lost : List Snapshot) : Prop where
  consistent : Consistent survivor.backend (directBuild survivor.events)
  declared : Declared specs survivor.backend
  continues : ∀ name, survivor.backend.logged name ≠ none →
    (∀ snapshot ∈ lost, snapshot.backend.logged name ≠ none) →
    Continues survivor.backend backend name

structure Sound (specs : List NamespaceSpec) (backend : Backend) (events : List Event)
    (snapshots : List Snapshot) : Prop where
  consistent : Consistent backend (directBuild events)
  declared : Declared specs backend
  keyOrders : backend.keyOrders = openKeyOrders specs
  snapshots : ∀ earlier survivor lost, snapshots = earlier ++ survivor :: lost →
    Recallable specs backend survivor lost

theorem Recallable.self (consistent : Consistent backend (directBuild events))
    (declared : Declared specs backend)
    (lost : List Snapshot) : Recallable specs backend ⟨backend, events⟩ lost :=
  ⟨consistent, declared, fun name _ _ => Continues.refl backend name⟩

/-- A store without history but its own. -/
theorem Sound.single (consistent : Consistent backend (directBuild events))
    (declared : Declared specs backend) (keyOrders : backend.keyOrders = openKeyOrders specs) :
    Sound specs backend events [⟨backend, events⟩] := by
  refine ⟨consistent, declared, keyOrders, ?_⟩
  intro earlier survivor lost split
  cases earlier with
  | nil =>
    cases split
    exact Recallable.self consistent declared []
  | cons first rest =>
    have lengths := congrArg List.length split
    simp at lengths

/-- Steps that push snapshots keep the earlier ones recallable. -/
theorem Sound.push {pushed : List Snapshot} (sound : Sound specs backend events snapshots)
    (consistent : Consistent after (directBuild events')) (declared : Declared specs after)
    (keyOrders : after.keyOrders = openKeyOrders specs)
    (continues : ∀ name, (∀ snapshot ∈ pushed, snapshot.backend.logged name ≠ none) →
      Continues backend after name)
    (recallable : ∀ earlier survivor lost, pushed = earlier ++ survivor :: lost →
      Recallable specs after survivor lost) : Sound specs after events' (snapshots ++ pushed) := by
  refine ⟨consistent, declared, keyOrders, ?_⟩
  intro earlier survivor lost split
  rcases append_eq_append_iff.mp split with ⟨front, is_earlier, is_pushed⟩ | ⟨back, is_old, is_lost⟩
  · exact recallable front survivor lost is_pushed
  · cases back with
    | nil =>
      exact recallable [] survivor lost is_lost.symm
    | cons first kept =>
      cases is_lost
      have recalled := sound.snapshots earlier survivor kept is_old
      refine ⟨recalled.consistent, recalled.declared, ?_⟩
      intro name still_open remain
      have before := recalled.continues name still_open fun snapshot member =>
        remain snapshot (mem_append_left _ member)
      exact before.trans (continues name fun snapshot member =>
        remain snapshot (mem_append_right _ member))

/-- Steps that change neither the logs nor their extents push nothing. -/
theorem Sound.same (sound : Sound specs backend events snapshots)
    (consistent : Consistent after (directBuild events')) (logged : after.logged = backend.logged)
    (logs : after.logs = backend.logs) (keyOrders : after.keyOrders = backend.keyOrders) :
    Sound specs after events' snapshots := by
  refine ⟨consistent, ?_, keyOrders.trans sound.keyOrders, ?_⟩
  · intro name still_open
    rw [logged] at still_open
    exact sound.declared name still_open
  · intro earlier survivor lost split
    have recalled := sound.snapshots earlier survivor lost split
    refine ⟨recalled.consistent, recalled.declared, ?_⟩
    intro name still_open remain run log found held
    have before := recalled.continues name still_open remain run log found held
    rw [← logged, ← logs] at before
    exact before

theorem Committed.declared (committed : Committed backend ops names actions after)
    (declared : Declared specs backend)
    (keyOrders : backend.keyOrders = openKeyOrders specs) : Declared specs after := by
  intro name still_open
  by_cases member : name ∈ names
  · have deferred := ((committed.deferred name).mp member).1
    rw [Backend.isDeferred, Bool.or_eq_true, keyOrders] at deferred
    rcases deferred with pending | policy
    · exact declared name (Option.isSome_iff_ne_none.mp pending)
    · simp only [Bool.and_eq_true, decide_eq_true_eq] at policy
      rw [policy.1.2]
      exact Option.some_ne_none _
  · rw [committed.lookups, if_neg member] at still_open
    exact declared name still_open

theorem Untouched.declared (untouched : Untouched backend after)
    (declared : Declared specs backend) : Declared specs after := by
  intro name still_open
  rw [(untouched name still_open).1] at still_open
  exact declared name still_open

/-- A crash that loses only transactions which closed none of the survivor's logs brings the
survivor back whole. -/
theorem Recallable.recovers {survivor : Snapshot} {lost : List Snapshot} {disk : Disk}
    (recallable : Recallable specs backend survivor lost)
    (remain : LogsRemain survivor.backend lost)
    (crashed : CrashedTo backend survivor.backend disk) : Kept disk survivor.backend.logged ∧
      Holds disk survivor.backend.logged (directBuild survivor.events) := by
  have same : SameCommitted survivor.backend.logged survivor.backend.logs disk.logs := by
    intro name run log found held
    have still_open : survivor.backend.logged name ≠ none := by simp [found]
    obtain ⟨run', log', found', held', longer, prefixed⟩ :=
      recallable.continues name still_open (fun snapshot member =>
        remain snapshot member name still_open) run log found held
    obtain ⟨tail, on_disk⟩ := crashed.logs name run' log' found' held'
    refine ⟨(log'.take run'.len).drop run.len ++ tail, ?_⟩
    rw [on_disk, ← append_assoc, ← prefixed]
    conv_lhs => rw [← take_append_drop run.len (log'.take run'.len), take_take,
      min_eq_left longer]
  have kept := recallable.consistent.kept
  exact ⟨kept.of_logs crashed.trees same,
    recallable.consistent.holds.of_logs kept crashed.trees same⟩

theorem Survives.sound {chunkCap : Nat}
    (run : Survives specs chunkCap Resumable LogsRemain backend events snapshots) :
    Sound specs backend events snapshots := by
  induction run with
  | @opened backend logs accepted =>
    have reaches : Reaches chunkCap Resumable backend [] := Reaches.opened accepted
    have opened := (kept_empty logs).opened accepted
    refine Sound.single reaches.consistent ?_ opened.keyOrders
    intro name still_open
    rw [opened.logged] at still_open
    exact absurd rfl still_open
  | @beginBulk backend events snapshots enabled _ sound =>
    refine sound.same ?_ rfl rfl rfl
    have step : Step chunkCap backend .beganBulk (backend.beginBulk enabled) :=
      Step.beginBulk enabled
    exact step.consistent trivial sound.consistent
  | @commit backend after events snapshots visit durable ops _ resumable returned sound =>
    have step : Step chunkCap backend (.committed ops) after := Step.commit returned
    have consistent := step.consistent resumable sound.consistent
    obtain ⟨names, actions, committed⟩ := returned.ensured (commit_ensures _ _ _ backend)
    have declared := committed.declared sound.declared sound.keyOrders
    refine sound.push consistent declared (committed.keyOrders.trans sound.keyOrders)
      (fun name _ => committed.continues sound.consistent.kept name) ?_
    intro earlier survivor lost split
    exact (Sound.single consistent declared
      (committed.keyOrders.trans sound.keyOrders)).snapshots earlier survivor lost split
  | @refuse backend after events snapshots visit durable ops e _ resumable failed sound =>
    have refused := failed.ensured (commit_ensures _ _ _ backend)
    have step : Step chunkCap backend (.refused ops) after := Step.refuse failed
    have consistent := step.consistent resumable sound.consistent
    rcases refused.exact resumable.2 sound.consistent.tidy with panicked | same
    · cases panicked
    · subst same
      exact sound.same consistent rfl rfl rfl
  | @finish backend events snapshots visit budget _ sound =>
    have spec := finishState_spec sound.consistent chunkCap visit
    have same_build : directBuild (events ++ [finishEvent chunkCap visit backend budget]) =
        directBuild events := by
      apply directBuild_other
      intro ops is_commit
      unfold finishEvent at is_commit
      split at is_commit
      · cases is_commit
      · cases is_commit
    refine sound.push (by rw [same_build]; exact (spec budget).1)
      ((spec budget).2.1.declared sound.declared)
      ((spec budget).2.2.trans sound.keyOrders) ?_ ?_
    · intro name remain
      refine (Untouched.refl backend).continues (spec budget).2.1 ?_
      exact remain ⟨finishState chunkCap visit backend budget, events⟩
        (mem_map.mpr ⟨budget, mem_range.mpr (lt_succ_self budget), rfl⟩)
    · intro earlier survivor lost split
      have member : survivor ∈ finishSnapshots chunkCap visit backend events budget := by
        rw [split]
        exact mem_append_right _ mem_cons_self
      obtain ⟨used, _, rfl⟩ := mem_map.mp member
      -- The last snapshot is the state that `finishBulk` left.
      have last : (⟨finishState chunkCap visit backend budget, events⟩ : Snapshot) ∈
          ⟨finishState chunkCap visit backend used, events⟩ :: lost := by
        apply mem_of_getLast?
        have is_last := congrArg List.getLast? split
        rw [finishSnapshots, range_succ, map_append, getLast?_append] at is_last
        rw [getLast?_append_of_ne_nil _ (cons_ne_nil _ _)] at is_last
        exact is_last.symm
      refine ⟨(spec used).1, (spec used).2.1.declared sound.declared, ?_⟩
      intro name still_open remain
      refine (spec used).2.1.continues (spec budget).2.1 ?_
      rcases mem_cons.mp last with same | member
      · have same_state : finishState chunkCap visit backend budget =
            finishState chunkCap visit backend used := congrArg Snapshot.backend same
        rw [same_state]
        exact still_open
      · exact remain _ member
  | @flush backend events snapshots _ sound =>
    exact Sound.single sound.consistent sound.declared sound.keyOrders
  | @reopen backend after events earlier lost survivor disk _ remain crashed accepted sound =>
    have recallable := sound.snapshots earlier survivor lost rfl
    obtain ⟨kept, holds⟩ := recallable.recovers remain crashed
    have opened := kept.opened accepted
    have same_build : directBuild (survivor.events ++ [.reopened]) = directBuild survivor.events :=
      directBuild_other survivor.events (fun _ => Event.noConfusion)
    refine Sound.single ?_ ?_ opened.keyOrders
    · rw [same_build]
      exact ⟨opened.kept kept, opened.tidy kept, opened.holds kept holds⟩
    · intro name still_open
      rw [opened.logged] at still_open
      exact recallable.declared name still_open

/-- Crash safety without syncs: in a run whose crashes lose no transaction that cleared the entry of
a log still named afterwards, the store reopens after any such crash, and whenever `finishBulk` has
just returned, it holds exactly the batches whose transactions survived. -/
theorem unsynced_crash_recovers {specs : List NamespaceSpec} {chunkCap : Nat} {backend : Backend}
    {events : List Event} {snapshots : List Snapshot}
    (run : Survives specs chunkCap Resumable LogsRemain backend events snapshots) :
    (∀ earlier survivor lost disk, snapshots = earlier ++ survivor :: lost →
      LogsRemain survivor.backend lost → CrashedTo backend survivor.backend disk →
      ∃ after, openBackend specs disk = .ok after) ∧ ∀ visit budget after left,
      (finishBulk chunkCap visit).Returns (backend, budget) () (after, left) →
      after.trees = directBuild events := by
  have sound := run.sound
  refine ⟨?_, ?_⟩
  · intro earlier survivor lost disk split remain crashed
    have recallable := sound.snapshots earlier survivor lost split
    exact (recallable.recovers remain crashed).1.open_ok recallable.declared
  · intro visit budget after left returned
    obtain ⟨consistent, complete⟩ :=
      returned.ensured (consistent_finish chunkCap visit (backend, budget) sound.consistent)
    exact consistent.holds.trees_eq consistent.kept complete

/-! The sample store with its first batch committed and synced, then merged. -/

/-- The batch is committed and the environment synced. -/
theorem sample_survives (losable : Backend → List Snapshot → Prop) :
    Survives sampleSpecs chunkSize Resumable losable sampleFirst
      [.beganBulk, .committed (samplePuts [5, 7])]
      [⟨sampleFirst, [.beganBulk, .committed (samplePuts [5, 7])]⟩] := by
  have began : Survives sampleSpecs chunkSize Resumable losable sampleBulk [.beganBulk]
      [⟨sampleOpen sampleSpecs ⟨fun _ => ∅, fun _ => none⟩, []⟩] :=
    Survives.beginBulk true (Survives.opened (sampleOpen_eq (by decide +kernel)))
  have filled := Survives.commit began
    ⟨samplePuts_caller [5, 7], samplePuts_behind (by decide +kernel)⟩
    (Fallible.returns_of_ok (m := sampleCommit [5, 7]) (by decide +kernel))
  exact Survives.flush filled

/-- Before the merge the store comes back. -/
theorem unsynced_crash_recovers_sample :
    ∃ after, openBackend sampleSpecs sampleFirst.toDisk = .ok after := by
  have recovers := unsynced_crash_recovers (sample_survives LogsRemain)
  exact recovers.1 [] _ [] sampleFirst.toDisk rfl (fun _ member => nomatch member)
    ⟨rfl, (crashed_self sampleFirst).logs⟩

/-- Once the log is merged and removed, a crash that loses the transactions of the merge leaves a
store that does not open: the manifest names a log that is gone. -/
theorem unsynced_crash_does_not_reopen : ∃ backend events earlier survivor lost disk,
      Survives sampleSpecs chunkSize Resumable (fun _ _ => True) backend events
        (earlier ++ survivor :: lost) ∧ CrashedTo backend survivor.backend disk ∧
      ∃ e, openBackend sampleSpecs disk = .error e := by
  have merged := Survives.finish (IterationOrder.listed (Namespace × RunLog)) 2
    (sample_survives fun _ _ => True)
  exact ⟨_, _, [], _, _, ⟨sampleFirst.trees, (finishState chunkSize _ sampleFirst 2).logs⟩, merged,
    ⟨rfl, (crashed_self _).logs⟩, exists_error_of_not_isOk (by decide +kernel)⟩

end Zaino.Lmdb
