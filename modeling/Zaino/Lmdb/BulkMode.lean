import Zaino.Lmdb.DeferredBuild

/-!
# When writes are deferred

Two consequences of how bulk mode is switched on and off. Once `finishBulk` has merged a pending
log and returned, nothing is deferred until the next `beginBulk`: every namespace reads as complete
and every commit goes to the trees. And a namespace whose log is opened over an empty tree keeps a
tree that its merge can append to, however often merges are interrupted.
-/

namespace Zaino.Lmdb

open Library Persistence List Fallible Reaches Step

/-- A namespace is incomplete exactly while the manifest has an entry for it. -/
def isComplete (trees : Trees) (name : Namespace) : Bool :=
  (trees manifestName)[runKey name]?.isNone

/-! ## After a bulk load -/

/-- Whether a `finishBulk` has returned since the last `beginBulk`. -/
def sinceFinish (events : List Event) : Bool :=
  events.foldl (fun since event =>
    match event with
    | .finished => true
    | .beganBulk => false
    | _ => since) false

theorem sinceFinish_append (events : List Event) (event : Event) : sinceFinish (events ++ [event]) =
      match event with
      | .finished => true
      | .beganBulk => false
      | _ => sinceFinish events := by
  rw [sinceFinish, foldl_append, ← sinceFinish]
  rfl

/-- Deferral by policy, for a namespace without a log. -/
def mayStart (backend : Backend) (name : Namespace) : Bool :=
  backend.active && backend.enabled && decide (backend.keyOrders name = some .scattered) &&
    backend.deferrable name

theorem isDeferred_eq (backend : Backend) (name : Namespace) :
    backend.isDeferred name = ((backend.logged name).isSome || mayStart backend name) := rfl

/-- Nothing is deferred, by a log or by policy. -/
def Direct (backend : Backend) : Prop :=
  ∀ name, backend.logged name = none ∧ mayStart backend name = false

variable {backend after : Backend} {event : Event} {name : Namespace} {run : RunLog}
  {chunkCap : Nat} {ops : List WriteOp} {names : List Namespace} {actions : List SegmentAction}

theorem Direct.not_deferred (direct : Direct backend) (name : Namespace) :
    backend.isDeferred name = false := by
  rw [isDeferred_eq, (direct name).1, (direct name).2]
  rfl

/-- A bulk load is finished with a log to merge, or when nothing would be deferred anyway; batches
write to no reserved name. -/
def EndsBulk (backend : Backend) : Event → Prop
  | .finished => (∃ name, backend.logged name ≠ none) ∨ ∀ name, backend.isDeferred name = false
  | event => CallerEvent event

theorem EndsBulk.caller (ends : EndsBulk backend event) : CallerEvent event := by
  cases event with
  | finished => trivial
  | committed ops => exact ends
  | refused ops => exact ends
  | _ => trivial

/-- Bulk mode ends with the last log. -/
theorem Completed.mode (completed : Completed backend name run after)
    (active : after.active = true) : ∃ other, after.logged other ≠ none := by
  obtain ⟨_, _, _, rfl⟩ := completed
  have pending : ¬ (backend.runs.erase name).entries.isEmpty = true := by
    intro empty
    simp [completeNamespace, empty] at active
  cases entries : (backend.runs.erase name).entries with
  | nil => exact absurd (by rw [entries]; rfl) pending
  | cons entry others =>
    refine ⟨entry.1, ?_⟩
    have found : (backend.runs.erase name).lookup entry.1 = some entry.2 := by
      rw [HashMap.lookup_eq_some_iff, entries]
      exact mem_cons_self
    intro absent
    exact nomatch (show (backend.runs.erase name).lookup entry.1 = none from absent).symm.trans
      found

theorem Interrupted.mode (interrupted : Interrupted backend name run after) :
    after.logged = backend.logged ∧ after.active = backend.active ∧
      mayStart after = mayStart backend := by
  rcases interrupted with rfl | ⟨_, _, _, _, is_after⟩
  · exact ⟨rfl, rfl, rfl⟩
  · rw [is_after]
    exact ⟨rfl, rfl, rfl⟩

/-- The mode is on only while a log is open, or policy defers nothing. -/
def EndsWithLogs (backend : Backend) : Prop :=
  (backend.active = true → ∃ name, backend.logged name ≠ none) ∨ ∀ name, mayStart backend name = false

/-- Finishing ends bulk mode. -/
theorem finishBulk_direct {visit : IterationOrder (Namespace × RunLog)} {budget left : Nat}
    (kept : Kept backend.toDisk backend.logged) (ends : EndsBulk backend .finished)
    (returned : (finishBulk chunkCap visit).Returns (backend, budget) () (after, left)) :
    Direct after := by
  have finishing := finishBulk_ensures (I := EndsWithLogs)
    (fun _ mode _ merged => by
      cases merged.own with
      | closed completed => exact Or.inl completed.mode
      | pending interrupted =>
        obtain ⟨same_logged, same_active, same_start⟩ := interrupted.mode
        rw [EndsWithLogs, same_logged, same_active, same_start]
        exact mode)
    chunkCap visit (backend, budget) kept
  have start : EndsWithLogs backend := by
    rcases ends with pending | idle
    · exact Or.inl fun _ => pending
    · refine Or.inr fun name => ?_
      have not_deferred := idle name
      rw [isDeferred_eq, Bool.or_eq_false_iff] at not_deferred
      exact not_deferred.2
  obtain ⟨⟨_, mode⟩, complete⟩ := returned.ensured (finishing start)
  intro name
  refine ⟨complete name, ?_⟩
  rcases mode with only_pending | idle
  · cases active : after.active with
    | false => simp [mayStart, active]
    | true =>
      obtain ⟨other, pending⟩ := only_pending active
      exact absurd (complete other) pending
  · exact idle name

theorem finishBulk_of_direct (kept : Kept backend.toDisk backend.logged) (direct : Direct backend)
    (visit : IterationOrder (Namespace × RunLog)) (budget : Nat) :
    (finishBulk chunkCap visit).Ensures (backend, budget) (fun _ after => Direct after.1)
      (fun _ after => Direct after.1) := by
  refine (finishBulk_ensures (I := Direct) ?_ chunkCap visit (backend, budget) kept direct).mono
    (fun _ _ holds => holds.1.2) fun _ _ holds => holds.2
  intro _ name _ _ _ direct logged _
  exact nomatch (direct name).1.symm.trans logged

/-- Without deferral an accepted commit is applied to the trees as it is. -/
theorem Committed.of_direct (committed : Committed backend ops names actions after)
    (direct : Direct backend) :
    Direct after ∧ after.trees = backend.trees.applyAll ops ∧ after.logs = backend.logs := by
  have no_names : names = [] := by
    apply eq_nil_iff_forall_not_mem.mpr
    intro name member
    have deferred := ((committed.deferred name).mp member).1
    rw [direct.not_deferred name] at deferred
    cases deferred
  subst no_names
  have no_actions : actions = [] := forall₂_nil_left_iff.mp committed.each
  subst no_actions
  refine ⟨?_, ?_, ?_⟩
  · intro name
    refine ⟨(committed.lookups name).trans (direct name).1, ?_⟩
    have idle := (direct name).2
    rw [mayStart] at idle ⊢
    rw [committed.mode.1, committed.mode.2.1, committed.mode.2.2, committed.keyOrders]
    exact idle
  · rw [committed.trees, directOps, map_nil, append_nil, filter_eq_self.mpr]
    intro op _
    rw [direct.not_deferred op.target]
    rfl
  · exact funext fun name => committed.logs name

theorem Step.direct (step : Step chunkCap backend event after)
    (kept : Kept backend.toDisk backend.logged) (direct : Direct backend)
    (not_begin : event ≠ .beganBulk) : Direct after := by
  cases step with
  | beginBulk => exact absurd rfl not_begin
  | commit returned =>
    obtain ⟨names, actions, committed⟩ := returned.ensured (commit_ensures _ _ _ backend)
    exact (committed.of_direct direct).1
  | refuse failed =>
    have refused := failed.ensured (commit_ensures _ _ _ backend)
    rw [refused.state]
    exact direct
  | finish returned => exact returned.ensured (finishBulk_of_direct kept direct _ _)
  | interrupt failed => exact failed.ensured (finishBulk_of_direct kept direct _ _)
  | reopen crashed accepted =>
    have opened := (kept.of_logs crashed.trees crashed.logs).opened accepted
    intro name
    refine ⟨?_, by simp [mayStart, opened.inactive]⟩
    rw [opened.logged]
    exact (direct name).1

theorem Reaches.direct {events : List Event} (run : Reaches chunkCap EndsBulk backend events)
    (since : sinceFinish events = true) : Direct backend := by
  induction run with
  | opened => cases since
  | @step backend after events event earlier permitted step ih =>
    have kept := earlier.kept fun _ _ => EndsBulk.caller
    rw [sinceFinish_append] at since
    cases event with
    | beganBulk => cases since
    | finished =>
      cases step with
      | finish returned => exact finishBulk_direct kept permitted returned
    | committed ops => exact step.direct kept (ih since) Event.noConfusion
    | refused ops => exact step.direct kept (ih since) Event.noConfusion
    | interrupted => exact step.direct kept (ih since) Event.noConfusion
    | reopened => exact step.direct kept (ih since) Event.noConfusion

variable {events : List Event}

/-- After a bulk load was finished with a log to merge, and until the next one begins, every
namespace reads as complete, and an accepted commit writes all of its batch to the trees and nothing
to a log. -/
theorem commit_direct_since_finish {chunkCap : Nat} {backend : Backend}
    (run : Reaches chunkCap EndsBulk backend events) (since : sinceFinish events = true) :
    (∀ name, isComplete backend.trees name = true) ∧
      ∀ visit durable ops after, (commit visit durable ops).Returns backend () after →
        after.trees = backend.trees.applyAll ops ∧ after.logs = backend.logs := by
  have direct := run.direct since
  have kept := run.kept fun _ _ => EndsBulk.caller
  refine ⟨?_, ?_⟩
  · intro name
    rw [isComplete, kept.manifest_empty fun name => (direct name).1, Std.ExtTreeMap.getElem?_empty]
    rfl
  · intro visit durable ops after returned
    obtain ⟨names, actions, committed⟩ := returned.ensured (commit_ensures visit durable ops backend)
    exact (committed.of_direct direct).2

/-- The sample store after its first bulk load. -/
def sampleLoaded : Backend := (sampleFinish.run (sampleFirst, 2)).2.1

theorem commit_direct_since_finish_sample : isComplete sampleLoaded.trees sampleName = true ∧
      ∃ after, (sampleCommit [9]).Returns sampleLoaded () after ∧
        after.trees = sampleLoaded.trees.applyAll (samplePuts [9]) := by
  have finished : Reaches chunkSize EndsBulk sampleLoaded
      ([.beganBulk, .committed (samplePuts [5, 7])] ++ [.finished]) := Reaches.step
    (sample_filled (fun _ => trivial) (samplePuts_caller [5, 7])) (Or.inl ⟨sampleName, by decide +kernel⟩)
    (Step.finish (returns_of_ok (m := sampleFinish) (s := (sampleFirst, 2))
      (by decide +kernel)))
  have accepted : (sampleCommit [9]).Returns sampleLoaded () ((sampleCommit [9]).run sampleLoaded).2 :=
    returns_of_ok (by decide +kernel)
  have direct := commit_direct_since_finish finished rfl
  exact ⟨direct.1 sampleName, _, accepted, (direct.2 _ _ _ _ accepted).1⟩

/-- A bulk load that is finished before anything was deferred leaves bulk mode on: the next commit
is deferred, and its entry is not in the tree. -/
theorem commit_deferred_since_finish : ∃ backend events after,
      Reaches chunkSize (fun _ event => CallerEvent event) backend events ∧
      sinceFinish events = true ∧ (sampleCommit [5]).Returns backend () after ∧
      isComplete after.trees sampleName = false ∧
      (after.trees sampleName)[([5] : RawKey)]? = none := by
  have began : Reaches chunkSize (fun _ event => CallerEvent event) sampleBulk [.beganBulk] :=
    Reaches.step (Reaches.opened (sampleOpen_eq (by decide +kernel))) trivial (Step.beginBulk true)
  have finished : Reaches chunkSize (fun _ event => CallerEvent event)
      (sampleFinish.run (sampleBulk, 0)).2.1 ([.beganBulk] ++ [.finished]) :=
    Reaches.step began trivial
      (Step.finish (returns_of_ok (m := sampleFinish) (s := (sampleBulk, 0))
        (by decide +kernel)))
  exact ⟨_, _, _, finished, rfl, returns_of_ok (by decide +kernel), by decide +kernel,
    by decide +kernel⟩

/-! ## The trees below open logs -/

/-- The trees of pending namespaces can be appended to. -/
def Unsplit (backend : Backend) : Prop :=
  ∀ name run, backend.logged name = some run →
    verifyTarget (backend.trees name) (readLoadedThrough backend.trees name) = .ok ()

/-- A commit opens a log only over an empty tree; batches write to no reserved name. -/
def StartsEmpty (backend : Backend) : Event → Prop
  | .committed ops => CallerOps ops ∧ ∀ op ∈ ops, backend.logged op.target = none →
    backend.isDeferred op.target = true → backend.trees op.target = ∅
  | event => CallerEvent event

theorem StartsEmpty.caller (starts : StartsEmpty backend event) : CallerEvent event := by
  cases event with
  | committed ops => exact starts.1
  | refused ops => exact starts
  | _ => trivial

theorem verifyTarget_empty (loadedThrough : Option RawKey) :
    verifyTarget ∅ loadedThrough = .ok () := rfl

/-- The target passes when it is empty or holds only keys up to the mark. -/
theorem verifyTarget_iff {tree : Tree} {loadedThrough : Option RawKey} :
    verifyTarget tree loadedThrough = .ok () ↔ tree = ∅ ∨
      ∃ mark, loadedThrough = some mark ∧ ∀ key ∈ tree, (compare key mark).isLE = true := by
  unfold verifyTarget
  rw [← Std.ExtTreeMap.maxKey?_eq_getLast?_keys]
  cases greatest : tree.maxKey? with
  | none => simp [Std.ExtTreeMap.maxKey?_eq_none_iff.mp greatest]
  | some last =>
    obtain ⟨held, below⟩ := Std.ExtTreeMap.maxKey?_eq_some_iff_mem_and_forall.mp greatest
    have nonempty : tree ≠ ∅ := by
      intro empty
      rw [empty] at held
      exact Std.ExtTreeMap.not_mem_empty held
    cases loadedThrough with
    | none => simp [nonempty]
    | some mark =>
      by_cases covered : (compare last mark).isLE = true
      · simp only [covered, if_true, true_iff]
        exact Or.inr ⟨mark, rfl, fun key member => Std.TransCmp.isLE_trans (below key member) covered⟩
      · simp only [covered, if_false, Bool.false_eq_true, reduceCtorEq, false_iff, not_or, not_exists]
        refine ⟨nonempty, ?_⟩
        intro mark' ⟨same, all⟩
        cases same
        exact covered (all last held)

/-- After a load the tree's greatest key is the mark. -/
theorem Loads.verifyTarget (named : name ≠ manifestName) {entries : List (RawKey × RawValue)}
    {trees trees' : Trees} (loads : Loads name entries trees trees')
    (target : Lmdb.verifyTarget (trees name) (readLoadedThrough trees name) = .ok ()) :
    Lmdb.verifyTarget (trees' name) (readLoadedThrough trees' name) = .ok () := by
  have appended := loads.tree named
  rw [loads.mark named]
  cases is_last : entries.getLast? with
  | none =>
    have empty : entries = [] := getLast?_eq_none_iff.mp is_last
    subst empty
    have same : trees name = trees' name := Option.some.inj appended
    rw [← same]
    exact target
  | some last =>
    unfold Lmdb.verifyTarget
    rw [OrderedMap.getLast?_keys_appendAll appended is_last]
    simp

/-- A commit keeps the trees of pending namespaces appendable. -/
theorem Committed.unsplit (committed : Committed backend ops names actions after)
    (starts : StartsEmpty backend (.committed ops)) (kept : Kept backend.toDisk backend.logged)
    (unsplit : Unsplit backend) : Unsplit after := by
  intro name run found
  have lookups := committed.lookups name
  have named := (committed.kept starts.1 kept).pending name run found |>.reserved
  have deferred : backend.isDeferred name = true := by
    by_cases member : name ∈ names
    · exact ((committed.deferred name).mp member).1
    · rw [if_neg member, found] at lookups
      rw [isDeferred_eq, ← lookups]
      rfl
  rw [committed.mark starts.1, committed.tree_deferred named deferred]
  cases before : backend.logged name with
  | some earlier => exact unsplit name earlier before
  | none =>
    have member : name ∈ names := by
      by_cases member : name ∈ names
      · exact member
      · rw [if_neg member, found, before] at lookups
        cases lookups
    obtain ⟨_, op, listed, is_name⟩ := (committed.deferred name).mp member
    have empty := starts.2 op listed
    rw [is_name] at empty
    rw [empty before deferred]
    exact verifyTarget_empty _

theorem Merged.unsplit {merging : Namespace} (merged : Merged backend merging run after)
    (kept : Kept backend.toDisk backend.logged) (logged : backend.logged merging = some run)
    (unsplit : Unsplit backend) : Unsplit after := by
  intro other other_run found
  obtain ⟨was_logged, _, stopped⟩ := merged.of_logged logged found
  have target := unsplit other other_run was_logged
  have named := (kept.pending other other_run was_logged).reserved
  by_cases same : other = merging
  · subst same
    rcases stopped rfl with rfl | ⟨failure, loaded, rest, progress, _⟩
    · exact target
    · exact progress.loads.verifyTarget named target
  · rw [merged.mark kept logged same, merged.tree other same named]
    exact target

theorem Step.unsplit (step : Step chunkCap backend event after) (starts : StartsEmpty backend event)
    (kept : Kept backend.toDisk backend.logged) (unsplit : Unsplit backend) : Unsplit after := by
  have finishing := finishBulk_ensures (I := Unsplit)
    (fun kept unsplit logged merged => merged.unsplit kept logged unsplit) chunkCap
  cases step with
  | beginBulk => exact unsplit
  | commit returned =>
    obtain ⟨names, actions, committed⟩ := returned.ensured (commit_ensures _ _ _ backend)
    exact committed.unsplit starts kept unsplit
  | refuse failed =>
    have refused := failed.ensured (commit_ensures _ _ _ backend)
    rw [refused.state]
    exact unsplit
  | finish returned => exact (returned.ensured (finishing _ _ kept unsplit)).1.2
  | interrupt failed => exact (failed.ensured (finishing _ _ kept unsplit)).2
  | reopen crashed accepted =>
    have opened := (kept.of_logs crashed.trees crashed.logs).opened accepted
    intro name run found
    rw [opened.logged] at found
    rw [opened.trees, crashed.trees]
    exact unsplit name run found

theorem Reaches.unsplit (run : Reaches chunkCap StartsEmpty backend events) : Unsplit backend := by
  induction run with
  | opened accepted =>
    have opened := (kept_empty _).opened accepted
    intro name run found
    rw [opened.logged] at found
    cases found
  | step earlier permitted step ih =>
    exact step.unsplit permitted (earlier.kept fun _ _ => StartsEmpty.caller) ih

/-- No split between log and tree: in a run whose commits open logs only over empty trees, the tree
of a namespace with a run entry in the manifest is empty or holds only keys up to its mark, so its
merge is never refused for its target. -/
theorem pending_tree_appendable {chunkCap : Nat} {backend : Backend}
    (run : Reaches chunkCap StartsEmpty backend events) (name : Namespace) (plain : Plain name)
    (entry : isComplete backend.trees name = false) :
    (backend.trees name = ∅ ∨ ∃ mark, readLoadedThrough backend.trees name = some mark ∧
      ∀ key ∈ backend.trees name, (compare key mark).isLE = true) ∧
    verifyTarget (backend.trees name) (readLoadedThrough backend.trees name) = .ok () := by
  have kept := run.kept fun _ _ => StartsEmpty.caller
  have recorded := kept.manifest (runKey name) plain
  cases found : backend.logged name with
  | none =>
    rw [show (⟨runKey name⟩ : Namespace) = name from rfl, found] at recorded
    rw [isComplete, recorded] at entry
    cases entry
  | some log =>
    have target := run.unsplit name log found
    exact ⟨verifyTarget_iff.mp target, target⟩

/-- In the sample run the first batch's tree stays appendable through the interruption. -/
theorem pending_tree_appendable_stopped : isComplete sampleStopped.trees sampleName = false ∧
      verifyTarget (sampleStopped.trees sampleName)
        (readLoadedThrough sampleStopped.trees sampleName) = .ok () := by
  have empty : sampleBulk.trees sampleName = ∅ := rfl
  have filled : Reaches chunkSize StartsEmpty sampleFirst
      [.beganBulk, .committed (samplePuts [5, 7])] := by
    refine sample_filled (fun _ => trivial) ⟨samplePuts_caller [5, 7], ?_⟩
    intro op member _ _
    obtain ⟨key, _, rfl⟩ := mem_map.mp member
    exact empty
  have stopped : Reaches chunkSize StartsEmpty sampleStopped
      ([.beganBulk, .committed (samplePuts [5, 7])] ++ [.interrupted]) := Reaches.step filled trivial
    (Step.interrupt (fails_of_error (m := sampleFinish) (s := (sampleFirst, 1))
      (e := .writeFailed "commit finish txn") (by decide +kernel)))
  have entry : isComplete sampleStopped.trees sampleName = false := by decide +kernel
  exact ⟨entry, (pending_tree_appendable stopped sampleName (samplePuts_caller [5] _
    mem_cons_self).2 entry).2⟩

/-! Two scattered namespaces: the first is merged when the merge of the second is interrupted, and
a later commit of the same bulk load defers to the first again. -/

def secondName : Namespace := ⟨"spent_by".toUTF8.toList⟩

def splitPuts : List WriteOp := [.put sampleName [5] [5], .put secondName [5] [5]]

def splitSpecs : List NamespaceSpec := [⟨sampleName, .scattered⟩, ⟨secondName, .scattered⟩]

def splitBulk : Backend := (sampleOpen splitSpecs ⟨fun _ => ∅, fun _ => none⟩).beginBulk true

def splitCommit : BackendM Unit := commit (IterationOrder.listed Namespace) true splitPuts

def splitFirst : Backend := (splitCommit.run splitBulk).2

/-- One namespace is merged, the other is not. -/
def splitStopped : Backend := (sampleFinish.run (splitFirst, 2)).2.1

def splitAgain : Backend := (splitCommit.run splitStopped).2

theorem merge_refused_after_partial_finish : ∃ backend events,
      Reaches chunkSize (fun _ event => CallerEvent event) backend events ∧
      ∃ name, Plain name ∧ isComplete backend.trees name = false ∧
        verifyTarget (backend.trees name) (readLoadedThrough backend.trees name) ≠ .ok () := by
  have caller : CallerOps splitPuts := by
    have names_ok : (sampleName ≠ manifestName ∧ isRunKey (runKey sampleName) = true) ∧
        secondName ≠ manifestName ∧ isRunKey (runKey secondName) = true := by decide +kernel
    intro op member
    rcases mem_cons.mp member with rfl | later
    · exact names_ok.1
    · rw [mem_singleton.mp later]
      exact names_ok.2
  have began : Reaches chunkSize (fun _ event => CallerEvent event) splitBulk [.beganBulk] :=
    Reaches.step (Reaches.opened (sampleOpen_eq (by decide +kernel))) trivial (Step.beginBulk true)
  have filled : Reaches chunkSize (fun _ event => CallerEvent event) splitFirst
      ([.beganBulk] ++ [.committed splitPuts]) := Reaches.step began caller
    (Step.commit (returns_of_ok (m := splitCommit) (by decide +kernel)))
  have stopped : Reaches chunkSize (fun _ event => CallerEvent event) splitStopped
      ([.beganBulk, .committed splitPuts] ++ [.interrupted]) := Reaches.step filled trivial
    (Step.interrupt (fails_of_error (m := sampleFinish) (s := (splitFirst, 2))
      (e := .writeFailed "commit merge chunk") (by decide +kernel)))
  have again : Reaches chunkSize (fun _ event => CallerEvent event) splitAgain
      ([.beganBulk, .committed splitPuts, .interrupted] ++ [.committed splitPuts]) :=
    Reaches.step stopped caller
      (Step.commit (returns_of_ok (m := splitCommit) (by decide +kernel)))
  exact ⟨_, _, again, secondName, (caller _ (mem_cons_of_mem _ mem_cons_self)).2,
    by decide +kernel, by decide +kernel⟩

end Zaino.Lmdb
