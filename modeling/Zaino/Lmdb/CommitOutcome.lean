import Zaino.Lmdb.RunLogs

/-!
# What a commit does

A commit that is accepted appends one segment to the log of each deferred namespace that it puts
to, applies its other writes to the trees, and records the new extents in the manifest
(`Committed`). One that is refused leaves the trees and the manifest alone, and of the logs at
least the committed bytes. Both keep the manifest in step with the logs, as long as the batch
writes to no reserved name.
-/

namespace Zaino.Lmdb

open Library Persistence List Fallible

/-! ## Inverting a commit -/

/-- What an accepted commit of `ops` does; `names` are the deferred namespaces it puts to. -/
structure Committed (backend : Backend) (ops : List WriteOp) (names : List Namespace)
    (actions : List SegmentAction) (after : Backend) : Prop where
  distinct : names.Nodup
  deferred : ∀ name, name ∈ names ↔
    backend.isDeferred name = true ∧ ∃ op ∈ ops, op.target = name
  puts : ∀ op ∈ ops, backend.isDeferred op.target = true → isDelete op = false
  each : Appended backend ops names actions
  trees : after.trees = backend.trees.applyAll (directOps backend ops actions)
  logs : ∀ name, after.logs name =
    if name ∈ names then some ((backend.logs name).getD [] ++ segmentBytes ops name)
    else backend.logs name
  lookups : ∀ name, after.logged name =
    if name ∈ names then (appended backend name (segmentBytes ops name)).map SegmentAction.run
    else backend.logged name
  keyOrders : after.keyOrders = backend.keyOrders
  mode : after.active = backend.active ∧ after.enabled = backend.enabled ∧
    after.deferrable = backend.deferrable

/-- Every log has exactly its committed bytes, and there is no other log. -/
structure Tidy (disk : Disk) (runs : Runs) : Prop where
  committed : ∀ name run, runs name = some run →
    ∃ log, disk.logs name = some log ∧ log.length = run.len
  closed : ∀ name, runs name = none → disk.logs name = none

/-- What a refused commit of `ops` leaves. -/
structure Refused (backend : Backend) (ops : List WriteOp) (e : Failure) (after : Backend) :
    Prop where
  state : after = { backend with logs := after.logs }
  logs : Kept backend.toDisk backend.logged →
    SameCommitted backend.logged backend.logs after.logs
  exact : Encodes ops → Tidy backend.toDisk backend.logged → e = .panicked ∨ after = backend

theorem deferredNames_nodup (backend : Backend) (ops : List WriteOp) :
    (deferredNames backend ops).Nodup :=
  nodup_dedup _

variable {ops : List WriteOp} {backend : Backend}

theorem mem_deferredNames {name : Namespace} : name ∈ deferredNames backend ops ↔
      backend.isDeferred name = true ∧ ∃ op ∈ ops, op.target = name := by
  rw [deferredNames, mem_dedup, mem_map]
  refine ⟨?_, ?_⟩
  · intro ⟨op, member, named⟩
    obtain ⟨listed, deferred⟩ := mem_filter.mp member
    exact ⟨named ▸ deferred, op, listed, named⟩
  · intro ⟨deferred, op, listed, named⟩
    exact ⟨op, mem_filter.mpr ⟨listed, named ▸ deferred⟩, named⟩

/-- Appending segments keeps the committed bytes. -/
theorem sameCommitted_withSegments (ops : List WriteOp) (names : List Namespace)
    (backend : Backend) :
    SameCommitted backend.logged backend.logs (withSegments ops names backend).logs := by
  intro name run log found held
  obtain ⟨tail, appended⟩ := exists_tail_withSegments ops names backend log held
  refine ⟨log.drop run.len ++ tail, ?_⟩
  rw [appended, ← append_assoc, take_append_drop]

/-- Rolling back keeps the committed bytes. -/
theorem sameCommitted_rollBack
    (kept : Kept backend.toDisk backend.logged) {logs : Namespace → Option (List UInt8)}
    (same : SameCommitted backend.logged backend.logs logs) (names : List Namespace) :
    SameCommitted backend.logged backend.logs (names.foldl (rollBack backend.logged) logs) := by
  intro name run log found held
  obtain ⟨tail, appended⟩ := same name run log found held
  obtain ⟨log', held', enough⟩ := (kept.pending name run found).log
  have is_log : log' = log := Option.some.inj (held'.symm.trans held)
  subst is_log
  rw [rollBack_all, found, appended]
  split
  · refine ⟨[], ?_⟩
    rw [Option.bind_some, Option.map_some, append_nil]
    exact congrArg some (take_left' (length_take_of_le enough))
  · exact ⟨tail, rfl⟩

/-- Rolling back what was appended to exact logs restores them. -/
theorem rollBack_withSegments {names : List Namespace} (distinct : names.Nodup)
    (tidy : Tidy backend.toDisk backend.logged) :
    names.foldl (rollBack backend.logged) (withSegments ops names backend).logs = backend.logs := by
  funext name
  rw [rollBack_all, logs_withSegments distinct]
  split
  · cases found : backend.logged name with
    | none => exact (tidy.closed name found).symm
    | some run =>
      obtain ⟨log, held, exact_len⟩ := tidy.committed name run found
      rw [held, Option.bind_some, Option.map_some, Option.getD_some]
      exact congrArg some (take_left' exact_len)
  · rfl

theorem commit_ensures (visit : IterationOrder Namespace) (durable : Bool) (ops : List WriteOp)
    (backend : Backend) : (commit visit durable ops).Ensures backend
      (fun _ after => ∃ names actions, Committed backend ops names actions after)
      (Refused backend ops) := by
  unfold commit prepare
  simp only [ensures_bind, ensures_get]
  split
  · -- A delete of a deferred namespace: nothing was written.
    exact ⟨rfl, fun _ _ run log _ held => ⟨log.drop run.len, by rw [take_append_drop, held]⟩,
      fun _ _ => Or.inr rfl⟩
  · next no_delete =>
    have puts : ∀ op ∈ ops, backend.isDeferred op.target = true → isDelete op = false := by
      intro op member deferred
      have refused := find?_eq_none.mp no_delete op member
      simpa [deferred] using refused
    simp only [ensures_bind, ensures_pure]
    generalize is_names : visit.order (deferredNames backend ops) = names
    have distinct : names.Nodup := by
      rw [← is_names]
      exact (visit.perm _).nodup_iff.mpr (deferredNames_nodup backend ops)
    have deferred : ∀ name, name ∈ names ↔
        backend.isDeferred name = true ∧ ∃ op ∈ ops, op.target = name := by
      intro name
      rw [← is_names, visit.mem_order, mem_deferredNames]
    refine (prepareSegments_ensures ops names backend).mono ?_ ?_
    · rintro actions _ ⟨rfl, each⟩
      rw [withSegments_eq ops names backend]
      split
      · next trees accepted =>
        have direct : commitDirect backend.keyOrders backend.trees
            (directOps backend ops actions) = .ok trees := by
          unfold transact at accepted
          split at accepted
          · exact accepted
          · cases accepted
        obtain ⟨runs, folded, lookups⟩ := finalizeCommitted_all distinct each
          { backend with
            trees := trees
            logs := (withSegments ops names backend).logs } fun _ _ => rfl
        rw [ensures_modify, folded]
        exact ⟨names, actions, distinct, deferred, puts, each, commitDirect_ok direct,
          logs_withSegments distinct backend, lookups, rfl, rfl, rfl, rfl⟩
      · next e _ =>
        have aborted := finalizeAborted_all each
          { backend with logs := (withSegments ops names backend).logs } rfl
        rw [ensures_bind, ensures_modify, ensures_fail, aborted]
        refine ⟨rfl, fun kept => ?_, fun _ tidy => Or.inr ?_⟩
        · exact sameCommitted_rollBack kept (sameCommitted_withSegments ops names backend) names
        · rw [rollBack_withSegments distinct tidy]
    · rintro e _ ⟨⟨listed, rfl⟩, panics⟩
      exact ⟨withSegments_eq ops listed backend,
        fun _ => sameCommitted_withSegments ops listed backend, fun encodes _ => Or.inl (panics encodes)⟩

theorem length_segment_pos {entries : List (RawKey × RawValue)} {bytes : List UInt8}
    (encoded : encodeSegment entries = .ok bytes) : 1 ≤ bytes.length := by
  obtain ⟨payload, _, _, _, rfl⟩ := encodeSegment_ok encoded
  rw [length_append, length_encodeHeader, headerLen]
  omega

/-! ## The trees after a commit -/

/-- A batch that writes to no reserved name. -/
def CallerOps (ops : List WriteOp) : Prop :=
  ∀ op ∈ ops, op.target ≠ manifestName ∧ Plain op.target

section

variable {backend after : Backend} {ops : List WriteOp} {names : List Namespace}
  {actions : List SegmentAction} (committed : Committed backend ops names actions after)

include committed

variable {name : Namespace}

/-- A deferred namespace's tree waits for the merge. -/
theorem Committed.tree_deferred (named : name ≠ manifestName)
    (deferred : backend.isDeferred name = true) : after.trees name = backend.trees name := by
  rw [committed.trees]
  apply Trees.applyAll_untouched
  intro op member
  rcases mem_append.mp member with direct | recorded
  · intro is_name
    have not_deferred := (mem_filter.mp direct).2
    rw [is_name, deferred] at not_deferred
    cases not_deferred
  · obtain ⟨action, _, rfl⟩ := mem_map.mp recorded
    exact Ne.symm named

/-- Every other namespace's tree takes the batch's writes. -/
theorem Committed.tree_direct (named : name ≠ manifestName)
    (direct : backend.isDeferred name = false) :
    after.trees name = (backend.trees name).editAll (WriteOp.editsFor name ops) := by
  have recorded : WriteOp.editsFor name (actions.map fun action =>
      .put manifestName (runKey action.name) action.manifestEntry.encode) = [] := by
    apply WriteOp.editsFor_eq_nil
    intro op member
    obtain ⟨action, _, rfl⟩ := mem_map.mp member
    exact Ne.symm named
  have taken : WriteOp.editsFor name (ops.filter fun op => !backend.isDeferred op.target) =
      WriteOp.editsFor name ops := by
    apply editsFor_filter
    intro op is_name
    rw [is_name, direct]
    rfl
  rw [committed.trees, Trees.applyAll_tree, directOps, WriteOp.editsFor_append, recorded, taken,
    append_nil]

/-- The manifest takes the run entries of the appended segments. -/
theorem Committed.tree_manifest (caller : CallerOps ops) :
    after.trees manifestName = (backend.trees manifestName).editAll
      (Edit.puts (actions.map fun action => (runKey action.name, action.manifestEntry.encode))) := by
  rw [committed.trees, Trees.applyAll_tree, directOps, WriteOp.editsFor_append,
    WriteOp.editsFor_eq_nil, nil_append]
  · congr 1
    rw [WriteOp.editsFor, filter_eq_self.mpr, map_map, Edit.puts, map_map]
    · rfl
    · intro op member
      obtain ⟨action, _, rfl⟩ := mem_map.mp member
      exact decide_eq_true rfl
  · intro op member
    exact (caller op (mem_filter.mp member).1).1

theorem Committed.names_of_actions : actions.map SegmentAction.name = names := by
  have each := committed.each
  clear committed
  induction each with
  | nil => rfl
  | cons is_action _ ih => rw [map_cons, ih, name_of_appended is_action.2]

/-- A deferred namespace that the batch puts to has its action. -/
theorem Committed.action_of_mem (member : name ∈ names) :
    ∃ action ∈ actions, appended backend name (segmentBytes ops name) = some action ∧
      encodeSegment (segmentEntries name ops) = .ok (segmentBytes ops name) := by
  have each := committed.each
  clear committed
  induction each with
  | nil => exact absurd member not_mem_nil
  | cons is_action _ ih =>
    rcases mem_cons.mp member with same | later
    · subst same
      exact ⟨_, mem_cons_self, is_action.2, is_action.1⟩
    · obtain ⟨action, listed, found⟩ := ih later
      exact ⟨action, mem_cons_of_mem _ listed, found⟩

/-- A namespace without a log after a commit was not appended to. -/
theorem Committed.not_mem (absent : after.logged name = none) :
    name ∉ names ∧ backend.logged name = none := by
  rw [committed.lookups] at absent
  have not_member : name ∉ names := by
    intro member
    obtain ⟨action, _, is_action, _⟩ := committed.action_of_mem member
    rw [if_pos member, is_action] at absent
    cases absent
  rw [if_neg not_member] at absent
  exact ⟨not_member, absent⟩

variable (caller : CallerOps ops)

include caller

/-- What the manifest holds under a key after a commit. -/
theorem Committed.manifest_get (key : RawKey) : (after.trees manifestName)[key]? =
      if (⟨key⟩ : Namespace) ∈ names then
        (appended backend ⟨key⟩ (segmentBytes ops ⟨key⟩)).map fun action =>
          action.manifestEntry.encode else (backend.trees manifestName)[key]? := by
  have keys : (actions.map fun action => (runKey action.name, action.manifestEntry.encode)).map
      Prod.fst = names.map runKey := by
    rw [map_map, ← committed.names_of_actions, map_map]
    rfl
  rw [committed.tree_manifest caller]
  split
  · next member =>
    obtain ⟨action, listed, is_action, _⟩ := committed.action_of_mem member
    rw [is_action]
    refine OrderedMap.getElem?_puts_of_mem _ ?_ (mem_map.mpr ⟨action, listed, ?_⟩)
    · rw [keys]
      exact committed.distinct.map fun _ _ same => runKey_inj same
    · rw [name_of_appended is_action]
      rfl
  · next absent =>
    refine OrderedMap.getElem?_puts_of_not_mem _ fun named => ?_
    rw [keys] at named
    obtain ⟨name, member, is_name⟩ := mem_map.mp named
    exact absent (is_name ▸ member)

theorem Committed.caller_names (member : name ∈ names) : name ≠ manifestName ∧ Plain name := by
  obtain ⟨_, op, listed, named⟩ := (committed.deferred name).mp member
  exact named ▸ caller op listed

/-- A commit moves no resume mark. -/
theorem Committed.mark (name : Namespace) :
    readLoadedThrough after.trees name = readLoadedThrough backend.trees name := by
  rw [readLoadedThrough, committed.manifest_get caller, if_neg]
  · rfl
  · intro member
    exact (committed.caller_names caller member).2.runKey_ne name rfl

/-- A log that was appended to has its new extent. -/
theorem Committed.holdsRun (kept : Kept backend.toDisk backend.logged)
    {run : RunLog} (found : after.logged name = some run) : HoldsRun after.toDisk name run := by
  rw [committed.lookups] at found
  have logs := committed.logs name
  by_cases member : name ∈ names
  · rw [if_pos member] at found logs
    obtain ⟨action, _, is_action, encoded⟩ := committed.action_of_mem member
    obtain ⟨named, plain⟩ := committed.caller_names caller member
    have nonempty := length_segment_pos encoded
    rw [is_action] at found
    cases found
    cases appends_of_appended is_action with
    | existing was_open fits =>
      have held := kept.pending name _ was_open
      obtain ⟨log, at_name, enough⟩ := held.log
      rw [at_name, Option.getD_some] at logs
      refine ⟨named, plain, Nat.add_le_add held.counted nonempty, fits, _, logs, ?_⟩
      rw [length_append]
      exact Nat.add_le_add_right enough _
    | new _ fits =>
      refine ⟨named, plain, nonempty, fits, _, logs, ?_⟩
      rw [length_append]
      exact Nat.le_add_left _ _
  · rw [if_neg member] at found logs
    refine (kept.pending name run found).of_logs fun log held => ⟨log.drop run.len, ?_⟩
    rw [logs, held, take_append_drop]

theorem Committed.kept (kept : Kept backend.toDisk backend.logged) :
    Kept after.toDisk after.logged where
  pending name run found := committed.holdsRun caller kept found
  marks name absent := by
    rw [committed.mark caller]
    exact kept.marks name (committed.not_mem absent).2
  manifest key kind := by
    rw [committed.manifest_get caller, committed.lookups]
    split
    · rw [Option.map_map]
      rfl
    · exact kept.manifest key kind

end

/-- A refused commit keeps the manifest in step as well. -/
theorem Refused.kept {backend after : Backend} {e : Failure}
    (refused : Refused backend ops e after) (kept : Kept backend.toDisk backend.logged) :
    Kept after.toDisk after.logged := by
  have logged : after.logged = backend.logged := by
    rw [refused.state]
    rfl
  have trees : after.trees = backend.trees := by rw [refused.state]
  rw [logged]
  exact kept.of_logs trees (refused.logs kept)

end Zaino.Lmdb
