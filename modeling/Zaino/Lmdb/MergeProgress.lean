import Zaino.Lmdb.RunLogs

/-!
# How far a merge gets

A merge loads the entries of the merged log that lie behind the resume mark, in order. Wherever it
is interrupted, the tree has taken a prefix of them and the mark stands at the last one (`Loads`).
When it completes, the tree has taken them all, the namespace's manifest entries are cleared and its
log is gone.
-/

namespace Zaino.Lmdb

open Library Persistence List Fallible Function OrderedMap Trees Or

/-! ## Loading entries -/

/-- The entries that no merge has loaded yet. -/
def unloaded (loadedThrough : Option RawKey) (entries : List (RawKey × RawValue)) :
    List (RawKey × RawValue) :=
  entries.filter fun entry => !alreadyLoaded loadedThrough entry.1

/-- The trees after a namespace's tree took `entries` and its mark moved to the last of them. -/
def Loads (name : Namespace) (entries : List (RawKey × RawValue)) (trees trees' : Trees) : Prop :=
  (entries = [] ∧ trees' = trees) ∨ appendChunk name entries trees = .ok trees'

variable {name : Namespace}

theorem appendChunk_ok {chunk : List (RawKey × RawValue)} {trees trees' : Trees}
    (accepted : appendChunk name chunk trees = .ok trees') :
    ∃ tree last, (trees name).appendAll chunk = some tree ∧ chunk.getLast? = some last ∧
      trees' = apply (update trees name tree)
        (.put manifestName (loadedThroughKey name) last.1) := by
  unfold appendChunk at accepted
  split at accepted
  · next tree last appended is_last =>
    cases accepted
    exact ⟨tree, last, appended, is_last, rfl⟩
  · cases accepted

section

variable {name : Namespace} {entries : List (RawKey × RawValue)} {trees trees' : Trees}

/-- A load touches the namespace's tree and its mark only. -/
theorem Loads.tree_other (loads : Loads name entries trees trees') {other : Namespace}
    (not_name : other ≠ name) (not_manifest : other ≠ manifestName) :
    trees' other = trees other := by
  rcases loads with ⟨_, rfl⟩ | accepted
  · rfl
  · obtain ⟨tree, last, _, _, rfl⟩ := appendChunk_ok accepted
    rw [apply, show (WriteOp.put manifestName (loadedThroughKey name) last.1).target =
      manifestName from rfl, update_of_ne not_manifest, update_of_ne not_name]

variable (named : name ≠ manifestName)

include named

variable (loads : Loads name entries trees trees')

include loads

theorem Loads.tree : (trees name).appendAll entries = some (trees' name) := by
  rcases loads with ⟨rfl, rfl⟩ | accepted
  · rfl
  · obtain ⟨tree, last, appended, _, rfl⟩ := appendChunk_ok accepted
    rw [apply, show (WriteOp.put manifestName (loadedThroughKey name) last.1).target =
      manifestName from rfl, update_of_ne named, update_self]
    exact appended

theorem Loads.manifest (key : RawKey) : (trees' manifestName)[key]? =
      if loadedThroughKey name = key then
        (entries.getLast?.map Prod.fst).or (trees manifestName)[key]?
      else (trees manifestName)[key]? := by
  rcases loads with ⟨rfl, rfl⟩ | accepted
  · simp
  · obtain ⟨tree, last, _, is_last, rfl⟩ := appendChunk_ok accepted
    rw [apply, show (WriteOp.put manifestName (loadedThroughKey name) last.1).target =
      manifestName from rfl, update_self, getElem?_edit,
      update_of_ne (Ne.symm named), is_last]
    rfl

/-- The mark after a load. -/
theorem Loads.mark : readLoadedThrough trees' name =
      (entries.getLast?.map Prod.fst).or (readLoadedThrough trees name) := by
  rw [readLoadedThrough, loads.manifest named, if_pos rfl]
  rfl

omit loads

/-- Two loads, one behind the other. -/
theorem Loads.append {first second : List (RawKey × RawValue)} {middle : Trees}
    (loads : Loads name first trees middle) (accepted : appendChunk name second middle = .ok trees') :
    Loads name (first ++ second) trees trees' := by
  obtain ⟨tree', last', appended', is_last', rfl⟩ := appendChunk_ok accepted
  rcases loads with ⟨rfl, rfl⟩ | earlier
  · exact inr accepted
  · have appended := Loads.tree named (inr earlier)
    obtain ⟨tree, last, _, _, rfl⟩ := appendChunk_ok earlier
    right
    have whole : (trees name).appendAll (first ++ second) = some tree' := by
      rw [appendAll, foldlM_append]
      rw [appendAll] at appended appended'
      rw [appended]
      exact appended'
    have is_last : (first ++ second).getLast? = some last' := by
      rw [getLast?_append, is_last']
      rfl
    unfold appendChunk
    simp only [whole, is_last]
    congr 1
    funext other
    by_cases manifest : other = manifestName
    · subst manifest
      simp only [apply, WriteOp.target, update_self,
        update_of_ne (Ne.symm named)]
      apply Std.ExtTreeMap.ext_getElem?
      intro key
      rw [getElem?_edit, getElem?_edit, getElem?_edit]
      by_cases at_mark : loadedThroughKey name = key
      · simp [WriteOp.edit, at_mark]
      · simp [WriteOp.edit, at_mark]
    · by_cases same : other = name
      · subst same
        simp [apply, WriteOp.target, manifest]
      · simp [apply, WriteOp.target, manifest, same]

end

/-! ## One namespace -/

theorem transaction_ensures (operation : String) (write : Trees → Except CommitError Trees)
    (state : Backend × Nat) : (transaction operation write).Ensures state
      (fun _ after => ∃ trees, write state.1.trees = .ok trees ∧
        after.1 = { state.1 with trees := trees })
      (fun _ after => after = state) := by
  unfold transaction
  rw [ensures_bind, ensures_get]
  split
  · exact rfl
  · exact rfl
  · next trees budget accepted _ =>
    exact ⟨trees, accepted, rfl⟩

/-- Loading collects a prefix of the entries into the tree; what is left over at the end fits into
a chunk. -/
theorem loadEntries_ensures (named : name ≠ manifestName) (chunkCap : Nat)
    (start : Backend) {entries : List (RawKey × RawValue)} (chunk loaded : List (RawKey × RawValue))
    {state : Backend × Nat} (loads : Loads name loaded start.trees state.1.trees)
    (same : state.1 = { start with trees := state.1.trees }) :
    (loadEntries chunkCap name entries chunk).Ensures state
      (fun left after => ∃ done, done ++ left = loaded ++ chunk ++ entries ∧
        Loads name done start.trees after.1.trees ∧
          after.1 = { start with trees := after.1.trees })
      (fun _ after => ∃ done rest, done ++ rest = loaded ++ chunk ++ entries ∧
        Loads name done start.trees after.1.trees ∧
          after.1 = { start with trees := after.1.trees }) := by
  -- `loaded` is what was flushed before, so the whole is `loaded ++ chunk ++ entries` throughout.
  induction entries generalizing chunk loaded state with
  | nil =>
    exact ⟨loaded, by rw [append_nil], loads, same⟩
  | cons entry entries ih =>
    have regroup : loaded ++ chunk ++ entry :: entries =
        (loaded ++ (chunk ++ [entry])) ++ [] ++ entries := by simp
    rw [loadEntries]
    split
    · rw [ensures_bind, flushChunk]
      refine (transaction_ensures _ _ state).mono ?_ ?_
      · intro _ after ⟨trees, accepted, is_after⟩
        have further : Loads name (loaded ++ (chunk ++ [entry])) start.trees after.1.trees := by
          rw [is_after]
          exact loads.append named accepted
        rw [regroup]
        refine ih [] _ further ?_
        rw [is_after, same]
      · intro _ after is_after
        subst is_after
        exact ⟨loaded, chunk ++ entry :: entries, by simp, loads, same⟩
    · have carried := ih (chunk ++ [entry]) loaded loads same
      rw [show loaded ++ chunk ++ entry :: entries = loaded ++ (chunk ++ [entry]) ++ entries by simp]
      exact carried

/-- A merge of `name` from `backend` that has loaded `loaded`, with `rest` still to come. -/
structure Progress (backend : Backend) (name : Namespace) (run : RunLog)
    (failure : Option CommitError) (loaded rest : List (RawKey × RawValue)) (trees : Trees) :
    Prop where
  target : verifyTarget (backend.trees name) (readLoadedThrough backend.trees name) = .ok ()
  log : ∃ file stream, backend.logs name = some file ∧
    mergedEntries name run file = .ok (stream, failure) ∧
      unloaded (readLoadedThrough backend.trees name) stream = loaded ++ rest
  loads : Loads name loaded backend.trees trees

/-- How a merge that does not complete leaves the backend. -/
def Interrupted (backend : Backend) (name : Namespace) (run : RunLog) (after : Backend) : Prop :=
  after = backend ∨ ∃ failure loaded rest, Progress backend name run failure loaded rest after.trees ∧
    after = { backend with trees := after.trees }

/-- How a merge that completes leaves the backend. -/
def Completed (backend : Backend) (name : Namespace) (run : RunLog) (after : Backend) : Prop :=
  ∃ loaded trees, Progress backend name run none loaded [] trees ∧
    after = completeNamespace name { backend with trees := clearManifest name trees }

theorem loadMerged_ensures (named : name ≠ manifestName) (chunkCap : Nat)
    {run : RunLog} {file : List UInt8} {merged : List (RawKey × RawValue) × Option CommitError}
    {state : Backend × Nat}
    (target : verifyTarget (state.1.trees name) (readLoadedThrough state.1.trees name) = .ok ())
    (held : state.1.logs name = some file) (is_merged : mergedEntries name run file = .ok merged) :
    (loadMerged chunkCap name (readLoadedThrough state.1.trees name) merged).Ensures state
      (fun _ after => Completed state.1 name run after.1)
      (fun _ after => Interrupted state.1 name run after.1) := by
  have progress : ∀ (loaded rest : List (RawKey × RawValue)) {trees : Trees},
      loaded ++ rest = unloaded (readLoadedThrough state.1.trees name) merged.1 →
      Loads name loaded state.1.trees trees →
      Progress state.1 name run merged.2 loaded rest trees :=
    fun _ _ _ split loads => ⟨target, ⟨file, merged.1, held, is_merged, split.symm⟩, loads⟩
  unfold loadMerged
  rw [ensures_bind]
  refine (loadEntries_ensures named chunkCap state.1 [] [] (inl ⟨rfl, rfl⟩) rfl).mono
    ?_ ?_
  · rintro left after ⟨done, split, loads, same⟩
    have interrupted : Interrupted state.1 name run after.1 :=
      inr ⟨merged.2, done, left, progress _ _ split loads, same⟩
    cases failure : merged.2 with
    | some e => exact interrupted
    | none =>
      rw [failure] at progress
      simp only [ensures_bind, ensures_modify]
      have clear : ∀ {flushed : Backend × Nat},
          Loads name (done ++ left) state.1.trees flushed.1.trees →
          flushed.1 = { state.1 with trees := flushed.1.trees } →
          (transaction "commit finish txn" fun trees => .ok (clearManifest name trees)).Ensures
            flushed (fun _ after => Completed state.1 name run (completeNamespace name after.1))
            (fun _ after => Interrupted state.1 name run after.1) := by
        intro flushed loads same
        have whole := progress _ [] (by rw [append_nil]; exact split) loads
        refine (transaction_ensures _ _ flushed).mono ?_ ?_
        · rintro _ cleared ⟨trees, is_cleared, is_state⟩
          cases is_cleared
          refine ⟨_, _, whole, ?_⟩
          rw [is_state, same]
        · intro _ cleared is_state
          subst is_state
          exact inr ⟨none, _, _, whole, same⟩
      unfold flushRemaining
      split
      · next empty =>
        rw [List.isEmpty_iff] at empty
        subst empty
        exact clear (by rw [append_nil]; exact loads) same
      · refine (transaction_ensures _ _ after).mono ?_ ?_
        · rintro _ flushed ⟨trees, accepted, is_flushed⟩
          refine clear ?_ ?_
          · rw [is_flushed]
            exact loads.append named accepted
          · rw [is_flushed, same]
        · intro _ flushed is_flushed
          subst is_flushed
          exact interrupted
  · rintro _ after ⟨done, rest, split, loads, same⟩
    exact inr ⟨merged.2, done, rest, progress _ _ split loads, same⟩

theorem mergeNamespace_ensures (named : name ≠ manifestName) (chunkCap : Nat)
    (run : RunLog) (state : Backend × Nat) : (mergeNamespace chunkCap name run).Ensures state
      (fun _ after => Completed state.1 name run after.1)
      (fun _ after => Interrupted state.1 name run after.1) := by
  unfold mergeNamespace
  simp only [ensures_bind, ensures_get]
  cases target : verifyTarget (state.1.trees name) (readLoadedThrough state.1.trees name) with
  | error e => exact inl rfl
  | ok _ =>
    rw [Fallible.ofExcept, ensures_pure]
    cases held : state.1.logs name with
    | none => exact inl rfl
    | some file =>
      rw [ensures_bind]
      cases is_merged : mergedEntries name run file with
      | error e => exact inl rfl
      | ok merged => exact loadMerged_ensures named chunkCap target held is_merged

/-! ## What one merge leaves -/

variable {backend after : Backend} {name other : Namespace} {run : RunLog}

theorem clearManifest_other (trees : Trees) (not_manifest : other ≠ manifestName) :
    clearManifest name trees other = trees other := by
  apply applyAll_untouched
  intro op member
  rcases mem_cons.mp member with rfl | later
  · exact Ne.symm not_manifest
  · rcases mem_singleton.mp later with rfl
    exact Ne.symm not_manifest

theorem clearManifest_get (name : Namespace) (trees : Trees) (key : RawKey) :
    (clearManifest name trees manifestName)[key]? =
      if loadedThroughKey name = key ∨ runKey name = key then none
      else (trees manifestName)[key]? := by
  rw [clearManifest, applyAll_tree, getElem?_editAll]
  simp only [WriteOp.editsFor, WriteOp.target, WriteOp.edit, filter_cons, filter_nil,
    decide_true, if_true, map_cons, map_nil, Edit.latest]
  by_cases mark : loadedThroughKey name = key
  · simp [mark]
  · by_cases entry : runKey name = key
    · simp [mark, entry]
    · simp [mark, entry]

/-- What a merge leaves of its own namespace: its tree merged, its log and its records gone, or its
log and its run entry as they were. -/
inductive Own (backend : Backend) (name : Namespace) (run : RunLog) (after : Backend) : Prop
  | closed : Completed backend name run after → after.logged name = none → after.logs name = none →
    (∀ key, loadedThroughKey name = key ∨ runKey name = key →
      (after.trees manifestName)[key]? = none) → Own backend name run after
  | pending : Interrupted backend name run after → after.logged name = some run →
    after.logs name = backend.logs name →
    (after.trees manifestName)[runKey name]? = (backend.trees manifestName)[runKey name]? →
    Own backend name run after

/-- What a merge leaves, completed or not: the other namespaces and their records are as they
were. -/
structure Merged (backend : Backend) (name : Namespace) (run : RunLog) (after : Backend) : Prop where
  logged : ∀ other, other ≠ name → after.logged other = backend.logged other
  logs : ∀ other, other ≠ name → after.logs other = backend.logs other
  tree : ∀ other, other ≠ name → other ≠ manifestName → after.trees other = backend.trees other
  manifest : ∀ key, loadedThroughKey name ≠ key → runKey name ≠ key →
    (after.trees manifestName)[key]? = (backend.trees manifestName)[key]?
  keyOrders : after.keyOrders = backend.keyOrders
  own : Own backend name run after

theorem Completed.merged (completed : Completed backend name run after)
    (named : name ≠ manifestName) : Merged backend name run after := by
  have is_completed := completed
  obtain ⟨loaded, trees, progress, rfl⟩ := completed
  refine ⟨fun other not_name => AList.lookup_erase_ne not_name,
    fun other not_name => update_of_ne not_name _ _, fun other not_name not_manifest =>
      (clearManifest_other trees not_manifest).trans
        (progress.loads.tree_other not_name not_manifest), fun key not_mark not_entry => ?_, rfl,
    .closed is_completed (AList.lookup_erase name backend.runs) (update_self _ _ _)
      fun key cleared => (clearManifest_get name trees key).trans (if_pos cleared)⟩
  refine (clearManifest_get name trees key).trans ?_
  rw [if_neg (not_or.mpr ⟨not_mark, not_entry⟩), progress.loads.manifest named, if_neg not_mark]

theorem Interrupted.merged (interrupted : Interrupted backend name run after)
    (held : HoldsRun backend.toDisk name run) (logged : backend.logged name = some run) :
    Merged backend name run after := by
  have is_interrupted := interrupted
  rcases interrupted with rfl | ⟨failure, loaded, rest, progress, is_after⟩
  · exact ⟨fun _ _ => rfl, fun _ _ => rfl, fun _ _ _ => rfl, fun _ _ _ => rfl, rfl,
      .pending is_interrupted logged rfl rfl⟩
  · have manifest := progress.loads.manifest held.reserved
    have same_logged : after.logged = backend.logged := by
      rw [is_after]
      rfl
    have same_logs : after.logs = backend.logs := by rw [is_after]
    refine ⟨fun other _ => congrFun same_logged other, fun other _ => congrFun same_logs other,
      fun other not_name => progress.loads.tree_other not_name, fun key not_mark _ => ?_,
      by rw [is_after], .pending is_interrupted ((congrFun same_logged name).trans logged)
        (congrFun same_logs name) ?_⟩
    · rw [manifest, if_neg not_mark]
    · rw [manifest, if_neg (Ne.symm (held.plain.runKey_ne name))]

variable (merged : Merged backend name run after)

include merged

theorem Merged.mark
    (kept : Kept backend.toDisk backend.logged) (logged : backend.logged name = some run)
    (not_name : other ≠ name) :
    readLoadedThrough after.trees other = readLoadedThrough backend.trees other :=
  merged.manifest _ (fun is_mark => not_name (loadedThroughKey_inj is_mark).symm)
    ((kept.pending name run logged).plain.runKey_ne other)

/-- A log that is open after a merge was open before, and is as it was. -/
theorem Merged.of_logged {other : Namespace} {found_run : RunLog} (logged : backend.logged name = some run)
    (found : after.logged other = some found_run) :
    backend.logged other = some found_run ∧ after.logs other = backend.logs other ∧
      (other = name → Interrupted backend name run after) := by
  by_cases same : other = name
  · subst same
    cases merged.own with
    | closed _ closed => exact nomatch closed.symm.trans found
    | pending interrupted open_ logs =>
      exact ⟨logged.trans (open_.symm.trans found), logs, fun _ => interrupted⟩
  · exact ⟨merged.logged other same ▸ found, merged.logs other same, fun named => absurd named same⟩

/-- A merge keeps the manifest in step with the logs. -/
theorem Merged.kept
    (kept : Kept backend.toDisk backend.logged) (logged : backend.logged name = some run) :
    Kept after.toDisk after.logged where
  pending other found_run found := by
    obtain ⟨was_logged, logs, _⟩ := merged.of_logged logged found
    exact (kept.pending other found_run was_logged).congr logs
  marks other absent := by
    by_cases same : other = name
    · subst same
      cases merged.own with
      | closed _ _ _ cleared => exact cleared _ (inl rfl)
      | pending _ open_ => exact nomatch open_.symm.trans absent
    · rw [merged.logged other same] at absent
      exact (merged.mark kept logged same).trans (kept.marks other absent)
  manifest key kind := by
    by_cases same : (⟨key⟩ : Namespace) = name
    · subst same
      cases merged.own with
      | closed _ closed _ cleared =>
        rw [closed]
        exact cleared key (inr rfl)
      | pending _ open_ _ entry =>
        rw [open_, ← logged]
        exact entry.trans (kept.manifest key kind)
    · rw [merged.logged _ same]
      refine (merged.manifest key ?_ ?_).trans (kept.manifest key kind)
      · intro is_mark
        rw [← is_mark, isRunKey_loadedThroughKey] at kind
        cases kind
      · exact fun is_entry => same (congrArg Namespace.mk is_entry).symm

omit merged

/-! ## All pending namespaces -/

theorem mem_pending {backend : Backend} (pending : Namespace × RunLog) :
    pending ∈ (backend.runs.entries.map fun entry => (entry.1, entry.2)) ↔
      backend.logged pending.1 = some pending.2 := by
  rw [Backend.logged, HashMap.lookup_eq_some_iff, mem_map]
  refine ⟨?_, fun member => ⟨_, member, rfl⟩⟩
  rintro ⟨entry, member, rfl⟩
  exact member

theorem pending_nodup (backend : Backend) :
    ((backend.runs.entries.map fun entry => (entry.1, entry.2)).map Prod.fst).Nodup := by
  rw [map_map]
  exact backend.runs.nodupKeys

section

variable {I : Backend → Prop}
  (merge : ∀ {backend name run after}, Kept backend.toDisk backend.logged → I backend →
    backend.logged name = some run → Merged backend name run after → I after)

include merge

/-- What one merge keeps, a list of merges keeps. -/
theorem mergeNamespaces_ensures (chunkCap : Nat) {pending : List (Namespace × RunLog)}
    (distinct : (pending.map Prod.fst).Nodup) {state : Backend × Nat}
    (kept : Kept state.1.toDisk state.1.logged) (holds : I state.1)
    (logged : ∀ entry ∈ pending, state.1.logged entry.1 = some entry.2) :
    (mergeNamespaces chunkCap pending).Ensures state
      (fun _ after => (Kept after.1.toDisk after.1.logged ∧ I after.1) ∧ ∀ name,
        after.1.logged name = if name ∈ pending.map Prod.fst then none else state.1.logged name)
      (fun _ after => Kept after.1.toDisk after.1.logged ∧ I after.1) := by
  induction pending generalizing state with
  | nil =>
    exact ⟨⟨kept, holds⟩, fun name => rfl⟩
  | cons first others ih =>
    rw [map_cons, nodup_cons] at distinct
    have is_logged := logged first mem_cons_self
    have held := kept.pending _ _ is_logged
    rw [mergeNamespaces, ensures_bind, mergePending, ensures_bind, ensures_get]
    split
    · exact ⟨kept, holds⟩
    · refine (mergeNamespace_ensures held.reserved chunkCap first.2 state).mono ?_ ?_
      · intro _ middle completed
        have merged := completed.merged held.reserved
        have closed : middle.1.logged first.1 = none := by
          obtain ⟨_, _, _, is_middle⟩ := completed
          rw [is_middle]
          exact AList.lookup_erase first.1 state.1.runs
        refine (ih distinct.2 (merged.kept kept is_logged) (merge kept holds is_logged merged)
          ?_).mono ?_ fun _ _ kept => kept
        · intro entry member
          have other : entry.1 ≠ first.1 := by
            intro same
            exact distinct.1 (same ▸ mem_map_of_mem member)
          rw [merged.logged _ other]
          exact logged entry (mem_cons_of_mem _ member)
        · intro _ after ⟨holds, later⟩
          refine ⟨holds, fun name => ?_⟩
          rw [later, map_cons]
          by_cases same : name = first.1
          · rw [same, closed, ite_self, if_pos mem_cons_self]
          · rw [merged.logged name same]
            simp only [mem_cons, same, false_or]
      · intro _ after interrupted
        have merged := interrupted.merged held is_logged
        exact ⟨merged.kept kept is_logged, merge kept holds is_logged merged⟩

/-- What one merge keeps, finishing keeps; when it returns, no log is open. -/
theorem finishBulk_ensures (chunkCap : Nat) (visit : IterationOrder (Namespace × RunLog))
    (state : Backend × Nat) (kept : Kept state.1.toDisk state.1.logged) (holds : I state.1) :
    (finishBulk chunkCap visit).Ensures state
      (fun _ after => (Kept after.1.toDisk after.1.logged ∧ I after.1) ∧
        ∀ name, after.1.logged name = none)
      (fun _ after => Kept after.1.toDisk after.1.logged ∧ I after.1) := by
  unfold finishBulk
  rw [ensures_bind, ensures_get]
  split
  · exact ⟨kept, holds⟩
  · have distinct := ((visit.perm _).map Prod.fst).nodup_iff.mpr (pending_nodup state.1)
    refine (mergeNamespaces_ensures merge chunkCap distinct kept holds ?_).mono
      ?_ fun _ _ kept => kept
    · intro entry member
      exact (mem_pending entry).mp (visit.mem_order.mp member)
    · intro _ after ⟨holds, lookups⟩
      refine ⟨holds, fun name => ?_⟩
      rw [lookups]
      split
      · rfl
      · next unlisted =>
        cases found : state.1.logged name with
        | none => rfl
        | some run =>
          exact absurd (mem_map_of_mem (visit.mem_order.mpr
            ((mem_pending (name, run)).mpr found))) unlisted

end

/-! ## A merge that is not interrupted -/

section

variable {file : List UInt8} {segments : List (List (RawKey × RawValue))} {target : Tree}

/-- The merge of a log reads its segments to the end; the result is sorted and has the value that
the last segment with a key gives it. -/
theorem mergedEntries_encoded (name : Namespace) (fits : run.len < 2 ^ 64)
    (enough : run.len ≤ file.length) (encoded : EncodedLog segments (file.take run.len))
    (ascending : KWayMerge.Ascending segments) (count : segments.length = run.segmentCount) :
    ∃ stream, mergedEntries name run file = .ok (stream, none) ∧
      (stream.Pairwise fun a b => compare a.1 b.1 = .lt) ∧
      ∀ k, Edit.latest (Edit.puts stream) k = Edit.latest (Edit.puts segments.flatten) k := by
  have committed : (file.take run.len).length = run.len := length_take_of_le enough
  obtain ⟨cursors, built, yields⟩ := buildCursors_encoded encoded name (file.drop run.len)
    (by rw [committed]; exact fits)
  rw [take_append_drop, committed, count] at built
  obtain ⟨heap, primed, represents⟩ := KWayMerge.prime_spec yields
  have bound : segments.flatten.length ≤ file.length := by
    have entries := encoded.entries_le
    rw [committed] at entries
    exact Nat.le_trans entries enough
  obtain ⟨stream, is_merged, sorted, same⟩ :=
    KWayMerge.merged_spec file.length represents ascending bound
  refine ⟨stream, ?_, sorted, same⟩
  simp only [mergedEntries, built, ok_bind, primed, is_merged]
  rfl

theorem transaction_returns {operation : String} {write : Trees → Except CommitError Trees}
    {trees : Trees} (accepted : write backend.trees = .ok trees) (budget : Nat) :
    (transaction operation write).Returns (backend, budget + 1) ()
      ({ backend with trees := trees }, budget) := by
  refine .bind rfl ?_
  simp only [accepted]
  rfl

variable (named : name ≠ manifestName)

include named

/-- A chunk that the tree accepts with the entries behind it is flushed, and the tree then accepts
those. -/
theorem flushChunk_returns {chunk rest : List (RawKey × RawValue)} (some_entry : chunk ≠ [])
    (accepted : (backend.trees name).appendAll (chunk ++ rest) = some target) (budget : Nat) :
    ∃ flushed, (flushChunk name chunk).Returns (backend, budget + 1) () (flushed, budget) ∧
      (flushed.trees name).appendAll rest = some target := by
  rw [appendAll, foldlM_append] at accepted
  obtain ⟨tree, first, later⟩ := Option.bind_eq_some_iff.mp accepted
  have first : (backend.trees name).appendAll chunk = some tree := first
  obtain ⟨last, is_last⟩ := Option.ne_none_iff_exists'.mp
    fun none => some_entry (getLast?_eq_none_iff.mp none)
  obtain ⟨trees, appended⟩ : ∃ trees, appendChunk name chunk backend.trees = .ok trees := by
    rw [appendChunk, first, is_last]
    exact ⟨_, rfl⟩
  refine ⟨_, transaction_returns appended budget, ?_⟩
  have is_tree := (Loads.tree named (inr appended)).symm.trans first
  dsimp only
  rw [Option.some.inj is_tree]
  exact later

/-- Entries that the tree accepts are loaded by at most one transaction each, with one to spare. -/
theorem loadEntries_returns (chunkCap : Nat) {entries : List (RawKey × RawValue)}
    (chunk : List (RawKey × RawValue)) {budget : Nat}
    (accepted : (backend.trees name).appendAll (chunk ++ entries) = some target)
    (enough : (chunk ++ entries).length < budget) :
    ∃ left after, (loadEntries chunkCap name entries chunk).Returns (backend, budget) left after ∧
      (after.1.trees name).appendAll left = some target ∧ left.length < after.2 := by
  induction entries generalizing chunk backend budget with
  | nil =>
    rw [append_nil] at accepted enough
    exact ⟨chunk, _, rfl, accepted, enough⟩
  | cons entry entries ih =>
    rw [append_cons] at accepted enough
    rw [loadEntries]
    split
    · cases budget with
      | zero => omega
      | succ budget =>
        obtain ⟨flushed, is_flushed, accepted⟩ :=
          flushChunk_returns named (by simp) accepted budget
        have fewer : entries.length < budget := by
          simp only [length_append, length_singleton] at enough
          omega
        obtain ⟨left, after, loaded, final⟩ := ih [] accepted fewer
        exact ⟨left, after, is_flushed.bind loaded, final⟩
    · exact ih (chunk ++ [entry]) accepted enough

theorem loadMerged_returns (chunkCap : Nat) {stream : List (RawKey × RawValue)} {budget : Nat}
    {mark : Option RawKey}
    (accepted : (backend.trees name).appendAll (unloaded mark stream) = some target)
    (enough : (unloaded mark stream).length < budget) :
    ∃ after, (loadMerged chunkCap name mark (stream, none)).Returns (backend, budget) () after := by
  obtain ⟨left, ⟨loaded, spare⟩, returned, accepted, enough⟩ :=
    loadEntries_returns named chunkCap [] accepted enough
  have flushed : ∃ after, (flushRemaining name left).Returns (loaded, spare) () after ∧
      0 < after.2 := by
    unfold flushRemaining
    split
    · exact ⟨_, rfl, Nat.zero_lt_of_lt enough⟩
    · next some_entry =>
      rw [List.isEmpty_iff] at some_entry
      cases spare with
      | zero => omega
      | succ spare =>
        rw [← append_nil left] at accepted
        obtain ⟨after, returned, _⟩ := flushChunk_returns named some_entry accepted spare
        refine ⟨_, returned, ?_⟩
        have := length_pos_iff.mpr some_entry
        omega
  obtain ⟨⟨after, spare⟩, flushed, more⟩ := flushed
  obtain ⟨spare, rfl⟩ := Nat.exists_eq_add_one.mpr more
  have cleared : (fun trees => Except.ok (clearManifest name trees) : _ → Except CommitError Trees)
      after.trees = .ok (clearManifest name after.trees) := rfl
  exact ⟨_, returned.bind (flushed.bind ((transaction_returns cleared spare).bind rfl))⟩

/-- A log of ascending segments, merged into the empty tree without a resume mark, whatever the
chunk size: the tree takes every entry of the merged stream, in order. -/
theorem mergeNamespace_merges (held : backend.logs name = some file) (fits : run.len < 2 ^ 64)
    (enough : run.len ≤ file.length) (encoded : EncodedLog segments (file.take run.len))
    (ascending : KWayMerge.Ascending segments) (count : segments.length = run.segmentCount)
    (unmarked : readLoadedThrough backend.trees name = none) (empty : backend.trees name = ∅) :
    ∃ stream, KWayMerge.Merges segments stream ∧ ∀ chunkCap budget, stream.length < budget →
      ∃ after, (mergeNamespace chunkCap name run).Returns (backend, budget) () after ∧
        (∅ : Tree).appendAll stream = some (after.1.trees name) := by
  obtain ⟨stream, is_merged, sorted, same⟩ :=
    mergedEntries_encoded name fits enough encoded ascending count
  refine ⟨stream, .of_latest sorted same, ?_⟩
  intro chunkCap budget transactions
  have whole : unloaded none stream = stream := filter_eq_self.mpr fun _ _ => rfl
  have accepted := OrderedMap.appendAll_of_above sorted
    (show ∀ held ∈ backend.trees name, _ by simp [empty])
  rw [← whole] at accepted transactions
  obtain ⟨after, loaded⟩ := loadMerged_returns named chunkCap accepted transactions
  have verified : verifyTarget (backend.trees name) none = .ok () := by
    rw [empty]
    rfl
  have returned : (mergeNamespace chunkCap name run).Returns (backend, budget) () after := by
    refine .bind rfl ?_
    simp only [unmarked, verified, held]
    rw [is_merged]
    exact loaded
  refine ⟨after, returned, ?_⟩
  obtain ⟨loaded, trees, progress, is_after⟩ :=
    returned.ensured (mergeNamespace_ensures named chunkCap run (backend, budget))
  obtain ⟨_, _, is_file, is_stream, split⟩ := progress.log
  cases is_file.symm.trans held
  cases is_stream.symm.trans is_merged
  rw [unmarked, whole, append_nil] at split
  have tree := progress.loads.tree named
  rw [split, is_after, ← empty]
  exact tree.trans (congrArg some (clearManifest_other trees named).symm)

end

/-- A log of two segments that both hold the key 5. -/
theorem mergeNamespace_merges_rewritten :
    ∃ (backend : Backend) (run : RunLog) (stream : List (RawKey × RawValue)),
      KWayMerge.Merges [[([5], [1]), ([7], [2])], [([5], [3])]] stream ∧
      ∃ after, (mergeNamespace chunkSize ⟨[1]⟩ run).Returns (backend, stream.length + 1) () after ∧
        (∅ : Tree).appendAll stream = some (after.1.trees ⟨[1]⟩) := by
  obtain ⟨first, is_first, first_len⟩ : ∃ bytes,
      encodeSegment [([5], [1]), ([7], [2])] = .ok bytes ∧ bytes.length = 50 :=
    ⟨_, rfl, by decide +kernel⟩
  obtain ⟨second, is_second, second_len⟩ : ∃ bytes,
      encodeSegment [([5], [3])] = .ok bytes ∧ bytes.length = 40 := ⟨_, rfl, by decide +kernel⟩
  let log := first ++ (second ++ [])
  have encoded : EncodedLog _ log := .cons is_first (.cons is_second .nil)
  have len : log.length = 90 := by simp [log, first_len, second_len]
  let backend : Backend :=
    ⟨⟨fun _ => ∅, fun _ => some log⟩, fun _ => none, true, true, fun _ => true, ∅⟩
  have named : (⟨[1]⟩ : Namespace) ≠ manifestName := by decide +kernel
  obtain ⟨stream, merges, returns⟩ := mergeNamespace_merges named (show backend.logs _ = _ from rfl)
    (show (RunLog.mk 2 90).len < 2 ^ 64 by decide) (Nat.le_of_eq len.symm)
    (by rwa [take_of_length_le (Nat.le_of_eq len)])
    (by simp [KWayMerge.Ascending]; decide) rfl rfl rfl
  refine ⟨backend, ⟨2, 90⟩, stream, merges, ?_⟩
  exact returns chunkSize _ (Nat.lt_succ_self _)

end Zaino.Lmdb
