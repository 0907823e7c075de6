import Zaino.Library.Listing
import Zaino.Lmdb.Merge

/-!
# The manifest and the run logs

`Kept disk runs` says that a disk's manifest names exactly the logs of `runs` with their committed
extents, that each of those logs holds at least its committed bytes, and that only they have a
resume mark. A running backend keeps it for its open logs, and a crash leaves it in place. This
module states once what opening and committing do to the manifest and the logs.
-/

namespace Zaino.Lmdb

open Library Persistence List Fallible Backend

/-! ## Manifest keys -/

/-- A name that cannot be taken for a resume mark's key. -/
def Plain (name : Namespace) : Prop := isRunKey (runKey name) = true

theorem isRunKey_loadedThroughKey (name : Namespace) :
    isRunKey (loadedThroughKey name) = false := by
  have suffixed : loadedThroughSuffix <:+ name.asStr ++ loadedThroughSuffix :=
    suffix_append _ _
  rw [isRunKey, loadedThroughKey, isSuffixOf_iff_suffix.mpr suffixed]
  rfl

theorem exists_loadedThroughKey {key : RawKey} (mark : isRunKey key = false) :
    ∃ name, key = loadedThroughKey name := by
  have suffixed : loadedThroughSuffix <:+ key := by
    apply isSuffixOf_iff_suffix.mp
    simpa [isRunKey] using mark
  obtain ⟨start, rfl⟩ := suffixed
  exact ⟨⟨start⟩, rfl⟩

variable {name : Namespace}

theorem Plain.runKey_ne (plain : Plain name) (other : Namespace) :
    runKey name ≠ loadedThroughKey other := by
  intro same
  have is_mark := isRunKey_loadedThroughKey other
  rw [← same, show isRunKey (runKey name) = true from plain] at is_mark
  cases is_mark

theorem runKey_inj {first second : Namespace} (same : runKey first = runKey second) :
    first = second :=
  congrArg Namespace.mk same

theorem loadedThroughKey_inj {first second : Namespace}
    (same : loadedThroughKey first = loadedThroughKey second) : first = second :=
  congrArg Namespace.mk (append_cancel_right same)

theorem RunEntry.decode_encode {entry : RunEntry} (count_fits : entry.segmentCount < 2 ^ 64)
    (len_fits : entry.logLen < 2 ^ 64) : RunEntry.decode entry.encode = some entry := by
  have first : (bigEndian 8 entry.segmentCount).length = 8 := length_bigEndian _ _
  have second : (bigEndian 8 entry.logLen).length = 8 := length_bigEndian _ _
  have whole : entry.encode.length = 16 := by rw [encode, length_append, first, second]
  have counted : ofBigEndian (entry.encode.take 8) = entry.segmentCount := by
    rw [encode, take_left' first, ofBigEndian_bigEndian]
    exact Nat.mod_eq_of_lt count_fits
  have measured : ofBigEndian (entry.encode.drop 8) = entry.logLen := by
    rw [encode, drop_left' first, ofBigEndian_bigEndian]
    exact Nat.mod_eq_of_lt len_fits
  rw [decode, if_pos whole, counted, measured]

/-! ## The relation -/

/-- The open logs and their committed extents, by namespace. -/
abbrev Runs : Type := Namespace → Option RunLog

/-- The logs that a backend has open. -/
def Backend.logged (backend : Backend) : Runs := fun name => backend.runs.lookup name

/-- A log of a disk holds at least the committed bytes of `run`. -/
structure HoldsRun (disk : Disk) (name : Namespace) (run : RunLog) : Prop where
  reserved : name ≠ manifestName
  plain : Plain name
  counted : run.segmentCount ≤ run.len
  fits : run.len < 2 ^ 64
  log : ∃ log, disk.logs name = some log ∧ run.len ≤ log.length

structure Kept (disk : Disk) (runs : Runs) : Prop where
  pending : ∀ name run, runs name = some run → HoldsRun disk name run
  marks : ∀ name, runs name = none → readLoadedThrough disk.trees name = none
  manifest : ∀ key, isRunKey key = true → (disk.trees manifestName)[key]? =
    (runs ⟨key⟩).map fun run => run.entry.encode

theorem HoldsRun.decode {disk : Disk} {run : RunLog}
    (holds : HoldsRun disk name run) : RunEntry.decode run.entry.encode = some run.entry :=
  RunEntry.decode_encode (Nat.lt_of_le_of_lt holds.counted holds.fits) holds.fits

/-- Without open logs the manifest is empty. -/
theorem Kept.manifest_empty {disk : Disk} {runs : Runs} (kept : Kept disk runs)
    (complete : ∀ name, runs name = none) : disk.trees manifestName = ∅ := by
  apply Std.ExtTreeMap.ext_getElem?
  intro key
  cases kind : isRunKey key with
  | true => rw [kept.manifest key kind, complete]; rfl
  | false =>
    obtain ⟨owner, rfl⟩ := exists_loadedThroughKey kind
    exact kept.marks owner (complete owner)

/-! ## Crashing and opening -/

/-- The logs still hold the committed bytes of `runs`, followed by whatever was being appended. -/
def SameCommitted (runs : Runs) (before after : Namespace → Option (List UInt8)) : Prop :=
  ∀ name run log, runs name = some run → before name = some log →
    ∃ tail, after name = some (log.take run.len ++ tail)

/-- What a crash leaves of a backend: the trees and, of each open log, the committed bytes. The logs
that no manifest entry names may hold anything. -/
structure Crashed (backend : Backend) (disk : Disk) : Prop where
  trees : disk.trees = backend.trees
  logs : SameCommitted backend.logged backend.logs disk.logs

variable {disk disk' : Disk}

theorem HoldsRun.of_logs {run : RunLog} (holds : HoldsRun disk name run)
    (same : ∀ log, disk.logs name = some log → ∃ tail, disk'.logs name = some (log.take run.len ++ tail)) :
    HoldsRun disk' name run := by
  obtain ⟨log, held, enough⟩ := holds.log
  obtain ⟨tail, held'⟩ := same log held
  refine ⟨holds.reserved, holds.plain, holds.counted, holds.fits, _, held', ?_⟩
  rw [length_append, length_take_of_le enough]
  exact Nat.le_add_right _ _

theorem HoldsRun.congr {run : RunLog}
    (holds : HoldsRun disk name run) (same : disk'.logs name = disk.logs name) :
    HoldsRun disk' name run :=
  ⟨holds.reserved, holds.plain, holds.counted, holds.fits, same ▸ holds.log⟩

theorem Kept.of_logs {runs : Runs} (kept : Kept disk runs)
    (trees : disk'.trees = disk.trees) (logs : SameCommitted runs disk.logs disk'.logs) :
    Kept disk' runs where
  pending name run found := (kept.pending name run found).of_logs fun log => logs name run log found
  marks name absent := by
    rw [trees]
    exact kept.marks name absent
  manifest key kind := by
    rw [trees]
    exact kept.manifest key kind

/-- The manifest's run entries. -/
def runRecords (disk : Disk) : List (RawKey × RawValue) :=
  (disk.trees manifestName).toList.filter fun record => isRunKey record.1

section

variable {disk : Disk} {runs : Runs} (kept : Kept disk runs)

include kept

variable {record : RawKey × RawValue}

/-- A run entry of the manifest belongs to a log of `runs`. -/
theorem Kept.run_of_record (member : record ∈ runRecords disk) :
    ∃ run, runs ⟨record.1⟩ = some run ∧ record.2 = run.entry.encode := by
  obtain ⟨listed, kind⟩ := mem_filter.mp member
  have held := Std.ExtTreeMap.mem_toList_iff_getElem?_eq_some.mp listed
  rw [kept.manifest record.1 kind] at held
  obtain ⟨run, found, encoded⟩ := Option.map_eq_some_iff.mp held
  exact ⟨run, found, encoded.symm⟩

theorem Kept.record_of_run {name : Namespace} {run : RunLog} (found : runs name = some run) :
    (runKey name, run.entry.encode) ∈ runRecords disk := by
  have plain := (kept.pending name run found).plain
  refine mem_filter.mpr ⟨Std.ExtTreeMap.mem_toList_iff_getElem?_eq_some.mpr ?_, plain⟩
  rw [kept.manifest (runKey name) plain]
  exact congrArg (Option.map fun run => run.entry.encode) found

/-- A record's log, as `runs` has it. -/
def recordedRun (runs : Runs) (record : RawKey × RawValue) : Namespace × RunLog :=
  (⟨record.1⟩, (runs ⟨record.1⟩).getD ⟨0, 0⟩)

theorem Kept.decodePending_eq {keyOrders : KeyOrders}
    (member : record ∈ runRecords disk) (declared : keyOrders ⟨record.1⟩ ≠ none) :
    decodePending keyOrders record =
      .ok ((recordedRun runs record).1, (recordedRun runs record).2.entry) := by
  obtain ⟨run, found, encoded⟩ := kept.run_of_record member
  unfold decodePending
  rw [encoded, (kept.pending _ run found).decode, recordedRun, found]
  split
  · next undeclared => exact absurd undeclared declared
  · rfl

theorem Kept.openAndTruncate_eq (member : record ∈ runRecords disk) :
    openAndTruncate disk ((recordedRun runs record).1, (recordedRun runs record).2.entry) =
      .ok (recordedRun runs record) := by
  obtain ⟨run, found, _⟩ := kept.run_of_record member
  obtain ⟨log, held, enough⟩ := (kept.pending _ run found).log
  unfold openAndTruncate
  simp only [recordedRun, held, found]
  exact if_neg (Nat.not_lt.mpr enough)

theorem Kept.lookup_recorded (name : Namespace) :
    (HashMap.insertAll ∅ ((runRecords disk).map (recordedRun runs))).lookup name = runs name := by
  have distinct : (((runRecords disk).map (recordedRun runs)).map Prod.fst).Nodup := by
    rw [map_map]
    have keys := (OrderedMap.nodup_keys_toList (disk.trees manifestName)).sublist
      ((filter_sublist (p := fun record => isRunKey record.1)).map Prod.fst)
    have names := keys.map (f := Namespace.mk) fun _ _ same => congrArg Namespace.asStr same
    rw [map_map] at names
    exact names
  apply Option.ext
  intro run
  rw [HashMap.lookup_insertAll_empty distinct, mem_map]
  refine ⟨?_, ?_⟩
  · intro ⟨record, member, same⟩
    obtain ⟨held, found, _⟩ := kept.run_of_record member
    rw [recordedRun, found] at same
    cases same
    exact found
  · intro found
    refine ⟨_, kept.record_of_run found, ?_⟩
    rw [recordedRun, show (⟨runKey name⟩ : Namespace) = name from rfl, found]
    rfl

/-- Opening a kept disk whose pending namespaces are declared succeeds. -/
theorem Kept.open_ok {specs : List NamespaceSpec}
    (declared : ∀ name, runs name ≠ none → openKeyOrders specs name ≠ none) :
    ∃ backend, openBackend specs disk = .ok backend := by
  have decoded := mapM_eq_ok fun record member => kept.decodePending_eq member (by
    obtain ⟨run, found, _⟩ := kept.run_of_record member
    exact declared _ (by simp [found]))
  have truncated : ((runRecords disk).map fun record =>
      ((recordedRun runs record).1, (recordedRun runs record).2.entry)).mapM
        (openAndTruncate disk) = .ok ((runRecords disk).map (recordedRun runs)) := by
    rw [mapM_map]
    exact mapM_eq_ok fun record member => kept.openAndTruncate_eq member
  unfold openBackend
  dsimp only
  rw [show (disk.trees manifestName).toList.filter (fun record => isRunKey record.1) =
    runRecords disk from rfl, decoded]
  dsimp only [bind, Except.bind]
  rw [truncated]
  exact ⟨_, rfl⟩

end

/-- What opening gives: the trees as they are, the logs of `runs` cut back to their committed
bytes, and bulk mode off. -/
structure Opened (specs : List NamespaceSpec) (disk : Disk) (runs : Runs) (backend : Backend) :
    Prop where
  trees : backend.trees = disk.trees
  keyOrders : backend.keyOrders = openKeyOrders specs
  inactive : backend.active = false
  logged : backend.logged = runs
  logs : ∀ name, backend.logs name =
    (runs name).bind fun run => (disk.logs name).map fun log => log.take run.len

theorem Kept.opened {disk : Disk} {runs : Runs} (kept : Kept disk runs)
    {specs : List NamespaceSpec} {backend : Backend}
    (accepted : openBackend specs disk = .ok backend) : Opened specs disk runs backend := by
  unfold openBackend at accepted
  dsimp only at accepted
  rw [show (disk.trees manifestName).toList.filter (fun record => isRunKey record.1) =
    runRecords disk from rfl] at accepted
  cases decoded : (runRecords disk).mapM (decodePending (openKeyOrders specs)) with
  | error e =>
    rw [decoded] at accepted
    cases accepted
  | ok pending =>
    have each : ∀ record ∈ runRecords disk,
        decodePending (openKeyOrders specs) record =
          .ok ((recordedRun runs record).1, (recordedRun runs record).2.entry) := by
      intro record member
      apply kept.decodePending_eq member
      intro undeclared
      obtain ⟨image, _, decodes⟩ := exists_right_of_forall₂ (mapM_eq_ok_iff.mp decoded) member
      simp [decodePending, undeclared] at decodes
    have truncated : ((runRecords disk).map fun record =>
        ((recordedRun runs record).1, (recordedRun runs record).2.entry)).mapM
          (openAndTruncate disk) = .ok ((runRecords disk).map (recordedRun runs)) := by
      rw [mapM_map]
      exact mapM_eq_ok fun record member => kept.openAndTruncate_eq member
    rw [mapM_eq_ok each] at accepted
    dsimp only [bind, Except.bind] at accepted
    rw [truncated] at accepted
    cases accepted
    have lookups := kept.lookup_recorded
    refine ⟨rfl, rfl, rfl, funext lookups, ?_⟩
    intro name
    dsimp only
    rw [lookups]
    cases runs name <;> rfl

/-! ## Appending a batch's segments -/

/-- The bytes of a batch's segment for one namespace. -/
def segmentBytes (ops : List WriteOp) (name : Namespace) : List UInt8 :=
  match encodeSegment (segmentEntries name ops) with
  | .ok bytes => bytes
  | .error _ => []

/-- The backend after the segments of the listed namespaces are appended. -/
def withSegments (ops : List WriteOp) (names : List Namespace) (backend : Backend) : Backend :=
  names.foldl (fun backend name => backend.appendSegment name (segmentBytes ops name)) backend

theorem withSegments_eq (ops : List WriteOp) (names : List Namespace) (backend : Backend) :
    withSegments ops names backend =
      { backend with logs := (withSegments ops names backend).logs } := by
  induction names generalizing backend with
  | nil => rfl
  | cons name names ih => exact ih (backend.appendSegment name (segmentBytes ops name))

variable {names : List Namespace} {ops : List WriteOp}

theorem logs_withSegments (distinct : names.Nodup) (backend : Backend) (name : Namespace) :
    (withSegments ops names backend).logs name =
      if name ∈ names then some ((backend.logs name).getD [] ++ segmentBytes ops name)
      else backend.logs name := by
  induction names generalizing backend with
  | nil => simp [withSegments]
  | cons first names ih =>
    rw [nodup_cons] at distinct
    have step : withSegments ops (first :: names) backend =
        withSegments ops names (backend.appendSegment first (segmentBytes ops first)) := rfl
    rw [step, ih distinct.2, appendSegment]
    by_cases same : name = first
    · subst same
      simp [distinct.1]
    · simp [same]

/-- Appending only lengthens a log. -/
theorem exists_tail_withSegments (ops : List WriteOp) (names : List Namespace) (backend : Backend)
    (log : List UInt8) (held : backend.logs name = some log) :
    ∃ tail, (withSegments ops names backend).logs name = some (log ++ tail) := by
  induction names generalizing backend log with
  | nil => exact ⟨[], by rw [append_nil]; exact held⟩
  | cons first names ih =>
    by_cases same : name = first
    · subst same
      obtain ⟨tail, later⟩ := ih (backend.appendSegment name (segmentBytes ops name))
        (log ++ segmentBytes ops name) (by
          rw [appendSegment]
          simp [held])
      exact ⟨segmentBytes ops name ++ tail, by rw [← append_assoc]; exact later⟩
    · refine ih (backend.appendSegment first (segmentBytes ops first)) log ?_
      rw [appendSegment]
      simp [same, held]

/-- The actions of appended segments, namespace by namespace. -/
def Appended (backend : Backend) (ops : List WriteOp) :
    List Namespace → List SegmentAction → Prop :=
  List.Forall₂ fun name action =>
    encodeSegment (segmentEntries name ops) = .ok (segmentBytes ops name) ∧
      appended backend name (segmentBytes ops name) = some action

/-- A batch whose segments all encode: none of its keys or values has 2 ^ 32 bytes or more. -/
def Encodes (ops : List WriteOp) : Prop :=
  ∀ name, ∃ bytes, encodeSegment (segmentEntries name ops) = .ok bytes

/-- Preparing fails only after whole segments were appended; when every segment encodes, only by
a panic. -/
theorem prepareSegments_ensures (ops : List WriteOp) (names : List Namespace) (backend : Backend) :
    (prepareSegments ops names).Ensures backend
      (fun actions prepared => prepared = withSegments ops names backend ∧
        Appended backend ops names actions)
      (fun e prepared => (∃ appended, prepared = withSegments ops appended backend) ∧
        (Encodes ops → e = .panicked)) := by
  induction names generalizing backend with
  | nil =>
    exact ⟨rfl, List.Forall₂.nil⟩
  | cons name names ih =>
    rw [prepareSegments, ensures_bind, prepareSegment]
    cases encoded : encodeSegment (segmentEntries name ops) with
    | error e =>
      refine ⟨⟨[], rfl⟩, fun encodes => ?_⟩
      obtain ⟨bytes, encodes⟩ := encodes name
      rw [encoded] at encodes
      cases encodes
    | ok bytes =>
      have is_bytes : segmentBytes ops name = bytes := by rw [segmentBytes, encoded]
      simp only [ensures_bind, ensures_get, ensures_modify]
      split
      · refine ⟨⟨[name], ?_⟩, fun _ => rfl⟩
        rw [← is_bytes]
        rfl
      · next action is_action =>
        rw [← is_bytes] at is_action ⊢
        refine (ih (backend.appendSegment name (segmentBytes ops name))).mono ?_ ?_
        · rintro actions prepared ⟨state, later⟩
          exact ⟨state, List.Forall₂.cons ⟨by rw [encoded, is_bytes], is_action⟩ later⟩
        · rintro e prepared ⟨⟨later, state⟩, panics⟩
          exact ⟨⟨name :: later, state⟩, panics⟩

/-- The two ways to append: behind an open log, or as the first segment of a new one. -/
inductive Appends (backend : Backend) (name : Namespace) (segment : List UInt8) :
    SegmentAction → Prop
  | existing {run : RunLog} : backend.logged name = some run → run.len + segment.length < 2 ^ 64 →
    Appends backend name segment
      (.existing name run.len (run.len + segment.length) (run.segmentCount + 1))
  | new : backend.logged name = none → segment.length < 2 ^ 64 →
    Appends backend name segment (.new name segment.length)

variable {backend : Backend} {name : Namespace} {segment : List UInt8} {action : SegmentAction}

theorem appends_of_appended (is_action : appended backend name segment = some action) :
    Appends backend name segment action := by
  unfold appended at is_action
  split at is_action
  · next run found =>
    split at is_action
    · next fits =>
      cases is_action
      exact .existing found fits
    · cases is_action
  · next absent =>
    split at is_action
    · next fits =>
      cases is_action
      exact .new absent fits
    · cases is_action

theorem name_of_appended (is_action : appended backend name segment = some action) :
    action.name = name := by
  cases appends_of_appended is_action <;> rfl

/-! ## The outcome of a transaction -/

/-- The extent that an append leaves its log with. -/
def SegmentAction.run (action : SegmentAction) : RunLog :=
  ⟨action.manifestEntry.segmentCount, action.manifestEntry.logLen⟩

theorem finalizeCommitted_appended {start : Backend}
    (is_action : appended backend name segment = some action)
    (same : start.runs.lookup name = backend.runs.lookup name) :
    finalizeCommitted start action = { start with runs := start.runs.insert name action.run } := by
  cases appends_of_appended is_action with
  | existing found =>
    rw [show backend.runs.lookup name = _ from found] at same
    simp only [finalizeCommitted, same]
    rfl
  | new => rfl

/-- After a commit the listed logs have their new extents and no other log changed. -/
theorem finalizeCommitted_all {actions : List SegmentAction} (distinct : names.Nodup)
    (each : Appended backend ops names actions) (start : Backend)
    (same : ∀ name ∈ names, start.logged name = backend.logged name) :
    ∃ runs, actions.foldl finalizeCommitted start = { start with runs := runs } ∧
      ∀ name, runs.lookup name =
        if name ∈ names then (appended backend name (segmentBytes ops name)).map SegmentAction.run
        else start.logged name := by
  induction each generalizing start with
  | nil => exact ⟨start.runs, rfl, fun name => rfl⟩
  | @cons first action names actions is_action each ih =>
    rw [nodup_cons] at distinct
    rw [foldl_cons, finalizeCommitted_appended is_action.2 (same first mem_cons_self)]
    obtain ⟨runs, folded, lookups⟩ := ih distinct.2
      { start with runs := start.runs.insert first action.run } (by
        intro name member
        have other : name ≠ first := fun is_first => distinct.1 (is_first ▸ member)
        rw [logged, AList.lookup_insert_ne other]
        exact same name (mem_cons_of_mem _ member))
    refine ⟨runs, folded, ?_⟩
    intro name
    rw [lookups]
    by_cases is_first : name = first
    · subst is_first
      rw [if_neg distinct.1, if_pos mem_cons_self, is_action.2, logged,
        AList.lookup_insert]
      rfl
    · simp [is_first, logged, AList.lookup_insert_ne is_first]

/-- Cut one log back to its committed extent; a log without one is removed. -/
def rollBack (runs : Runs) (logs : Namespace → Option (List UInt8)) (name : Namespace) :
    Namespace → Option (List UInt8) :=
  Function.update logs name ((runs name).bind fun run => (logs name).map fun log => log.take run.len)

theorem rollBack_all (runs : Runs) (logs : Namespace → Option (List UInt8))
    (names : List Namespace) (name : Namespace) : names.foldl (rollBack runs) logs name =
      if name ∈ names then (runs name).bind fun run => (logs name).map fun log => log.take run.len
      else logs name := by
  induction names generalizing logs with
  | nil => rfl
  | cons first names ih =>
    rw [foldl_cons, ih, rollBack]
    by_cases same : name = first
    · subst same
      rw [Function.update_self, if_pos mem_cons_self]
      split
      · cases runs name with
        | none => rfl
        | some run => cases logs name with
          | none => rfl
          | some log => simp [take_take]
      · rfl
    · simp [same]

theorem finalizeAborted_all
    {actions : List SegmentAction} (each : Appended backend ops names actions) (start : Backend)
    (same : start.runs = backend.runs) : actions.foldl finalizeAborted start =
      { start with logs := names.foldl (rollBack backend.logged) start.logs } := by
  induction each generalizing start with
  | nil => rfl
  | @cons first action names actions is_action each ih =>
    have step : finalizeAborted start action =
        { start with logs := rollBack backend.logged start.logs first } := by
      cases appends_of_appended is_action.2 with
      | existing found =>
        rw [finalizeAborted, same, rollBack, found,
          show backend.runs.lookup first = _ from found]
        rfl
      | new absent =>
        rw [finalizeAborted, rollBack, absent]
        rfl
    rw [foldl_cons, foldl_cons, step]
    exact ih _ same

end Zaino.Lmdb
