import Zaino.Library.Fallible
import Zaino.Library.HashMap
import Zaino.Lmdb.SegmentLog
import Zaino.Lmdb.Transaction

/-!
# Deferring scattered writes during a bulk load

In bulk mode the puts of a scattered namespace go to its run log instead of its tree: each commit
appends one segment and records, in the transaction of the commit itself, how far the log is
committed. The records stand in the manifest, a reserved namespace. Reopening a store cuts each log
back to what the manifest names and removes the logs it does not name. A namespace that has a log
keeps being deferred whatever the policy.
-/

namespace Zaino.Lmdb

open Library Persistence

/-! ## The manifest -/

/-- The reserved namespace that holds the deferral manifest. -/
def manifestName : Namespace := ⟨"_deferred_manifest".toUTF8.toList⟩

/-- What distinguishes a resume mark's key from a run entry's. -/
def loadedThroughSuffix : List UInt8 := "/loaded_through".toUTF8.toList

/-- How far a namespace's run log is committed. -/
structure RunEntry where
  segmentCount : Nat
  logLen : Nat
  deriving DecidableEq

def RunEntry.encode (entry : RunEntry) : RawValue :=
  bigEndian 8 entry.segmentCount ++ bigEndian 8 entry.logLen

def RunEntry.decode (bytes : RawValue) : Option RunEntry :=
  if bytes.length = 16 then some ⟨ofBigEndian (bytes.take 8), ofBigEndian (bytes.drop 8)⟩ else none

/-- The manifest key of a namespace's run entry. -/
def runKey (name : Namespace) : RawKey := name.asStr

/-- The manifest key of a namespace's resume mark. -/
def loadedThroughKey (name : Namespace) : RawKey := name.asStr ++ loadedThroughSuffix

def isRunKey (key : RawKey) : Bool := !loadedThroughSuffix.isSuffixOf key

/-! ## The backend -/

/-- An open run log's committed extent. -/
structure RunLog where
  segmentCount : Nat
  len : Nat
  deriving DecidableEq

def RunLog.entry (run : RunLog) : RunEntry := ⟨run.segmentCount, run.len⟩

/-- What survives a crash: the trees and the files of the run logs. -/
structure Disk where
  trees : Trees
  logs : Namespace → Option (List UInt8)

/-- A running backend: the disk, the declared namespaces, and the mutable bulk state. -/
structure Backend extends Disk where
  keyOrders : KeyOrders
  active : Bool
  enabled : Bool
  deferrable : Namespace → Bool
  runs : HashMap Namespace RunLog

inductive OpenError where
  | unknownNamespace (key : RawKey)
  | malformedRunEntry
  | openRunLog (name : Namespace)
  | shortRunLog (name : Namespace)
  deriving DecidableEq

/-- The namespaces of a configuration, and the manifest, which callers never declare. -/
def openKeyOrders (specs : List NamespaceSpec) : KeyOrders :=
  let register : KeyOrders → NamespaceSpec → KeyOrders := fun keyOrders spec =>
    Function.update keyOrders spec.name (some spec.keyOrder)
  register (specs.foldl register fun _ => none) ⟨manifestName, .metadata⟩

/-- Decode a manifest run entry and resolve its namespace. -/
def decodePending (keyOrders : KeyOrders) (record : RawKey × RawValue) :
    Except OpenError (Namespace × RunEntry) :=
  match keyOrders ⟨record.1⟩ with
  | none => .error (.unknownNamespace record.1)
  | some _ =>
    match RunEntry.decode record.2 with
    | none => .error .malformedRunEntry
    | some entry => .ok (⟨record.1⟩, entry)

/-- Open an existing run log, cut back to its committed length. -/
def openAndTruncate (disk : Disk) (pending : Namespace × RunEntry) :
    Except OpenError (Namespace × RunLog) :=
  match disk.logs pending.1 with
  | none => .error (.openRunLog pending.1)
  | some log =>
    if log.length < pending.2.logLen then .error (.shortRunLog pending.1)
    else .ok (pending.1, ⟨pending.2.segmentCount, pending.2.logLen⟩)

/-- Open the backend: load the pending run logs from the manifest, truncate each to its committed
length, and remove the logs without a manifest entry. -/
def openBackend (specs : List NamespaceSpec) (disk : Disk) : Except OpenError Backend := do
  let records := (disk.trees manifestName).toList.filter fun record => isRunKey record.1
  let pending ← records.mapM (decodePending (openKeyOrders specs))
  let opened ← pending.mapM (openAndTruncate disk)
  let runs := HashMap.insertAll ∅ opened
  pure {
    trees := disk.trees
    logs := fun name =>
      match runs.lookup name with
      | none => none
      | some run => (disk.logs name).map fun log => log.take run.len
    keyOrders := openKeyOrders specs
    active := false
    enabled := false
    deferrable := fun _ => false
    runs := runs }

namespace Backend

/-- Enter bulk mode. Only a scattered namespace whose tree is empty may start deferring. -/
def beginBulk (enabled : Bool) (backend : Backend) : Backend :=
  { backend with
    active := true
    enabled := enabled
    deferrable := fun name =>
      enabled && decide (backend.keyOrders name = some .scattered) && (backend.trees name).isEmpty }

/-- Whether a namespace's writes are deferred right now. -/
def isDeferred (backend : Backend) (name : Namespace) : Bool :=
  (backend.runs.lookup name).isSome ||
    (backend.active && backend.enabled && decide (backend.keyOrders name = some .scattered) &&
      backend.deferrable name)

end Backend

/-! ## Committing -/

/-- How a backend call ends without a result: an error, or a panic of the process. -/
inductive Failure where
  | error (source : CommitError)
  | panicked
  deriving DecidableEq

abbrev BackendM : Type → Type := Fallible Backend Failure

/-- A segment that was appended and awaits the transaction's outcome. -/
inductive SegmentAction where
  | existing (name : Namespace) (oldLen newLen newSegments : Nat)
  | new (name : Namespace) (newLen : Nat)
  deriving DecidableEq

/-- The manifest entry that an append commits to. -/
def SegmentAction.manifestEntry : SegmentAction → RunEntry
  | existing _ _ newLen newSegments => ⟨newSegments, newLen⟩
  | new _ newLen => ⟨1, newLen⟩

def SegmentAction.name : SegmentAction → Namespace
  | existing name _ _ _ => name
  | new name _ => name

/-- Append to a run log's file, creating it when there is none. -/
def Backend.appendSegment (name : Namespace) (segment : List UInt8) (backend : Backend) : Backend :=
  { backend with
    logs := Function.update backend.logs name
      (some ((backend.logs name).getD [] ++ segment)) }

/-- The batch's entries for one deferred namespace: sorted, the last value of a repeated key. -/
def segmentEntries (name : Namespace) (ops : List WriteOp) : List (RawKey × RawValue) :=
  ((∅ : Tree).editAll (Edit.puts (putEntries (opsFor name ops)))).toList

/-- What an append to a namespace's log commits to, when the log's length stays a 64-bit number. -/
def appended (backend : Backend) (name : Namespace) (segment : List UInt8) : Option SegmentAction :=
  match backend.runs.lookup name with
  | some run =>
    if run.len + segment.length < 2 ^ 64 then
      some (.existing name run.len (run.len + segment.length) (run.segmentCount + 1))
    else none
  | none => if segment.length < 2 ^ 64 then some (.new name segment.length) else none

/-- Append the batch's segment for one deferred namespace. -/
def prepareSegment (ops : List WriteOp) (name : Namespace) : BackendM SegmentAction := do
  match encodeSegment (segmentEntries name ops) with
  | .error _ => Fallible.fail (.error (.writeFailed "encode deferred segment"))
  | .ok segment =>
    let backend ← Fallible.get
    Fallible.modify (Backend.appendSegment name segment)
    match appended backend name segment with
    -- A log of 2 ^ 64 bytes is what the source's `expect`s rule out.
    | none => Fallible.fail .panicked
    | some action => pure action

/-- Append the segments of the deferred namespaces, in turn. -/
def prepareSegments (ops : List WriteOp) : List Namespace → BackendM (List SegmentAction)
  | [] => pure []
  | name :: names => do
    let action ← prepareSegment ops name
    let actions ← prepareSegments ops names
    pure (action :: actions)

/-- The deferred namespaces that a batch puts to. -/
def deferredNames (backend : Backend) (ops : List WriteOp) : List Namespace :=
  ((ops.filter fun op => backend.isDeferred op.target).map WriteOp.target).dedup

/-- The writes of a batch that go to the transaction, with the manifest entries of the appends. -/
def directOps (backend : Backend) (ops : List WriteOp) (actions : List SegmentAction) :
    List WriteOp :=
  (ops.filter fun op => !backend.isDeferred op.target) ++
    actions.map fun action =>
      .put manifestName (runKey action.name) action.manifestEntry.encode

def isDelete : WriteOp → Bool
  | .put _ _ _ => false
  | .delete _ _ => true

/-- Partition a batch: its deferred segments are appended here, the rest is for the transaction.
`visit` is the order in which the deferred namespaces are visited. -/
def prepare (visit : IterationOrder Namespace) (ops : List WriteOp) :
    BackendM (List WriteOp × List SegmentAction) := do
  let backend ← Fallible.get
  match ops.find? fun op => isDelete op && backend.isDeferred op.target with
  | some op => Fallible.fail (.error (.deferredNamespaceDelete op.target))
  | none =>
    let actions ← prepareSegments ops (visit.order (deferredNames backend ops))
    pure (directOps backend ops actions, actions)

/-- After the transaction committed: the logs' committed extents advance. -/
def finalizeCommitted (backend : Backend) (action : SegmentAction) : Backend :=
  match action with
  | .existing name _ newLen newSegments =>
    match backend.runs.lookup name with
    | some _ => { backend with runs := backend.runs.insert name ⟨newSegments, newLen⟩ }
    | none => backend
  | .new name newLen => { backend with runs := backend.runs.insert name ⟨1, newLen⟩ }

/-- After the transaction failed: the logs go back to their committed extents. -/
def finalizeAborted (backend : Backend) (action : SegmentAction) : Backend :=
  match action with
  | .existing name oldLen _ _ =>
    match backend.runs.lookup name with
    | some _ =>
      { backend with
        logs := Function.update backend.logs name
          ((backend.logs name).map fun log => log.take oldLen) }
    | none => backend
  | .new name _ => { backend with logs := Function.update backend.logs name none }

/-- Whether LMDB's write transactions succeed, as far as the batch does not decide it. -/
def transact (durable : Bool) (outcome : Except CommitError Trees) : Except CommitError Trees :=
  if durable then outcome else .error (.writeFailed "commit")

/-- Commit a batch of writes. -/
def commit (visit : IterationOrder Namespace) (durable : Bool) (ops : List WriteOp) :
    BackendM Unit := do
  let prepared ← prepare visit ops
  let backend ← Fallible.get
  match transact durable (commitDirect backend.keyOrders backend.trees prepared.1) with
  | .ok trees =>
    Fallible.modify fun backend => prepared.2.foldl finalizeCommitted { backend with trees := trees }
  | .error e =>
    Fallible.modify fun backend => prepared.2.foldl finalizeAborted backend
    Fallible.fail (.error e)

end Zaino.Lmdb
