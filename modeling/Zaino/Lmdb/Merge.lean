import Zaino.Lmdb.Deferral

/-!
# Merging the run logs into their trees

`finishBulk` completes every deferred namespace: it merges the segments of the namespace's log by
key, a later segment's value before an earlier one's, and appends the merged entries to the tree in
chunks, one transaction each. A chunk's transaction also records the last key it appended. A merge
that is interrupted resumes behind that mark. The last transaction clears the namespace's manifest
entries; only then does the log go.
-/

namespace Zaino.Lmdb

open Library Persistence

/-- Entries loaded per chunk transaction. -/
def chunkSize : Nat := 1000000

/-- A merge runs over the backend and the number of write transactions that LMDB still completes:
it is interrupted when none is left. -/
abbrev MergeM : Type → Type := Fallible (Backend × Nat) CommitError

/-- One write transaction. -/
def transaction (operation : String) (write : Trees → Except CommitError Trees) : MergeM Unit := do
  let state ← Fallible.get
  match write state.1.trees, state.2 with
  | .error e, _ => Fallible.fail e
  | .ok _, 0 => Fallible.fail (.writeFailed operation)
  | .ok trees, budget + 1 =>
    Fallible.modify fun state => ({ state.1 with trees := trees }, budget)

/-- The resume mark recorded by a previous, interrupted merge, if any. -/
def readLoadedThrough (trees : Trees) (name : Namespace) : Option RawKey :=
  (trees manifestName)[loadedThroughKey name]?

/-- Whether an earlier, interrupted merge already loaded a key. -/
def alreadyLoaded (loadedThrough : Option RawKey) (key : RawKey) : Bool :=
  loadedThrough.any fun mark => (compare key mark).isLE

/-- The target tree is safe to append to: empty, or holding only keys up to the resume mark. -/
def verifyTarget (tree : Tree) (loadedThrough : Option RawKey) : Except CommitError Unit :=
  match tree.keys.getLast?, loadedThrough with
  | none, _ => .ok ()
  | some last, some mark =>
    if (compare last mark).isLE then .ok ()
    else .error (.writeFailed "verify target namespace empty before merge")
  | some _, none => .error (.writeFailed "verify target namespace empty before merge")

/-- Append a chunk's entries to the tree and record the resume mark. -/
def appendChunk (name : Namespace) (chunk : List (RawKey × RawValue)) (trees : Trees) :
    Except CommitError Trees :=
  match (trees name).appendAll chunk, chunk.getLast? with
  | some tree, some last =>
    .ok (Trees.apply (Function.update trees name tree)
      (.put manifestName (loadedThroughKey name) last.1))
  | _, _ => .error (.writeFailed "append merged entry")

def flushChunk (name : Namespace) (chunk : List (RawKey × RawValue)) : MergeM Unit :=
  transaction "commit merge chunk" (appendChunk name chunk)

/-- Collect the merged entries into chunks and flush each one that is full; what remains at the
end is returned. -/
def loadEntries (chunkCap : Nat) (name : Namespace) :
    List (RawKey × RawValue) → List (RawKey × RawValue) → MergeM (List (RawKey × RawValue))
  | [], chunk => pure chunk
  | entry :: entries, chunk =>
    if chunkCap ≤ chunk.length + 1 then do
      flushChunk name (chunk ++ [entry])
      loadEntries chunkCap name entries []
    else loadEntries chunkCap name entries (chunk ++ [entry])

/-- Drop both manifest entries of a namespace. -/
def clearManifest (name : Namespace) (trees : Trees) : Trees :=
  Trees.applyAll trees
    [.delete manifestName (runKey name), .delete manifestName (loadedThroughKey name)]

/-- Mark a namespace complete: its open log is dropped and removed, and bulk mode ends with the
last one. -/
def completeNamespace (name : Namespace) (backend : Backend) : Backend :=
  { backend with
    logs := Function.update backend.logs name none
    active := backend.active && !(backend.runs.erase name).entries.isEmpty
    runs := backend.runs.erase name }

/-- The merged entries of a log up to the first unreadable one, and what made it so. No entry is
shorter than a byte, so the file's length bounds the merge. -/
def mergedEntries (name : Namespace) (run : RunLog) (file : List UInt8) :
    Except CommitError (List (RawKey × RawValue) × Option CommitError) := do
  let cursors ← buildCursors file name run.segmentCount run.len
  match KWayMerge.prime SegmentCursor.next 0 cursors with
  | .error _ => .error (.deferredLogCorrupt name)
  | .ok heap =>
    let merged := KWayMerge.merged SegmentCursor.next file.length heap
    pure (merged.1, merged.2.map fun _ => .deferredLogCorrupt name)

def flushRemaining (name : Namespace) (chunk : List (RawKey × RawValue)) : MergeM Unit :=
  if chunk.isEmpty then pure () else flushChunk name chunk

/-- Load the merged entries that no earlier merge loaded, and clear the namespace's manifest
entries. -/
def loadMerged (chunkCap : Nat) (name : Namespace) (loadedThrough : Option RawKey)
    (merged : List (RawKey × RawValue) × Option CommitError) : MergeM Unit := do
  let remaining := merged.1.filter fun entry => !alreadyLoaded loadedThrough entry.1
  let chunk ← loadEntries chunkCap name remaining []
  match merged.2 with
  | some e => Fallible.fail e
  | none =>
    flushRemaining name chunk
    transaction "commit finish txn" fun trees => .ok (clearManifest name trees)
    Fallible.modify fun state => (completeNamespace name state.1, state.2)

/-- Merge one namespace's run log into its tree. -/
def mergeNamespace (chunkCap : Nat) (name : Namespace) (run : RunLog) : MergeM Unit := do
  let state ← Fallible.get
  let loadedThrough := readLoadedThrough state.1.trees name
  Fallible.ofExcept (verifyTarget (state.1.trees name) loadedThrough)
  match state.1.logs name with
  | none => Fallible.fail (.deferredLogCorrupt name)
  | some file =>
    let merged ← Fallible.ofExcept (mergedEntries name run file)
    loadMerged chunkCap name loadedThrough merged

/-- Resolve a pending namespace and merge it. -/
def mergePending (chunkCap : Nat) (pending : Namespace × RunLog) : MergeM Unit := do
  let state ← Fallible.get
  match state.1.keyOrders pending.1 with
  | none => Fallible.fail (.namespaceNotFound pending.1)
  | some _ => mergeNamespace chunkCap pending.1 pending.2

/-- Merge the namespaces of a list in turn. -/
def mergeNamespaces (chunkCap : Nat) : List (Namespace × RunLog) → MergeM Unit
  | [] => pure ()
  | pending :: others => do
    mergePending chunkCap pending
    mergeNamespaces chunkCap others

/-- Complete every deferred namespace. `visit` is the order in which they are visited. -/
def finishBulk (chunkCap : Nat) (visit : IterationOrder (Namespace × RunLog)) : MergeM Unit := do
  let state ← Fallible.get
  match state.1.keyOrders manifestName with
  | none => Fallible.fail (.namespaceNotFound manifestName)
  | some _ =>
    mergeNamespaces chunkCap
      (visit.order (state.1.runs.entries.map fun entry => (entry.1, entry.2)))

end Zaino.Lmdb
