import Zaino.Lmdb.CommitOutcome
import Zaino.Lmdb.MergeProgress

/-!
# The trees and the run logs together hold what was committed

`Holds disk runs expected` relates a disk to the trees that its committed batches build when each
is applied directly. A namespace without a run log has the expected tree; one with a run log has it
once the log's segments behind the resume mark are put in their order. Crashing, opening,
committing and merging keep the relation, a commit only if it puts no key at or below the mark of a
namespace whose merge was interrupted.
-/

namespace Zaino.Lmdb

open Library Persistence List

/-! ## The relation -/

/-- What a namespace's log adds to its tree gives the expected tree. -/
def Contents (disk : Disk) (name : Namespace) (run : RunLog) (expected : Tree) : Prop :=
  ∃ log segments, disk.logs name = some log ∧ EncodedLog segments (log.take run.len) ∧
    KWayMerge.Ascending segments ∧ segments.length = run.segmentCount ∧
    expected = (disk.trees name).editAll
      (Edit.puts (unloaded (readLoadedThrough disk.trees name) segments.flatten))

structure Holds (disk : Disk) (runs : Runs) (expected : Trees) : Prop where
  pending : ∀ name run, runs name = some run → Contents disk name run (expected name)
  settled : ∀ name, name ≠ manifestName → runs name = none → disk.trees name = expected name
  reserved : expected manifestName = ∅

variable {disk : Disk} {runs : Runs} {expected : Trees} {specs : List NamespaceSpec}
  {backend : Backend} {mark key : RawKey}

/-- Once no namespace is pending, the trees are the expected ones. -/
theorem Holds.trees_eq (holds : Holds disk runs expected) (kept : Kept disk runs)
    (complete : ∀ name, runs name = none) : disk.trees = expected := by
  funext name
  by_cases manifest : name = manifestName
  · rw [manifest, holds.reserved]
    exact kept.manifest_empty complete
  · exact holds.settled name manifest (complete name)

/-- The relation depends on the committed bytes of the logs only. -/
theorem Holds.of_logs {disk' : Disk} (holds : Holds disk runs expected) (kept : Kept disk runs)
    (trees : disk'.trees = disk.trees)
    (logs : SameCommitted runs disk.logs disk'.logs) : Holds disk' runs expected where
  pending name run found := by
    obtain ⟨log, segments, held, encoded, ascending, count, sum⟩ := holds.pending name run found
    obtain ⟨tail, held'⟩ := logs name run log found held
    obtain ⟨log', at_name, enough⟩ := (kept.pending name run found).log
    have same : log' = log := Option.some.inj (at_name.symm.trans held)
    subst same
    refine ⟨_, segments, held', ?_, ascending, count, ?_⟩
    · rw [take_left' (length_take_of_le enough)]
      exact encoded
    · rw [trees]
      exact sum
  settled name named absent := by
    rw [trees]
    exact holds.settled name named absent
  reserved := holds.reserved

variable (opened : Opened specs disk runs backend)

include opened

/-- Opening restores the relation, with logs of exactly the committed bytes. -/
theorem Opened.holds (kept : Kept disk runs)
    (holds : Holds disk runs expected) : Holds backend.toDisk backend.logged expected := by
  rw [opened.logged]
  refine holds.of_logs kept opened.trees fun name run log found held => ⟨[], ?_⟩
  rw [opened.logs, found, held, append_nil]
  rfl

theorem Opened.kept (kept : Kept disk runs) : Kept backend.toDisk backend.logged := by
  rw [opened.logged]
  refine kept.of_logs opened.trees fun name run log found held => ⟨[], ?_⟩
  rw [opened.logs, found, held, append_nil]
  rfl

theorem Opened.tidy (kept : Kept disk runs) : Tidy backend.toDisk backend.logged := by
  rw [opened.logged]
  refine ⟨?_, ?_⟩
  · intro name run found
    obtain ⟨log, held, enough⟩ := (kept.pending name run found).log
    refine ⟨log.take run.len, ?_, length_take_of_le enough⟩
    rw [opened.logs, found, held]
    rfl
  · intro name absent
    rw [opened.logs, absent]
    rfl

omit opened

/-! ## Unloaded entries -/

theorem unloaded_append (loadedThrough : Option RawKey) (first second : List (RawKey × RawValue)) :
    unloaded loadedThrough (first ++ second) =
      unloaded loadedThrough first ++ unloaded loadedThrough second :=
  filter_append first second

/-- Lists with the same latest values have the same latest values behind a mark. -/
theorem editAll_unloaded_congr (tree : Tree) (loadedThrough : Option RawKey)
    {first second : List (RawKey × RawValue)}
    (same : ∀ k, Edit.latest (Edit.puts first) k = Edit.latest (Edit.puts second) k) :
    tree.editAll (Edit.puts (unloaded loadedThrough first)) =
      tree.editAll (Edit.puts (unloaded loadedThrough second)) := by
  apply OrderedMap.editAll_congr
  intro k
  rw [unloaded, unloaded, Edit.latest_puts_filter (fun key => !alreadyLoaded loadedThrough key),
    Edit.latest_puts_filter (fun key => !alreadyLoaded loadedThrough key), same]

theorem lt_of_not_loaded (fresh : alreadyLoaded (some mark) key = false) :
    compare mark key = .lt := by
  have greater : compare key mark = .gt := by
    cases order : compare key mark with
    | lt => simp [alreadyLoaded, order] at fresh
    | eq => simp [alreadyLoaded, order] at fresh
    | gt => rfl
  exact Std.OrientedCmp.gt_iff_lt.mp greater

theorem not_loaded_of_lt (above : compare mark key = .lt) :
    alreadyLoaded (some mark) key = false := by
  rw [alreadyLoaded, Option.any_some, Std.OrientedCmp.gt_iff_lt.mpr above]
  rfl

/-- Behind the last entry of a loaded prefix lies exactly the rest. -/
theorem unloaded_rest {loadedThrough : Option RawKey} {stream loaded rest : List (RawKey × RawValue)}
    {last : RawKey × RawValue} (ascending : stream.Pairwise fun a b => compare a.1 b.1 = .lt)
    (split : unloaded loadedThrough stream = loaded ++ rest) (is_last : loaded.getLast? = some last) :
    unloaded (some last.1) stream = rest := by
  have sorted : (loaded ++ rest).Pairwise fun a b => compare a.1 b.1 = .lt := by
    rw [← split]
    exact ascending.sublist filter_sublist
  have last_member : last ∈ loaded := mem_of_getLast? is_last
  have last_fresh : alreadyLoaded loadedThrough last.1 = false := by
    have member : last ∈ unloaded loadedThrough stream := by
      rw [split]
      exact mem_append_left rest last_member
    simpa using (mem_filter.mp member).2
  -- Whatever the old mark covers, the new one covers.
  have narrows : ∀ entry : RawKey × RawValue, alreadyLoaded (some last.1) entry.1 = false →
      alreadyLoaded loadedThrough entry.1 = false := by
    intro entry fresh
    cases loadedThrough with
    | none => rfl
    | some mark =>
      exact not_loaded_of_lt (Std.TransCmp.lt_trans (lt_of_not_loaded last_fresh)
        (lt_of_not_loaded fresh))
  have twice : unloaded (some last.1) stream = unloaded (some last.1) (loaded ++ rest) := by
    rw [← split, unloaded, unloaded, unloaded, filter_filter]
    apply filter_congr
    intro entry _
    cases fresh : alreadyLoaded (some last.1) entry.1 with
    | true => rfl
    | false => rw [narrows entry fresh]; rfl
  have none_loaded : unloaded (some last.1) loaded = [] := by
    apply filter_eq_nil_iff.mpr
    intro entry member
    obtain ⟨front, rfl⟩ : ∃ front, loaded = front ++ [last] :=
      getLast?_eq_some_iff.mp is_last
    rcases mem_append.mp member with earlier | same
    · have below := (pairwise_append.mp (pairwise_append.mp sorted).1).2.2 entry earlier
        last mem_cons_self
      simp [alreadyLoaded, below]
    · rw [mem_singleton.mp same]
      simp [alreadyLoaded]
  have all_rest : unloaded (some last.1) rest = rest := by
    apply filter_eq_self.mpr
    intro entry member
    have above := (pairwise_append.mp sorted).2.2 last last_member entry member
    rw [not_loaded_of_lt above]
    rfl
  rw [twice, unloaded_append, none_loaded, all_rest, nil_append]

/-! ## Committing -/

/-- No put of a batch lies at or below the resume mark of its namespace. -/
def BehindMarks (trees : Trees) (ops : List WriteOp) : Prop :=
  ∀ name key value, WriteOp.put name key value ∈ ops →
    alreadyLoaded (readLoadedThrough trees name) key = false

/-- A batch of puts has the plain meaning of its sorted entries. -/
theorem editAll_segmentEntries (tree : Tree) {name : Namespace} {ops : List WriteOp}
    (puts : ∀ op ∈ ops, op.target = name → isDelete op = false) :
    tree.editAll (Edit.puts (segmentEntries name ops)) =
      tree.editAll (WriteOp.editsFor name ops) := by
  have same : Edit.puts (putEntries (opsFor name ops)) = WriteOp.editsFor name ops := by
    rw [WriteOp.editsFor, ← opsFor]
    have only : ∀ op ∈ opsFor name ops, isDelete op = false := by
      intro op member
      obtain ⟨listed, named⟩ := mem_filter.mp member
      exact puts op listed (of_decide_eq_true named)
    generalize opsFor name ops = own at only
    induction own with
    | nil => rfl
    | cons op rest ih =>
      have later := ih fun op member => only op (mem_cons_of_mem _ member)
      cases op with
      | put target key value =>
        rw [map_cons, ← later]
        rfl
      | delete target key => cases only (.delete target key) mem_cons_self
  rw [segmentEntries, OrderedMap.editAll_puts_collected, same]

theorem mem_segmentEntries {name : Namespace} {ops : List WriteOp} {entry : RawKey × RawValue}
    (member : entry ∈ segmentEntries name ops) : ∃ value, WriteOp.put name entry.1 value ∈ ops := by
  have held : ((∅ : Tree).editAll (Edit.puts (putEntries (opsFor name ops))))[entry.1]? =
      some entry.2 := Std.ExtTreeMap.mem_toList_iff_getElem?_eq_some.mp member
  rw [OrderedMap.getElem?_editAll] at held
  cases found : Edit.latest (Edit.puts (putEntries (opsFor name ops))) entry.1 with
  | none => simp [found] at held
  | some value =>
    obtain ⟨written, _, listed⟩ := Edit.value_of_mem_puts (Edit.mem_of_latest found)
    obtain ⟨op, op_member, is_put⟩ := mem_filterMap.mp listed
    obtain ⟨op_listed, named⟩ := mem_filter.mp op_member
    cases op with
    | put target key value' =>
      cases is_put
      have is_name : target = name := of_decide_eq_true named
      exact ⟨written, is_name ▸ op_listed⟩
    | delete target key => cases is_put

theorem segmentEntries_ascending (name : Namespace) (ops : List WriteOp) :
    (segmentEntries name ops).Pairwise fun a b => compare a.1 b.1 = .lt :=
  Std.ExtTreeMap.ordered_keys_toList

section

variable {backend after : Backend} {ops : List WriteOp} {names : List Namespace}
  {actions : List SegmentAction} (committed : Committed backend ops names actions after)
  {expected : Trees}

include committed

/-- Writes to a namespace that is deferred and not appended to do not occur. -/
theorem Committed.untouched {name : Namespace} (deferred : backend.isDeferred name = true)
    (absent : name ∉ names) : ∀ op ∈ ops, op.target ≠ name := by
  intro op member named
  exact absent ((committed.deferred name).mpr ⟨deferred, op, member, named⟩)

/-- The segment that a commit appends extends the log's contents by the batch. -/
theorem Committed.contents_appended (caller : CallerOps ops)
    (tidy : Tidy backend.toDisk backend.logged)
    (holds : Holds backend.toDisk backend.logged expected) (behind : BehindMarks backend.trees ops)
    {name : Namespace} {run : RunLog} (member : name ∈ names)
    (found : after.logged name = some run) :
    Contents after.toDisk name run (expected.applyAll ops name) := by
  obtain ⟨action, _, is_action, encoded⟩ := committed.action_of_mem member
  obtain ⟨named, _⟩ := committed.caller_names caller member
  have deferred := ((committed.deferred name).mp member).1
  have tree := committed.tree_deferred named deferred
  have logs := committed.logs name
  rw [if_pos member] at logs
  rw [committed.lookups, if_pos member, is_action] at found
  cases found
  have sum : expected.applyAll ops name =
      (expected name).editAll (Edit.puts (segmentEntries name ops)) := by
    rw [Trees.applyAll_tree, editAll_segmentEntries]
    intro op listed is_name
    exact committed.puts op listed (is_name ▸ deferred)
  have all_unloaded : unloaded (readLoadedThrough backend.trees name) (segmentEntries name ops) =
      segmentEntries name ops := by
    apply filter_eq_self.mpr
    intro entry listed
    obtain ⟨value, put⟩ := mem_segmentEntries listed
    rw [behind name entry.1 value put]
    rfl
  have last_ascending : KWayMerge.Ascending [segmentEntries name ops] := by
    intro entries listed
    rw [mem_singleton.mp listed]
    exact segmentEntries_ascending name ops
  cases appends_of_appended is_action with
  | existing was_open =>
    obtain ⟨log, segments, held, is_encoded, ascending, count, was⟩ :=
      holds.pending name _ was_open
    obtain ⟨log', at_name, exact_len⟩ := tidy.committed name _ was_open
    have same : log' = log := Option.some.inj (at_name.symm.trans held)
    subst same
    rw [← exact_len, take_length] at is_encoded
    rw [held, Option.getD_some] at logs
    refine ⟨_, segments ++ [segmentEntries name ops], logs, ?_, ?_, ?_, ?_⟩
    · rw [take_of_length_le (by rw [length_append, exact_len]; exact Nat.le_refl _)]
      exact is_encoded.append encoded
    · intro entries listed
      rcases mem_append.mp listed with earlier | last
      · exact ascending entries earlier
      · exact last_ascending entries last
    · rw [length_append, count]
      rfl
    · rw [sum, was, committed.mark caller, tree, flatten_append, flatten_singleton,
        unloaded_append, all_unloaded, Edit.puts_append, OrderedMap.editAll_append]
  | new was_closed =>
    rw [tidy.closed name was_closed, Option.getD_none, nil_append] at logs
    refine ⟨_, [segmentEntries name ops], logs, ?_, last_ascending, rfl, ?_⟩
    · have single := EncodedLog.cons encoded .nil
      rw [append_nil] at single
      exact (take_length (l := segmentBytes ops name)).symm ▸ single
    · rw [sum, committed.mark caller, tree, flatten_singleton, all_unloaded,
        holds.settled name named was_closed]

/-- A commit that puts nothing at or below a mark adds its batch to the expected trees. -/
theorem Committed.holds (caller : CallerOps ops) (kept : Kept backend.toDisk backend.logged)
    (tidy : Tidy backend.toDisk backend.logged)
    (holds : Holds backend.toDisk backend.logged expected)
    (behind : BehindMarks backend.trees ops) :
    Holds after.toDisk after.logged (expected.applyAll ops) where
  pending name run found := by
    by_cases member : name ∈ names
    · exact committed.contents_appended caller tidy holds behind member found
    · have logs := committed.logs name
      rw [committed.lookups, if_neg member] at found
      rw [if_neg member] at logs
      have deferred : backend.isDeferred name = true := by
        rw [Backend.isDeferred, show backend.runs.lookup name = some run from found]
        rfl
      have tree := committed.tree_deferred (kept.pending name run found).reserved deferred
      obtain ⟨log, segments, held, encoded, ascending, count, was⟩ := holds.pending name run found
      refine ⟨log, segments, logs.trans held, encoded, ascending, count, ?_⟩
      rw [Trees.applyAll_untouched (committed.untouched deferred member), committed.mark caller, tree]
      exact was
  settled name named absent := by
    obtain ⟨not_member, absent⟩ := committed.not_mem absent
    have was := holds.settled name named absent
    cases deferred : backend.isDeferred name with
    | true =>
      rw [committed.tree_deferred named deferred,
        Trees.applyAll_untouched (committed.untouched deferred not_member)]
      exact was
    | false =>
      rw [committed.tree_direct named deferred, Trees.applyAll_tree, ← was]
  reserved := by
    rw [Trees.applyAll_untouched fun op member => (caller op member).1]
    exact holds.reserved

theorem Committed.tidy (tidy : Tidy backend.toDisk backend.logged) :
    Tidy after.toDisk after.logged where
  committed name run found := by
    have logs := committed.logs name
    rw [committed.lookups] at found
    by_cases member : name ∈ names
    · rw [if_pos member] at found logs
      obtain ⟨action, _, is_action, _⟩ := committed.action_of_mem member
      rw [is_action] at found
      cases found
      refine ⟨_, logs, ?_⟩
      rw [length_append]
      cases appends_of_appended is_action with
      | existing was_open =>
        obtain ⟨log, held, exact_len⟩ := tidy.committed name _ was_open
        rw [held, Option.getD_some, exact_len]
        rfl
      | new was_closed =>
        rw [tidy.closed name was_closed, Option.getD_none, length_nil, Nat.zero_add]
        rfl
    · rw [if_neg member] at found logs
      obtain ⟨log, held, exact_len⟩ := tidy.committed name run found
      exact ⟨log, logs.trans held, exact_len⟩
  closed name absent := by
    obtain ⟨not_member, absent⟩ := committed.not_mem absent
    have logs := committed.logs name
    rw [if_neg not_member] at logs
    exact logs.trans (tidy.closed name absent)

end

/-! ## Merging -/

section

variable {backend after : Backend} {name : Namespace} {run : RunLog} {expected : Trees}
  (kept : Kept backend.toDisk backend.logged)
  (holds : Holds backend.toDisk backend.logged expected) (logged : backend.logged name = some run)

include kept holds logged

/-- What a merge has loaded and what it still has to load make up the expected tree. -/
theorem Progress.sum {failure : Option CommitError} {loaded rest : List (RawKey × RawValue)}
    {trees : Trees} (progress : Progress backend name run failure loaded rest trees) :
    expected name = (trees name).editAll (Edit.puts rest) ∧
      Contents ⟨trees, backend.logs⟩ name run (expected name) := by
  have held := kept.pending name run logged
  obtain ⟨log, segments, at_name, encoded, ascending, count, was⟩ := holds.pending name run logged
  obtain ⟨file, stream, is_file, is_merged, split⟩ := progress.log
  have same_file : log = file := Option.some.inj (at_name.symm.trans is_file)
  subst same_file
  obtain ⟨log', at_name', enough⟩ := held.log
  cases at_name.symm.trans at_name'
  obtain ⟨stream', is_merged', sorted, same⟩ :=
    mergedEntries_encoded name held.fits enough encoded ascending count
  have same_stream : stream' = stream := by
    rw [is_merged] at is_merged'
    cases is_merged'
    rfl
  subst same_stream
  have loads := progress.loads
  have tree := OrderedMap.appendAll_eq_some (loads.tree held.reserved)
  have reached : expected name = (trees name).editAll (Edit.puts rest) := by
    rw [was, ← editAll_unloaded_congr _ _ same, tree]
    rw [← OrderedMap.editAll_append, ← Edit.puts_append, ← split]
  refine ⟨reached, log, segments, at_name, encoded, ascending, count, ?_⟩
  have mark := loads.mark held.reserved
  rw [mark, ← editAll_unloaded_congr _ _ same]
  cases is_last : loaded.getLast? with
  | none =>
    have empty : loaded = [] := getLast?_eq_none_iff.mp is_last
    subst empty
    rw [Option.map_none, Option.none_or, split, nil_append]
    exact reached
  | some last =>
    rw [Option.map_some, Option.some_or, unloaded_rest sorted split is_last]
    exact reached

/-- A merge keeps the relation: completed, it gives its namespace the expected tree. -/
theorem Merged.contents (merged : Merged backend name run after) :
    Holds after.toDisk after.logged expected := by
  refine ⟨fun other other_run found => ?_, fun other not_manifest absent => ?_, holds.reserved⟩
  · obtain ⟨was_logged, logs, stopped⟩ := merged.of_logged logged found
    by_cases same : other = name
    · subst same
      cases logged.symm.trans was_logged
      rcases stopped rfl with rfl | ⟨failure, loaded, rest, progress, is_after⟩
      · exact holds.pending other run logged
      · rw [is_after]
        exact (progress.sum kept holds logged).2
    · obtain ⟨log, segments, at_name, encoded, ascending, count, was⟩ :=
        holds.pending other other_run was_logged
      refine ⟨log, segments, logs.trans at_name, encoded, ascending, count, ?_⟩
      rw [merged.tree other same (kept.pending other other_run was_logged).reserved,
        merged.mark kept logged same]
      exact was
  · by_cases same : other = name
    · subst same
      cases merged.own with
      | closed completed =>
        obtain ⟨loaded, trees, progress, rfl⟩ := completed
        exact (clearManifest_other trees not_manifest).trans
          (progress.sum kept holds logged).1.symm
      | pending _ open_ => exact nomatch open_.symm.trans absent
    · rw [merged.logged other same] at absent
      exact (merged.tree other same not_manifest).trans (holds.settled other not_manifest absent)

omit kept holds in
theorem Merged.tidy (merged : Merged backend name run after)
    (tidy : Tidy backend.toDisk backend.logged) : Tidy after.toDisk after.logged := by
  refine ⟨fun other other_run found => ?_, fun other absent => ?_⟩
  · obtain ⟨was_logged, logs, _⟩ := merged.of_logged logged found
    rw [logs]
    exact tidy.committed other other_run was_logged
  · by_cases same : other = name
    · subst same
      cases merged.own with
      | closed _ _ gone => exact gone
      | pending _ open_ => exact nomatch open_.symm.trans absent
    · rw [merged.logged other same] at absent
      rw [merged.logs other same]
      exact tidy.closed other absent

end

end Zaino.Lmdb
