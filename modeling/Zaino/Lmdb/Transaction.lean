import Mathlib.Data.List.Dedup
import Zaino.Persistence.Backend

/-!
# Committing a batch in one transaction

A commit applies a batch of writes in one transaction: all of them or, on an error, none. The
puts of a walk-ordered namespace are collected, sorted and appended; a key that is not above
everything the namespace holds is refused. The other namespaces take their writes in arrival
order. A commit that is accepted has the batch's plain meaning (`commitDirect_ok`).
-/

namespace Zaino.Lmdb

open Library Persistence List WriteOp Edit Std.ExtTreeMap Function

/-- The declared namespaces and their key orders. -/
abbrev KeyOrders : Type := Namespace → Option KeyOrder

/-- Apply one write as a plain put or delete. -/
def applyPlain (keyOrders : KeyOrders) (trees : Trees) (op : WriteOp) : Except CommitError Trees :=
  match keyOrders op.target with
  | none => .error (.namespaceNotFound op.target)
  | some _ => .ok (trees.apply op)

/-- The entries that a batch puts, in arrival order. -/
def putEntries : List WriteOp → List (RawKey × RawValue) :=
  List.filterMap fun op =>
    match op with
    | .put _ key value => some (key, value)
    | .delete _ _ => none

/-- The keys that a batch deletes, in arrival order. -/
def deletedKeys : List WriteOp → List RawKey :=
  List.filterMap fun op =>
    match op with
    | .put _ _ _ => none
    | .delete _ key => some key

/-- Some key is both deleted and put. -/
def conflicting (ops : List WriteOp) : Bool :=
  (putEntries ops).any fun entry => decide (entry.1 ∈ deletedKeys ops)

/-- Apply one walk-ordered namespace's writes from a single commit as a sorted append. -/
def applyWalkOrdered (tree : Tree) (name : Namespace) (ops : List WriteOp) :
    Except CommitError Tree :=
  if conflicting ops then
    .ok (tree.editAll (ops.map edit))
  else
    -- Collecting in a map sorts the puts and keeps the last value of a repeated key.
    let puts := (∅ : Tree).editAll (puts (putEntries ops))
    match (tree.editAll (deletes (deletedKeys ops))).appendAll puts.toList with
    | some appended => .ok appended
    | none => .error (.outOfOrderAppend name)

def isWalkOrdered (keyOrders : KeyOrders) (op : WriteOp) : Bool :=
  keyOrders op.target = some .walkOrdered

/-- The writes of a batch to one namespace. -/
def opsFor (name : Namespace) (ops : List WriteOp) : List WriteOp :=
  ops.filter fun op => op.target = name

/-- Apply a batch in one transaction: the plain writes as they arrive, then each walk-ordered
namespace's as one sorted append. The order of the namespaces decides only which of several
refusals is reported. -/
def commitDirect (keyOrders : KeyOrders) (trees : Trees) (direct : List WriteOp) :
    Except CommitError Trees := do
  let plain ← (direct.filter fun op => !isWalkOrdered keyOrders op).foldlM
    (applyPlain keyOrders) trees
  ((direct.filter (isWalkOrdered keyOrders)).map target).dedup.foldlM
    (fun written name => do
      let tree ← applyWalkOrdered (written name) name (opsFor name direct)
      pure (update written name tree)) plain

/-! ## An accepted commit has its plain meaning -/

variable {keyOrders : KeyOrders} {trees trees' : Trees} {ops direct : List WriteOp}
  {names : List Namespace}

theorem applyPlain_ok {op : WriteOp}
    (accepted : applyPlain keyOrders trees op = .ok trees') : trees' = trees.apply op := by
  unfold applyPlain at accepted
  split at accepted
  · cases accepted
  · cases accepted
    rfl

theorem foldlM_applyPlain_ok (accepted : ops.foldlM (applyPlain keyOrders) trees = .ok trees') :
    trees' = trees.applyAll ops := by
  induction ops generalizing trees with
  | nil =>
    cases accepted
    rfl
  | cons op ops ih =>
    rw [foldlM_cons] at accepted
    cases first : applyPlain keyOrders trees op with
    | error e =>
      rw [first] at accepted
      cases accepted
    | ok middle =>
      rw [first] at accepted
      rw [ih accepted, applyPlain_ok first]
      rfl

/-- When no key is both deleted and put, deleting first and putting afterwards is the same as
applying the writes in turn. -/
theorem latest_of_not_conflicting (apart : conflicting ops = false) (k : RawKey) :
    latest (deletes (deletedKeys ops) ++ puts (putEntries ops)) k =
      latest (ops.map edit) k := by
  have distinct : ∀ entry ∈ putEntries ops, entry.1 ∉ deletedKeys ops := by
    simpa [conflicting] using apart
  rw [latest_append]
  induction ops with
  | nil => rfl
  | cons op ops ih =>
    cases op with
    | put target key value =>
      have apart_rest : ∀ entry ∈ putEntries ops, entry.1 ∉ deletedKeys ops := fun entry member =>
        distinct entry (mem_cons_of_mem _ member)
      have rest := ih (by simpa [conflicting] using apart_rest) apart_rest
      have not_deleted : key ∉ deletedKeys ops := distinct (key, value) mem_cons_self
      rw [map_cons, latest_cons, ← rest]
      change ((latest (puts (putEntries ops)) k).or
        (if key = k then some (some value) else none)).or
          (latest (deletes (deletedKeys ops)) k) = _
      by_cases same : key = k
      · subst same
        rw [latest_deletes, if_neg not_deleted]
        simp [edit]
      · simp [edit, same]
    | delete target key =>
      have apart_rest : ∀ entry ∈ putEntries ops, entry.1 ∉ deletedKeys ops :=
        fun entry member deleted => distinct entry member (mem_cons_of_mem _ deleted)
      have rest := ih (by simpa [conflicting] using apart_rest) apart_rest
      rw [map_cons, latest_cons, ← rest]
      rw [Option.or_assoc]
      rfl

/-- The collected puts of a batch are those of the batch. -/
theorem editAll_collected (tree : Tree) (apart : conflicting ops = false) :
    (tree.editAll (deletes (deletedKeys ops))).editAll
        (puts ((∅ : Tree).editAll (puts (putEntries ops))).toList) =
      tree.editAll (ops.map edit) := by
  rw [OrderedMap.editAll_puts_collected, ← OrderedMap.editAll_append]
  exact OrderedMap.editAll_congr tree (latest_of_not_conflicting apart)

theorem applyWalkOrdered_ok {tree tree' : Tree} {name : Namespace}
    (accepted : applyWalkOrdered tree name ops = .ok tree') :
    tree' = tree.editAll (ops.map edit) := by
  unfold applyWalkOrdered at accepted
  split at accepted
  · cases accepted
    rfl
  · next apart =>
    dsimp only at accepted
    split at accepted
    · next appended is_appended =>
      cases accepted
      rw [OrderedMap.appendAll_eq_some is_appended]
      exact editAll_collected tree (by simpa using apart)
    · cases accepted

/-- Collecting entries in a map keeps exactly their keys. -/
theorem mem_collected_iff (entries : List (RawKey × RawValue)) (key : RawKey) :
    (∃ value, (key, value) ∈ ((∅ : Tree).editAll (puts entries)).toList) ↔
      ∃ value, (key, value) ∈ entries := by
  simp only [mem_toList_iff_getElem?_eq_some, OrderedMap.getElem?_editAll]
  cases found : latest (puts entries) key with
  | none =>
    have unlisted := latest_eq_none.mp found
    simp only [Option.getD_none, getElem?_empty, reduceCtorEq, exists_false,
      false_iff, not_exists]
    intro value listed
    exact unlisted ⟨key, some value⟩ (mem_map_of_mem listed) rfl
  | some value =>
    obtain ⟨written, rfl, listed⟩ := value_of_mem_puts (mem_of_latest found)
    exact ⟨fun _ => ⟨written, listed⟩, fun _ => ⟨written, rfl⟩⟩

/-- A sorted append is accepted when every key put lies above every key that the deletes
leave. -/
theorem applyWalkOrdered_of_above {tree : Tree} {name : Namespace} (apart : conflicting ops = false)
    (above : ∀ held ∈ tree.editAll (deletes (deletedKeys ops)), ∀ entry ∈ putEntries ops,
      compare held entry.1 = .lt) :
    applyWalkOrdered tree name ops = .ok (tree.editAll (ops.map edit)) := by
  have appended := OrderedMap.appendAll_of_above
    (m := tree.editAll (deletes (deletedKeys ops)))
    (ordered_keys_toList (t := (∅ : Tree).editAll (puts (putEntries ops))))
    (by
      intro held member entry collected
      obtain ⟨written, listed⟩ := (mem_collected_iff _ _).mp ⟨entry.2, collected⟩
      exact above held member (entry.1, written) listed)
  simp only [applyWalkOrdered, apart, appended, editAll_collected tree apart]
  rfl

/-- Walk-ordered application refines sequential application. It refuses a batch, unless some key
is both deleted and put, exactly when a key put is not above some key that the deletes leave; the
batch's own puts are sorted first and never refuse each other. -/
theorem applyWalkOrdered_refines (tree : Tree) (name : Namespace) (ops : List WriteOp) :
    (∀ tree', applyWalkOrdered tree name ops = .ok tree' →
      tree' = tree.editAll (ops.map WriteOp.edit)) ∧
    (applyWalkOrdered tree name ops = .error (.outOfOrderAppend name) ↔
      conflicting ops = false ∧ ∃ entry ∈ putEntries ops,
        ∃ held ∈ tree.editAll (Edit.deletes (deletedKeys ops)), compare held entry.1 ≠ .lt) := by
  refine ⟨fun tree' accepted => applyWalkOrdered_ok accepted, fun refused => ?_, ?_⟩
  · cases apart : conflicting ops with
    | true => simp [applyWalkOrdered, apart] at refused
    | false =>
      refine ⟨rfl, ?_⟩
      by_contra none_below
      have above : ∀ held ∈ tree.editAll (Edit.deletes (deletedKeys ops)),
          ∀ entry ∈ putEntries ops, compare held entry.1 = .lt := by
        intro held member entry listed
        by_contra below
        exact none_below ⟨entry, listed, held, member, below⟩
      rw [applyWalkOrdered_of_above apart above] at refused
      cases refused
  · rintro ⟨apart, entry, listed, held, member, below⟩
    unfold applyWalkOrdered
    rw [apart, if_neg Bool.false_ne_true]
    dsimp only
    split
    · next appended accepted =>
      obtain ⟨value, collected⟩ := (mem_collected_iff _ entry.1).mpr ⟨entry.2, listed⟩
      exact absurd (OrderedMap.above_of_appendAll accepted held member _ collected) below
    · rfl

/-- Descending puts are accepted, and so is a key below a held one when the batch also deletes
it. -/
theorem applyWalkOrdered_accepts_below : let name : Namespace := ⟨[104]⟩
    let held : Tree := (∅ : Tree).insert [9] [0]
    let descending := [WriteOp.put name [5] [1], .put name [3] [2]]
    let rewritten := [WriteOp.delete name [5], .put name [5] [1]]
    (∃ tree, applyWalkOrdered ∅ name descending = .ok tree) ∧
      (∃ tree, applyWalkOrdered held name rewritten = .ok tree) ∧
      [9] ∈ held.editAll (Edit.deletes (deletedKeys rewritten)) ∧
      compare ([9] : RawKey) [5] ≠ .lt := by
  intro name held descending rewritten
  refine ⟨⟨_, applyWalkOrdered_of_above (by decide) ?_⟩, ⟨_, if_pos (by decide)⟩, ?_, by decide⟩
  · intro key member
    exact absurd member Std.ExtTreeMap.not_mem_empty
  · exact Std.ExtTreeMap.mem_erase.mpr ⟨by decide, Std.ExtTreeMap.mem_insert_self⟩

/-- What the second half of a commit does: each listed namespace's writes are applied once. -/
theorem foldlM_applyWalkOrdered_ok {plain written : Trees} (distinct : names.Nodup)
    (accepted : names.foldlM (fun written name => do
      let tree ← applyWalkOrdered (written name) name (opsFor name direct)
      pure (update written name tree)) plain = Except.ok written) (name : Namespace) :
    written name = if name ∈ names then (plain name).editAll (editsFor name direct)
      else plain name := by
  induction names generalizing plain with
  | nil =>
    cases accepted
    simp
  | cons first names ih =>
    rw [nodup_cons] at distinct
    rw [foldlM_cons] at accepted
    cases outcome : applyWalkOrdered (plain first) first (opsFor first direct) with
    | error e =>
      rw [outcome] at accepted
      cases accepted
    | ok tree =>
      rw [outcome] at accepted
      rw [ih distinct.2 accepted]
      by_cases named : name = first
      · subst named
        rw [if_neg distinct.1, if_pos mem_cons_self, update_self]
        exact applyWalkOrdered_ok outcome
      · simp [named]

theorem editsFor_filter (name : Namespace) (keep : WriteOp → Bool)
    (kept : ∀ op : WriteOp, op.target = name → keep op = true) (ops : List WriteOp) :
    editsFor name (ops.filter keep) = editsFor name ops := by
  rw [editsFor, editsFor, filter_filter]
  congr 1
  apply filter_congr
  intro op _
  by_cases named : op.target = name
  · simp [named, kept op named]
  · simp [named]

/-- A commit that is accepted has the batch's plain meaning. -/
theorem commitDirect_ok (accepted : commitDirect keyOrders trees direct = .ok trees') :
    trees' = trees.applyAll direct := by
  unfold commitDirect at accepted
  cases first : (direct.filter fun op => !isWalkOrdered keyOrders op).foldlM
      (applyPlain keyOrders) trees with
  | error e =>
    rw [first] at accepted
    cases accepted
  | ok plain =>
    rw [first] at accepted
    funext name
    rw [foldlM_applyWalkOrdered_ok (nodup_dedup _) accepted name,
      foldlM_applyPlain_ok first, Trees.applyAll_tree, Trees.applyAll_tree]
    by_cases walk : keyOrders name = some .walkOrdered
    · have none_plain : editsFor name
          (direct.filter fun op => !isWalkOrdered keyOrders op) = [] := by
        apply editsFor_eq_nil
        intro op member named
        have not_walk := (mem_filter.mp member).2
        rw [isWalkOrdered, named] at not_walk
        simp [walk] at not_walk
      rw [none_plain, OrderedMap.editAll_nil]
      split
      · rfl
      · next unlisted =>
        rw [editsFor_eq_nil, OrderedMap.editAll_nil]
        intro op member named
        apply unlisted
        rw [mem_dedup]
        apply mem_map.mpr
        exact ⟨op, mem_filter.mpr ⟨member, by simp [isWalkOrdered, named, walk]⟩, named⟩
    · rw [if_neg, editsFor_filter]
      · intro op named
        simp [isWalkOrdered, named, walk]
      · intro listed
        obtain ⟨op, member, named⟩ := mem_map.mp (mem_dedup.mp listed)
        have is_walk := (mem_filter.mp member).2
        rw [isWalkOrdered, named] at is_walk
        simp [walk] at is_walk

/-! ## When a commit is accepted -/

theorem foldlM_applyPlain_of_declared (declared : ∀ op ∈ ops, keyOrders op.target ≠ none)
    (trees : Trees) : ops.foldlM (applyPlain keyOrders) trees = .ok (trees.applyAll ops) := by
  induction ops generalizing trees with
  | nil => rfl
  | cons op ops ih =>
    have first : applyPlain keyOrders trees op = .ok (trees.apply op) := by
      unfold applyPlain
      split
      · next undeclared => exact absurd undeclared (declared op mem_cons_self)
      · rfl
    rw [foldlM_cons, first]
    exact ih (fun later member => declared later (mem_cons_of_mem _ member)) (trees.apply op)

/-- The walk-ordered writes of a batch fit above what a namespace holds. -/
def Fits (tree : Tree) (ops : List WriteOp) : Prop :=
  conflicting ops = false ∧
    ∀ held ∈ tree.editAll (deletes (deletedKeys ops)), ∀ entry ∈ putEntries ops,
      compare held entry.1 = .lt

theorem foldlM_applyWalkOrdered_of_fits (direct : List WriteOp) (plain : Trees)
    (distinct : names.Nodup) (fits : ∀ name ∈ names, Fits (plain name) (opsFor name direct)) :
    ∃ written, names.foldlM (fun written name => do
      let tree ← applyWalkOrdered (written name) name (opsFor name direct)
      pure (update written name tree)) plain = Except.ok written := by
  induction names generalizing plain with
  | nil => exact ⟨plain, rfl⟩
  | cons first names ih =>
    rw [nodup_cons] at distinct
    obtain ⟨apart, above⟩ := fits first mem_cons_self
    rw [foldlM_cons, applyWalkOrdered_of_above apart above]
    apply ih _ distinct.2
    intro name member
    have other : name ≠ first := by
      rintro rfl
      exact distinct.1 member
    rw [update_of_ne other]
    exact fits name (mem_cons_of_mem _ member)

/-- A commit to declared namespaces whose walk-ordered writes fit is accepted. -/
theorem commitDirect_of_fits (declared : ∀ op ∈ direct, keyOrders op.target ≠ none)
    (fits : ∀ name, keyOrders name = some .walkOrdered → Fits (trees name) (opsFor name direct)) :
    commitDirect keyOrders trees direct = .ok (trees.applyAll direct) := by
  have plain : (direct.filter fun op => !isWalkOrdered keyOrders op).foldlM
      (applyPlain keyOrders) trees =
        .ok (trees.applyAll (direct.filter fun op => !isWalkOrdered keyOrders op)) :=
    foldlM_applyPlain_of_declared
      (fun op member => declared op (mem_filter.mp member).1) trees
  have walk := foldlM_applyWalkOrdered_of_fits direct
    (trees.applyAll (direct.filter fun op => !isWalkOrdered keyOrders op))
    (nodup_dedup ((direct.filter (isWalkOrdered keyOrders)).map target))
    (by
      intro name member
      obtain ⟨op, op_member, named⟩ := mem_map.mp (mem_dedup.mp member)
      have is_walk : keyOrders name = some .walkOrdered := by
        rw [← named]
        simpa [isWalkOrdered] using (mem_filter.mp op_member).2
      have unwritten : trees.applyAll (direct.filter fun op => !isWalkOrdered keyOrders op) name =
          trees name := by
        apply Trees.applyAll_untouched
        intro other other_member other_named
        have not_walk := (mem_filter.mp other_member).2
        rw [isWalkOrdered, other_named] at not_walk
        simp [is_walk] at not_walk
      rw [unwritten]
      exact fits name is_walk)
  obtain ⟨written, accepted⟩ := walk
  have outcome : commitDirect keyOrders trees direct = .ok written := by
    rw [commitDirect, plain]
    exact accepted
  rw [outcome, commitDirect_ok outcome]

end Zaino.Lmdb
