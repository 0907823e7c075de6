import Zaino.Shielded.SegmentAlgebra

/-!
# A batch of tree states

`mergeBatch` lifts its blocks, reduces their segments as grouped, stitches the carried frontiers on and reads
off each height. Pool by pool this is the segment algebra, so its entries are those that extracting one block
after the other gives (`mergeBatch_returns`).
-/

namespace Zaino.Shielded

open Zaino Library TreeSegment List

variable {trees : NoteTrees}

/-- A measure that counts some leaves. -/
def Counts (measure : TreeMeasure)
    (leaves : (pool : ShieldedPool) → List (trees.tree pool).Node) : Prop :=
  ∀ pool, measure.get pool = (leaves pool).length

theorem carryMeasure_get (carry : TreeStateValue trees) (pool : ShieldedPool) :
    (carryMeasure carry).get pool = Frontier.treeSize (carry.get pool) := by
  rw [carryMeasure, Pools.get_build]

variable {ctx : TreeStateCtx} {blocks : List TreeStateCtx}

theorem measureAdd_get (running : TreeMeasure) (canonical : ctx.Canonical trees)
    (pool : ShieldedPool) : (measureAdd running (measureOf ctx)).get pool =
      running.get pool + (ctx.leaves trees pool).length := by
  rw [measureAdd, Pools.get_build, measureOf, Pools.get_build, length_leaves canonical]

variable {running : TreeMeasure}

theorem Counts.add
    {before : (pool : ShieldedPool) → List (trees.tree pool).Node} (counts : Counts running before)
    (canonical : ctx.Canonical trees) :
    Counts (measureAdd running (measureOf ctx)) fun pool => before pool ++ ctx.leaves trees pool := by
  intro pool
  rw [measureAdd_get running canonical, length_append, counts pool]

theorem leavesIn_cons (ctx : TreeStateCtx) (rest : List TreeStateCtx) (pool : ShieldedPool) :
    leavesIn trees (ctx :: rest) pool = ctx.leaves trees pool ++ leavesIn trees rest pool :=
  flatMap_cons

/-- Every block is lifted to the segments of its leaves. -/
theorem liftBlock_returns (running : TreeMeasure) (canonical : ctx.Canonical trees) :
    ∃ segments, liftBlock trees ctx running = .ok segments ∧
      ∀ pool, Built (trees.tree pool).combine (.position (running.get pool)) (ctx.leaves trees pool)
        (segments.get pool) := by
  have decoded : ∀ pool, ∃ leaves, leavesOf trees pool (ctx.commitments pool) = .ok leaves ∧
      leaves = ctx.leaves trees pool := fun pool => ⟨_, leavesOf_eq_ok canonical pool, rfl⟩
  rcases Pools.exists_buildM_eq_ok decoded with ⟨leaves, is_leaves, are_leaves⟩
  have lifted : ∀ pool, ∃ segment,
      expect (TreeSegment.lift (trees.tree pool).combine (leaves.get pool) (running.get pool))
        "a child of a complete node is present" = .ok segment ∧
      Built (trees.tree pool).combine (.position (running.get pool)) (ctx.leaves trees pool)
        segment := by
    intro pool
    rcases lift_exact (trees.tree pool).combine (ctx.leaves trees pool) (running.get pool) with
      ⟨segment, is_segment, _⟩
    rw [are_leaves pool, is_segment]
    exact ⟨segment, rfl, Built.lift is_segment⟩
  rcases Pools.exists_buildM_eq_ok lifted with ⟨segments, is_segments, built⟩
  refine ⟨segments, ?_, built⟩
  rw [liftBlock, is_leaves]
  exact is_segments

/-- The lifted blocks are neighbouring segments. -/
theorem mapM_liftBlock_returns (running : TreeMeasure)
    (canonical : ∀ ctx ∈ blocks, ctx.Canonical trees) : ∃ segments : List (TreeStateSegment trees),
      ((blocks.zip (measureBounds running blocks)).mapM fun block =>
        liftBlock trees block.1 block.2.1) = .ok segments ∧
      ∀ pool, BuiltEach (trees.tree pool).combine (.position (running.get pool))
        (blocks.map fun ctx => ctx.leaves trees pool) (segments.map fun segment => segment.get pool) := by
  induction blocks generalizing running with
  | nil => exact ⟨[], rfl, fun _ => rfl⟩
  | cons ctx rest ih =>
    have here := canonical ctx mem_cons_self
    rcases liftBlock_returns running here with ⟨segment, is_segment, built⟩
    rcases ih (measureAdd running (measureOf ctx))
      fun later member => canonical later (mem_cons_of_mem _ member) with
      ⟨segments, are_segments, built_rest⟩
    refine ⟨segment :: segments, ?_, fun pool => ⟨built pool, ?_⟩⟩
    · rw [measureBounds, zip_cons_cons, mapM_cons, is_segment, are_segments]
      rfl
    · rw [Origin.size, ← measureAdd_get running here]
      exact built_rest pool

/-- A grouping reduces operands component by component. -/
theorem Grouping.map_reduce {α β : Type} (identity : α) {combine : α → α → α} (component : α → β)
    {combineComponent : β → β → β}
    (each : ∀ a b, component (combine a b) = combineComponent (component a) (component b))
    (grouping : Grouping) (operands : List α) :
    (grouping.reduce identity combine operands).map component =
      grouping.reduce (component identity) combineComponent (operands.map component) := by
  induction grouping generalizing operands with
  | identity =>
    cases operands with
    | nil => rfl
    | cons x rest => rfl
  | operand =>
    cases operands with
    | nil => rfl
    | cons x rest =>
      cases rest with
      | nil => rfl
      | cons y more => rfl
  | join first second ih_first ih_second =>
    rw [reduce, reduce, ← map_take, ← map_drop, ← ih_first, ← ih_second]
    cases first.reduce identity combine (operands.take first.operands) with
    | none => rfl
    | some left =>
      cases second.reduce identity combine (operands.drop first.operands) with
      | none => rfl
      | some right => exact congrArg some (each left right)

theorem combineSegments_get (a b : TreeStateSegment trees) (pool : ShieldedPool) :
    (combineSegments a b).get pool =
      TreeSegment.combine (trees.tree pool).combine (a.get pool) (b.get pool) := by
  rw [combineSegments, Pools.get_build]

/-- The reduced batch, pool by pool. -/
theorem reduce_returns {grouping : Grouping} {segments : List (TreeStateSegment trees)} (sized : grouping.operands = blocks.length)
    (built : ∀ pool, BuiltEach (trees.tree pool).combine (.position (running.get pool))
      (blocks.map fun ctx => ctx.leaves trees pool) (segments.map fun segment => segment.get pool)) :
    ∃ batch, grouping.reduce identitySegments combineSegments segments = some batch ∧
      ∀ pool, Built (trees.tree pool).combine (.position (running.get pool))
        (leavesIn trees blocks pool) (batch.get pool) := by
  have each : ∀ pool, ∃ segment,
      (grouping.reduce identitySegments combineSegments segments).map
        (fun segments => segments.get pool) = some segment ∧
      Built (trees.tree pool).combine (.position (running.get pool)) (leavesIn trees blocks pool)
        segment := by
    intro pool
    have by_pool := Grouping.map_reduce identitySegments
      (fun segments : TreeStateSegment trees => segments.get pool)
      (fun a b => combineSegments_get a b pool) grouping segments
    rw [by_pool, identitySegments, Pools.get_build, leavesIn, flatMap_def]
    exact (built pool).reduce (by rw [length_map]; exact sized) fun _ => ⟨_, rfl⟩
  rcases each .sapling with ⟨_, is_some, _⟩
  rcases Option.map_eq_some_iff.mp is_some with ⟨batch, is_batch, _⟩
  refine ⟨batch, is_batch, fun pool => ?_⟩
  rcases each pool with ⟨segment, is_segment, built_segment⟩
  rw [is_batch] at is_segment
  rw [show batch.get pool = segment from Option.some.inj is_segment]
  exact built_segment

section Stitched

variable {full : TreeStateSegment trees} {carry : TreeStateValue trees}
  {before : (pool : ShieldedPool) → List (trees.tree pool).Node}
  (of_before : FrontiersOf carry before)

include of_before

/-- The frontiers at a measure that counts the first leaves. -/
theorem project_returns {measure : TreeMeasure}
    (first after : (pool : ShieldedPool) → List (trees.tree pool).Node)
    (stitched : ∀ pool, Built (trees.tree pool).combine (.carry (carry.get pool))
      (first pool ++ after pool) (full.get pool))
    (counts : Counts measure fun pool => before pool ++ first pool)
    (fits : ∀ pool, (before pool ++ (first pool ++ after pool)).length ≤ 2 ^ depth) :
    ∃ value, project full measure = .ok value ∧
      FrontiersOf value fun pool => before pool ++ first pool := by
  have each : ∀ pool, ∃ frontier, poolFrontier (full.get pool) (measure.get pool) = .ok frontier ∧
      Frontier.Of (trees.tree pool).combine frontier (before pool ++ first pool) := by
    intro pool
    have size := Frontier.Of.treeSize (of_before pool)
    have total := fits pool
    have counted := counts pool
    rw [length_append, length_append] at total
    rw [length_append, ← size] at counted
    have carries := Origin.wellFormed_carry (of_before pool).wellFormed (by omega)
    rcases (stitched pool).poolFrontier carries (by rw [length_append]; omega)
      (show (first pool).length ≤ _ by rw [length_append]; omega) with ⟨next, is_next, is_read⟩
    rcases (of_before pool).appendAll (show (before pool ++ first pool).length ≤ 2 ^ depth by
      rw [length_append]; omega) with ⟨grown, is_grown, of_grown⟩
    rw [take_left' rfl, is_grown] at is_next
    rw [counted]
    exact ⟨next, is_read, Option.some.inj is_next ▸ of_grown⟩
  exact Pools.exists_buildM_eq_ok each

/-- Every block's entry, read from the stitched segment. -/
theorem mapM_project_returns {running : TreeMeasure} {blocks : List TreeStateCtx}
    (first : (pool : ShieldedPool) → List (trees.tree pool).Node)
    (stitched : ∀ pool, Built (trees.tree pool).combine (.carry (carry.get pool))
      (first pool ++ leavesIn trees blocks pool) (full.get pool))
    (counts : Counts running fun pool => before pool ++ first pool)
    (canonical : ∀ ctx ∈ blocks, ctx.Canonical trees)
    (fits : ∀ pool, (before pool ++ (first pool ++ leavesIn trees blocks pool)).length ≤ 2 ^ depth) :
    ∃ entries, ((blocks.zip (measureBounds running blocks)).mapM fun block => do
        let value ← project full block.2.2
        .ok (TreeStateEntry.mk block.1.height value)) = .ok entries ∧
      EntriesOf (fun pool => before pool ++ first pool) blocks entries := by
  induction blocks generalizing running first with
  | nil => exact ⟨[], rfl, rfl⟩
  | cons ctx rest ih =>
    have here := canonical ctx mem_cons_self
    have counted := counts.add here
    simp only [append_assoc] at counted
    simp only [leavesIn_cons, ← append_assoc (first _)] at stitched fits
    rcases project_returns of_before _ _ stitched counted fits with ⟨value, is_value, of_value⟩
    rcases ih _ stitched counted
      (fun later member => canonical later (mem_cons_of_mem _ member)) fits with
      ⟨entries, are_entries, of_entries⟩
    refine ⟨⟨ctx.height, value⟩ :: entries, ?_, rfl, ?_, ?_⟩
    · rw [measureBounds, zip_cons_cons, mapM_cons, is_value, are_entries]
      rfl
    · simp only [append_assoc]
      exact of_value
    · simp only [append_assoc]
      exact of_entries

end Stitched

variable {blocks : List TreeStateCtx} {before : (pool : ShieldedPool) → List (trees.tree pool).Node}

/-- The last bound counts every leaf of the batch. -/
theorem counts_of_getLast? {last : TreeMeasure × TreeMeasure}
    (counts : Counts running before) (canonical : ∀ ctx ∈ blocks, ctx.Canonical trees)
    (is_last : (measureBounds running blocks).getLast? = some last) :
    Counts last.2 fun pool => before pool ++ leavesIn trees blocks pool := by
  induction blocks generalizing running before with
  | nil => cases is_last
  | cons ctx rest ih =>
    have here := canonical ctx mem_cons_self
    simp only [leavesIn_cons, ← append_assoc]
    cases rest with
    | nil =>
      have is_only : (running, measureAdd running (measureOf ctx)) = last := Option.some.inj is_last
      rw [← is_only]
      simp only [leavesIn, flatMap_nil, append_nil]
      exact counts.add here
    | cons next more =>
      exact ih (counts.add here) (fun later member => canonical later (mem_cons_of_mem _ member))
        is_last

/-- What a batch merge returns: the entries of its blocks, and the frontiers after them. -/
theorem mergeBatch_returns {grouping : Grouping} {carry : TreeStateValue trees}
    (of_before : FrontiersOf carry before) (canonical : ∀ ctx ∈ blocks, ctx.Canonical trees)
    (fits : ∀ pool, (before pool ++ leavesIn trees blocks pool).length ≤ 2 ^ depth)
    (sized : grouping.operands = blocks.length) :
    ∃ entries next, mergeBatch grouping blocks carry = .ok (entries, next) ∧
      EntriesOf before blocks entries ∧
      FrontiersOf next fun pool => before pool ++ leavesIn trees blocks pool := by
  have counts : Counts (carryMeasure carry) before := fun pool =>
    (carryMeasure_get carry pool).trans (Frontier.Of.treeSize (of_before pool))
  rw [mergeBatch]
  dsimp only
  split
  · next no_block =>
    have none : blocks = [] := by
      cases blocks with
      | nil => rfl
      | cons ctx rest =>
        cases no_block
    subst none
    refine ⟨[], carry, rfl, rfl, ?_⟩
    simp only [leavesIn, flatMap_nil, append_nil]
    exact of_before
  · next last is_last =>
    rcases mapM_liftBlock_returns (carryMeasure carry) canonical with
      ⟨segments, are_segments, built_each⟩
    rcases reduce_returns sized built_each with ⟨batch, is_batch, built⟩
    have stitched : ∀ pool, Built (trees.tree pool).combine (.carry (carry.get pool))
        (leavesIn trees blocks pool) ((combineSegments (carrySegments carry) batch).get pool) := by
      intro pool
      rw [combineSegments_get, carrySegments, Pools.get_build]
      have after := built pool
      rw [carryMeasure_get] at after
      exact (Built.carry (carry.get pool)).combine after
    have none_yet : Counts (carryMeasure carry) fun pool => before pool ++ [] := by
      simp only [append_nil]
      exact counts
    rcases mapM_project_returns of_before (fun _ => []) stitched none_yet canonical fits with
      ⟨entries, are_entries, of_entries⟩
    simp only [append_nil] at of_entries
    rcases project_returns of_before _ (fun _ => [])
      (fun pool => by rw [append_nil]; exact stitched pool)
      (counts_of_getLast? counts canonical is_last)
      (fun pool => by rw [append_nil]; exact fits pool) with ⟨next, is_next, of_next⟩
    refine ⟨entries, next, ?_, of_entries, of_next⟩
    rw [are_segments, ok_bind, is_batch, expect, okOr, ok_bind, are_entries, ok_bind, is_next, ok_bind]

end Zaino.Shielded
