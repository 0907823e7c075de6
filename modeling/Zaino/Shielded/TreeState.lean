import Zaino.Primitives
import Zaino.Shielded.TreeSegment

/-!
# The tree-state index

At every height, one note commitment frontier for each shielded pool. The index has two ways to
compute it. `extract` appends one block's commitments to the frontiers before it. `mergeBatch` builds
a whole batch: it lifts every block at the position that the counts before it give, reduces the
segments in order, stitches the carried frontiers on, and reads off each height's frontiers.

Extraction gives, at every height, the frontiers of the commitments up to it (`EntriesOf`). That a batch
gives the same, whatever the grouping of its reduction, needs the segment algebra (`mergeBatch_returns`).
-/

namespace Zaino.Shielded

open Zaino Library

/-- A shielded pool. -/
inductive ShieldedPool
  | sapling
  | orchard
  | ironwood
  deriving DecidableEq

/-- The name a pool has in messages. -/
def ShieldedPool.name : ShieldedPool → String
  | .sapling => "Sapling"
  | .orchard => "Orchard"
  | .ironwood => "Ironwood"

/-- One value for each pool. -/
structure Pools (F : ShieldedPool → Type) where
  sapling : F .sapling
  orchard : F .orchard
  ironwood : F .ironwood

namespace Pools

variable {F : ShieldedPool → Type}

/-- A pool's value. -/
def get (pools : Pools F) : (pool : ShieldedPool) → F pool
  | .sapling => pools.sapling
  | .orchard => pools.orchard
  | .ironwood => pools.ironwood

/-- The same computation for each pool. -/
def build (f : (pool : ShieldedPool) → F pool) : Pools F :=
  ⟨f .sapling, f .orchard, f .ironwood⟩

/-- The same computation for each pool, Sapling's effects first. -/
def buildM {m : Type → Type} [Monad m] (f : (pool : ShieldedPool) → m (F pool)) : m (Pools F) := do
  let sapling ← f .sapling
  let orchard ← f .orchard
  let ironwood ← f .ironwood
  pure ⟨sapling, orchard, ironwood⟩

@[ext]
theorem ext {first second : Pools F} (same : ∀ pool, first.get pool = second.get pool) :
    first = second := by
  cases first
  cases second
  rw [mk.injEq]
  exact ⟨same .sapling, same .orchard, same .ironwood⟩

@[simp]
theorem get_build (f : (pool : ShieldedPool) → F pool) (pool : ShieldedPool) :
    (build f).get pool = f pool := by
  cases pool <;> rfl

theorem exists_buildM_eq_ok {ε : Type} {f : (pool : ShieldedPool) → Except ε (F pool)}
    {holds : (pool : ShieldedPool) → F pool → Prop}
    (each : ∀ pool, ∃ value, f pool = .ok value ∧ holds pool value) :
    ∃ pools, buildM f = .ok pools ∧ ∀ pool, holds pool (pools.get pool) := by
  rcases each .sapling with ⟨sapling, is_sapling, holds_sapling⟩
  rcases each .orchard with ⟨orchard, is_orchard, holds_orchard⟩
  rcases each .ironwood with ⟨ironwood, is_ironwood, holds_ironwood⟩
  refine ⟨⟨sapling, orchard, ironwood⟩, ?_, ?_⟩
  · rw [buildM, is_sapling, is_orchard, is_ironwood]
    rfl
  · intro pool
    cases pool
    · exact holds_sapling
    · exact holds_orchard
    · exact holds_ironwood

end Pools

/-- A 32-byte tree root. -/
abbrev TreeRoot : Type := BitVec 256

/-- The level of a pool's subtrees, unless the pool has its own. -/
def subtreeLevel : Nat := 16

/-- A pool's commitment tree, as its cryptography crate provides it: the hash of two siblings at a
level, the leaf of a commitment whose bytes are canonical, a node's bytes, a frontier's root, and the
legacy serialization, which reads back what it wrote. With it stands the level of the pool's subtrees,
which lie inside the tree. -/
structure NoteTree where
  Node : Type
  combine : Nat → Node → Node → Node
  leaf : NoteCommitment → Option Node
  nodeBytes : Node → TreeRoot
  root : Frontier Node → Node
  legacyTreeBytes : Frontier Node → List UInt8
  legacyTreeFromBytes : List UInt8 → Except String (Frontier Node)
  legacyRoundTrip : ∀ (frontier : Frontier Node) (leaves : List Node),
    frontier.Of combine leaves → leaves.length ≤ 2 ^ depth →
      legacyTreeFromBytes (legacyTreeBytes frontier) = .ok frontier
  subtreeLevel : Nat := Shielded.subtreeLevel
  subtreeLevel_le : subtreeLevel ≤ depth := by decide

/-- The pools' trees. Ironwood shares Orchard's hash and encoding. -/
structure NoteTrees where
  sapling : NoteTree
  orchard : NoteTree

/-- A pool's tree. -/
def NoteTrees.tree (trees : NoteTrees) : ShieldedPool → NoteTree
  | .sapling => trees.sapling
  | .orchard => trees.orchard
  | .ironwood => trees.orchard

/-- A block's note commitments, in the order of its transactions. -/
structure TreeStateCtx where
  height : Nat
  hash : BlockHash
  saplingCmus : List NoteCommitment
  orchardCmxs : List NoteCommitment
  ironwoodCmxs : List NoteCommitment
  deriving DecidableEq

/-- A block's commitments in a pool. -/
def TreeStateCtx.commitments (ctx : TreeStateCtx) : ShieldedPool → List NoteCommitment
  | .sapling => ctx.saplingCmus
  | .orchard => ctx.orchardCmxs
  | .ironwood => ctx.ironwoodCmxs

/-- What the index reads of a block. -/
def treeStateCtx (block : Block) : TreeStateCtx where
  height := block.header.height.value
  hash := block.header.hash
  saplingCmus := block.transactions.flatMap fun tx => tx.sapling.outputs.map SaplingOutput.cmu
  orchardCmxs := block.transactions.flatMap fun tx => tx.orchard.actions.map OrchardAction.cmx
  ironwoodCmxs := block.transactions.flatMap fun tx => tx.ironwood.actions.map OrchardAction.cmx

/-- Why a block's tree state cannot be computed. -/
inductive TreeStateError
  | nonCanonicalCommitment (pool : ShieldedPool)
  | poolFull (pool : ShieldedPool)
  deriving DecidableEq

/-- The message of an error. -/
def TreeStateError.message : TreeStateError → String
  | .nonCanonicalCommitment pool => s!"non-canonical {pool.name} note commitment"
  | .poolFull pool => s!"the {pool.name} note-commitment tree exceeded depth {depth}"

section Trees

variable (trees : NoteTrees)

/-- One frontier for each pool. -/
abbrev TreeStateValue : Type :=
  Pools fun pool => Frontier (trees.tree pool).Node

/-- The frontiers after a block. -/
structure TreeStateEntry where
  height : Nat
  value : TreeStateValue trees

/-- The leaves of some commitments, failing on the first that is not canonical. -/
def leavesOf (pool : ShieldedPool) (commitments : List NoteCommitment) :
    Except TreeStateError (List (trees.tree pool).Node) :=
  commitments.mapM fun commitment =>
    okOr ((trees.tree pool).leaf commitment) (.nonCanonicalCommitment pool)

variable {trees}

/-- Append leaves to a frontier. -/
def appendPool (pool : ShieldedPool) (prior : Frontier (trees.tree pool).Node)
    (leaves : List (trees.tree pool).Node) :
    Except TreeStateError (Frontier (trees.tree pool).Node) :=
  leaves.foldlM (fun frontier leaf =>
    okOr (frontier.append (trees.tree pool).combine depth leaf) (.poolFull pool)) prior

/-- The frontiers after one more block. -/
def extract (ctx : TreeStateCtx) (prior : TreeStateValue trees) :
    Except TreeStateError (TreeStateEntry trees) := do
  let value ← Pools.buildM fun pool => do
    let leaves ← leavesOf trees pool (ctx.commitments pool)
    appendPool pool (prior.get pool) leaves
  .ok ⟨ctx.height, value⟩

/-- No commitment yet. -/
def initialCarry : TreeStateValue trees :=
  Pools.build fun _ => none

/-! ## A batch at once -/

/-- The number of leaves in each pool. -/
abbrev TreeMeasure : Type := Pools fun _ => Nat

/-- The commitments a block adds. -/
def measureOf (ctx : TreeStateCtx) : TreeMeasure :=
  Pools.build fun pool => (ctx.commitments pool).length

/-- The sum of two measures. -/
def measureAdd (a b : TreeMeasure) : TreeMeasure :=
  Pools.build fun pool => a.get pool + b.get pool

/-- How many leaves the carried frontiers have. -/
def carryMeasure (carry : TreeStateValue trees) : TreeMeasure :=
  Pools.build fun pool => Frontier.treeSize (carry.get pool)

variable (trees) in
/-- One segment for each pool. -/
abbrev TreeStateSegment : Type :=
  Pools fun pool => TreeSegment (trees.tree pool).Node

/-- Why an index cannot be built. -/
inductive BuildError
  | extract (error : TreeStateError)
  | panicked (message : String)
  deriving DecidableEq

/-- The value, or the panic that its absence causes. -/
def expect {α : Type} (value : Option α) (message : String) : Except BuildError α :=
  okOr value (.panicked message)

variable (trees) in
/-- A block's segments, from where its leaves begin. -/
def liftBlock (ctx : TreeStateCtx) (start : TreeMeasure) :
    Except BuildError (TreeStateSegment trees) := do
  let leaves ← (Pools.buildM fun pool =>
    leavesOf trees pool (ctx.commitments pool)).mapError BuildError.extract
  Pools.buildM fun pool =>
    expect (TreeSegment.lift (trees.tree pool).combine (leaves.get pool) (start.get pool))
      "a child of a complete node is present"

/-- The segments without leaves. -/
def identitySegments : TreeStateSegment trees :=
  Pools.build fun _ => TreeSegment.empty

/-- Neighbouring segments, joined pool by pool. -/
def combineSegments (a b : TreeStateSegment trees) : TreeStateSegment trees :=
  Pools.build fun pool => TreeSegment.combine (trees.tree pool).combine (a.get pool) (b.get pool)

/-- The carried frontiers as segments. -/
def carrySegments (carry : TreeStateValue trees) : TreeStateSegment trees :=
  Pools.build fun pool => TreeSegment.carrySegment (trees.tree pool).combine (carry.get pool)

/-- A pool's frontier after exactly `size` leaves. -/
def poolFrontier {H : Type} (segment : TreeSegment H) (size : Nat) :
    Except BuildError (Frontier H) := do
  if size = 0 then .ok none
  else
    let nonEmpty ← expect (segment.frontierAt size) "the frontier's nodes were retained"
    if 2 ^ depth ≤ nonEmpty.position then .error (.panicked "a frontier fits depth")
    else .ok (some nonEmpty)

/-- Every pool's frontier at a measure. -/
def project (full : TreeStateSegment trees) (at_ : TreeMeasure) :
    Except BuildError (TreeStateValue trees) :=
  Pools.buildM fun pool => poolFrontier (full.get pool) (at_.get pool)

/-- How an ordered reduction groups its operands. -/
inductive Grouping
  | identity
  | operand
  | join (first second : Grouping)
  deriving DecidableEq

/-- How many operands a grouping has. -/
def Grouping.operands : Grouping → Nat
  | .identity => 0
  | .operand => 1
  | .join first second => first.operands + second.operands

/-- Reduce operands in order, as grouped. -/
def Grouping.reduce {α : Type} (identity : α) (combine : α → α → α) : Grouping → List α → Option α
  | .identity, [] => some identity
  | .operand, [x] => some x
  | .join first second, operands => do
    let left ← first.reduce identity combine (operands.take first.operands)
    let right ← second.reduce identity combine (operands.drop first.operands)
    some (combine left right)
  | _, _ => none

/-- Where each block's leaves begin and end. -/
def measureBounds : TreeMeasure → List TreeStateCtx → List (TreeMeasure × TreeMeasure)
  | _, [] => []
  | running, ctx :: rest =>
    let next := measureAdd running (measureOf ctx)
    (running, next) :: measureBounds next rest

/-- The entries of a batch of blocks in chain order, and the frontiers it carries on. -/
def mergeBatch (grouping : Grouping) (blocks : List TreeStateCtx) (carry : TreeStateValue trees) :
    Except BuildError (List (TreeStateEntry trees) × TreeStateValue trees) := do
  let bounds := measureBounds (carryMeasure carry) blocks
  match bounds.getLast? with
  | none => .ok ([], carry)
  | some last =>
    let segments ← (blocks.zip bounds).mapM fun block => liftBlock trees block.1 block.2.1
    let batch ← expect (grouping.reduce identitySegments combineSegments segments)
      "the reduction has an operand for each block"
    let full := combineSegments (carrySegments carry) batch
    let entries ← (blocks.zip bounds).mapM fun block => do
      let value ← project full block.2.2
      .ok (TreeStateEntry.mk block.1.height value)
    let next ← project full last.2
    .ok (entries, next)

/-! ## The leaves of a chain -/

/-- The leaves a block adds to a pool. -/
def TreeStateCtx.leaves (trees : NoteTrees) (ctx : TreeStateCtx) (pool : ShieldedPool) :
    List (trees.tree pool).Node :=
  (ctx.commitments pool).filterMap (trees.tree pool).leaf

/-- Every commitment of a block is canonical. -/
def TreeStateCtx.Canonical (trees : NoteTrees) (ctx : TreeStateCtx) : Prop :=
  ∀ pool, ∀ commitment ∈ ctx.commitments pool, ((trees.tree pool).leaf commitment).isSome

variable (trees) in
/-- The leaves some blocks add to a pool. -/
def leavesIn (blocks : List TreeStateCtx) (pool : ShieldedPool) : List (trees.tree pool).Node :=
  blocks.flatMap fun ctx => ctx.leaves trees pool

/-- The frontiers of some leaves. -/
def FrontiersOf (value : TreeStateValue trees)
    (leaves : (pool : ShieldedPool) → List (trees.tree pool).Node) : Prop :=
  ∀ pool, Frontier.Of (trees.tree pool).combine (value.get pool) (leaves pool)

theorem FrontiersOf.unique {first second : TreeStateValue trees}
    {leaves : (pool : ShieldedPool) → List (trees.tree pool).Node}
    (of_first : FrontiersOf first leaves) (of_second : FrontiersOf second leaves) :
    first = second :=
  Pools.ext fun pool => Frontier.Of.unique (of_first pool) (of_second pool)

theorem initialCarry_of : FrontiersOf (initialCarry : TreeStateValue trees) fun _ => [] := by
  intro pool
  rw [initialCarry, Pools.get_build]
  rfl

variable {ctx : TreeStateCtx}

theorem leavesOf_eq_ok (canonical : ctx.Canonical trees) (pool : ShieldedPool) :
    leavesOf trees pool (ctx.commitments pool) = .ok (ctx.leaves trees pool) :=
  mapM_decode_eq_ok _ (canonical pool)

theorem length_leaves (canonical : ctx.Canonical trees)
    (pool : ShieldedPool) : (ctx.leaves trees pool).length = (ctx.commitments pool).length :=
  List.filterMap_length_eq_length.mpr (canonical pool)

/-! ## One block after the other -/

/-- What the index appends to a pool is the leaves one by one, with its own error once the tree is full. -/
theorem appendPool_eq_okOr {pool : ShieldedPool} (prior : Frontier (trees.tree pool).Node)
    (leaves : List (trees.tree pool).Node) : appendPool pool prior leaves =
      okOr (prior.appendAll (trees.tree pool).combine depth leaves) (.poolFull pool) := by
  induction leaves generalizing prior with
  | nil => rfl
  | cons leaf rest ih =>
    rw [appendPool, Frontier.appendAll, List.foldlM_cons, List.foldlM_cons]
    cases prior.append (trees.tree pool).combine depth leaf with
    | none => rfl
    | some grown => exact ih grown

/-- Extraction gives the frontiers of one block more. -/
theorem extract_returns {prior : TreeStateValue trees}
    {before : (pool : ShieldedPool) → List (trees.tree pool).Node}
    (of_before : FrontiersOf prior before) (canonical : ctx.Canonical trees)
    (fits : ∀ pool, (before pool ++ ctx.leaves trees pool).length ≤ 2 ^ depth) :
    ∃ next, extract ctx prior = .ok ⟨ctx.height, next⟩ ∧
      FrontiersOf next fun pool => before pool ++ ctx.leaves trees pool := by
  have each : ∀ pool, ∃ next, (do
      let leaves ← leavesOf trees pool (ctx.commitments pool)
      appendPool pool (prior.get pool) leaves) = .ok next ∧
      Frontier.Of (trees.tree pool).combine next (before pool ++ ctx.leaves trees pool) := by
    intro pool
    rcases Frontier.Of.appendAll (of_before pool) (fits pool) with ⟨next, is_next, of_next⟩
    refine ⟨next, ?_, of_next⟩
    rw [leavesOf_eq_ok canonical pool, ok_bind, appendPool_eq_okOr, is_next]
    rfl
  rcases Pools.exists_buildM_eq_ok each with ⟨next, is_next, of_next⟩
  refine ⟨next, ?_, of_next⟩
  rw [extract, is_next]
  rfl

/-- Entries that are, block by block, the frontiers of the leaves up to the block. -/
def EntriesOf : ((pool : ShieldedPool) → List (trees.tree pool).Node) → List TreeStateCtx →
    List (TreeStateEntry trees) → Prop
  | _, [], entries => entries = []
  | _, _ :: _, [] => False
  | before, ctx :: rest, entry :: entries =>
    entry.height = ctx.height ∧
      FrontiersOf entry.value (fun pool => before pool ++ ctx.leaves trees pool) ∧
      EntriesOf (fun pool => before pool ++ ctx.leaves trees pool) rest entries

end Trees

end Zaino.Shielded
