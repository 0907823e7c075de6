import Zaino.Library.HashMap
import Zaino.Persistence.Backend

/-!
# The dependency graph of the indexes

Each index declares which others it reads. The graph keeps the declarations as edges, with the rule
that says when the reader may start, and a phase for every index that grows along the edges. A graph
carries these facts, so that a cycle or an edge to an unknown index cannot be built.
-/

namespace Zaino.Sync

open Zaino Library List

/-- How a self-cumulative index threads its running state. -/
inductive CarryType
  | sequential
  | orderedMonoid
  deriving DecidableEq

/-- What an extraction needs beyond its block. -/
inductive InputScope
  | blockLocal
  | selfCumulative (carry : CarryType)
  | crossIndex
  deriving DecidableEq

/-- How the deltas of a batch are merged. -/
inductive CompositionType
  | append
  | monoidal
  | fold
  deriving DecidableEq

/-- Whether an extraction may reach the source for more than its block. -/
inductive SourceAccess
  | none
  | nonLocal
  deriving DecidableEq

/-- The declaration of an index. -/
structure Descriptor (ι : Type) where
  name : ι
  scope : InputScope
  composition : CompositionType
  dependencies : List ι
  sourceAccess : SourceAccess
  keyOrder : Persistence.KeyOrder
  deriving DecidableEq

/-- When the downstream index may begin. -/
inductive FiringRule
  | pipelined
  | barrier
  deriving DecidableEq

/-- An index and its topological layer. -/
structure DagNode (ι : Type) where
  descriptor : Descriptor ι
  phase : Nat
  deriving DecidableEq

/-- `upstream` must persist before `downstream` can extract. -/
structure DagEdge (ι : Type) where
  upstream : ι
  downstream : ι
  firing : FiringRule
  deriving DecidableEq

/-- The dependency graph over the registered indexes. -/
structure DependencyDag (ι : Type) where
  nodes : List (DagNode ι)
  edges : List (DagEdge ι)
  unique : (nodes.map fun node => node.descriptor.name).Nodup
  registered : ∀ edge ∈ edges, edge.upstream ∈ nodes.map fun node => node.descriptor.name
  declared : ∀ node ∈ nodes, ∀ dependency ∈ node.descriptor.dependencies,
    ∃ edge ∈ edges, edge.upstream = dependency ∧ edge.downstream = node.descriptor.name
  ascending : ∀ edge ∈ edges, ∀ up ∈ nodes, ∀ down ∈ nodes, up.descriptor.name = edge.upstream →
    down.descriptor.name = edge.downstream → up.phase < down.phase

namespace DependencyDag

variable {ι : Type} (dag : DependencyDag ι)

/-- The registered indexes. -/
def names : List ι := dag.nodes.map fun node => node.descriptor.name

/-- Look up a node by its index. -/
def node [DecidableEq ι] (id : ι) : Option (DagNode ι) :=
  dag.nodes.find? fun node => node.descriptor.name = id

/-- The number of phases. -/
def phaseCount : Nat := (dag.nodes.map fun node => node.phase + 1).foldl max 0

/-- The indexes grouped by phase, in phase order; inside a phase in the order of a hash map. -/
def phases (visit : IterationOrder (DagNode ι)) : List (List (DagNode ι)) :=
  (List.range dag.phaseCount).map fun phase =>
    (visit.order dag.nodes).filter fun node => node.phase = phase

theorem phase_lt_phaseCount {node : DagNode ι} (member : node ∈ dag.nodes) :
    node.phase < dag.phaseCount := by
  have bounded : ∀ (phases : List Nat) (start : Nat), start ≤ phases.foldl max start ∧
      ∀ phase ∈ phases, phase ≤ phases.foldl max start := by
    intro phases
    induction phases with
    | nil => exact fun start => ⟨Nat.le_refl _, fun _ absent => nomatch absent⟩
    | cons first rest ih =>
      intro start
      have later := ih (max start first)
      refine ⟨Nat.le_trans (Nat.le_max_left _ _) later.1, fun phase listed => ?_⟩
      rcases mem_cons.mp listed with rfl | listed
      · exact Nat.le_trans (Nat.le_max_right _ _) later.1
      · exact later.2 phase listed
  exact (bounded _ 0).2 _ (mem_map_of_mem member)

variable (visit : IterationOrder (DagNode ι))

/-- Every node is in its phase, and nothing else is in any. -/
theorem mem_flatten_phases {node : DagNode ι} :
    node ∈ (dag.phases visit).flatten ↔ node ∈ dag.nodes := by
  rw [phases, mem_flatten]
  constructor
  · rintro ⟨phase, listed, member⟩
    rcases mem_map.mp listed with ⟨_, _, rfl⟩
    exact (visit.mem_order).mp (mem_filter.mp member).1
  · intro member
    exact ⟨_, mem_map_of_mem (mem_range.mpr (dag.phase_lt_phaseCount member)),
      mem_filter.mpr ⟨visit.mem_order.mpr member, decide_eq_true rfl⟩⟩

/-- No index is listed twice. -/
theorem nodup_flatten_phases :
    ((dag.phases visit).flatten.map fun node => node.descriptor.name).Nodup := by
  have distinct : (visit.order dag.nodes).Nodup :=
    (visit.perm _).nodup_iff.mpr (List.Nodup.of_map _ dag.unique)
  have flat : (dag.phases visit).flatten.Nodup := by
    rw [phases, nodup_flatten]
    refine ⟨?_, ?_⟩
    · intro layer listed
      rcases mem_map.mp listed with ⟨_, _, rfl⟩
      exact distinct.filter _
    · rw [pairwise_map]
      refine nodup_range.imp ?_
      intro first second different node in_first in_second
      exact different ((of_decide_eq_true (mem_filter.mp in_first).2).symm.trans
        (of_decide_eq_true (mem_filter.mp in_second).2))
  refine (nodup_map_iff_inj_on flat).mpr ?_
  intro first in_first second in_second same
  exact inj_on_of_nodup_map dag.unique ((dag.mem_flatten_phases visit).mp in_first)
    ((dag.mem_flatten_phases visit).mp in_second) same

end DependencyDag

end Zaino.Sync
