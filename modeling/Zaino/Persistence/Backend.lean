import Zaino.Library.BigEndian
import Zaino.Library.OrderedMap
import Zaino.Primitives

/-!
# The key-value backend

A backend holds one ordered tree of byte keys for each namespace and is written by batches of
puts and deletes. `applyAll` is what a batch means: its writes one after another. Two reserved
namespaces carry the engine's own records beside the indexes: the watermark, and the format
version that each index was written under.
-/

namespace Zaino.Persistence

open Library List

abbrev RawKey : Type := List UInt8

abbrev RawValue : Type := List UInt8

/-- A namespace, by the bytes of its name. -/
structure Namespace where
  asStr : List UInt8
  deriving DecidableEq

/-- How a namespace's keys order relative to the chain walk. -/
inductive KeyOrder where
  | walkOrdered
  | scattered
  | metadata
  deriving DecidableEq

/-- A namespace of an index set and the key order its codec states. -/
structure NamespaceSpec where
  name : Namespace
  keyOrder : KeyOrder
  deriving DecidableEq

inductive WriteOp where
  | put (target : Namespace) (key : RawKey) (value : RawValue)
  | delete (target : Namespace) (key : RawKey)
  deriving DecidableEq

inductive CommitError where
  | namespaceNotFound (name : Namespace)
  | outOfOrderAppend (name : Namespace)
  | deferredNamespaceDelete (name : Namespace)
  | deferredLogCorrupt (name : Namespace)
  | writeFailed (operation : String)
  deriving DecidableEq

/-- The entries of one namespace, in byte order of their keys. -/
abbrev Tree : Type := OrderedMap RawKey RawValue

/-- The trees of all namespaces. -/
abbrev Trees : Type := Namespace → Tree

namespace WriteOp

def target : WriteOp → Namespace
  | put target _ _ => target
  | delete target _ => target

/-- The write as an edit of its namespace's tree. -/
def edit : WriteOp → Edit RawKey RawValue
  | put _ key value => ⟨key, some value⟩
  | delete _ key => ⟨key, none⟩

/-- The writes of a batch to one namespace, in order. -/
def editsFor (name : Namespace) (ops : List WriteOp) : List (Edit RawKey RawValue) :=
  (ops.filter fun op => op.target = name).map edit

theorem editsFor_append (name : Namespace) (first second : List WriteOp) :
    editsFor name (first ++ second) = editsFor name first ++ editsFor name second := by
  simp [editsFor]

theorem editsFor_cons_self (op : WriteOp) (ops : List WriteOp) :
    editsFor op.target (op :: ops) = op.edit :: editsFor op.target ops := by
  simp [editsFor]

theorem editsFor_cons_ne {name : Namespace} {op : WriteOp} (ops : List WriteOp)
    (other : op.target ≠ name) : editsFor name (op :: ops) = editsFor name ops := by
  simp [editsFor, other]

theorem editsFor_eq_nil {name : Namespace} {ops : List WriteOp}
    (untouched : ∀ op ∈ ops, op.target ≠ name) : editsFor name ops = [] := by
  rw [editsFor, filter_eq_nil_iff.mpr, map_nil]
  intro op member
  simpa using untouched op member

end WriteOp

namespace Trees

/-- Apply one write. -/
def apply (trees : Trees) (op : WriteOp) : Trees :=
  Function.update trees op.target ((trees op.target).edit op.edit)

/-- What a batch means: its writes, one after another. -/
def applyAll (trees : Trees) (ops : List WriteOp) : Trees :=
  ops.foldl apply trees

variable (trees : Trees)

theorem applyAll_append (first second : List WriteOp) :
    applyAll trees (first ++ second) = applyAll (applyAll trees first) second :=
  foldl_append

/-- Each namespace sees only the writes that name it. -/
theorem applyAll_tree (ops : List WriteOp) (name : Namespace) :
    applyAll trees ops name = (trees name).editAll (WriteOp.editsFor name ops) := by
  induction ops generalizing trees with
  | nil => rfl
  | cons op ops ih =>
    rw [applyAll, foldl_cons]
    have rest := ih (apply trees op)
    rw [applyAll] at rest
    rw [rest]
    by_cases named : op.target = name
    · subst named
      rw [WriteOp.editsFor_cons_self, OrderedMap.editAll_cons, apply, Function.update_self]
    · rw [WriteOp.editsFor_cons_ne ops named, apply, Function.update_of_ne (Ne.symm named)]

/-- A write acts on each namespace by itself. -/
theorem apply_congr {first second : Trees} {name : Namespace} (same : first name = second name)
    (op : WriteOp) : apply first op name = apply second op name := by
  by_cases named : name = op.target
  · subst named
    rw [apply, apply, Function.update_self, Function.update_self, same]
  · rw [apply, apply, Function.update_of_ne named, Function.update_of_ne named, same]

theorem applyAll_untouched {trees : Trees} {ops : List WriteOp} {name : Namespace}
    (untouched : ∀ op ∈ ops, op.target ≠ name) : applyAll trees ops name = trees name := by
  rw [applyAll_tree, WriteOp.editsFor_eq_nil untouched, OrderedMap.editAll_nil]

theorem applyAll_deletes (name : Namespace) (keys : List RawKey) :
    applyAll trees (keys.map fun key => .delete name key) =
      Function.update trees name ((trees name).editAll (Edit.deletes keys)) := by
  funext other
  rw [applyAll_tree]
  by_cases same : other = name
  · subst same
    have every : (keys.map fun key => WriteOp.delete other key).filter
        (fun op => op.target = other) = keys.map fun key => WriteOp.delete other key := by
      apply filter_eq_self.mpr
      intro op member
      obtain ⟨key, _, rfl⟩ := mem_map.mp member
      simp [WriteOp.target]
    rw [Function.update_self, WriteOp.editsFor, every, map_map]
    rfl
  · rw [Function.update_of_ne same, WriteOp.editsFor_eq_nil, OrderedMap.editAll_nil]
    intro op member
    obtain ⟨key, _, rfl⟩ := mem_map.mp member
    exact Ne.symm same

end Trees

/-! ## The watermark -/

namespace Watermark

/-- The namespace the watermark is stored under. -/
def name : Namespace := ⟨"_watermark".toUTF8.toList⟩

/-- The single key under it. -/
def key : RawKey := "finalised_tip".toUTF8.toList

/-- The write that records `height` as the finalised-tip watermark. -/
def stamp (height : Height) : WriteOp :=
  .put name key (bigEndian 4 height.value).reverse

/-- The recorded watermark; a malformed or out-of-range value reads as absent. -/
def read (trees : Trees) : Option Height :=
  (trees name)[key]?.bind fun bytes =>
    if bytes.length = 4 then Height.tryFrom (ofBigEndian bytes.reverse) else none

theorem read_stamp (trees : Trees) (height : Height) :
    read (trees.apply (stamp height)) = some height := by
  have held : (trees.apply (stamp height) name)[key]? =
      some (bigEndian 4 height.value).reverse := by
    rw [Trees.apply, show (stamp height).target = name from rfl, Function.update_self,
      OrderedMap.getElem?_edit]
    exact if_pos rfl
  have bounded := height.bounded
  have small : height.value % 256 ^ 4 = height.value := by
    apply Nat.mod_eq_of_lt
    unfold maxHeight at bounded
    omega
  rw [read, held]
  simp only [Option.bind_some, length_reverse, length_bigEndian, if_true, reverse_reverse,
    ofBigEndian_bigEndian, small]
  exact Height.tryFrom_eq_some.mpr rfl

end Watermark

/-! ## Format versions -/

namespace FormatVersion

/-- The namespace that records each index namespace's format version. -/
def metaName : Namespace := ⟨"_format_versions".toUTF8.toList⟩

inductive Freshness where
  | fresh
  | stale
  deriving DecidableEq

/-- The version recorded for a namespace; a malformed stamp reads as absent. -/
def recordedVersion (trees : Trees) (name : Namespace) : Option UInt64 :=
  (trees metaName)[name.asStr]?.bind fun bytes =>
    if bytes.length = 8 then some (UInt64.ofNat (ofBigEndian bytes.reverse)) else none

/-- Whether the namespace was written under the version the running code uses. -/
def freshness (trees : Trees) (name : Namespace) (running : UInt64) : Freshness :=
  if recordedVersion trees name = some running then .fresh else .stale

end FormatVersion

end Zaino.Persistence
