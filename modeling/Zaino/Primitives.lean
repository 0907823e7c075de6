import Mathlib.Algebra.Ring.Nat
import Mathlib.Data.List.Basic

/-!
# Domain primitives

Heights, hashes, block references and blocks, with the fields that the modelled components
read. A `Height` carries its protocol bound, so a height above the limit cannot be built, and
its arithmetic is checked exactly as the source's.
-/

namespace Zaino

/-- The protocol's height limit, `2 ^ 31 - 1`. -/
def maxHeight : Nat := 2 ^ 31 - 1

/-- A block height, at most `maxHeight`. -/
structure Height where
  value : Nat
  bounded : value ≤ maxHeight
  deriving DecidableEq

namespace Height

variable {a b h h' : Height} {delta : Nat}

@[ext]
theorem ext (same : a.value = b.value) : a = b := by
  cases a
  cases b
  simp_all

instance : LE Height := ⟨fun a b => a.value ≤ b.value⟩

instance : LT Height := ⟨fun a b => a.value < b.value⟩

instance (a b : Height) : Decidable (a ≤ b) :=
  inferInstanceAs (Decidable (a.value ≤ b.value))

instance (a b : Height) : Decidable (a < b) :=
  inferInstanceAs (Decidable (a.value < b.value))

theorem le_def : a ≤ b ↔ a.value ≤ b.value := Iff.rfl

theorem lt_def : a < b ↔ a.value < b.value := Iff.rfl

/-- The genesis block. -/
def genesis : Height := ⟨0, Nat.zero_le _⟩

/-- Construct from an integer, or refuse one above the limit. -/
def tryFrom (n : Nat) : Option Height :=
  if bound : n ≤ maxHeight then some ⟨n, bound⟩ else none

/-- Add a delta, refusing to pass the limit. -/
def checkedAdd (h : Height) (delta : Nat) : Option Height :=
  tryFrom (h.value + delta)

/-- Subtract, refusing to pass genesis. -/
def checkedSub (h : Height) (delta : Nat) : Option Height :=
  if delta ≤ h.value then some ⟨h.value - delta, Nat.le_trans (Nat.sub_le _ _) h.bounded⟩ else none

/-- Subtract, saturating at genesis. -/
def saturatingSub (h : Height) (delta : Nat) : Height :=
  ⟨h.value - delta, Nat.le_trans (Nat.sub_le _ _) h.bounded⟩

/-- The lower of two heights. -/
def min (a b : Height) : Height :=
  if a ≤ b then a else b

/-- The higher of two heights. -/
def max (a b : Height) : Height :=
  if a ≤ b then b else a

@[simp]
theorem min_value (a b : Height) : (a.min b).value = Nat.min a.value b.value := by
  unfold Height.min
  split
  · next le => exact (Nat.min_eq_left (le_def.mp le)).symm
  · next not_le =>
    exact (Nat.min_eq_right (Nat.le_of_lt (Nat.lt_of_not_le (mt le_def.mpr not_le)))).symm

@[simp]
theorem max_value (a b : Height) : (a.max b).value = Nat.max a.value b.value := by
  unfold Height.max
  split
  · next le => exact (Nat.max_eq_right (le_def.mp le)).symm
  · next not_le =>
    exact (Nat.max_eq_left (Nat.le_of_lt (Nat.lt_of_not_le (mt le_def.mpr not_le)))).symm

theorem tryFrom_eq_some {n : Nat} : tryFrom n = some h ↔ h.value = n := by
  unfold tryFrom
  split
  · next bound =>
    constructor
    · rintro ⟨⟩
      rfl
    · rintro rfl
      rfl
  · next exceeds =>
    constructor
    · rintro ⟨⟩
    · rintro rfl
      exact absurd h.bounded exceeds

theorem exists_succ (fits : h.value + 1 ≤ maxHeight) : ∃ next : Height, next.value = h.value + 1 :=
  ⟨⟨h.value + 1, fits⟩, rfl⟩

theorem checkedAdd_eq_none : h.checkedAdd delta = none ↔ maxHeight < h.value + delta := by
  unfold checkedAdd tryFrom
  split
  · next bound => exact ⟨fun refused => (nomatch refused), fun past => absurd bound (by omega)⟩
  · next past => exact ⟨fun _ => by omega, fun _ => rfl⟩

theorem checkedSub_eq_some : h.checkedSub delta = some h' ↔ h'.value + delta = h.value := by
  unfold checkedSub
  split
  · next enough =>
    rw [Option.some.injEq, Height.ext_iff]
    dsimp only
    omega
  · next short => exact ⟨fun refused => (nomatch refused), fun exact_sum => by omega⟩

theorem checkedAdd_eq_some : h.checkedAdd delta = some h' ↔ h'.value = h.value + delta :=
  tryFrom_eq_some

end Height

instance hundred_neZero : NeZero 100 := ⟨by decide⟩

/-- A height below a hundred. -/
def sampleHeight (value : Fin 100) : Height :=
  ⟨value.val, Nat.le_trans (Nat.le_of_lt value.isLt) (by decide)⟩

/-- An inclusive range of heights. -/
structure HeightRange where
  start : Height
  stop : Height
  deriving DecidableEq

/-- Whether a range includes a height. -/
def covers (range : HeightRange) (height : Height) : Bool :=
  range.start ≤ height ∧ height ≤ range.stop

theorem covers_eq_true {range : HeightRange} {height : Height} : covers range height = true ↔
      range.start.value ≤ height.value ∧ height.value ≤ range.stop.value :=
  decide_eq_true_iff

/-- A 32-byte block hash. -/
abbrev BlockHash : Type := BitVec 256

/-- A 32-byte transaction id. -/
abbrev TransactionId : Type := BitVec 256

/-- A block's height and hash. -/
structure BlockRef where
  hash : BlockHash
  height : Height
  deriving DecidableEq

/-- The work a single block contributes: a nonzero 128-bit integer. -/
structure SingleBlockWork where
  value : Nat
  positive : 0 < value
  bounded : value < 2 ^ 128
  deriving DecidableEq

theorem SingleBlockWork.eq_of_value {a b : SingleBlockWork} (same : a.value = b.value) : a = b := by
  cases a
  cases b
  cases same
  rfl

/-- A validated nBits value with the work computed for it at construction. -/
structure CompactDifficulty where
  bits : UInt32
  work : SingleBlockWork
  deriving DecidableEq

/-- The proof of work this difficulty contributes to its chain. -/
def CompactDifficulty.toWork (difficulty : CompactDifficulty) : SingleBlockWork :=
  difficulty.work

/-- The header fields that the indexes and the chain head read. -/
structure BlockHeader where
  hash : BlockHash
  prevHash : BlockHash
  height : Height
  bits : CompactDifficulty
  /-- Seconds since the Unix epoch. -/
  time : UInt32 := 0
  deriving DecidableEq

/-- The protocol's whole money supply in zatoshis. -/
def maxZatoshis : Nat := 21000000 * 100000000

/-- An unsigned zatoshi amount, at most the money supply. -/
structure Zatoshis where
  value : Nat
  bounded : value ≤ maxZatoshis
  deriving DecidableEq

/-- Raw script bytes. -/
abbrev Script : Type := List UInt8

/-- One output of one transaction. -/
structure Outpoint where
  txid : TransactionId
  index : UInt32
  deriving DecidableEq

/-- A transparent input: the outpoint it spends. -/
structure TransparentInput where
  prevTxid : TransactionId
  prevIndex : UInt32
  deriving DecidableEq

/-- A transparent output. -/
structure TransparentOutput where
  value : Zatoshis
  script : Script
  deriving DecidableEq

/-- The transparent part of a transaction. -/
structure TransparentData where
  inputs : List TransparentInput
  outputs : List TransparentOutput
  deriving DecidableEq

/-- A 32-byte note commitment. -/
abbrev NoteCommitment : Type := BitVec 256

/-- A 32-byte nullifier. -/
abbrev Nullifier : Type := BitVec 256

/-- A 32-byte ephemeral key. -/
abbrev EphemeralKey : Type := BitVec 256

/-- The first 52 bytes of a note ciphertext. -/
abbrev CompactCiphertext : Type := BitVec 416

/-- A Sapling output: its commitment and what a recipient detects it by. -/
structure SaplingOutput where
  cmu : NoteCommitment
  ephemeralKey : EphemeralKey
  encCiphertext : CompactCiphertext
  deriving DecidableEq

/-- The Sapling part of a transaction. -/
structure SaplingData where
  spends : List Nullifier
  outputs : List SaplingOutput
  deriving DecidableEq

/-- An Orchard action: a spend and an output at once. -/
structure OrchardAction where
  nullifier : Nullifier
  cmx : NoteCommitment
  ephemeralKey : EphemeralKey
  encCiphertext : CompactCiphertext
  deriving DecidableEq

/-- The Orchard part of a transaction, and the Ironwood part, which has the same shape. -/
structure OrchardData where
  actions : List OrchardAction
  deriving DecidableEq

/-- A transaction, by pool. -/
structure Transaction where
  txid : TransactionId
  transparent : TransparentData
  sapling : SaplingData := ⟨[], []⟩
  orchard : OrchardData := ⟨[]⟩
  ironwood : OrchardData := ⟨[]⟩
  deriving DecidableEq

/-- A parsed block. -/
structure Block where
  header : BlockHeader
  transactions : List Transaction
  deriving DecidableEq

end Zaino
