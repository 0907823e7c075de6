import Mathlib.Algebra.BigOperators.Group.List.Basic
import Mathlib.Algebra.Order.Group.Nat
import Zaino.Library.BigEndian
import Zaino.Library.Listing

/-!
# The transparent output set commitment

A finalised store summarises its unspent transparent outputs in five running totals: how many
outputs there are, how many transactions still have one, the length of their canonical encodings,
their value, and the xor of a digest of each. `applyEntry` steps the totals by one output and
`combine` joins two summaries; both refuse to leave the range of a `u64`.

Without that range the totals form a cancellative commutative monoid: the counters add, the
commitments xor. The stepping functions are described in it. Adding outputs returns the sum
(`addOutputs_eq_ok`), and removing one returns the summary that, with it added, gives back what was
there (`applyRemovedOutput_eq_ok`); there is at most one such summary, and there is one when no
counter falls short (`exists_add_eq_iff`).
-/

namespace Zaino.ChainStore

open Library Nat List

/-- A 32-byte transaction hash; its bytes as stored are the number's, most significant first. -/
abbrev TransactionHash : Type := BitVec 256

instance lawfulTransactionHash : LawfulBEq TransactionHash := inferInstance

/-- One output of one transaction, by the transaction it was created in. -/
structure Outpoint where
  prevTxid : TransactionHash
  prevIndex : UInt32
  deriving DecidableEq

inductive ScriptType where
  | p2pkh
  | p2sh
  | nonStandard
  deriving DecidableEq

def ScriptType.tag : ScriptType → UInt8
  | .p2pkh => 0x00
  | .p2sh => 0x01
  | .nonStandard => 0xFF

/-- A stored output: its value and the address form that its script was reduced to. -/
structure TxOutCompact where
  value : UInt64
  scriptHash : BitVec 160
  scriptType : ScriptType
  deriving DecidableEq

/-- Whether an output is left out of the set: every script but the two standard forms. -/
def isUnspendableTxOut (out : TxOutCompact) : Bool :=
  match out.scriptType with
  | .p2pkh | .p2sh => false
  | .nonStandard => true

/-- The two hash functions that the store takes from elsewhere. -/
structure Hashes where
  blake2b256 : List UInt8 → BitVec 256
  sha256d : List UInt8 → BitVec 256

def txoutSetDomainTag : List UInt8 :=
  "ZcashTxOutSet___".toList.map fun c => UInt8.ofNat c.toNat

/-- The length of one canonical entry: txid, index, value, address hash and script tag. -/
def txoutSetEntryLen : Nat := 32 + 4 + 8 + 20 + 1

def canonicalEntryParts (outpoint : Outpoint) (out : TxOutCompact) : List UInt8 :=
  bigEndian 32 outpoint.prevTxid.toNat ++ (bigEndian 4 outpoint.prevIndex.toNat).reverse ++
    (bigEndian 8 out.value.toNat).reverse ++ bigEndian 20 out.scriptHash.toNat ++
    [out.scriptType.tag]

def entryDigest (hashes : Hashes) (outpoint : Outpoint) (out : TxOutCompact) : BitVec 256 :=
  hashes.blake2b256 (txoutSetDomainTag ++ canonicalEntryParts outpoint out)

/-! ## Counters that refuse to wrap -/

def checkedAdd (a b : Nat) : Option Nat :=
  if a + b < 2 ^ 64 then some (a + b) else none

def checkedSub (a b : Nat) : Option Nat :=
  if b ≤ a then some (a - b) else none

theorem checkedAdd_eq_some {a b c : Nat} :
    checkedAdd a b = some c ↔ a + b < 2 ^ 64 ∧ c = a + b := by
  unfold checkedAdd
  split <;> simp_all [eq_comm]

theorem checkedSub_eq_some {a b c : Nat} : checkedSub a b = some c ↔ c + b = a := by
  unfold checkedSub
  split
  · simp only [Option.some.injEq]
    omega
  · simp only [reduceCtorEq, false_iff]
    omega

/-! ## The accumulator -/

@[ext]
structure TxOutSetAccumulator where
  transactions : Nat
  transactionOutputs : Nat
  bytesSerialized : Nat
  hashSerialized : BitVec 256
  totalZatoshis : Nat
  deriving DecidableEq

namespace TxOutSetAccumulator

def empty : TxOutSetAccumulator := ⟨0, 0, 0, 0, 0⟩

/-- Every counter is in the range of a `u64`. -/
structure Fits (acc : TxOutSetAccumulator) : Prop where
  transactions : acc.transactions < 2 ^ 64
  transactionOutputs : acc.transactionOutputs < 2 ^ 64
  bytesSerialized : acc.bytesSerialized < 2 ^ 64
  totalZatoshis : acc.totalZatoshis < 2 ^ 64

/-- No counter of `part` exceeds that of `acc`. -/
structure Covers (acc part : TxOutSetAccumulator) : Prop where
  transactions : part.transactions ≤ acc.transactions
  transactionOutputs : part.transactionOutputs ≤ acc.transactionOutputs
  bytesSerialized : part.bytesSerialized ≤ acc.bytesSerialized
  totalZatoshis : part.totalZatoshis ≤ acc.totalZatoshis

instance : Zero TxOutSetAccumulator := ⟨empty⟩

instance : Add TxOutSetAccumulator :=
  ⟨fun a b => ⟨a.transactions + b.transactions, a.transactionOutputs + b.transactionOutputs,
    a.bytesSerialized + b.bytesSerialized, a.hashSerialized ^^^ b.hashSerialized,
    a.totalZatoshis + b.totalZatoshis⟩⟩

section Fields

variable (a b : TxOutSetAccumulator)

@[simp]
theorem zero_transactions : (0 : TxOutSetAccumulator).transactions = 0 := rfl

@[simp]
theorem zero_transactionOutputs : (0 : TxOutSetAccumulator).transactionOutputs = 0 := rfl

@[simp]
theorem zero_bytesSerialized : (0 : TxOutSetAccumulator).bytesSerialized = 0 := rfl

@[simp]
theorem zero_hashSerialized : (0 : TxOutSetAccumulator).hashSerialized = 0 := rfl

@[simp]
theorem zero_totalZatoshis : (0 : TxOutSetAccumulator).totalZatoshis = 0 := rfl

@[simp]
theorem add_transactions : (a + b).transactions = a.transactions + b.transactions := rfl

@[simp]
theorem add_transactionOutputs :
    (a + b).transactionOutputs = a.transactionOutputs + b.transactionOutputs := rfl

@[simp]
theorem add_bytesSerialized : (a + b).bytesSerialized = a.bytesSerialized + b.bytesSerialized := rfl

@[simp]
theorem add_hashSerialized : (a + b).hashSerialized = a.hashSerialized ^^^ b.hashSerialized := rfl

@[simp]
theorem add_totalZatoshis : (a + b).totalZatoshis = a.totalZatoshis + b.totalZatoshis := rfl

end Fields

theorem xor_right_cancel {a b c : BitVec 256} (same : a ^^^ c = b ^^^ c) : a = b := by
  have undone := congrArg (· ^^^ c) same
  simpa [BitVec.xor_assoc] using undone

instance : AddCancelCommMonoid TxOutSetAccumulator where
  nsmul := nsmulRec
  add_assoc a b c := by ext1 <;> simp [add_assoc, BitVec.xor_assoc]
  zero_add a := by ext1 <;> simp
  add_zero a := by ext1 <;> simp
  add_comm a b := by
    ext1
    · exact add_comm _ _
    · exact add_comm _ _
    · exact add_comm _ _
    · exact BitVec.xor_comm _ _
    · exact add_comm _ _
  add_left_cancel a b c same := by
    have parts := TxOutSetAccumulator.ext_iff.mp same
    ext1
    · exact add_left_cancel parts.1
    · exact add_left_cancel parts.2.1
    · exact add_left_cancel parts.2.2.1
    · apply xor_right_cancel
      rw [BitVec.xor_comm _ a.hashSerialized, BitVec.xor_comm _ a.hashSerialized]
      exact parts.2.2.2.1
    · exact add_left_cancel parts.2.2.2.2

/-- A part can be taken out exactly when no counter falls short. -/
theorem exists_add_eq_iff {acc part : TxOutSetAccumulator} :
    (∃ rest, rest + part = acc) ↔ acc.Covers part := by
  constructor
  · rintro ⟨rest, rfl⟩
    exact ⟨le_add_left _ _, le_add_left _ _, le_add_left _ _, le_add_left _ _⟩
  · intro covers
    refine ⟨⟨acc.transactions - part.transactions, acc.transactionOutputs - part.transactionOutputs,
      acc.bytesSerialized - part.bytesSerialized, acc.hashSerialized ^^^ part.hashSerialized,
      acc.totalZatoshis - part.totalZatoshis⟩, ?_⟩
    ext1
    · exact Nat.sub_add_cancel covers.transactions
    · exact Nat.sub_add_cancel covers.transactionOutputs
    · exact Nat.sub_add_cancel covers.bytesSerialized
    · simp [BitVec.xor_assoc]
    · exact Nat.sub_add_cancel covers.totalZatoshis

theorem Fits.of_add {a b : TxOutSetAccumulator} (fits : (a + b).Fits) : a.Fits where
  transactions := lt_of_le_of_lt (le_add_right _ _) fits.transactions
  transactionOutputs := lt_of_le_of_lt (le_add_right _ _) fits.transactionOutputs
  bytesSerialized := lt_of_le_of_lt (le_add_right _ _) fits.bytesSerialized
  totalZatoshis := lt_of_le_of_lt (le_add_right _ _) fits.totalZatoshis

theorem fits_zero : (0 : TxOutSetAccumulator).Fits := by
  constructor <;> simp

end TxOutSetAccumulator

/-! ## Stepping it -/

inductive AccumulatorDeltaError where
  | overflow (field : String)
  | underflow (field : String)
  deriving DecidableEq

def AccumulatorDeltaError.message : AccumulatorDeltaError → String
  | .overflow field => "txout-set accumulator " ++ field ++ " overflow"
  | .underflow field => "txout-set accumulator " ++ field ++ " underflow"

inductive Delta where
  | added
  | removed
  deriving DecidableEq

def Delta.step (delta : Delta) (field amount : Nat) (name : String) :
    Except AccumulatorDeltaError Nat :=
  match delta with
  | .added => okOr (checkedAdd field amount) (.overflow name)
  | .removed => okOr (checkedSub field amount) (.underflow name)

/-- What one output is to the totals, the transaction count apart. -/
def entryOf (hashes : Hashes) (entry : Outpoint × TxOutCompact) : TxOutSetAccumulator where
  transactions := 0
  transactionOutputs := 1
  bytesSerialized := txoutSetEntryLen
  hashSerialized := entryDigest hashes entry.1 entry.2
  totalZatoshis := entry.2.value.toNat

/-- What some outputs are to the totals. -/
def entrySum (hashes : Hashes) (entries : List (Outpoint × TxOutCompact)) : TxOutSetAccumulator :=
  (entries.map (entryOf hashes)).sum

/-- What `count` transactions are to the totals, their outputs apart. -/
def carrying (count : Nat) : TxOutSetAccumulator :=
  ⟨count, 0, 0, 0, 0⟩

namespace TxOutSetAccumulator

variable (hashes : Hashes)

/-- Steps every total but the transaction count by one output. -/
def applyEntry (acc : TxOutSetAccumulator) (digest : BitVec 256) (value : Nat) (delta : Delta) :
    Except AccumulatorDeltaError TxOutSetAccumulator := do
  let transactionOutputs ← delta.step acc.transactionOutputs 1 "transaction_outputs"
  let bytesSerialized ← delta.step acc.bytesSerialized txoutSetEntryLen "bytes_serialized"
  let totalZatoshis ← delta.step acc.totalZatoshis value "total_zatoshis"
  return { acc with
    transactionOutputs, bytesSerialized, totalZatoshis,
    hashSerialized := acc.hashSerialized ^^^ digest }

def applyOutputDelta (delta : Delta) (acc : TxOutSetAccumulator)
    (entry : Outpoint × TxOutCompact) : Except AccumulatorDeltaError TxOutSetAccumulator :=
  acc.applyEntry (entryDigest hashes entry.1 entry.2) entry.2.value.toNat delta

def applyAddedOutput : TxOutSetAccumulator → Outpoint × TxOutCompact →
    Except AccumulatorDeltaError TxOutSetAccumulator :=
  applyOutputDelta hashes .added

def applyRemovedOutput : TxOutSetAccumulator → Outpoint × TxOutCompact →
    Except AccumulatorDeltaError TxOutSetAccumulator :=
  applyOutputDelta hashes .removed

def combine (acc other : TxOutSetAccumulator) : Except AccumulatorDeltaError TxOutSetAccumulator :=
  do
  let transactions ←
    okOr (checkedAdd acc.transactions other.transactions) (.overflow "transactions")
  let transactionOutputs ←
    okOr (checkedAdd acc.transactionOutputs other.transactionOutputs)
      (.overflow "transaction_outputs")
  let bytesSerialized ←
    okOr (checkedAdd acc.bytesSerialized other.bytesSerialized) (.overflow "bytes_serialized")
  let totalZatoshis ←
    okOr (checkedAdd acc.totalZatoshis other.totalZatoshis) (.overflow "total_zatoshis")
  return ⟨transactions, transactionOutputs, bytesSerialized,
    acc.hashSerialized ^^^ other.hashSerialized, totalZatoshis⟩

theorem combine_eq_ok {acc other joined : TxOutSetAccumulator} :
    acc.combine other = .ok joined ↔ (acc + other).Fits ∧ joined = acc + other := by
  simp only [combine, bind_eq_ok, okOr_eq_ok, checkedAdd_eq_some]
  constructor
  · rintro ⟨_, ⟨transactions_fit, rfl⟩, _, ⟨outputs_fit, rfl⟩, _, ⟨bytes_fit, rfl⟩, _,
      ⟨value_fits, rfl⟩, is_joined⟩
    exact ⟨⟨transactions_fit, outputs_fit, bytes_fit, value_fits⟩, (Except.ok.inj is_joined).symm⟩
  · rintro ⟨fits, rfl⟩
    exact ⟨_, ⟨fits.transactions, rfl⟩, _, ⟨fits.transactionOutputs, rfl⟩, _,
      ⟨fits.bytesSerialized, rfl⟩, _, ⟨fits.totalZatoshis, rfl⟩, rfl⟩

variable {hashes} {entry : Outpoint × TxOutCompact} {acc acc' : TxOutSetAccumulator}

theorem applyAddedOutput_eq_ok : applyAddedOutput hashes acc entry = .ok acc' ↔
      (acc.transactionOutputs + 1 < 2 ^ 64 ∧ acc.bytesSerialized + txoutSetEntryLen < 2 ^ 64 ∧
        acc.totalZatoshis + entry.2.value.toNat < 2 ^ 64) ∧ acc' = acc + entryOf hashes entry := by
  simp only [applyAddedOutput, applyOutputDelta, applyEntry, Delta.step, bind_eq_ok, okOr_eq_ok,
    checkedAdd_eq_some, pure, Except.pure, Except.ok.injEq]
  constructor
  · rintro ⟨_, ⟨outputs_fit, rfl⟩, _, ⟨bytes_fit, rfl⟩, _, ⟨value_fits, rfl⟩, rfl⟩
    exact ⟨⟨outputs_fit, bytes_fit, value_fits⟩, rfl⟩
  · rintro ⟨⟨outputs_fit, bytes_fit, value_fits⟩, rfl⟩
    exact ⟨_, ⟨outputs_fit, rfl⟩, _, ⟨bytes_fit, rfl⟩, _, ⟨value_fits, rfl⟩, rfl⟩

theorem applyRemovedOutput_eq_ok :
    applyRemovedOutput hashes acc entry = .ok acc' ↔ acc' + entryOf hashes entry = acc := by
  simp only [applyRemovedOutput, applyOutputDelta, applyEntry, Delta.step, bind_eq_ok, okOr_eq_ok,
    checkedSub_eq_some, pure, Except.pure, Except.ok.injEq]
  constructor
  · rintro ⟨outputs, outputs_left, bytes, bytes_left, value, value_left, rfl⟩
    ext1
    · rfl
    · exact outputs_left
    · exact bytes_left
    · simp [entryOf, BitVec.xor_assoc]
    · exact value_left
  · rintro rfl
    refine ⟨_, rfl, _, rfl, _, rfl, ?_⟩
    ext1
    · rfl
    · rfl
    · rfl
    · simp [entryOf, BitVec.xor_assoc]
    · rfl

end TxOutSetAccumulator

@[simp]
theorem entrySum_nil (hashes : Hashes) : entrySum hashes [] = 0 := rfl

theorem entrySum_cons (hashes : Hashes) (entry : Outpoint × TxOutCompact)
    (rest : List (Outpoint × TxOutCompact)) :
    entrySum hashes (entry :: rest) = entryOf hashes entry + entrySum hashes rest := by
  simp [entrySum]

theorem entrySum_append (hashes : Hashes) (first second : List (Outpoint × TxOutCompact)) :
    entrySum hashes (first ++ second) = entrySum hashes first + entrySum hashes second := by
  simp [entrySum]

theorem entrySum_perm (hashes : Hashes) {first second : List (Outpoint × TxOutCompact)}
    (same : first.Perm second) : entrySum hashes first = entrySum hashes second :=
  (same.map _).sum_eq

@[simp]
theorem carrying_zero : carrying 0 = 0 := rfl

theorem carrying_add (m n : Nat) : carrying (m + n) = carrying m + carrying n := by
  ext1 <;> simp [carrying]

theorem carrying_injective {m n : Nat} (same : carrying m = carrying n) : m = n :=
  congrArg TxOutSetAccumulator.transactions same

section Totals

variable (hashes : Hashes) (entries : List (Outpoint × TxOutCompact))

theorem entrySum_transactions : (entrySum hashes entries).transactions = 0 := by
  induction entries with
  | nil => rfl
  | cons entry rest ih => simp [entrySum_cons, ih, entryOf]

theorem entrySum_transactionOutputs :
    (entrySum hashes entries).transactionOutputs = entries.length := by
  induction entries with
  | nil => rfl
  | cons entry rest ih => simp [entrySum_cons, ih, entryOf, add_comm]

theorem entrySum_bytesSerialized :
    (entrySum hashes entries).bytesSerialized = txoutSetEntryLen * entries.length := by
  induction entries with
  | nil => rfl
  | cons entry rest ih => simp [entrySum_cons, ih, entryOf, mul_add, add_comm]

theorem entrySum_totalZatoshis :
    (entrySum hashes entries).totalZatoshis = (entries.map fun e => e.2.value.toNat).sum := by
  induction entries with
  | nil => rfl
  | cons entry rest ih => simp [entrySum_cons, ih, entryOf]

end Totals

/-! ## Stepping it by many outputs -/

section Lists

variable {hashes : Hashes} {entries : List (Outpoint × TxOutCompact)}
  {acc acc' : TxOutSetAccumulator}

/-- Parts are added one after another exactly when the counters hold their sum, where each step
adds its part if the counters hold it. -/
theorem foldlM_eq_ok_sum {α ε : Type} {items : List α} {part : α → TxOutSetAccumulator}
    {step : TxOutSetAccumulator → α → Except ε TxOutSetAccumulator}
    (steps : ∀ x ∈ items, ∀ acc acc' : TxOutSetAccumulator, acc.Fits →
      (step acc x = .ok acc' ↔ acc'.Fits ∧ acc' = acc + part x)) (fits : acc.Fits) :
    items.foldlM step acc = .ok acc' ↔ acc'.Fits ∧ acc' = acc + (items.map part).sum := by
  induction items generalizing acc with
  | nil =>
    simp only [foldlM_nil, pure, Except.pure, Except.ok.injEq, map_nil, sum_nil,
      add_zero]
    constructor
    · rintro rfl
      exact ⟨fits, rfl⟩
    · rintro ⟨_, rfl⟩
      rfl
  | cons x items ih =>
    have later := fun y member => steps y (mem_cons_of_mem x member)
    rw [foldlM_cons, bind_eq_ok, map_cons, sum_cons, ← add_assoc]
    constructor
    · rintro ⟨next, stepped, rest⟩
      obtain ⟨next_fits, rfl⟩ := (steps x mem_cons_self _ _ fits).mp stepped
      exact (ih later next_fits).mp rest
    · rintro ⟨all_fit, rfl⟩
      have next_fits := all_fit.of_add
      exact ⟨_, (steps x mem_cons_self _ _ fits).mpr ⟨next_fits, rfl⟩,
        (ih later next_fits).mpr ⟨all_fit, rfl⟩⟩

/-- Outputs go in one after another exactly when the counters hold them all. -/
theorem addOutputs_eq_ok (fits : acc.Fits) :
    entries.foldlM (TxOutSetAccumulator.applyAddedOutput hashes) acc = .ok acc' ↔
      acc'.Fits ∧ acc' = acc + entrySum hashes entries := by
  refine foldlM_eq_ok_sum (fun entry _ acc acc' fits => ?_) fits
  rw [TxOutSetAccumulator.applyAddedOutput_eq_ok]
  refine and_congr_left fun is_sum => ?_
  rw [is_sum]
  exact ⟨fun ⟨outputs_fit, bytes_fit, value_fits⟩ =>
    ⟨fits.transactions, outputs_fit, bytes_fit, value_fits⟩, fun all_fit =>
    ⟨all_fit.transactionOutputs, all_fit.bytesSerialized, all_fit.totalZatoshis⟩⟩

end Lists

end Zaino.ChainStore
