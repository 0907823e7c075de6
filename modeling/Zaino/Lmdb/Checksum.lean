import Zaino.Lmdb.SegmentLog

/-!
# The segment checksum

The encoder feeds a payload to the hash whole, and the cursor chunk by chunk. A step of the hash can be
undone, since the prime is odd: from two different states the rest of a payload never leads to one
checksum, so a payload with one byte changed does not keep its checksum.
-/

namespace Zaino.Lmdb

open List

/-- The running hash. -/
abbrev Fnv1a : Type := UInt64

namespace Fnv1a

def new : Fnv1a := fnvOffset

/-- One byte is mixed in. -/
def step (hash : Fnv1a) (byte : UInt8) : Fnv1a := (hash ^^^ byte.toUInt64) * fnvPrime

def update (hash : Fnv1a) (bytes : List UInt8) : Fnv1a := bytes.foldl step hash

def finish (hash : Fnv1a) : UInt64 := hash

theorem finish_update_new (bytes : List UInt8) : finish (update new bytes) = fnv1a64 bytes := rfl

/-- Mixing in a chunk and then another is mixing in both. -/
theorem update_append (hash : Fnv1a) (first second : List UInt8) :
    update hash (first ++ second) = update (update hash first) second :=
  foldl_append

theorem foldl_update (hash : Fnv1a) (chunks : List (List UInt8)) :
    chunks.foldl update hash = update hash chunks.flatten := by
  induction chunks generalizing hash with
  | nil => rfl
  | cons chunk chunks ih => rw [foldl_cons, ih, flatten_cons, update_append]

/-- Multiplying by the prime can be undone modulo the word size. -/
theorem mul_fnvPrime_injective : Function.Injective fun hash : UInt64 => hash * fnvPrime := by
  intro first second same
  have inverse : fnvPrime * 0xce965057aff6957b = 1 := by decide
  have undone := congrArg (· * (0xce965057aff6957b : UInt64)) same
  simpa only [UInt64.mul_assoc, inverse, UInt64.mul_one] using undone

theorem step_injective (byte : UInt8) : Function.Injective fun hash => step hash byte :=
  fun _ _ same => (UInt64.xor_left_inj _).mp (mul_fnvPrime_injective same)

theorem step_byte_injective (hash : Fnv1a) : Function.Injective (step hash) :=
  fun _ _ same => UInt8.toUInt64_inj.mp ((UInt64.xor_right_inj _).mp (mul_fnvPrime_injective same))

/-- Different states stay apart, whatever is mixed into both. -/
theorem update_injective (bytes : List UInt8) : Function.Injective fun hash => update hash bytes := by
  induction bytes with
  | nil => exact fun _ _ same => same
  | cons byte bytes ih => exact fun _ _ same => step_injective byte (ih same)

end Fnv1a

open Fnv1a

/-- The checksum of a payload changes with any one of its bytes, and does not depend on the chunks that
the payload is fed in. -/
theorem fnv1a64_detects (payload : List UInt8) :
    (∀ i old byte, payload[i]? = some old → byte ≠ old →
      fnv1a64 (payload.set i byte) ≠ fnv1a64 payload) ∧
    ∀ chunks : List (List UInt8), chunks.flatten = payload →
      finish (chunks.foldl update new) = fnv1a64 payload := by
  refine ⟨fun i old byte at_ differs same => differs ?_, fun chunks split => ?_⟩
  · obtain ⟨below, rfl⟩ := List.getElem?_eq_some_iff.mp at_
    have whole : payload = payload.take i ++ payload[i] :: payload.drop (i + 1) := by
      rw [← drop_eq_getElem_cons below, take_append_drop]
    rw [set_eq_take_append_cons_drop, if_pos below, ← finish_update_new, ← finish_update_new] at same
    nth_rewrite 3 [whole] at same
    -- Up to the byte the states agree; behind it they would have to agree again.
    rw [finish, finish, update_append, update_append] at same
    exact step_byte_injective _ (update_injective (payload.drop (i + 1)) same)
  · rw [foldl_update, split]
    rfl

/-- Three bytes with the second one changed, and fed as one and two bytes. -/
theorem fnv1a64_detects_three :
    fnv1a64 [1, 0, 3] ≠ fnv1a64 [1, 2, 3] ∧
      finish ([[1], [2, 3]].foldl update new) = fnv1a64 [1, 2, 3] :=
  ⟨(fnv1a64_detects [1, 2, 3]).1 1 2 0 rfl (by decide), (fnv1a64_detects [1, 2, 3]).2 _ rfl⟩

end Zaino.Lmdb
