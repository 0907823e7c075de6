import Mathlib.Algebra.Ring.Nat
import Zaino.Library.Fallible

/-!
# Reading exactly what is written

A reader moves a cursor over bytes. `Exact` says that a reader accepts exactly the strings of a
format, given as a relation between values and the bytes written for them: it returns a value when
and only when such bytes stand next, and it moves past those and no others. Formats compose along
the monad, so that a reader of many parts is exact for the parts' bytes one after another
(`Exact.bind`), and a string that is read to its end is the one written (`Exact.whole`).
-/

namespace Library

open Fallible

/-- A position in a byte string. -/
structure Cursor where
  bytes : List UInt8
  pos : Nat

namespace Cursor

variable {ε α β : Type}

/-- What has not been read. -/
def rest (cursor : Cursor) : List UInt8 := cursor.bytes.drop cursor.pos

def advance (cursor : Cursor) (n : Nat) : Cursor := { cursor with pos := cursor.pos + n }

theorem length_take_rest (cursor : Cursor) {n : Nat}
    (within : cursor.pos + n ≤ cursor.bytes.length) : (cursor.rest.take n).length = n := by
  rw [rest, List.length_take_of_le]
  rw [List.length_drop]
  omega

/-- The next `n` bytes; the position after them must be a machine word and within the bytes. -/
def take (overflow short : Nat → Cursor → ε) (n : Nat) :
    Fallible Cursor ε { slice : List UInt8 // slice.length = n } := do
  let cursor ← Fallible.get
  if 2 ^ 64 ≤ cursor.pos + n then Fallible.fail (overflow n cursor)
  else if within : cursor.pos + n ≤ cursor.bytes.length then do
    Fallible.modify fun cursor => cursor.advance n
    pure ⟨cursor.rest.take n, cursor.length_take_rest within⟩
  else Fallible.fail (short n cursor)

/-- Inside a byte string of a length that a machine word holds. -/
structure Fits (cursor : Cursor) : Prop where
  inside : cursor.pos ≤ cursor.bytes.length
  bounded : cursor.bytes.length < 2 ^ 64

theorem Fits.advance {cursor : Cursor} (fits : cursor.Fits) {taken : List UInt8}
    (next : taken <+: cursor.rest) : (cursor.advance taken.length).Fits := by
  have within := next.length_le
  rw [rest, List.length_drop] at within
  have inside := fits.inside
  refine ⟨?_, fits.bounded⟩
  change cursor.pos + taken.length ≤ cursor.bytes.length
  omega

theorem rest_advance (cursor : Cursor) (n : Nat) : (cursor.advance n).rest = cursor.rest.drop n :=
  List.drop_drop.symm

/-- The reader returns a value exactly when bytes of the format stand next, and moves past them. -/
def Exact (read : Fallible Cursor ε α) (format : α → List UInt8 → Prop) : Prop :=
  ∀ cursor : Cursor, cursor.Fits → ∀ {value after}, read.Returns cursor value after ↔
    ∃ taken, format value taken ∧ taken <+: cursor.rest ∧ after = cursor.advance taken.length

variable {read : Fallible Cursor ε α} {format format' : α → List UInt8 → Prop}

theorem Exact.congr (exact_read : Exact read format)
    (same : ∀ value taken, format value taken ↔ format' value taken) : Exact read format' := by
  intro cursor fits value after
  simp only [exact_read cursor fits, same]

theorem exact_pure (value : α) :
    Exact (pure value : Fallible Cursor ε α) fun other taken => value = other ∧ taken = [] := by
  intro cursor _ other after
  rw [returns_pure]
  constructor
  · intro ⟨same, unmoved⟩
    exact ⟨[], ⟨same, rfl⟩, List.nil_prefix, unmoved.symm⟩
  · rintro ⟨_, ⟨same, rfl⟩, _, moved⟩
    exact ⟨same, moved.symm⟩

/-- One reader after another reads the bytes of one format after those of another. -/
theorem Exact.bind {next : α → Fallible Cursor ε β} {format₂ : α → β → List UInt8 → Prop}
    (first : Exact read format) (second : ∀ value, Exact (next value) (format₂ value)) :
    Exact (read >>= next) fun result taken =>
      ∃ value front back, format value front ∧ format₂ value result back ∧ taken = front ++ back := by
  intro cursor fits result after
  rw [returns_bind]
  constructor
  · rintro ⟨value, mid, early, late⟩
    obtain ⟨front, written, stands, rfl⟩ := (first _ fits).mp early
    obtain ⟨back, written', stands', rfl⟩ := (second value _ (fits.advance stands)).mp late
    refine ⟨front ++ back, ⟨value, front, back, written, written', rfl⟩, ?_, ?_⟩
    · rw [rest_advance] at stands'
      obtain ⟨rest, is_rest⟩ := stands
      rw [← is_rest, List.drop_left] at stands'
      exact is_rest ▸ (List.prefix_append_right_inj front).mpr stands'
    · rw [List.length_append, advance, advance, advance, Nat.add_assoc]
  · rintro ⟨_, ⟨value, front, back, written, written', rfl⟩, stands, rfl⟩
    have early : front <+: cursor.rest := (List.prefix_append front back).trans stands
    refine ⟨value, _, (first _ fits).mpr ⟨front, written, early, rfl⟩,
      (second value _ (fits.advance early)).mpr ⟨back, written', ?_, ?_⟩⟩
    · rw [rest_advance]
      obtain ⟨rest, is_rest⟩ := early
      rw [← is_rest, List.prefix_append_right_inj] at stands
      rw [← is_rest, List.drop_left]
      exact stands
    · rw [List.length_append, advance, advance, advance, Nat.add_assoc]

theorem exact_take (overflow short : Nat → Cursor → ε) (n : Nat) :
    Exact (take overflow short n) fun slice taken => slice.val = taken := by
  intro cursor fits slice after
  unfold take
  rw [returns_bind]
  constructor
  · rintro ⟨_, _, read, continued⟩
    obtain ⟨rfl, rfl⟩ := returns_get.mp read
    split at continued
    · exact (returns_fail.mp continued).elim
    · split at continued
      · next within =>
        obtain ⟨_, _, moved, same⟩ := returns_bind.mp continued
        obtain rfl := returns_modify.mp moved
        obtain ⟨rfl, rfl⟩ := returns_pure.mp same
        exact ⟨_, rfl, List.take_prefix _ _, by rw [length_take_rest _ within]⟩
      · exact (returns_fail.mp continued).elim
  · rintro ⟨_, rfl, stands, rfl⟩
    have within := (fits.advance stands).inside
    have bounded := fits.bounded
    change cursor.pos + slice.val.length ≤ cursor.bytes.length at within
    rw [slice.property] at within
    refine ⟨cursor, cursor, rfl, ?_⟩
    rw [if_neg (by omega), dif_pos within]
    have same := List.prefix_iff_eq_take.mp stands
    rw [slice.property] at same ⊢
    exact .bind rfl (returns_pure.mpr ⟨Subtype.ext same.symm, rfl⟩)

/-- Succeed only at the end of the bytes. -/
def finish (trailing : Cursor → ε) : Fallible Cursor ε Unit := do
  let cursor ← Fallible.get
  if cursor.pos = cursor.bytes.length then pure () else Fallible.fail (trailing cursor)

/-- Read to its end, a string is one that is written for the value. -/
theorem Exact.whole (exact_read : Exact read format) (trailing : Cursor → ε) {bytes : List UInt8}
    (bounded : bytes.length < 2 ^ 64) {value : α} :
    (Fallible.run (do
      let value ← read
      finish trailing
      pure value) ⟨bytes, 0⟩).1 = .ok value ↔ format value bytes := by
  have fits : Fits ⟨bytes, 0⟩ := ⟨Nat.zero_le _, bounded⟩
  constructor
  · intro ok
    obtain ⟨_, mid, returned, ended⟩ := returns_bind.mp (returns_of_ok ok)
    obtain ⟨taken, written, stands, rfl⟩ := (exact_read _ fits).mp returned
    obtain ⟨_, _, finished, same⟩ := returns_bind.mp ended
    obtain ⟨rfl, _⟩ := returns_pure.mp same
    obtain ⟨_, _, got, checked⟩ := returns_bind.mp finished
    obtain ⟨rfl, rfl⟩ := returns_get.mp got
    split at checked
    · next at_end =>
      change 0 + taken.length = bytes.length at at_end
      rw [Nat.zero_add] at at_end
      rwa [stands.eq_of_length at_end] at written
    · exact (returns_fail.mp checked).elim
  · intro written
    have returned := (exact_read _ fits).mpr ⟨bytes, written, List.prefix_rfl, rfl⟩
    generalize is_after : advance ⟨bytes, 0⟩ bytes.length = after at returned
    have at_end : after.pos = after.bytes.length := by
      rw [← is_after]
      exact Nat.zero_add _
    have finished : (finish trailing).Returns after () after := by
      refine .bind rfl ?_
      rw [if_pos at_end]
      rfl
    have ended : Returns (finish trailing >>= fun _ => pure value) after value after :=
      finished.bind rfl
    exact congrArg Prod.fst (returned.bind ended)

end Cursor

end Library
