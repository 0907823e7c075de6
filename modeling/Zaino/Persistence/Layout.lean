import Zaino.Library.BigEndian
import Zaino.Library.Wire

/-!
# Derived record layouts

A record's bytes are those of its fields in declaration order, each field a layout atom. The derive
emits one call per field on both sides and a final check that nothing trails, so a record is
decoded from the bytes it encodes to and from no others (`record_codec`).
-/

namespace Zaino.Persistence

open Library List

inductive DecodeError
  | invalid (message : String)
  deriving DecidableEq

namespace Writer

/-- A little-endian `u32`. -/
def u32 (value : UInt32) : List UInt8 := (bigEndian 4 value.toNat).reverse

/-- A little-endian `u64`. -/
def u64 (value : UInt64) : List UInt8 := (bigEndian 8 value.toNat).reverse

/-- A byte run behind its length. The writer asserts that the length fits a `u32`; that it panics is
`none`. -/
def lenPrefixed (bytes : List UInt8) : Option (List UInt8) :=
  if bytes.length < 2 ^ 32 then some (u32 (.ofNat bytes.length) ++ bytes) else none

end Writer

namespace Cursor

abbrev Reading (α : Type) : Type := Fallible Library.Cursor DecodeError α

/-- Advance over `n` bytes, or fail if fewer remain. -/
def take : (n : Nat) → Reading { slice : List UInt8 // slice.length = n } :=
  Library.Cursor.take (fun _ _ => .invalid "length overflow") fun n cursor =>
    .invalid s!"unexpected end of input: need {n} bytes at offset {cursor.pos}, have {cursor.bytes.length}"

def u32 : Reading UInt32 := do
  let bytes ← take 4
  pure (.ofNat (ofBigEndian bytes.val.reverse))

def u64 : Reading UInt64 := do
  let bytes ← take 8
  pure (.ofNat (ofBigEndian bytes.val.reverse))

def lenPrefixed : Reading (List UInt8) := do
  let len ← u32
  let bytes ← take len.toNat
  pure bytes.val

/-- Succeed only if every byte was consumed. -/
def finish : Reading Unit := Library.Cursor.finish fun cursor =>
  .invalid s!"trailing bytes: consumed {cursor.pos} of {cursor.bytes.length}"

end Cursor

/-- The kinds of field a record may have. -/
inductive LayoutAtom
  | u8
  | u32
  | u64
  | array (n : Nat)
  | bytes
  | beU32
  | beU64
  deriving DecidableEq

namespace LayoutAtom

/-- The type of a field. -/
@[reducible]
def Value : LayoutAtom → Type
  | u8 => UInt8
  | u32 | beU32 => UInt32
  | u64 | beU64 => UInt64
  | array n => { bytes : List UInt8 // bytes.length = n }
  | bytes => List UInt8

/-- What a field appends to the writer. -/
def encode : (atom : LayoutAtom) → atom.Value → Option (List UInt8)
  | u8, value => some [value]
  | u32, value => some (Writer.u32 value)
  | u64, value => some (Writer.u64 value)
  | array _, value => some value.val
  | bytes, value => Writer.lenPrefixed value
  | beU32, value => some (bigEndian 4 value.toNat)
  | beU64, value => some (bigEndian 8 value.toNat)

def decode : (atom : LayoutAtom) → Cursor.Reading atom.Value
  | u8 => do
    let bytes ← Cursor.take 1
    pure (bytes.val.head (ne_nil_of_length_eq_add_one bytes.property))
  | u32 => Cursor.u32
  | u64 => Cursor.u64
  | array n => Cursor.take n
  | bytes => Cursor.lenPrefixed
  | beU32 => do
    let bytes ← Cursor.take 4
    pure (.ofNat (ofBigEndian bytes.val))
  | beU64 => do
    let bytes ← Cursor.take 8
    pure (.ofNat (ofBigEndian bytes.val))

end LayoutAtom

/-- A record with the given fields. -/
def Record : List LayoutAtom → Type
  | [] => Unit
  | atom :: layout => atom.Value × Record layout

namespace Record

/-- The derived `encode`. -/
def encode : (layout : List LayoutAtom) → Record layout → Option (List UInt8)
  | [], _ => some []
  | atom :: layout, record => do
    let front ← atom.encode record.1
    let back ← encode layout record.2
    some (front ++ back)

def decodeFields : (layout : List LayoutAtom) → Cursor.Reading (Record layout)
  | [] => pure ()
  | atom :: layout => do
    let value ← atom.decode
    let record ← decodeFields layout
    pure (value, record)

/-- The derived `decode`. -/
def decode (layout : List LayoutAtom) (bytes : List UInt8) : Except DecodeError (Record layout) :=
  (Fallible.run (do
    let record ← decodeFields layout
    Cursor.finish
    pure record) ⟨bytes, 0⟩).1

/-- Every byte run has a length that a `u32` holds. -/
def Framed : (layout : List LayoutAtom) → Record layout → Prop
  | [], _ => True
  | .bytes :: layout, record => record.1.length < 2 ^ 32 ∧ Framed layout record.2
  | _ :: layout, record => Framed layout record.2

end Record

/-! ## The atoms -/

/-- Numbers read from the bytes of some width, in an order that `turn` describes. -/
theorem exact_number {width : Nat} {α : Type} {toNat : α → Nat} {ofNat : Nat → α}
    (turn : List UInt8 → List UInt8) (turned : ∀ bytes, turn (turn bytes) = bytes)
    (length : ∀ bytes, (turn bytes).length = bytes.length)
    (fits : ∀ value, toNat value < 256 ^ width) (ofNat_toNat : ∀ value, ofNat (toNat value) = value)
    (toNat_ofNat : ∀ n < 256 ^ width, toNat (ofNat n) = n) :
    Library.Cursor.Exact (do
      let bytes ← Cursor.take width
      pure (ofNat (ofBigEndian (turn bytes.val))))
      fun value taken => some (turn (bigEndian width (toNat value))) = some taken := by
  refine ((Cursor.exact_take _ _ width).bind fun bytes => Cursor.exact_pure _).congr ?_
  intro value taken
  rw [Option.some.injEq]
  constructor
  · rintro ⟨bytes, front, back, rfl, ⟨rfl, rfl⟩, rfl⟩
    have same := bigEndian_ofBigEndian (turn bytes.val)
    have small := ofBigEndian_lt (turn bytes.val)
    rw [length, bytes.property] at same small
    rw [append_nil, toNat_ofNat _ small, same, turned]
  · rintro rfl
    refine ⟨⟨turn (bigEndian width (toNat value)), ?_⟩, _, [], rfl, ⟨?_, rfl⟩, (append_nil _).symm⟩
    · rw [length, length_bigEndian]
    · rw [turned, ofBigEndian_bigEndian, Nat.mod_eq_of_lt (fits value), ofNat_toNat]

theorem Cursor.take_exact (n : Nat) :
    Cursor.Exact (Cursor.take n) fun slice taken => some slice.val = some taken :=
  (Cursor.exact_take _ _ n).congr fun _ _ => Option.some_inj.symm

theorem Cursor.u32_exact :
    Cursor.Exact Cursor.u32 fun value taken => some (Writer.u32 value) = some taken :=
  exact_number reverse reverse_reverse (fun _ => length_reverse) UInt32.toNat_lt
    (fun _ => UInt32.ofNat_toNat) fun _ small => UInt32.toNat_ofNat_of_lt small

theorem Cursor.lenPrefixed_exact :
    Cursor.Exact Cursor.lenPrefixed fun value taken => Writer.lenPrefixed value = some taken := by
  refine (Cursor.u32_exact.bind fun len => (Cursor.exact_take _ _ len.toNat).bind fun bytes =>
    Cursor.exact_pure bytes.val).congr fun value taken => ?_
  unfold Writer.lenPrefixed
  constructor
  · rintro ⟨len, _, _, ⟨⟩, ⟨bytes, _, _, rfl, ⟨rfl, rfl⟩, rfl⟩, rfl⟩
    rw [bytes.property, if_pos len.toNat_lt, UInt32.ofNat_toNat, append_nil]
  · intro written
    split at written
    · next small =>
      cases written
      exact ⟨.ofNat value.length, _, value, rfl,
        ⟨⟨value, (UInt32.toNat_ofNat_of_lt small).symm⟩, _, [], rfl, ⟨rfl, rfl⟩,
          (append_nil _).symm⟩, rfl⟩
    · cases written

/-- An atom is decoded from the bytes it encodes to and from no others. -/
theorem LayoutAtom.decode_exact : (atom : LayoutAtom) →
    Cursor.Exact atom.decode fun value taken => atom.encode value = some taken
  | u8 => by
    refine ((Cursor.exact_take _ _ 1).bind fun bytes => Cursor.exact_pure _).congr ?_
    intro value taken
    constructor
    · rintro ⟨⟨bytes, single⟩, _, _, rfl, ⟨rfl, rfl⟩, rfl⟩
      obtain ⟨byte, rfl⟩ := length_eq_one_iff.mp single
      rfl
    · rintro ⟨⟩
      exact ⟨⟨[value], rfl⟩, _, [], rfl, ⟨rfl, rfl⟩, rfl⟩
  | u32 => Cursor.u32_exact
  | u64 => exact_number reverse reverse_reverse (fun _ => length_reverse) UInt64.toNat_lt
      (fun _ => UInt64.ofNat_toNat) fun _ small => UInt64.toNat_ofNat_of_lt small
  | array n => Cursor.take_exact n
  | bytes => Cursor.lenPrefixed_exact
  | beU32 => exact_number id (fun _ => rfl) (fun _ => rfl) UInt32.toNat_lt
      (fun _ => UInt32.ofNat_toNat) fun _ small => UInt32.toNat_ofNat_of_lt small
  | beU64 => exact_number id (fun _ => rfl) (fun _ => rfl) UInt64.toNat_lt
      (fun _ => UInt64.ofNat_toNat) fun _ small => UInt64.toNat_ofNat_of_lt small

/-! ## Records -/

namespace Record

theorem decodeFields_exact (layout : List LayoutAtom) :
    Cursor.Exact (decodeFields layout) fun record taken => encode layout record = some taken := by
  induction layout with
  | nil =>
    refine (Cursor.exact_pure ()).congr fun record taken => ?_
    exact ⟨fun written => written.2 ▸ rfl, fun written => ⟨rfl, (Option.some.inj written).symm⟩⟩
  | cons atom layout ih =>
    refine (atom.decode_exact.bind fun value => ih.bind fun record => Cursor.exact_pure _).congr ?_
    intro record taken
    rw [encode]
    constructor
    · rintro ⟨value, front, _, written, ⟨record, back, _, written', ⟨rfl, rfl⟩, rfl⟩, rfl⟩
      rw [written, written', append_nil]
      rfl
    · intro written
      obtain ⟨front, first, written⟩ := Option.bind_eq_some_iff.mp written
      obtain ⟨back, others, ⟨⟩⟩ := Option.bind_eq_some_iff.mp written
      exact ⟨record.1, front, back, first,
        ⟨record.2, back, [], others, ⟨rfl, rfl⟩, (append_nil _).symm⟩, rfl⟩

theorem exists_encode (layout : List LayoutAtom) (record : Record layout)
    (framed : Framed layout record) : ∃ bytes, encode layout record = some bytes := by
  induction layout with
  | nil => exact ⟨[], rfl⟩
  | cons atom layout ih =>
    have ⟨⟨front, written₁⟩, framed⟩ :
        (∃ front, atom.encode record.1 = some front) ∧ Framed layout record.2 := by
      cases atom with
      | bytes => exact ⟨⟨_, if_pos framed.1⟩, framed.2⟩
      | _ => exact ⟨⟨_, rfl⟩, framed⟩
    obtain ⟨back, written₂⟩ := ih record.2 framed
    exact ⟨front ++ back, by rw [encode, written₁, written₂]; rfl⟩

end Record

/-- The key of a height, for a type of heights that converts to `u64`. -/
def HeightKey.encode {K : Type} (into : K → UInt64) (height : K) : Option (List UInt8) :=
  LayoutAtom.beU64.encode (into height)

/-- A record whose byte runs are framed encodes, a byte string that fits in memory decodes to the
record exactly when the record encodes to it, and height keys order as their heights do. -/
theorem record_codec (layout : List LayoutAtom) (record : Record layout) :
    (Record.Framed layout record → ∃ bytes, Record.encode layout record = some bytes) ∧
      (∀ bytes : List UInt8, bytes.length < 2 ^ 64 →
        (Record.decode layout bytes = .ok record ↔ Record.encode layout record = some bytes)) ∧
      ∀ {K : Type} (into : K → UInt64) (first second : K), ∃ key key',
        HeightKey.encode into first = some key ∧ HeightKey.encode into second = some key' ∧
          compare key key' = compare (into first).toNat (into second).toNat := by
  refine ⟨Record.exists_encode layout record, fun bytes bounded => ?_, fun into first second => ?_⟩
  · exact (Record.decodeFields_exact layout).whole _ bounded
  · exact ⟨_, _, rfl, rfl, compare_bigEndian 8 _ _ (UInt64.toNat_lt _) (UInt64.toNat_lt _)⟩

end Zaino.Persistence
