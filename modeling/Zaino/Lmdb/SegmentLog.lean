import Zaino.Library.KWayMerge
import Zaino.Persistence.Backend

/-!
# The run-log segment format

A run log is a sequence of segments. A segment is a header of thirty bytes, which names the number
of records, the length of the payload and its checksum, and the payload: the records in key order,
each a key and a value behind their lengths. A cursor reads the records one after another and
verifies the checksum once the payload is used up. Reading an encoded segment yields the entries it
was made from (`yields_encoded`), also from within a log (`buildCursors_encoded`).
-/

namespace Zaino.Lmdb

open Library Persistence List

/-- The segment's first four bytes. -/
def segmentMagic : List UInt8 := "ZDSG".toUTF8.toList

def segmentVersion : Nat := 1

/-- The size of the header: magic, version, entry count, payload length and checksum. -/
def headerLen : Nat := 4 + 2 + 8 + 8 + 8

/-- The size of a record's length prefix. -/
def lenPrefix : Nat := 4

def fnvOffset : UInt64 := 0xcbf29ce484222325

def fnvPrime : UInt64 := 0x00000100000001b3

/-- The FNV-1a hash of the bytes. -/
def fnv1a64 (bytes : List UInt8) : UInt64 :=
  bytes.foldl (fun hash byte => (hash ^^^ byte.toUInt64) * fnvPrime) fnvOffset

inductive SegmentError where
  | badMagic (found : List UInt8)
  | badVersion (found : Nat)
  | truncated (need available : Nat)
  | checksumMismatch (expected computed : UInt64)
  | entryTooLarge (len : Nat)
  deriving DecidableEq

/-! ## Writing -/

/-- One length-framed byte string. -/
def encodeFramed (bytes : List UInt8) : Except SegmentError (List UInt8) :=
  if bytes.length < 2 ^ 32 then .ok (bigEndian lenPrefix bytes.length ++ bytes)
  else .error (.entryTooLarge bytes.length)

def encodePayload : List (RawKey × RawValue) → Except SegmentError (List UInt8)
  | [] => .ok []
  | entry :: entries => do
    let key ← encodeFramed entry.1
    let value ← encodeFramed entry.2
    let payload ← encodePayload entries
    pure (key ++ value ++ payload)

/-- The bytes of a segment's header. -/
def encodeHeader (entryCount payloadLen : Nat) (checksum : UInt64) : List UInt8 :=
  segmentMagic ++ bigEndian 2 segmentVersion ++ bigEndian 8 entryCount ++ bigEndian 8 payloadLen ++
    bigEndian 8 checksum.toNat

/-- Encode one segment from a batch's entries, in key order. -/
def encodeSegment (entries : List (RawKey × RawValue)) : Except SegmentError (List UInt8) := do
  let payload ← encodePayload entries
  if ¬ entries.length < 2 ^ 64 then .error (.entryTooLarge entries.length)
  else if ¬ payload.length < 2 ^ 64 then .error (.entryTooLarge payload.length)
  else pure (encodeHeader entries.length payload.length (fnv1a64 payload) ++ payload)

/-! ## Reading -/

structure SegmentHeader where
  entryCount : Nat
  payloadLen : Nat
  checksum : UInt64
  deriving DecidableEq

/-- The segment's total byte length. -/
def SegmentHeader.totalLen (header : SegmentHeader) : Nat :=
  min (header.payloadLen + headerLen) (2 ^ 64 - 1)

/-- Parse a segment's header, validating magic and version. -/
def parseHeader (bytes : List UInt8) : Except SegmentError SegmentHeader :=
  if bytes.length < headerLen then .error (.truncated headerLen bytes.length)
  else if bytes.take 4 ≠ segmentMagic then .error (.badMagic (bytes.take 4))
  else if ofBigEndian ((bytes.drop 4).take 2) ≠ segmentVersion then
    .error (.badVersion (ofBigEndian ((bytes.drop 4).take 2)))
  else
    .ok {
      entryCount := ofBigEndian ((bytes.drop 6).take 8)
      payloadLen := ofBigEndian ((bytes.drop 14).take 8)
      checksum := UInt64.ofNat (ofBigEndian ((bytes.drop 22).take 8)) }

/-- A reader over one segment's payload: the bytes not read yet, how many of those that the header
claims are not in the file, and the checksums of the payload read and of the header. -/
structure SegmentCursor where
  unread : List UInt8
  missing : Nat
  computed : UInt64
  expected : UInt64
  deriving DecidableEq

namespace SegmentCursor

/-- A cursor over the segment whose header stands at `offset`. -/
def new (file : List UInt8) (header : SegmentHeader) (offset : Nat) : SegmentCursor :=
  let payload := (file.drop (offset + headerLen)).take header.payloadLen
  ⟨payload, header.payloadLen - payload.length, fnv1a64 payload, header.checksum⟩

/-- Read one length-framed byte string; also the bytes behind it. -/
def readRecord (bytes : List UInt8) : Except SegmentError (List UInt8 × List UInt8) :=
  if bytes.length < lenPrefix then .error (.truncated lenPrefix bytes.length)
  else
    let len := ofBigEndian (bytes.take lenPrefix)
    let rest := bytes.drop lenPrefix
    if rest.length < len then .error (.truncated len rest.length)
    else .ok (rest.take len, rest.drop len)

/-- The next record and the cursor behind it, or `none` at the segment's end, where the checksum is
verified. -/
def next (cursor : SegmentCursor) :
    Except SegmentError (Option ((RawKey × RawValue) × SegmentCursor)) :=
  if cursor.unread = [] ∧ cursor.missing = 0 then
    if cursor.computed ≠ cursor.expected then
      .error (.checksumMismatch cursor.expected cursor.computed)
    else .ok none
  else do
    let key ← readRecord cursor.unread
    let value ← readRecord key.2
    pure (some ((key.1, value.1), { cursor with unread := value.2 }))

end SegmentCursor

/-- Open a cursor over each segment by walking the log's headers; also the offset behind the last. -/
def openCursors (file : List UInt8) (name : Namespace) : (count offset : Nat) →
    Except CommitError (List SegmentCursor × Nat)
  | 0, offset => .ok ([], offset)
  | count + 1, offset =>
    match parseHeader ((file.drop offset).take headerLen) with
    | .error _ => .error (.deferredLogCorrupt name)
    | .ok header =>
      if offset + header.totalLen < 2 ^ 64 then do
        let rest ← openCursors file name count (offset + header.totalLen)
        pure (SegmentCursor.new file header offset :: rest.1, rest.2)
      else .error (.deferredLogCorrupt name)

/-- The cursors of a log; its segments must sum to the committed length. -/
def buildCursors (file : List UInt8) (name : Namespace) (segmentCount logLen : Nat) :
    Except CommitError (List SegmentCursor) := do
  let opened ← openCursors file name segmentCount 0
  if opened.2 ≠ logLen then .error (.deferredLogCorrupt name) else pure opened.1

/-! ## Reading back what was written -/

variable {bytes payload log : List UInt8} {entries : List (RawKey × RawValue)}
  {segments : List (List (RawKey × RawValue))}

theorem readRecord_framed {framed : List UInt8} (encoded : encodeFramed bytes = .ok framed)
    (rest : List UInt8) : SegmentCursor.readRecord (framed ++ rest) = .ok (bytes, rest) := by
  unfold encodeFramed at encoded
  split at encoded
  · next small =>
    cases encoded
    have prefixed : (bigEndian lenPrefix bytes.length).length = lenPrefix := length_bigEndian _ _
    have len : ofBigEndian (bigEndian lenPrefix bytes.length) = bytes.length := by
      rw [ofBigEndian_bigEndian]
      exact Nat.mod_eq_of_lt small
    rw [append_assoc]
    unfold SegmentCursor.readRecord
    rw [if_neg (by simp), take_left' prefixed, drop_left' prefixed, len]
    rw [if_neg (by simp), take_left' rfl, drop_left' rfl]
  · cases encoded

/-- A cursor over an encoded payload yields the entries. -/
theorem yields_encoded (encoded : encodePayload entries = .ok payload) (hash : UInt64) :
    KWayMerge.Yields SegmentCursor.next ⟨payload, 0, hash, hash⟩ entries := by
  induction entries generalizing payload with
  | nil =>
    cases encoded
    simp [KWayMerge.Yields, SegmentCursor.next]
  | cons entry entries ih =>
    rw [encodePayload] at encoded
    cases key : encodeFramed entry.1 with
    | error e =>
      rw [key] at encoded
      cases encoded
    | ok framedKey =>
      cases value : encodeFramed entry.2 with
      | error e =>
        rw [key, value] at encoded
        cases encoded
      | ok framedValue =>
        cases rest : encodePayload entries with
        | error e =>
          rw [key, value, rest] at encoded
          cases encoded
        | ok left =>
          rw [key, value, rest] at encoded
          cases encoded
          refine ⟨⟨left, 0, hash, hash⟩, ?_, ih rest⟩
          have first := readRecord_framed key (framedValue ++ left)
          have second := readRecord_framed value left
          have unread : framedKey ++ framedValue ++ left ≠ [] := by
            intro empty
            rw [append_assoc] at empty
            rw [empty] at first
            cases first
          unfold SegmentCursor.next
          rw [if_neg fun done => unread done.1]
          rw [append_assoc, first]
          change (do
            let value ← SegmentCursor.readRecord (framedValue ++ left)
            pure (some ((entry.1, value.1), _))) = _
          rw [second]
          rfl

theorem length_encodeHeader (entryCount payloadLen : Nat) (checksum : UInt64) :
    (encodeHeader entryCount payloadLen checksum).length = headerLen := by
  have magic : segmentMagic.length = 4 := by decide +kernel
  simp [encodeHeader, magic, headerLen]

/-- Cutting five fields out of their concatenation. -/
theorem take_drop_fields {a b c d e : List UInt8} (a_len : a.length = 4) (b_len : b.length = 2)
    (c_len : c.length = 8) (d_len : d.length = 8) (e_len : e.length = 8) :
    (a ++ b ++ c ++ d ++ e).take 4 = a ∧ ((a ++ b ++ c ++ d ++ e).drop 4).take 2 = b ∧
      ((a ++ b ++ c ++ d ++ e).drop 6).take 8 = c ∧ ((a ++ b ++ c ++ d ++ e).drop 14).take 8 = d ∧
      ((a ++ b ++ c ++ d ++ e).drop 22).take 8 = e := by
  refine ⟨?_, ?_, ?_, ?_, ?_⟩
  · rw [append_assoc, append_assoc, append_assoc, take_left' a_len]
  · rw [append_assoc, append_assoc, append_assoc, drop_left' a_len,
      take_left' b_len]
  · rw [append_assoc, append_assoc (a ++ b), drop_left' (by simp [a_len, b_len]),
      take_left' c_len]
  · rw [append_assoc (a ++ b ++ c), drop_left' (by simp [a_len, b_len, c_len]),
      take_left' d_len]
  · rw [drop_left' (by simp [a_len, b_len, c_len, d_len]),
      take_of_length_le (by omega)]

theorem parseHeader_encodeHeader {entryCount payloadLen : Nat} (checksum : UInt64)
    (count_fits : entryCount < 2 ^ 64) (len_fits : payloadLen < 2 ^ 64) :
    parseHeader (encodeHeader entryCount payloadLen checksum) =
      .ok ⟨entryCount, payloadLen, checksum⟩ := by
  have magic : segmentMagic.length = 4 := by decide +kernel
  have version : ofBigEndian (bigEndian 2 segmentVersion) = segmentVersion := by decide
  have count : ofBigEndian (bigEndian 8 entryCount) = entryCount := by
    rw [ofBigEndian_bigEndian]
    exact Nat.mod_eq_of_lt count_fits
  have len : ofBigEndian (bigEndian 8 payloadLen) = payloadLen := by
    rw [ofBigEndian_bigEndian]
    exact Nat.mod_eq_of_lt len_fits
  have sum : UInt64.ofNat (ofBigEndian (bigEndian 8 checksum.toNat)) = checksum := by
    have small : checksum.toNat % 256 ^ 8 = checksum.toNat := Nat.mod_eq_of_lt checksum.toNat_lt
    rw [ofBigEndian_bigEndian, small]
    exact UInt64.ofNat_toNat
  have whole := length_encodeHeader entryCount payloadLen checksum
  obtain ⟨at_magic, at_version, at_count, at_len, at_sum⟩ := take_drop_fields magic
    (length_bigEndian 2 segmentVersion) (length_bigEndian 8 entryCount)
    (length_bigEndian 8 payloadLen) (length_bigEndian 8 checksum.toNat)
  unfold parseHeader
  rw [if_neg (by omega), encodeHeader, at_magic, at_version, at_count, at_len, at_sum, version,
    count, len, sum]
  simp

/-! ## A log of segments -/

/-- The bytes are the encoded segments, one after another. -/
inductive EncodedLog : List (List (RawKey × RawValue)) → List UInt8 → Prop
  | nil : EncodedLog [] []
  | cons {entries : List (RawKey × RawValue)} {segments : List (List (RawKey × RawValue))}
    {bytes log : List UInt8} :
    encodeSegment entries = .ok bytes → EncodedLog segments log →
    EncodedLog (entries :: segments) (bytes ++ log)

theorem EncodedLog.append (encoded : EncodedLog segments log)
    (last : encodeSegment entries = .ok bytes) :
    EncodedLog (segments ++ [entries]) (log ++ bytes) := by
  induction encoded with
  | nil =>
    have single := EncodedLog.cons last EncodedLog.nil
    rwa [append_nil] at single
  | cons first _ ih =>
    rw [append_assoc]
    exact EncodedLog.cons first ih

/-- What an encoded segment consists of. -/
theorem encodeSegment_ok (encoded : encodeSegment entries = .ok bytes) :
    ∃ payload, encodePayload entries = .ok payload ∧ entries.length < 2 ^ 64 ∧
      payload.length < 2 ^ 64 ∧
      bytes = encodeHeader entries.length payload.length (fnv1a64 payload) ++ payload := by
  unfold encodeSegment at encoded
  cases outcome : encodePayload entries with
  | error e =>
    rw [outcome] at encoded
    cases encoded
  | ok payload =>
    rw [outcome] at encoded
    change (if ¬ entries.length < 2 ^ 64 then _ else if ¬ payload.length < 2 ^ 64 then _ else _) = _
      at encoded
    split at encoded
    · cases encoded
    · next count_fits =>
      split at encoded
      · cases encoded
      · next len_fits =>
        cases encoded
        exact ⟨payload, rfl, Decidable.not_not.mp count_fits, Decidable.not_not.mp len_fits, rfl⟩

theorem length_le_payload
    (encoded : encodePayload entries = .ok payload) : entries.length ≤ payload.length := by
  induction entries generalizing payload with
  | nil => exact Nat.zero_le _
  | cons entry entries ih =>
    unfold encodePayload at encoded
    unfold encodeFramed at encoded
    split at encoded
    · cases value : (if entry.2.length < 2 ^ 32 then
          Except.ok (bigEndian lenPrefix entry.2.length ++ entry.2)
        else Except.error (SegmentError.entryTooLarge entry.2.length)) with
      | error e =>
        rw [value] at encoded
        cases encoded
      | ok framed =>
        rw [value] at encoded
        cases rest : encodePayload entries with
        | error e =>
          rw [rest] at encoded
          cases encoded
        | ok others =>
          rw [rest] at encoded
          cases encoded
          have shorter := ih rest
          simp only [length_append, length_cons, length_bigEndian, lenPrefix]
          omega
    · cases encoded

variable (encoded : EncodedLog segments log)

include encoded

/-- A log has at least a byte for each entry. -/
theorem EncodedLog.entries_le : segments.flatten.length ≤ log.length := by
  induction encoded with
  | nil => exact Nat.le_refl 0
  | cons encodes _ ih =>
    obtain ⟨payload, payloads, _, _, rfl⟩ := encodeSegment_ok encodes
    have shorter := length_le_payload payloads
    rw [flatten_cons, length_append, length_append, length_append]
    omega

/-- Cursors opened on a log, behind what stands before it, yield its segments. -/
theorem openCursors_encoded (name : Namespace)
    (before after : List UInt8) (fits : (before ++ log).length < 2 ^ 64) :
    ∃ cursors, openCursors (before ++ log ++ after) name segments.length before.length =
        .ok (cursors, (before ++ log).length) ∧
      List.Forall₂ (KWayMerge.Yields SegmentCursor.next) cursors segments := by
  induction encoded generalizing before with
  | nil =>
    refine ⟨[], ?_, List.Forall₂.nil⟩
    rw [append_nil]
    rfl
  | @cons entries segments bytes log first _ ih =>
    obtain ⟨payload, payload_encoded, count_fits, len_fits, rfl⟩ := encodeSegment_ok first
    have header_len := length_encodeHeader entries.length payload.length (fnv1a64 payload)
    generalize header_bytes : encodeHeader entries.length payload.length (fnv1a64 payload) = header
      at header_len fits ih ⊢
    have parsed : parseHeader header = .ok ⟨entries.length, payload.length, fnv1a64 payload⟩ := by
      rw [← header_bytes]
      exact parseHeader_encodeHeader _ count_fits len_fits
    obtain ⟨cursors, opened, yields⟩ := ih (before ++ (header ++ payload)) (by
      rw [← append_assoc] at fits
      exact fits)
    have at_header : (before ++ (header ++ payload ++ log) ++ after).drop before.length =
        header ++ (payload ++ (log ++ after)) := by
      rw [append_assoc, drop_left' rfl]
      simp only [append_assoc]
    have at_payload : ((before ++ (header ++ payload ++ log) ++ after).drop
        (before.length + headerLen)).take payload.length = payload := by
      rw [← drop_drop, at_header, drop_left' header_len, take_left' rfl]
    have payload_fits : before.length + (payload.length + headerLen) < 2 ^ 64 := by
      simp only [length_append] at fits
      omega
    have total : before.length + SegmentHeader.totalLen
        ⟨entries.length, payload.length, fnv1a64 payload⟩ =
          (before ++ (header ++ payload)).length := by
      rw [SegmentHeader.totalLen, length_append, length_append, header_len]
      have capped : min (payload.length + headerLen) (2 ^ 64 - 1) = payload.length + headerLen :=
        Nat.min_eq_left (by omega)
      rw [capped]
      omega
    have cursor : SegmentCursor.new (before ++ (header ++ payload ++ log) ++ after)
        ⟨entries.length, payload.length, fnv1a64 payload⟩ before.length =
          ⟨payload, 0, fnv1a64 payload, fnv1a64 payload⟩ := by
      simp only [SegmentCursor.new, at_payload, Nat.sub_self]
    refine ⟨⟨payload, 0, fnv1a64 payload, fnv1a64 payload⟩ :: cursors, ?_,
      List.Forall₂.cons (yields_encoded payload_encoded _) yields⟩
    rw [length_cons, openCursors, at_header, take_left' header_len, parsed]
    dsimp only
    rw [if_pos (by
      rw [total]
      simp only [length_append, header_len]
      omega), total, cursor]
    rw [append_assoc before] at opened
    rw [opened]
    rfl

/-- Reading a whole log, with whatever stands behind its committed bytes. -/
theorem buildCursors_encoded (name : Namespace) (after : List UInt8) (fits : log.length < 2 ^ 64) :
    ∃ cursors, buildCursors (log ++ after) name segments.length log.length = .ok cursors ∧
      List.Forall₂ (KWayMerge.Yields SegmentCursor.next) cursors segments := by
  obtain ⟨cursors, opened, yields⟩ := openCursors_encoded encoded name [] after fits
  rw [nil_append, length_nil] at opened
  refine ⟨cursors, ?_, yields⟩
  rw [buildCursors, opened]
  simp [bind, Except.bind, pure, Except.pure]

end Zaino.Lmdb
