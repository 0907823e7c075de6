import Mathlib.Data.List.DropRight
import Mathlib.Data.Nat.Digits.Lemmas
import Zaino.Library.BigEndian
import Zaino.Primitives

/-!
# The height a coinbase commits to

`coinbaseHeight` reads the push that a coinbase script opens with permissively, writes the number it
read again with `canonicalPush`, and accepts the height only if the two are the same bytes.
`scriptNumberPush` says what the push of a number is, from its base 256 digits.
-/

namespace Zaino.BlockDecode

open Library List

/-- The rejections of a coinbase script. -/
inductive DecodeError where
  | coinbaseHeight (reason : String)
  | height (got : Nat)
  deriving DecidableEq

def toLeBytes (n : Nat) : List UInt8 := (bigEndian 8 n).reverse

/-- The number of some digits, copied to the front of a zeroed array. -/
def fromLeBytes (digits : List UInt8) : Nat := ofBigEndian digits.reverse

/-- Digits with a zero byte behind them when the top one would read as a sign. -/
def padSign (digits : List UInt8) : List UInt8 :=
  if digits.getLast?.any (fun top => top &&& 0x80 != 0) then digits ++ [0] else digits

def canonicalPush (height : Nat) : List UInt8 :=
  if 1 ≤ height ∧ height ≤ 16 then [UInt8.ofNat (0x50 + height)]
  else
    let digits := padSign ((toLeBytes height).rdropWhile (· == 0))
    UInt8.ofNat digits.length :: digits

/-- The number that a script opens with, and the length of its push. -/
def openingPush : Script → Except DecodeError (Nat × Nat)
  | [] => .error (.coinbaseHeight "empty coinbase script")
  | first :: rest =>
    if 0x51 ≤ first.toNat ∧ first.toNat ≤ 0x60 then .ok (first.toNat - 0x50, 1)
    else if 1 ≤ first.toNat ∧ first.toNat ≤ 5 then
      if first.toNat ≤ rest.length then
        .ok (fromLeBytes (rest.take first.toNat), 1 + first.toNat)
      else .error (.coinbaseHeight "height push truncated")
    else .error (.coinbaseHeight "script does not open with a height push")

def coinbaseHeight (prevHash : BlockHash) (scriptSig : Script) : Except DecodeError Height :=
  if prevHash = 0 then .ok .genesis
  else do
    let (height, pushLen) ← openingPush scriptSig
    if scriptSig.take pushLen ≠ canonicalPush height then
      .error (.coinbaseHeight "height push is not canonical")
    else if 2 ^ 32 ≤ height then
      .error (.coinbaseHeight "height exceeds the 32-bit range")
    else
      match Height.tryFrom height with
      | some height => .ok height
      | none => .error (.height height)

/-! ## The push of a number -/

/-- The minimal little-endian bytes of a number. -/
def magnitude (n : Nat) : List UInt8 := (Nat.digits 256 n).map UInt8.ofNat

/-- The canonical push: `OP_1` to `OP_16`, or a length byte and the magnitude, with a sign byte
exactly when its top bit is set. -/
def scriptNumberPush (n : Nat) : List UInt8 :=
  if 1 ≤ n ∧ n ≤ 16 then [UInt8.ofNat (0x50 + n)]
  else UInt8.ofNat (padSign (magnitude n)).length :: padSign (magnitude n)

variable {n : Nat} {script : Script} (digits : List UInt8)

theorem fromLeBytes_eq : fromLeBytes digits = Nat.ofDigits 256 (digits.map UInt8.toNat) := by
  induction digits with
  | nil => rfl
  | cons digit digits ih =>
    rw [fromLeBytes, reverse_cons, ofBigEndian_append, ← fromLeBytes, ih, map_cons,
      Nat.ofDigits_cons]
    exact (Nat.add_comm ..).trans (congrArg _ (Nat.mul_comm ..))

/-- A zero digit on top does not count. -/
theorem fromLeBytes_zero : fromLeBytes (digits ++ [0]) = fromLeBytes digits := by
  rw [fromLeBytes_eq, fromLeBytes_eq, map_append]
  exact Nat.ofDigits_append_zero _

theorem fromLeBytes_rdropWhile : fromLeBytes (digits.rdropWhile (· == 0)) = fromLeBytes digits := by
  induction digits using List.reverseRecOn with
  | nil => rfl
  | append_singleton digits digit ih =>
    rw [rdropWhile_concat]
    split
    · next zero => rw [ih, eq_of_beq zero, fromLeBytes_zero]
    · rfl

/-- Eight bytes hold a 64-bit number. -/
theorem fromLeBytes_stripped (fits : n < 2 ^ 64) :
    fromLeBytes ((toLeBytes n).rdropWhile (· == 0)) = n := by
  rw [fromLeBytes_rdropWhile, fromLeBytes, toLeBytes, reverse_reverse, ofBigEndian_bigEndian]
  exact Nat.mod_eq_of_lt fits

/-- Without the zeros on top, a number's eight bytes are its minimal ones. -/
theorem stripped_eq (fits : n < 2 ^ 64) : (toLeBytes n).rdropWhile (· == 0) = magnitude n := by
  have digits : Nat.digits 256 n = ((toLeBytes n).rdropWhile (· == 0)).map UInt8.toNat := by
    refine .trans (congrArg _ ((fromLeBytes_eq _).symm.trans (fromLeBytes_stripped fits)).symm)
      (Nat.digits_ofDigits 256 (by decide) _ ?_ ?_)
    · intro digit member
      obtain ⟨byte, -, rfl⟩ := mem_map.mp member
      exact byte.toNat_lt
    · intro nonempty
      rw [getLast_map]
      intro zero
      exact rdropWhile_last_not (· == 0) (toLeBytes n) (mt (congrArg (map UInt8.toNat)) nonempty)
        (beq_iff_eq.mpr (UInt8.toNat_inj.mp zero))
  rw [magnitude, digits, map_map]
  simp [Function.comp_def]

/-- The code's encoding of a 64-bit number is its canonical push. -/
theorem canonicalPush_eq (fits : n < 2 ^ 64) : canonicalPush n = scriptNumberPush n := by
  rw [canonicalPush, scriptNumberPush, stripped_eq fits]

/-! ## Reading the push back -/

theorem byte_toNat (small : n < 256) : (UInt8.ofNat n).toNat = n :=
  UInt8.toNat_ofNat_of_lt small

/-- A script that begins with the push of a height is read as opening with that push. -/
theorem openingPush_push (positive : 1 ≤ n) (fits : n < 2 ^ 32) (rest : Script) :
    openingPush (scriptNumberPush n ++ rest) = .ok (n, (scriptNumberPush n).length) := by
  have short : (padSign (magnitude n)).length ≤ 5 := by
    have := (Nat.digits_length_le_iff (by decide : 1 < 256) (k := 4) n).mpr fits
    rw [← length_map (f := UInt8.ofNat), ← magnitude] at this
    rw [padSign]
    split
    · rw [length_append]
      exact Nat.add_le_add_right this 1
    · exact Nat.le_succ_of_le this
  have read : fromLeBytes (padSign (magnitude n)) = n := by
    rw [padSign, ← stripped_eq (by omega)]
    split
    · rw [fromLeBytes_zero, fromLeBytes_stripped (by omega)]
    · exact fromLeBytes_stripped (by omega)
  have nonempty : padSign (magnitude n) ≠ [] := by
    intro empty
    have zero : fromLeBytes [] = 0 := rfl
    rw [empty, zero] at read
    omega
  have := length_pos_iff.mpr nonempty
  rw [scriptNumberPush]
  split
  · rw [singleton_append, openingPush, byte_toNat (by omega), if_pos (by omega),
      Nat.add_sub_cancel_left]
    rfl
  · rw [cons_append, openingPush, byte_toNat (by omega), if_neg (by omega), if_pos (by omega),
      if_pos (by simp), take_left, read, length_cons, Nat.add_comm 1]

/-- What is read is a 64-bit number, and its push does not begin with a zero byte. -/
theorem openingPush_eq_ok {pushLen : Nat} (opened : openingPush script = .ok (n, pushLen)) :
    n < 2 ^ 64 ∧ (script.take pushLen).head? ≠ some 0 := by
  cases script with
  | nil => cases opened
  | cons first rest =>
    have nonzero : first.toNat ≠ 0 → ∀ more, ((first :: rest).take (1 + more)).head? ≠ some 0 := by
      intro nonzero more
      rw [Nat.add_comm 1, take_succ_cons, head?_cons]
      intro zero
      exact nonzero (congrArg UInt8.toNat (Option.some.inj zero))
    rw [openingPush] at opened
    split at opened
    · next opcode =>
      cases opened
      exact ⟨by omega, nonzero (by omega) 0⟩
    · split at opened
      · next length =>
        split at opened
        · cases opened
          have read := ofBigEndian_lt (rest.take first.toNat).reverse
          have bound : (256 : Nat) ^ (rest.take first.toNat).reverse.length ≤ 256 ^ 5 :=
            Nat.pow_le_pow_right (by decide) (by rw [length_reverse, length_take]; omega)
          exact ⟨Nat.lt_of_lt_of_le read (bound.trans (by decide)), nonzero (by omega) _⟩
        · cases opened
      · cases opened

theorem coinbaseHeight_eq_ok {prevHash : BlockHash} (successor : prevHash ≠ 0) {h : Height} :
    coinbaseHeight prevHash script = .ok h ↔ 1 ≤ h.value ∧ scriptNumberPush h.value <+: script := by
  have narrow : h.value < 2 ^ 32 := Nat.lt_of_le_of_lt h.bounded (by decide)
  rw [coinbaseHeight, if_neg successor]
  refine ⟨fun accepted => ?_, fun ⟨positive, rest, opens⟩ => ?_⟩
  · cases opened : openingPush script with
    | error error =>
      rw [opened] at accepted
      cases accepted
    | ok push =>
      obtain ⟨fits, nonzero⟩ := openingPush_eq_ok opened
      rw [opened] at accepted
      simp only [bind, Except.bind] at accepted
      split at accepted
      · cases accepted
      · next same =>
        rw [not_not, canonicalPush_eq fits] at same
        split at accepted
        · cases accepted
        · split at accepted
          · next valid =>
            cases accepted
            rw [Height.tryFrom_eq_some.mp valid]
            rw [same] at nonzero
            refine ⟨Nat.pos_of_ne_zero fun zero => nonzero ?_, same ▸ take_prefix _ _⟩
            rw [zero]
            simp [scriptNumberPush, magnitude, padSign]
          · cases accepted
  · rw [← opens, openingPush_push positive narrow]
    simp only [bind, Except.bind]
    rw [take_left, canonicalPush_eq (by omega), if_neg (by simp), if_neg (by omega),
      Height.tryFrom_eq_some.mpr rfl]

/-- After genesis a coinbase script gives a height exactly when it begins with the canonical push of
that height, whatever follows; and the scripts of two different heights begin with no push in
common. -/
theorem coinbaseHeight_iff_push {prevHash prevHash' : BlockHash} (successor : prevHash ≠ 0)
    (successor' : prevHash' ≠ 0) :
    (∀ (script : Script) (h : Height), coinbaseHeight prevHash script = .ok h ↔
      1 ≤ h.value ∧ scriptNumberPush h.value <+: script) ∧
    ∀ (script script' : Script) (h h' pushed : Height),
      coinbaseHeight prevHash script = .ok h → coinbaseHeight prevHash' script' = .ok h' →
      h ≠ h' → 1 ≤ pushed.value →
      ¬(scriptNumberPush pushed.value <+: script ∧ scriptNumberPush pushed.value <+: script') := by
  refine ⟨fun script h => coinbaseHeight_eq_ok successor, ?_⟩
  intro script script' h h' pushed given given' different positive ⟨first, second⟩
  have reads := (coinbaseHeight_eq_ok successor).mpr ⟨positive, first⟩
  have reads' := (coinbaseHeight_eq_ok successor').mpr ⟨positive, second⟩
  rw [given] at reads
  rw [given'] at reads'
  exact different ((Except.ok.inj reads).trans (Except.ok.inj reads').symm)

/-- The height 128 needs a sign byte. -/
theorem coinbaseHeight_sign_byte : coinbaseHeight 1 [2, 0x80, 0, 0xff] = .ok ⟨128, by decide⟩ ∧
    scriptNumberPush 128 <+: [2, 0x80, 0, 0xff] ∧
    coinbaseHeight 1 [1, 0x80] ≠ .ok ⟨128, by decide⟩ := by
  have iff := (coinbaseHeight_iff_push (show (1 : BlockHash) ≠ 0 by decide)
    (show (2 : BlockHash) ≠ 0 by decide)).1
  have pushed : scriptNumberPush 128 = [2, 0x80, 0] := by
    simp [scriptNumberPush, magnitude, padSign]
  refine ⟨(iff _ _).mpr ⟨by decide, ?_⟩, ?_, ?_⟩
  · exact pushed ▸ ⟨[0xff], rfl⟩
  · exact pushed ▸ ⟨[0xff], rfl⟩
  · intro accepted
    have := ((iff _ _).mp accepted).2
    rw [pushed] at this
    revert this
    decide

end Zaino.BlockDecode
