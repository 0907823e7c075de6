import Zaino.Difficulty.U256
import Zaino.Library.Listing

/-!
# The compact difficulty encoding

`nBits` packs an 8-bit exponent over base 256 and a 24-bit signed mantissa. `tryFromBits` accepts the
encodings of a target of 256 bits whose work fits 128 bits, and carries the work it computed. The
encoded target as a number is `targetOf`; the normalisation that keeps the scaling within 256 bits
does not change it (`normalise_eq_ok`).
-/

namespace Zaino.Difficulty

open Library Nat U256

/-- Why a value is not a valid compact difficulty encoding. -/
inductive CompactDifficultyError where
  /-- The mantissa's sign bit is set. -/
  | negativeTarget (bits : UInt32)
  /-- The mantissa is zero, or a small exponent shifted it entirely away. -/
  | zeroTarget (bits : UInt32)
  /-- The target does not fit 256 bits. -/
  | overflowTarget (bits : UInt32)
  /-- The target is below `2^128`, so its work does not fit 128 bits. -/
  | workOverWidth (bits : UInt32)
  deriving DecidableEq

/-- The width of the mantissa field in bits, with its sign bit. -/
def precision : UInt32 := 24

/-- The mantissa's sign bit. -/
def signBit : UInt32 := 1 <<< (precision - 1)

/-- The mask of the mantissa's magnitude. -/
def unsignedMantissaMask : UInt32 := signBit - 1

/-- A raw exponent of 3 leaves the mantissa unscaled. -/
def exponentOffset : UInt32 := 3

/-- The mantissa and the exponent to scale it with. At the two boundary exponents the spare bytes of
the mantissa absorb part of the shift; below the offset the mantissa is shifted right. -/
def normalise (bits mantissa rawExponent : UInt32) : Except CompactDifficultyError (UInt32 × UInt32) :=
  if rawExponent ≥ exponentOffset + 32 then .error (.overflowTarget bits)
  else if rawExponent = exponentOffset + 31 then
    if mantissa > 0xff then .error (.overflowTarget bits)
    else .ok (mantissa <<< 16, 29)
  else if rawExponent = exponentOffset + 30 then
    if mantissa > 0xffff then .error (.overflowTarget bits)
    else .ok (mantissa <<< 8, 29)
  else if rawExponent < exponentOffset then
    .ok (mantissa >>> (8 * (exponentOffset - rawExponent)), 0)
  else .ok (mantissa, rawExponent - exponentOffset)

/-- The target that nBits encodes. -/
def expand (bits : UInt32) : Except CompactDifficultyError U256 :=
  if bits &&& signBit = signBit then .error (.negativeTarget bits)
  else do
    let mantissa := bits &&& unsignedMantissaMask
    let rawExponent := bits >>> precision
    let (mantissa, exponent) ← normalise bits mantissa rawExponent
    let target := U256.target mantissa exponent.toNat
    if target.isZero then .error (.zeroTarget bits) else .ok target

/-- Validate a raw nBits value. -/
def tryFromBits (bits : UInt32) : Except CompactDifficultyError CompactDifficulty := do
  let target ← expand bits
  match target.work with
  | some work => .ok ⟨bits, work⟩
  | none => .error (.workOverWidth bits)

/-! ## The encoded target -/

def mantissaOf (bits : UInt32) : Nat := bits.toNat % 2 ^ 23

def exponentOf (bits : UInt32) : Nat := bits.toNat / 2 ^ 24

/-- `floor(mantissa * 256^(exponent - 3))`. -/
def targetOf (bits : UInt32) : Nat := mantissaOf bits * 256 ^ exponentOf bits / 256 ^ 3

theorem signBit_toNat : signBit.toNat = 2 ^ 23 := rfl

variable (bits : UInt32)

theorem and_signBit_iff : bits &&& signBit = signBit ↔ bits.toNat.testBit 23 = true := by
  rw [← UInt32.toNat_inj, UInt32.toNat_and, signBit_toNat, and_two_pow]
  cases bits.toNat.testBit 23 <;> simp

theorem toNat_mantissa : (bits &&& unsignedMantissaMask).toNat = mantissaOf bits := by
  rw [UInt32.toNat_and, show unsignedMantissaMask.toNat = 2 ^ 23 - 1 from rfl,
    and_two_pow_sub_one_eq_mod]
  rfl

theorem toNat_rawExponent : (bits >>> precision).toNat = exponentOf bits := by
  rw [UInt32.toNat_shiftRight, show precision.toNat % 32 = 24 from rfl, Nat.shiftRight_eq_div_pow]
  rfl

theorem mantissaOf_lt : mantissaOf bits < 2 ^ 23 := Nat.mod_lt _ (Nat.two_pow_pos 23)

/-- From the offset on, the target is a multiple of the mantissa. -/
theorem targetOf_of_offset_le {bits : UInt32} (scaled : 3 ≤ exponentOf bits) :
    targetOf bits = mantissaOf bits * 256 ^ (exponentOf bits - 3) := by
  have split : 256 ^ exponentOf bits = 256 ^ (exponentOf bits - 3) * 256 ^ 3 := by
    rw [← Nat.pow_add, Nat.sub_add_cancel scaled]
  rw [targetOf, split, ← Nat.mul_assoc, Nat.mul_div_cancel _ (by decide)]

/-- Below the offset, the low bytes of the mantissa fall away. -/
theorem targetOf_of_lt_offset {bits : UInt32} (small : exponentOf bits < 3) :
    targetOf bits = mantissaOf bits / 256 ^ (3 - exponentOf bits) := by
  have split : 256 ^ 3 = 256 ^ (3 - exponentOf bits) * 256 ^ exponentOf bits := by
    rw [← Nat.pow_add, Nat.sub_add_cancel (Nat.le_of_lt small)]
  rw [targetOf, split, Nat.mul_div_mul_right _ _ (Nat.pow_pos (by decide))]

theorem toNat_target (mantissa : UInt32) (exponent : Nat) :
    (U256.target mantissa exponent).toNat = mantissa.toNat * 256 ^ exponent % 2 ^ 256 := by
  have word : (⟨0#128, mantissa.toBitVec.setWidth 128⟩ : U256).toNat = mantissa.toNat := by
    have small := mantissa.toNat_lt
    simp only [U256.toNat, BitVec.toNat_ofNat, BitVec.toNat_setWidth, UInt32.toNat_toBitVec]
    omega
  rw [U256.target, toNat_shl, word, Nat.pow_mul]

/-- A target that is scaled by the whole bytes of the exponent fits while the exponent leaves room. -/
theorem scaled_lt {mantissa room scale : Nat} (small : mantissa < 256 ^ room)
    (fits : room + scale ≤ 32) : mantissa * 256 ^ scale < 2 ^ 256 := by
  calc mantissa * 256 ^ scale < 256 ^ room * 256 ^ scale :=
        Nat.mul_lt_mul_of_pos_right small (Nat.pow_pos (by decide))
    _ = 256 ^ (room + scale) := (Nat.pow_add _ _ _).symm
    _ ≤ 256 ^ 32 := Nat.pow_le_pow_right (by decide) fits
    _ = 2 ^ 256 := by decide

/-- A target that is scaled beyond the room its mantissa leaves does not fit. -/
theorem le_scaled (room : Nat) {mantissa scale : Nat} (large : 256 ^ room ≤ mantissa)
    (exceeds : 32 ≤ room + scale) : 2 ^ 256 ≤ mantissa * 256 ^ scale := by
  calc 2 ^ 256 = 256 ^ 32 := by decide
    _ ≤ 256 ^ (room + scale) := Nat.pow_le_pow_right (by decide) exceeds
    _ = 256 ^ room * 256 ^ scale := Nat.pow_add _ _ _
    _ ≤ mantissa * 256 ^ scale := mul_le_mul_right _ large

section Normalise

variable {bits mantissa rawExponent : UInt32} (mantissa_eq : mantissa.toNat = mantissaOf bits)
  (exponent_eq : rawExponent.toNat = exponentOf bits)

include mantissa_eq exponent_eq

omit exponent_eq in
/-- At a boundary exponent the mantissa takes over `k` bytes of the shift, when it leaves them free. -/
theorem absorbed (k : Nat) {shift : UInt32} (bytes : shift.toNat = 8 * k) (few : k < 3)
    (boundary : exponentOf bits = 32 + k) (free : mantissa.toNat < 256 ^ (3 - k)) :
    (mantissa <<< shift).toNat * 256 ^ 29 = targetOf bits ∧ targetOf bits < 2 ^ 256 := by
  have target_eq : targetOf bits = mantissa.toNat * 256 ^ (29 + k) := by
    rw [targetOf_of_offset_le (by omega), boundary, mantissa_eq, show 32 + k - 3 = 29 + k by omega]
  have within : mantissa.toNat * 256 ^ k < 2 ^ 32 := by
    calc mantissa.toNat * 256 ^ k < 256 ^ (3 - k) * 256 ^ k :=
          Nat.mul_lt_mul_of_pos_right free (Nat.pow_pos (by decide))
      _ = 256 ^ 3 := by rw [← Nat.pow_add, Nat.sub_add_cancel (Nat.le_of_lt few)]
      _ < 2 ^ 32 := by decide
  have shifted : (mantissa <<< shift).toNat = mantissa.toNat * 256 ^ k := by
    rw [UInt32.toNat_shiftLeft, bytes, Nat.mod_eq_of_lt (show 8 * k < 32 by omega), shiftLeft_eq,
      Nat.pow_mul]
    exact Nat.mod_eq_of_lt within
  constructor
  · rw [shifted, target_eq, Nat.mul_assoc, ← Nat.pow_add, add_comm k]
  · rw [target_eq]
    exact scaled_lt free (by omega)

/-- Normalising keeps the target, and the result fits 256 bits. -/
theorem normalise_eq_ok {scaled exponent : UInt32}
    (accepted : normalise bits mantissa rawExponent = .ok (scaled, exponent)) :
    scaled.toNat * 256 ^ exponent.toNat = targetOf bits ∧ targetOf bits < 2 ^ 256 := by
  have mantissa_lt : mantissaOf bits < 256 ^ 3 := Nat.lt_trans (mantissaOf_lt bits) (by decide)
  unfold normalise at accepted
  split at accepted
  · cases accepted
  · next below =>
    have below : rawExponent.toNat < 35 := UInt32.not_le.mp below
    split at accepted
    · next last =>
      have boundary : exponentOf bits = 34 := by rw [← exponent_eq, last]; rfl
      split at accepted
      · cases accepted
      · next narrow =>
        have narrow : mantissa.toNat ≤ 255 := UInt32.not_lt.mp narrow
        cases accepted
        exact absorbed mantissa_eq 2 rfl (by decide) boundary (by omega)
    · next not_last =>
      have not_last : rawExponent.toNat ≠ 34 := fun is_last => not_last (UInt32.toNat_inj.mp is_last)
      split at accepted
      · next second =>
        have boundary : exponentOf bits = 33 := by rw [← exponent_eq, second]; rfl
        split at accepted
        · cases accepted
        · next narrow =>
          have narrow : mantissa.toNat ≤ 65535 := UInt32.not_lt.mp narrow
          cases accepted
          exact absorbed mantissa_eq 1 rfl (by decide) boundary (by omega)
      · next not_second =>
        have not_second : rawExponent.toNat ≠ 33 :=
          fun is_second => not_second (UInt32.toNat_inj.mp is_second)
        split at accepted
        · next small =>
          have small : rawExponent.toNat < 3 := small
          cases accepted
          have amount : (8 * (exponentOffset - rawExponent)).toNat = 8 * (3 - exponentOf bits) := by
            have offset : exponentOffset.toNat = 3 := rfl
            rw [UInt32.toNat_mul, UInt32.toNat_sub_of_le _ _ (UInt32.le_iff_toNat_le.mpr (by omega)),
              offset, exponent_eq, show UInt32.toNat 8 = 8 from rfl]
            exact Nat.mod_eq_of_lt (by omega)
          have shifted : (mantissa >>> (8 * (exponentOffset - rawExponent))).toNat = targetOf bits := by
            rw [UInt32.toNat_shiftRight, amount, Nat.mod_eq_of_lt (by omega),
              Nat.shiftRight_eq_div_pow, Nat.pow_mul, mantissa_eq, targetOf_of_lt_offset (by omega)]
          constructor
          · rw [shifted]
            exact Nat.mul_one _
          · rw [← shifted]
            exact Nat.lt_trans (UInt32.toNat_lt _) (by decide)
        · next large =>
          have large : 3 ≤ rawExponent.toNat := UInt32.not_lt.mp large
          cases accepted
          have amount : (rawExponent - exponentOffset).toNat = exponentOf bits - 3 := by
            have le : exponentOffset ≤ rawExponent := UInt32.le_iff_toNat_le.mpr large
            rw [UInt32.toNat_sub_of_le _ _ le, exponent_eq]
            rfl
          rw [amount, targetOf_of_offset_le (by omega), mantissa_eq]
          exact ⟨rfl, scaled_lt mantissa_lt (by omega)⟩

/-- A refused exponent encodes a target beyond 256 bits, or zero. -/
theorem normalise_eq_error {error : CompactDifficultyError}
    (refused : normalise bits mantissa rawExponent = .error error) :
    targetOf bits = 0 ∨ 2 ^ 256 ≤ targetOf bits := by
  unfold normalise at refused
  split at refused
  · next beyond =>
    have beyond : 35 ≤ rawExponent.toNat := beyond
    rw [targetOf_of_offset_le (by omega)]
    rcases Nat.eq_zero_or_pos (mantissaOf bits) with zero | positive
    · left
      rw [zero, zero_mul]
    · right
      exact le_scaled 0 positive (by omega)
  · split at refused
    · next last =>
      have boundary : exponentOf bits = 34 := by rw [← exponent_eq, last]; rfl
      split at refused
      · next wide =>
        have wide : 255 < mantissa.toNat := wide
        right
        rw [targetOf_of_offset_le (by omega)]
        exact le_scaled 1 (by omega) (by omega)
      · cases refused
    · split at refused
      · next second =>
        have boundary : exponentOf bits = 33 := by rw [← exponent_eq, second]; rfl
        split at refused
        · next wide =>
          have wide : 65535 < mantissa.toNat := wide
          right
          rw [targetOf_of_offset_le (by omega)]
          exact le_scaled 2 (by omega) (by omega)
        · cases refused
      · split at refused
        · cases refused
        · cases refused

end Normalise

/-! ## What is accepted -/

variable {bits : UInt32} {difficulty : CompactDifficulty}

theorem expand_of_sign (sign : bits.toNat.testBit 23 = true) :
    expand bits = .error (.negativeTarget bits) := by
  unfold expand
  rw [if_pos ((and_signBit_iff bits).mpr sign)]

/-- An unsigned encoding expands to its target, which is then neither zero nor beyond 256 bits. -/
theorem expand_eq_ok (unsigned : bits.toNat.testBit 23 = false) {target : U256} :
    expand bits = .ok target ↔ target.toNat = targetOf bits ∧ targetOf bits ≠ 0 := by
  have mantissa_eq := toNat_mantissa bits
  have exponent_eq := toNat_rawExponent bits
  have clear : ¬ bits &&& signBit = signBit := by
    rw [and_signBit_iff, unsigned]
    exact Bool.false_ne_true
  unfold expand
  rw [if_neg clear]
  dsimp only
  cases normalised : normalise bits (bits &&& unsignedMantissaMask) (bits >>> precision) with
  | error error =>
    have outside := normalise_eq_error mantissa_eq exponent_eq normalised
    have bound := target.toNat_lt
    constructor
    · intro expanded
      cases expanded
    · intro inside
      omega
  | ok scaled =>
    obtain ⟨scaled_eq, fits⟩ := normalise_eq_ok mantissa_eq exponent_eq normalised
    have target_eq : (U256.target scaled.1 scaled.2.toNat).toNat = targetOf bits := by
      rw [toNat_target, scaled_eq, Nat.mod_eq_of_lt fits]
    rw [ok_bind]
    split
    · next zero =>
      rw [isZero_iff, target_eq] at zero
      constructor
      · intro expanded
        cases expanded
      · intro nonzero
        exact absurd zero nonzero.2
    · next nonzero =>
      rw [isZero_iff, target_eq] at nonzero
      rw [Except.ok.injEq]
      constructor
      · rintro rfl
        exact ⟨target_eq, nonzero⟩
      · intro value_eq
        exact U256.toNat_injective (target_eq.trans value_eq.1.symm)

theorem tryFromBits_eq_ok : tryFromBits bits = .ok difficulty ↔
      difficulty.bits = bits ∧ ∃ target, expand bits = .ok target ∧ target.work = some difficulty.work := by
  unfold tryFromBits
  rw [bind_eq_ok]
  constructor
  · rintro ⟨target, expanded, built⟩
    cases worked : target.work with
    | none =>
      rw [worked] at built
      cases built
    | some work =>
      rw [worked] at built
      cases built
      exact ⟨rfl, target, expanded, worked⟩
  · rintro ⟨rfl, target, expanded, worked⟩
    refine ⟨target, expanded, ?_⟩
    rw [worked]

/-- No target that nBits encodes is all ones, the value whose successor wraps. -/
theorem targetOf_ne_top (bits : UInt32) : targetOf bits + 1 ≠ 2 ^ 256 := by
  have mantissa_lt := mantissaOf_lt bits
  rcases lt_or_ge 3 (exponentOf bits) with scaled | small
  · have even : 256 ∣ targetOf bits := by
      rw [targetOf_of_offset_le (by omega)]
      exact Nat.dvd_mul_left_of_dvd (dvd_pow_self 256 (by omega)) _
    omega
  · have bounded : targetOf bits ≤ mantissaOf bits := by
      calc targetOf bits ≤ mantissaOf bits * 256 ^ 3 / 256 ^ 3 :=
            Nat.div_le_div_right (Nat.mul_le_mul_left _ (Nat.pow_le_pow_right (by decide) small))
        _ = mantissaOf bits := Nat.mul_div_cancel _ (by decide)
    omega

/-- An unsigned encoding is accepted with the work of its target, for the targets whose work fits. -/
theorem tryFromBits_of_unsigned (unsigned : bits.toNat.testBit 23 = false) :
    tryFromBits bits = .ok difficulty ↔
      2 ^ 128 ≤ targetOf bits ∧ targetOf bits < 2 ^ 256 ∧ difficulty.bits = bits ∧
        difficulty.work.value = 2 ^ 256 / (targetOf bits + 1) := by
  have not_top := targetOf_ne_top bits
  rw [tryFromBits_eq_ok]
  constructor
  · rintro ⟨bits_eq, target, expanded, worked⟩
    obtain ⟨target_eq, -⟩ := (expand_eq_ok unsigned).mp expanded
    obtain ⟨large, room, value_eq⟩ := work_eq_some.mp worked
    rw [target_eq] at large room value_eq
    exact ⟨large, lt_of_succ_lt room, bits_eq, value_eq⟩
  · rintro ⟨large, fits, bits_eq, value_eq⟩
    obtain ⟨target, target_eq⟩ := exists_toNat fits
    refine ⟨bits_eq, target, (expand_eq_ok unsigned).mpr ⟨target_eq, by omega⟩, ?_⟩
    rw [work_eq_some, target_eq]
    exact ⟨large, by omega, value_eq⟩

/-- A target of at least `2^128` has a work of 128 bits. -/
theorem exists_work {target : Nat} (large : 2 ^ 128 ≤ target) (fits : target < 2 ^ 256) :
    ∃ work : SingleBlockWork, work.value = 2 ^ 256 / (target + 1) := by
  have positive : 0 < 2 ^ 256 / (target + 1) := div_pos fits (succ_pos _)
  have bounded : 2 ^ 256 / (target + 1) < 2 ^ 128 := by
    rw [div_lt_iff_lt_mul (succ_pos _)]
    omega
  exact ⟨⟨_, positive, bounded⟩, rfl⟩

/-- The conversion from difficulty to work: a signed encoding is refused, an unsigned one is accepted
exactly when its target is within `2^128 ≤ target < 2^256`, and the work is then
`floor(2^256 / (target + 1))`. The division behind it is floor division for every non-zero divisor. -/
theorem tryFromBits_work :
    (∀ bits : UInt32, bits.toNat.testBit 23 = true → ∃ error, tryFromBits bits = .error error) ∧
    (∀ bits : UInt32, bits.toNat.testBit 23 = false →
      ((∃ difficulty, tryFromBits bits = .ok difficulty) ↔
        2 ^ 128 ≤ targetOf bits ∧ targetOf bits < 2 ^ 256)) ∧
    (∀ (bits : UInt32) (difficulty : CompactDifficulty), tryFromBits bits = .ok difficulty →
      difficulty.bits = bits ∧ difficulty.toWork.value = 2 ^ 256 / (targetOf bits + 1)) ∧
    (∀ dividend divisor : U256, divisor ≠ U256.zero →
      (dividend.div divisor).toNat = dividend.toNat / divisor.toNat) := by
  have refused : ∀ bits : UInt32, bits.toNat.testBit 23 = true →
      tryFromBits bits = .error (.negativeTarget bits) := by
    intro bits sign
    rw [tryFromBits, expand_of_sign sign]
    rfl
  refine ⟨fun bits sign => ⟨_, refused bits sign⟩, ?_, ?_, ?_⟩
  · intro bits unsigned
    constructor
    · rintro ⟨difficulty, accepted⟩
      obtain ⟨large, fits, -⟩ := (tryFromBits_of_unsigned unsigned).mp accepted
      exact ⟨large, fits⟩
    · rintro ⟨large, fits⟩
      obtain ⟨work, value_eq⟩ := exists_work large fits
      exact ⟨⟨bits, work⟩, (tryFromBits_of_unsigned unsigned).mpr ⟨large, fits, rfl, value_eq⟩⟩
  · intro bits difficulty accepted
    cases sign : bits.toNat.testBit 23 with
    | false =>
      obtain ⟨-, -, bits_eq, value_eq⟩ := (tryFromBits_of_unsigned sign).mp accepted
      exact ⟨bits_eq, value_eq⟩
    | true =>
      rw [refused bits sign] at accepted
      cases accepted
  · intro dividend divisor nonzero
    exact U256.toNat_div dividend fun zero => nonzero (U256.toNat_injective zero)

/-- The encoding of the target `0xffff * 256^26`, of 224 bits, whose work takes 33. -/
theorem tryFromBits_work_sample :
    ∃ difficulty, tryFromBits 0x1d00ffff = .ok difficulty ∧ difficulty.toWork.value = 4295032833 := by
  obtain ⟨-, accepts, value, -⟩ := tryFromBits_work
  have within : 2 ^ 128 ≤ targetOf 0x1d00ffff ∧ targetOf 0x1d00ffff < 2 ^ 256 := by decide +kernel
  obtain ⟨difficulty, accepted⟩ := (accepts 0x1d00ffff (by decide)).mpr within
  refine ⟨difficulty, accepted, ?_⟩
  rw [(value _ _ accepted).2]
  decide +kernel

end Zaino.Difficulty
