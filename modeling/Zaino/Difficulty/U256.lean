import Mathlib.Data.Nat.Bitwise
import Zaino.Library.LongDivision
import Zaino.Primitives

/-!
# 256-bit arithmetic on two halves

The operations that the conversion from difficulty to work needs: building a target from its mantissa
and exponent, and dividing `2^256` by `target + 1`. A number is a pair of 128-bit words. Each
operation is related to the number that its result stands for, and the division, restoring and one
bit at a time, is then long division on numbers (`toNat_div`): the doubled remainder may not fit 256
bits, and the bit that falls out is kept in a flag.
-/

namespace Zaino.Difficulty

open Library BitVec Nat

/-- An unsigned 256-bit integer: `hi * 2^128 + lo`. -/
@[ext]
structure U256 where
  hi : BitVec 128
  lo : BitVec 128
  deriving DecidableEq

namespace U256

def zero : U256 := ⟨0#128, 0#128⟩

/-- Left shift, filling with zeroes; shifts of 256 or more yield zero. -/
def shl (self : U256) (n : Nat) : U256 :=
  if n = 0 then self
  else if n ≤ 127 then ⟨(self.hi <<< n) ||| (self.lo >>> (128 - n)), self.lo <<< n⟩
  else if n = 128 then ⟨self.lo, 0#128⟩
  else if n ≤ 255 then ⟨self.lo <<< (n - 128), 0#128⟩
  else zero

/-- The target `mantissa * 256^exponent`. -/
def target (mantissa : UInt32) (exponent : Nat) : U256 :=
  shl ⟨0#128, mantissa.toBitVec.setWidth 128⟩ (8 * exponent)

def isZero (self : U256) : Bool :=
  self.hi == 0#128 && self.lo == 0#128

/-- The bitwise complement. -/
def complement (self : U256) : U256 := ⟨~~~self.hi, ~~~self.lo⟩

/-- `self + 1`, refusing to wrap. -/
def checkedAddOne (self : U256) : Option U256 :=
  let lo := self.lo + 1#128
  -- The low half carries exactly when it wraps to zero.
  if lo = 0#128 then
    if self.hi.toNat + 1 < 2 ^ 128 then some ⟨self.hi + 1#128, lo⟩ else none
  else some ⟨self.hi, lo⟩

/-- The bit at position `i`. -/
def bit (self : U256) (i : Nat) : Bool :=
  if i < 128 then ((self.lo >>> i) &&& 1#128) == 1#128 else ((self.hi >>> (i - 128)) &&& 1#128) == 1#128

/-- This value with the bit at position `i` set. -/
def setBit (self : U256) (i : Nat) : U256 :=
  if i < 128 then { self with lo := self.lo ||| (1#128 <<< i) }
  else { self with hi := self.hi ||| (1#128 <<< (i - 128)) }

/-- `self - rhs` modulo `2^256`. -/
def wrappingSub (self rhs : U256) : U256 :=
  let borrow : BitVec 128 := if self.lo < rhs.lo then 1#128 else 0#128
  ⟨self.hi - rhs.hi - borrow, self.lo - rhs.lo⟩

/-- The order of the fields is the order of the numbers. -/
def ge (self rhs : U256) : Bool :=
  decide (rhs.hi < self.hi) || (self.hi == rhs.hi && decide (rhs.lo ≤ self.lo))

/-- One bit of the division, with the quotient and the remainder so far. -/
def divStep (self divisor : U256) (state : U256 × U256) (i : Nat) : U256 × U256 :=
  let carry := state.2.hi >>> 127 != 0#128
  let shifted := state.2.shl 1
  let remainder := if self.bit i then { shifted with lo := shifted.lo ||| 1#128 } else shifted
  if carry || remainder.ge divisor then
    (state.1.setBit i, remainder.wrappingSub divisor)
  else (state.1, remainder)

/-- `floor(self / divisor)` by restoring binary long division. -/
def div (self divisor : U256) : U256 :=
  ((List.range 256).reverse.foldl (self.divStep divisor) (zero, zero)).1

/-- `1 + lo`, refusing to wrap. -/
def oneCheckedAdd (lo : BitVec 128) : Option SingleBlockWork :=
  if fits : 1 + lo.toNat < 2 ^ 128 then
    some ⟨1 + lo.toNat, Nat.lt_add_right _ Nat.one_pos, fits⟩
  else none

/-- `floor(2^256 / (self + 1))`, when it fits 128 bits: the quotient of the complement, and one. -/
def work (self : U256) : Option SingleBlockWork := do
  let divisor ← self.checkedAddOne
  let quotient := self.complement.div divisor
  if quotient.hi ≠ 0#128 then none
  else oneCheckedAdd quotient.lo

/-! ## What the operations stand for -/

def toNat (self : U256) : Nat := self.hi.toNat * 2 ^ 128 + self.lo.toNat

theorem toNat_lt (u : U256) : u.toNat < 2 ^ 256 := by
  have hi := u.hi.isLt
  have lo := u.lo.isLt
  unfold toNat
  omega

theorem toNat_injective {a b : U256} (same : a.toNat = b.toNat) : a = b := by
  have a_lo := a.lo.isLt
  have b_lo := b.lo.isLt
  unfold toNat at same
  ext1
  · exact eq_of_toNat_eq (by omega)
  · exact eq_of_toNat_eq (by omega)

theorem isZero_iff (u : U256) : u.isZero = true ↔ u.toNat = 0 := by
  constructor
  · intro zeros
    simp only [isZero, Bool.and_eq_true, beq_iff_eq] at zeros
    rw [toNat, zeros.1, zeros.2]
    rfl
  · intro zero_value
    have is_zero : u = zero := toNat_injective zero_value
    rw [is_zero]
    rfl

theorem toNat_complement (u : U256) : u.complement.toNat = 2 ^ 256 - 1 - u.toNat := by
  have hi := u.hi.isLt
  have lo := u.lo.isLt
  simp only [toNat, complement, toNat_not]
  omega

variable {u d : U256} {i : Nat} {work : SingleBlockWork}

theorem checkedAddOne_eq_some {v : U256} : u.checkedAddOne = some v ↔ v.toNat = u.toNat + 1 := by
  have hi := u.hi.isLt
  have lo := u.lo.isLt
  have wraps : u.lo + 1#128 = 0#128 ↔ u.lo.toNat + 1 = 2 ^ 128 := by
    rw [← toNat_inj, toNat_add]
    simp only [BitVec.toNat_ofNat]
    omega
  have is_next : ∀ next : U256, next.toNat = u.toNat + 1 →
      (some next = some v ↔ v.toNat = u.toNat + 1) := by
    intro next next_value
    rw [Option.some.injEq]
    constructor
    · rintro rfl
      exact next_value
    · intro v_value
      exact toNat_injective (next_value.trans v_value.symm)
  unfold checkedAddOne
  dsimp only
  split
  · next carries =>
    have full := wraps.mp carries
    split
    · next room =>
      apply is_next
      simp only [toNat, carries, toNat_add, BitVec.toNat_ofNat]
      omega
    · next no_room =>
      simp only [reduceCtorEq, false_iff]
      have bound := v.toNat_lt
      unfold toNat at bound ⊢
      omega
  · next stays =>
    apply is_next
    have small : u.lo.toNat + 1 ≠ 2 ^ 128 := mt wraps.mpr stays
    simp only [toNat, toNat_add, BitVec.toNat_ofNat]
    omega

theorem toNat_wrappingSub (a b : U256) :
    (a.wrappingSub b).toNat = (2 ^ 256 + a.toNat - b.toNat) % 2 ^ 256 := by
  have a_hi := a.hi.isLt
  have a_lo := a.lo.isLt
  have b_hi := b.hi.isLt
  have b_lo := b.lo.isLt
  simp only [toNat, wrappingSub]
  split
  · next borrows =>
    rw [lt_def] at borrows
    simp only [toNat_sub, BitVec.toNat_ofNat]
    omega
  · next enough =>
    rw [lt_def] at enough
    simp only [toNat_sub, BitVec.toNat_ofNat]
    omega

theorem ge_iff (a b : U256) : a.ge b = true ↔ b.toNat ≤ a.toNat := by
  have a_lo := a.lo.isLt
  have b_lo := b.lo.isLt
  simp only [ge, toNat, Bool.or_eq_true, Bool.and_eq_true, decide_eq_true_eq, beq_iff_eq,
    lt_def, le_def, ← toNat_inj]
  omega

/-! ### Bit by bit -/

/-- The two halves as one word. -/
def bits (u : U256) : BitVec 256 := u.hi ++ u.lo

theorem toNat_bits (u : U256) : u.bits.toNat = u.toNat := by
  rw [bits, toNat_append, ← Nat.shiftLeft_add_eq_or_of_lt u.lo.isLt, Nat.shiftLeft_eq]
  rfl

theorem getLsbD_bits (u : U256) (i : Nat) :
    u.bits.getLsbD i = if i < 128 then u.lo.getLsbD i else u.hi.getLsbD (i - 128) :=
  getLsbD_append

/-- A shift across the half boundary is a shift of the whole word. -/
theorem bits_shl (u : U256) (n : Nat) : (u.shl n).bits = u.bits <<< n := by
  refine eq_of_getLsbD_eq fun i bounded => ?_
  rw [getLsbD_shiftLeft, getLsbD_bits u]
  unfold shl
  split
  · next none_shifted =>
    rw [getLsbD_bits, none_shifted]
    simp [bounded]
  · split
    · rw [getLsbD_bits]
      simp only [getLsbD_or, getLsbD_shiftLeft, getLsbD_ushiftRight]
      by_cases low : i < 128
      · simp [low, bounded, show i - n < 128 by omega]
      · rw [show 128 - n + (i - 128) = i - n by omega, show i - n - 128 = i - 128 - n by omega]
        by_cases carried : i - n < 128
        · simp [low, carried, bounded, show i - 128 < n by omega, show ¬ i < n by omega]
        · have beyond := getLsbD_of_ge u.lo (i - n) (Nat.le_of_not_lt carried)
          simp [low, carried, beyond, bounded, show ¬ i - 128 < n by omega, show ¬ i < n by omega,
            show i - 128 < 128 by omega]
    · split
      · rw [getLsbD_bits]
        grind
      · split
        · rw [getLsbD_bits, getLsbD_shiftLeft]
          by_cases below : i < n
          · simp [below]
            omega
          · rw [show i - 128 - (n - 128) = i - n by omega]
            simp [below, bounded, show i - n < 128 by omega, show ¬ i < 128 by omega]
            omega
        · rw [getLsbD_bits]
          simp [zero, show i < n by omega]

theorem toNat_shl (u : U256) (n : Nat) : (u.shl n).toNat = u.toNat * 2 ^ n % 2 ^ 256 := by
  rw [← toNat_bits, bits_shl, toNat_shiftLeft, toNat_bits, Nat.shiftLeft_eq]

theorem bit_eq (u : U256) (i : Nat) : u.bit i = decide (u.toNat / 2 ^ i % 2 = 1) := by
  have low_bit : ∀ x : BitVec 128, (x &&& 1#128 == 1#128) = x.getLsbD 0 := by
    intro x
    rw [← twoPow_zero, and_twoPow]
    cases x.getLsbD 0 <;> rfl
  rw [← toNat_bits, ← testBit_eq_decide_div_mod_eq]
  change _ = u.bits.getLsbD i
  rw [getLsbD_bits, bit]
  split <;> rw [low_bit, getLsbD_ushiftRight, add_zero]

theorem bits_setBit (bounded : i < 256) : (u.setBit i).bits = u.bits ||| twoPow 256 i := by
  refine eq_of_getLsbD_eq fun j within => ?_
  rw [getLsbD_or, getLsbD_bits, getLsbD_bits, getLsbD_twoPow, setBit]
  split <;>
    · simp only [← twoPow_eq]
      grind

/-- Setting a bit of a number that ends in zeroes from there on. -/
theorem toNat_setBit (clear : 2 ^ (i + 1) ∣ u.toNat) (bounded : i < 256) :
    (u.setBit i).toNat = u.toNat + 2 ^ i := by
  rw [← toNat_bits, bits_setBit bounded, toNat_or, toNat_twoPow_of_lt bounded, toNat_bits]
  obtain ⟨k, is_multiple⟩ := clear
  rw [is_multiple]
  exact (Nat.two_pow_add_eq_or_of_lt (Nat.pow_lt_pow_right (by decide) (Nat.lt_succ_self i)) k).symm

/-! ## The division -/

/-- The remainder doubled, with the next bit of the dividend brought down. -/
theorem toNat_bringDown (r : U256) (next : Bool) :
    (if next then { r.shl 1 with lo := (r.shl 1).lo ||| 1#128 } else r.shl 1).toNat =
      (2 * r.toNat + next.toNat) % 2 ^ 256 := by
  have doubled : (r.shl 1).toNat = 2 * r.toNat % 2 ^ 256 := by
    rw [toNat_shl, pow_one, mul_comm]
  cases next with
  | false =>
    rw [if_neg Bool.false_ne_true, Bool.toNat_false, add_zero]
    exact doubled
  | true =>
    rw [if_pos rfl, Bool.toNat_true]
    have odd : ((r.shl 1).setBit 0).toNat = (r.shl 1).toNat + 2 ^ 0 :=
      toNat_setBit (by omega) (by decide)
    refine odd.trans ?_
    omega

theorem carry_iff (r : U256) : (r.hi >>> 127 != 0#128) = true ↔ 2 ^ 256 ≤ 2 * r.toNat := by
  have lo := r.lo.isLt
  rw [bne_iff_ne, ne_eq, ← toNat_inj, toNat_ushiftRight, shiftRight_eq_div_pow,
    BitVec.toNat_ofNat, toNat]
  omega

/-- One step brings one bit down. With the carry out of the doubling set, the doubled remainder is at
least `2^256` and so above any divisor, and the subtraction that wraps gives its difference. -/
theorem divStep_divides {n : U256} {state : U256 × U256} (nonzero : d.toNat ≠ 0) (bounded : i < 256)
    (divides : Divides n.toNat d.toNat (i + 1) state.1.toNat state.2.toNat) :
    Divides n.toNat d.toNat i (n.divStep d state i).1.toNat (n.divStep d state i).2.toNat := by
  have positive := pos_of_ne_zero nonzero
  have remainder_lt := divides.remainder_lt positive
  have d_lt := d.toNat_lt
  have next_bit : (n.bit i).toNat = n.toNat / 2 ^ i % 2 := by
    rw [bit_eq]
    rcases mod_two_eq_zero_or_one (n.toNat / 2 ^ i) with even | odd
    · rw [even]
      rfl
    · rw [odd]
      rfl
  have brought := toNat_bringDown state.2 (n.bit i)
  rw [next_bit] at brought
  unfold divStep
  dsimp only
  generalize (if n.bit i then { state.2.shl 1 with lo := (state.2.shl 1).lo ||| 1#128 }
    else state.2.shl 1) = remainder at brought ⊢
  have next_lt : n.toNat / 2 ^ i % 2 < 2 := mod_lt _ (by decide)
  split
  · next goes =>
    rw [Bool.or_eq_true, carry_iff, ge_iff, brought] at goes
    have above : d.toNat ≤ 2 * state.2.toNat + n.toNat / 2 ^ i % 2 := by omega
    have step := divides.bring_down_above positive above
    rw [toNat_setBit divides.dvd_quotient bounded, toNat_wrappingSub, brought]
    have wrapped : (2 ^ 256 + (2 * state.2.toNat + n.toNat / 2 ^ i % 2) % 2 ^ 256 - d.toNat) % 2 ^ 256 =
        2 * state.2.toNat + n.toNat / 2 ^ i % 2 - d.toNat := by omega
    rw [wrapped]
    exact step
  · next stays =>
    rw [Bool.or_eq_true, carry_iff, ge_iff, brought] at stays
    have below : 2 * state.2.toNat + n.toNat / 2 ^ i % 2 < d.toNat := by omega
    have whole : (2 * state.2.toNat + n.toNat / 2 ^ i % 2) % 2 ^ 256 =
        2 * state.2.toNat + n.toNat / 2 ^ i % 2 := by omega
    rw [brought, whole]
    exact divides.bring_down_below below

/-- The loop, from the bit below `k` down to bit zero. -/
theorem foldl_divStep_divides {n : U256} (nonzero : d.toNat ≠ 0) (k : Nat) (bounded : k ≤ 256)
    (state : U256 × U256) (divides : Divides n.toNat d.toNat k state.1.toNat state.2.toNat) :
    Divides n.toNat d.toNat 0 ((List.range k).reverse.foldl (n.divStep d) state).1.toNat
      ((List.range k).reverse.foldl (n.divStep d) state).2.toNat := by
  induction k generalizing state with
  | zero => exact divides
  | succ k ih =>
    rw [List.range_succ, List.reverse_append, List.reverse_singleton, List.singleton_append,
      List.foldl_cons]
    exact ih (by omega) _ (divStep_divides nonzero (by omega) divides)

theorem toNat_div (n : U256) (nonzero : d.toNat ≠ 0) : (n.div d).toNat = n.toNat / d.toNat := by
  have start : Divides n.toNat d.toNat 256 zero.toNat zero.toNat := Divides.start n.toNat_lt
  have done := foldl_divStep_divides nonzero 256 (le_refl _) (zero, zero) start
  rw [div, done.finish]

/-! ## The work -/

theorem oneCheckedAdd_eq_some {lo : BitVec 128} :
    oneCheckedAdd lo = some work ↔ work.value = lo.toNat + 1 := by
  unfold oneCheckedAdd
  split
  · next fits =>
    rw [Option.some.injEq]
    constructor
    · rintro rfl
      exact add_comm _ _
    · intro value_eq
      exact SingleBlockWork.eq_of_value ((add_comm _ _).trans value_eq.symm)
  · next exceeds =>
    have bounded := work.bounded
    simp only [reduceCtorEq, false_iff]
    omega

/-- `2^256` does not fit, so one `target + 1` is taken out of it before the division. -/
theorem two_pow_div (u : U256) :
    u.complement.toNat / (u.toNat + 1) + 1 = 2 ^ 256 / (u.toNat + 1) := by
  have bound := u.toNat_lt
  rw [← add_div_right _ (succ_pos _), toNat_complement]
  congr 1
  omega

theorem exists_toNat {n : Nat} (bounded : n < 2 ^ 256) : ∃ u : U256, u.toNat = n := by
  refine ⟨⟨BitVec.ofNat 128 (n / 2 ^ 128), BitVec.ofNat 128 n⟩, ?_⟩
  simp only [toNat, BitVec.toNat_ofNat]
  omega

theorem checkedAddOne_eq_none : u.checkedAddOne = none ↔ u.toNat + 1 = 2 ^ 256 := by
  have bound := u.toNat_lt
  constructor
  · intro refused
    by_contra room
    obtain ⟨v, v_eq⟩ := exists_toNat (show u.toNat + 1 < 2 ^ 256 by omega)
    rw [checkedAddOne_eq_some.mpr v_eq] at refused
    cases refused
  · intro full
    cases added : u.checkedAddOne with
    | none => rfl
    | some v =>
      have v_eq := checkedAddOne_eq_some.mp added
      have v_lt := v.toNat_lt
      omega

theorem hi_eq_zero_iff (u : U256) : u.hi = 0#128 ↔ u.toNat < 2 ^ 128 := by
  have lo := u.lo.isLt
  rw [← toNat_inj, BitVec.toNat_ofNat, toNat]
  omega

/-- The work exists from the targets of `2^128` on, where `2^256 / (target + 1)` fits its width. -/
theorem work_eq_some : u.work = some work ↔
      2 ^ 128 ≤ u.toNat ∧ u.toNat + 1 < 2 ^ 256 ∧ work.value = 2 ^ 256 / (u.toNat + 1) := by
  have bound := u.toNat_lt
  unfold U256.work
  cases added : u.checkedAddOne with
  | none =>
    have full := checkedAddOne_eq_none.mp added
    simp only [Option.bind_eq_bind, Option.bind_none, reduceCtorEq, false_iff]
    omega
  | some divisor =>
    have divisor_eq := checkedAddOne_eq_some.mp added
    have divisor_lt := divisor.toNat_lt
    have quotient_eq : (u.complement.div divisor).toNat + 1 = 2 ^ 256 / (u.toNat + 1) := by
      rw [toNat_div _ (by omega), divisor_eq, two_pow_div]
    have fits : 2 ^ 256 / (u.toNat + 1) < 2 ^ 128 ↔ 2 ^ 128 ≤ u.toNat := by
      rw [div_lt_iff_lt_mul (succ_pos _)]
      omega
    simp only [Option.bind_eq_bind, Option.bind_some]
    generalize u.complement.div divisor = quotient at quotient_eq ⊢
    generalize 2 ^ 256 / (u.toNat + 1) = ideal at quotient_eq fits ⊢
    have value_lt := work.bounded
    split
    · next exceeds =>
      have wide : ¬ quotient.toNat < 2 ^ 128 := mt (hi_eq_zero_iff quotient).mpr exceeds
      simp only [reduceCtorEq, false_iff]
      omega
    · next narrow =>
      have hi_zero : quotient.hi = 0#128 := not_not.mp narrow
      have lo_eq : quotient.toNat = quotient.lo.toNat := by
        rw [toNat, hi_zero, BitVec.toNat_ofNat, Nat.zero_mod, Nat.zero_mul, Nat.zero_add]
      rw [oneCheckedAdd_eq_some]
      omega

end U256

end Zaino.Difficulty
