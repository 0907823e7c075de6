import Mathlib.Algebra.Ring.Nat
import Mathlib.Data.List.Induction
import Mathlib.Data.List.Lex

/-!
# Big-endian keys in byte order

A key is a list of bytes and keys are compared lexicographically. `bigEndian width n` writes `n`
in `width` bytes, most significant first. Between two keys of one width the byte order is the
numeric order; between keys of different widths it is not, and `compare_bigEndian_leading` says
what it is instead: the short key is compared with the leading bytes of the long one.
`ofBigEndian` reads such bytes back.
-/

namespace Library

instance lawfulBytes : LawfulBEq (List UInt8) := inferInstance

/-- The `width` low-order bytes of `n`, most significant first. -/
def bigEndian : Nat → Nat → List UInt8
  | 0, _ => []
  | width + 1, n => UInt8.ofNat (n / 256 ^ width) :: bigEndian width n

variable (width n : Nat)

@[simp]
theorem length_bigEndian : (bigEndian width n).length = width := by
  induction width with
  | zero => rfl
  | succ width ih => simp [bigEndian, ih]

theorem bigEndian_mod : bigEndian width (n % 256 ^ width) = bigEndian width n := by
  suffices shifted : ∀ extra, bigEndian width (n % 256 ^ (width + extra)) = bigEndian width n from
    shifted 0
  induction width with
  | zero => intro extra; rfl
  | succ width ih =>
    intro extra
    have digit : n % 256 ^ (width + 1 + extra) / 256 ^ width % 256 = n / 256 ^ width % 256 := by
      rw [show width + 1 + extra = width + (1 + extra) by omega, Nat.pow_add,
        Nat.mod_mul_right_div_self, Nat.pow_add, Nat.pow_one, Nat.mod_mul_right_mod]
    have rest := ih (1 + extra)
    rw [show width + (1 + extra) = width + 1 + extra by omega] at rest
    simp only [bigEndian, rest, List.cons.injEq, and_true]
    apply UInt8.toNat_inj.mp
    simpa using digit

theorem compare_byte (a b : Nat) (a_fits : a < 256) (b_fits : b < 256) :
    compare (UInt8.ofNat a) (UInt8.ofNat b) = compare a b := by
  have lt_iff : UInt8.ofNat a < UInt8.ofNat b ↔ a < b := by
    rw [UInt8.lt_iff_toNat_lt]
    simp [Nat.mod_eq_of_lt a_fits, Nat.mod_eq_of_lt b_fits]
  have eq_iff : UInt8.ofNat a = UInt8.ofNat b ↔ a = b := by
    rw [← UInt8.toNat_inj]
    simp [Nat.mod_eq_of_lt a_fits, Nat.mod_eq_of_lt b_fits]
  simp only [compare, compareOfLessAndEq, lt_iff, eq_iff]

theorem compare_cons (a b : UInt8) (rest rest' : List UInt8) :
    compare (a :: rest) (b :: rest') = (compare a b).then (compare rest rest') := by
  exact List.compareLex_cons_cons

/-- Numbers compare by their leading digit and then by what remains. -/
theorem compare_div_mod (base a b : Nat) (positive : 0 < base) :
    compare a b = (compare (a / base) (b / base)).then (compare (a % base) (b % base)) := by
  have split_a := Nat.div_add_mod a base
  have split_b := Nat.div_add_mod b base
  have rest_a := Nat.mod_lt a positive
  have rest_b := Nat.mod_lt b positive
  rcases Nat.lt_trichotomy (a / base) (b / base) with below | same | above
  · have step : base * (a / base) + base ≤ base * (b / base) := by
      exact Nat.mul_le_mul_left base below
    rw [Nat.compare_eq_lt.mpr below, Nat.compare_eq_lt.mpr (by omega)]
    rfl
  · rw [same, Nat.compare_eq_eq.mpr rfl]
    rw [same] at split_a
    rcases Nat.lt_trichotomy (a % base) (b % base) with less | equal | more
    · rw [Nat.compare_eq_lt.mpr less, Nat.compare_eq_lt.mpr (by omega)]
      rfl
    · rw [Nat.compare_eq_eq.mpr equal, Nat.compare_eq_eq.mpr (by omega)]
      rfl
    · rw [Nat.compare_eq_gt.mpr more, Nat.compare_eq_gt.mpr (by omega)]
      rfl
  · have step : base * (b / base) + base ≤ base * (a / base) := by
      rw [← Nat.mul_succ]
      exact Nat.mul_le_mul_left base above
    rw [Nat.compare_eq_gt.mpr above, Nat.compare_eq_gt.mpr (by omega)]
    rfl

/-- Between keys of one width the byte order is the numeric order. -/
theorem compare_bigEndian (width : Nat) : ∀ a b : Nat, a < 256 ^ width → b < 256 ^ width →
    compare (bigEndian width a) (bigEndian width b) = compare a b := by
  induction width with
  | zero =>
    intro a b a_fits b_fits
    rw [Nat.compare_eq_eq.mpr (by simp at a_fits b_fits; omega)]
    rfl
  | succ width ih =>
    intro a b a_fits b_fits
    have positive : 0 < 256 ^ width := Nat.pow_pos (by omega)
    rw [Nat.pow_succ] at a_fits b_fits
    rw [bigEndian, bigEndian, compare_cons,
      compare_byte _ _ (Nat.div_lt_of_lt_mul a_fits) (Nat.div_lt_of_lt_mul b_fits),
      ← bigEndian_mod width a, ← bigEndian_mod width b,
      ih _ _ (Nat.mod_lt a positive) (Nat.mod_lt b positive), ← compare_div_mod _ _ _ positive]

/-- The number that the bytes write, most significant first. -/
def ofBigEndian (bytes : List UInt8) : Nat :=
  bytes.foldl (fun n byte => n * 256 + byte.toNat) 0

/-- Reading the bytes back gives the number, as far as the width holds it. -/
theorem ofBigEndian_bigEndian : ofBigEndian (bigEndian width n) = n % 256 ^ width := by
  suffices from_digits : ∀ acc, (bigEndian width n).foldl (fun n byte => n * 256 + byte.toNat) acc =
      acc * 256 ^ width + n % 256 ^ width by
    simpa [ofBigEndian] using from_digits 0
  induction width with
  | zero => intro acc; simp [bigEndian, Nat.mod_one]
  | succ width ih =>
    intro acc
    have digit : (UInt8.ofNat (n / 256 ^ width)).toNat = n / 256 ^ width % 256 := by simp
    rw [bigEndian, List.foldl_cons, ih, digit, Nat.pow_succ, Nat.mod_mul, Nat.add_mul,
      Nat.mul_assoc, Nat.mul_comm 256 (256 ^ width), Nat.mul_comm (n / 256 ^ width % 256)]
    omega

/-- The leading bytes of a key are the big-endian form of its leading digits. -/
theorem bigEndian_split (high low n : Nat) :
    bigEndian (high + low) n = bigEndian high (n / 256 ^ low) ++ bigEndian low n := by
  induction high with
  | zero => simp [bigEndian]
  | succ high ih =>
    rw [show high + 1 + low = high + low + 1 by omega, bigEndian, bigEndian, List.cons_append, ih,
      Nat.div_div_eq_div_mul, Nat.pow_add, Nat.mul_comm (256 ^ high)]

variable (bytes : List UInt8)

theorem ofBigEndian_append (byte : UInt8) :
    ofBigEndian (bytes ++ [byte]) = ofBigEndian bytes * 256 + byte.toNat := by
  rw [ofBigEndian, List.foldl_append]
  rfl

theorem ofBigEndian_lt : ofBigEndian bytes < 256 ^ bytes.length := by
  induction bytes using List.reverseRecOn with
  | nil => decide
  | append_singleton bytes byte ih =>
    have digit := byte.toNat_lt
    rw [ofBigEndian_append, List.length_append, List.length_singleton, Nat.pow_succ]
    omega

/-- Writing the number of some bytes gives the bytes back. -/
theorem bigEndian_ofBigEndian : bigEndian bytes.length (ofBigEndian bytes) = bytes := by
  induction bytes using List.reverseRecOn with
  | nil => rfl
  | append_singleton bytes byte ih =>
    have digit := byte.toNat_lt
    have high : (ofBigEndian bytes * 256 + byte.toNat) / 256 ^ 1 = ofBigEndian bytes := by omega
    rw [ofBigEndian_append, List.length_append, List.length_singleton, bigEndian_split, high, ih]
    simp [bigEndian, UInt8.ofNat_add]

/-- A key of `high` bytes against a longer one: below it exactly when its number is at most the
longer key's leading digits. -/
theorem compare_bigEndian_leading (high low a n : Nat) (longer : 0 < low) (a_fits : a < 256 ^ high)
    (n_fits : n / 256 ^ low < 256 ^ high) : compare (bigEndian high a) (bigEndian (high + low) n) =
      (compare a (n / 256 ^ low)).then .lt := by
  have against : ∀ (first second rest : List UInt8), first.length = second.length → rest ≠ [] →
      compare first (second ++ rest) = (compare first second).then .lt := by
    intro first
    induction first with
    | nil =>
      intro second rest same nonempty
      cases second with
      | nil => cases rest with
        | nil => exact absurd rfl nonempty
        | cons b rest => rfl
      | cons b second => cases same
    | cons b first ih =>
      intro second rest same nonempty
      cases second with
      | nil => cases same
      | cons c second =>
        rw [List.cons_append, compare_cons, compare_cons,
          ih second rest (Nat.succ.inj same) nonempty, Ordering.then_assoc]
  have nonempty : bigEndian low n ≠ [] := by
    intro empty
    have := congrArg List.length empty
    simp at this
    omega
  rw [bigEndian_split, against _ _ _ (by simp) nonempty, compare_bigEndian _ _ _ a_fits n_fits]

end Library
