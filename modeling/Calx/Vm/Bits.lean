import Calx.Stdlib.Ops
import Calx.Vm.Arithmetic

/-!
# Machine integers

The conversions between numbers and machine integers in `number.h`, and the bitwise
operators on two numbers.

## Implementation notes

The documentation of the language applies an operation on 32-bit words to
`TO_UINT32` of both operands; `bitwise` is that table.
-/

namespace Calx

open Libdeci

variable [Libdeci] {x y : Number}

/-! ## Conversions -/

/-- Truncation reads nothing but the sign and the integer part of the magnitude. -/
theorem Number.trunc_of_sign (x : Number) :
    Rounding.trunc x.value = if x.sign then -(⌊x.absValue⌋₊ : ℤ) else ⌊x.absValue⌋₊ := by
  rw [Number.trunc_value, intSign]
  split
  · rw [neg_one_mul]
  · rw [one_mul]

/-- `number_to_zu` of a number that is not negative. -/
theorem numberToZu_value (hx : x.Wf) :
    numberToZu x = if 0 ≤ x.value ∧ Rounding.trunc x.value < 2 ^ 64 then
      (Rounding.trunc x.value).toNat else sizeMax := by
  rw [numberToZu_eq x hx, Number.trunc_of_sign]
  cases hsign : x.sign with
  | false =>
      have hnonneg : 0 ≤ x.value := by
        rw [Number.value_of_sign hsign]
        exact x.absValue_nonneg
      simp only [Bool.false_eq_true, if_false, hnonneg, true_and, Int.toNat_natCast]
      congr 1
      exact propext (by norm_cast)
  | true =>
      simp only [if_true]
      by_cases hzero : x.mag = 0
      · have hvalue := Number.value_eq_zero.mpr hzero
        have habs := Number.absValue_eq_zero.mpr hzero
        rw [if_pos hzero, hvalue, habs]
        simp
      · have hneg := Number.value_neg_of_sign hsign hzero
        rw [if_neg hzero, if_neg fun h => absurd h.1 (not_le.mpr hneg)]

/-- `number_to_u32` is the residue of the truncated number. -/
theorem numberToU32_value (hx : x.Wf) :
    (numberToU32 x).toNat = Stdlib.toU32 (Rounding.trunc x.value) := by
  obtain ⟨a, ha⟩ : ∃ a : Number, a = { x with sign := false } := ⟨_, rfl⟩
  have hwf : a.Wf := by
    rw [ha]
    exact ⟨hx.scale_le, hx.words, hx.top⟩
  have habs : a.absValue = x.absValue := by
    rw [ha]
    rfl
  have hlow : numberToU32 a = UInt32.ofNat ⌊x.absValue⌋₊ := by
    rw [numberToU32_eq hwf (by rw [ha]), habs]
  have hrun : numberToU32 x = if x.sign then -numberToU32 a else numberToU32 a := by
    rw [ha]
    rfl
  rw [hrun, hlow, Number.trunc_of_sign, Stdlib.toU32]
  split
  · have hsize : UInt32.size = 2 ^ 32 := rfl
    rw [UInt32.toNat_neg, UInt32.toNat_ofNat', hsize]
    omega
  · rw [UInt32.toNat_ofNat']
    omega

/-- A machine integer survives the way through a number. -/
theorem numberToZu_numberNewFromZu {n : ℕ} (h : n < 2 ^ 64) : numberToZu (numberNewFromZu n) = n := by
  obtain ⟨hwf, hvalue⟩ := numberNewFromZu_spec n
  have htrunc : Rounding.trunc (n : ℚ) = n := by
    rw [Rounding.trunc_of_nonneg (Nat.cast_nonneg n), Int.floor_natCast]
  rw [numberToZu_value hwf, hvalue, htrunc, if_pos ⟨Nat.cast_nonneg n, by exact_mod_cast h⟩,
    Int.toNat_natCast]

/-! ## Bitwise operators -/

/-- The operations on 32-bit words behind the bitwise operators, as documented. -/
def bitwise : Aop → ℕ → ℕ → Option ℕ
  | .aopBitAnd, u, v => some (u &&& v)
  | .aopBitOr, u, v => some (u ||| v)
  | .aopBitXor, u, v => some (u ^^^ v)
  | .aopLshift, u, v => some (if v < 32 then (u <<< v) % 2 ^ 32 else 0)
  | .aopRshift, u, v => some (if v < 32 then u >>> v else 0)
  | _, _, _ => none

/-- A bitwise operator computes the documented operation on the residues. -/
theorem bitwise_run (ntp : NumberTruncateParams) (sh : Sharing) {aop : Aop} {z : ℕ}
    (hz : bitwise aop (numberToU32 x).toNat (numberToU32 y).toNat = some z) :
    performAop ntp sh aop (.num x) (.num y) = .ok (.num (numberNewFromZu z)) := by
  have hlt : numberToU32 y < 32 ↔ (numberToU32 y).toNat < 32 := UInt32.lt_iff_toNat_lt
  cases aop <;> cases hz
  case aopBitAnd =>
    rw [← UInt32.toNat_and]
    rfl
  case aopBitOr =>
    rw [← UInt32.toNat_or]
    rfl
  case aopBitXor =>
    rw [← UInt32.toNat_xor]
    rfl
  case aopLshift =>
    have hrun : performAop ntp sh .aopLshift (.num x) (.num y) = .ok (.num (numberBitShl x y)) := rfl
    rw [hrun, numberBitShl]
    by_cases h : (numberToU32 y).toNat < 32
    · rw [if_pos h, if_pos (hlt.mpr h), UInt32.toNat_shiftLeft, Nat.mod_eq_of_lt h]
    · rw [if_neg h, if_neg (mt hlt.mp h), UInt32.toNat_zero]
  case aopRshift =>
    have hrun : performAop ntp sh .aopRshift (.num x) (.num y) = .ok (.num (numberBitLshr x y)) :=
      rfl
    rw [hrun, numberBitLshr]
    by_cases h : (numberToU32 y).toNat < 32
    · rw [if_pos h, if_pos (hlt.mpr h), UInt32.toNat_shiftRight, Nat.mod_eq_of_lt h]
    · rw [if_neg h, if_neg (mt hlt.mp h), UInt32.toNat_zero]

/-- Truncation to `size_t`, the residue modulo `2 ^ 32`, the way back from `size_t`, and the
bitwise operators on the residues of any two numbers. -/
theorem machine_integers (hx : x.Wf) (hy : y.Wf) (ntp : NumberTruncateParams) (sh : Sharing) :
    (numberToZu x = if 0 ≤ x.value ∧ Rounding.trunc x.value < 2 ^ 64 then
      (Rounding.trunc x.value).toNat else sizeMax) ∧
    ((numberToU32 x).toNat : ℤ) = Rounding.trunc x.value % 2 ^ 32 ∧
    (∀ n < 2 ^ 64, numberToZu (numberNewFromZu n) = n) ∧
    ∀ aop z, bitwise aop (Rounding.trunc x.value % 2 ^ 32).toNat
        (Rounding.trunc y.value % 2 ^ 32).toNat = some z →
      ∃ r : Number, performAop ntp sh aop (.num x) (.num y) = .ok (.num r) ∧ r.Wf ∧ r.value = z := by
  refine ⟨numberToZu_value hx, ?_, fun n hn => numberToZu_numberNewFromZu hn, fun aop z hz => ?_⟩
  · rw [numberToU32_value hx, Stdlib.toU32]
    exact Int.toNat_of_nonneg (Int.emod_nonneg _ (by norm_num))
  · obtain ⟨hwf, hvalue⟩ := numberNewFromZu_spec z
    refine ⟨_, bitwise_run ntp sh ?_, hwf, hvalue⟩
    rw [numberToU32_value hx, numberToU32_value hy]
    exact hz

omit [Libdeci] in
/-- Minus one and a half, shifted to the left by four, at nineteen digits to a word. -/
theorem machine_integers_shift : ∃ r : Number, @performAop libdeciByValue ⟨0, 1⟩ ⟨true, true, false⟩
    .aopLshift (.num ⟨true, 1, [5000000000000000000, 1]⟩) (.num ⟨false, 0, [4]⟩) = .ok (.num r) ∧
      @Number.value deciBase64 r = 4294967280 := by
  let := libdeciByValue
  have hbase : deciBase = 10 ^ 19 := rfl
  have hx : Number.value ⟨true, 1, [5000000000000000000, 1]⟩ = -3 / 2 := by
    norm_num [Number.value, Number.signFactor, Number.absValue, Number.mag, hbase, Nat.ofDigits]
  have hy : Number.value ⟨false, 0, [4]⟩ = 4 := by
    norm_num [Number.value, Number.signFactor, Number.absValue, Number.mag, hbase, Nat.ofDigits]
  have hruns := (machine_integers (x := ⟨true, 1, [5000000000000000000, 1]⟩)
    (y := ⟨false, 0, [4]⟩) (by decide) (by decide) ⟨0, 1⟩ ⟨true, true, false⟩).2.2.2
  have htruncX : Rounding.trunc (-3 / 2 : ℚ) = -1 := by norm_num [Rounding.trunc]
  have htruncY : Rounding.trunc (4 : ℚ) = 4 := by norm_num [Rounding.trunc]
  rw [hx, hy, htruncX, htruncY] at hruns
  obtain ⟨r, hrun, -, hvalue⟩ := hruns .aopLshift 4294967280 rfl
  exact ⟨r, hrun, by rw [hvalue]; norm_num⟩

end Calx
