import Calx.Natives.Scale
import Calx.Vm.Arithmetic

/-!
# Truncated quotients of numbers

`fdiv` and `fmod` of `stdlib.calx`, as the operators of `vm.c` evaluate them: the
quotient at the current scale, cut once more by `//`.

## Implementation notes

The two functions are the only ones of the library that are about numbers with
digits after the dot on both sides, so that they are stated on numbers and not on
their values. Every operator is given the sharing of its operands; the quotient is
never the object of an operand, so that `*` has two objects.
-/

namespace Calx

open Libdeci Positional

variable [Libdeci]

/-- The literal `1`. -/
def literalOne : Number := ⟨false, 0, [1]⟩

/-- `fdiv`. -/
def fdiv (ntp : NumberTruncateParams) (div idiv : Sharing) (x y : Value) :
    Except OperatorError Value := do
  let q ← performAop ntp div .aopDiv x y
  performAop ntp idiv .aopIdiv q (.num literalOne)

/-- `fmod`. -/
def fmod (ntp : NumberTruncateParams) (div idiv mul sub : Sharing) (x y : Value) :
    Except OperatorError Value := do
  let q ← fdiv ntp div idiv x y
  let p ← performAop ntp { mul with same := false } .aopMul y q
  performAop ntp sub .aopSub x p

variable {x y : Number}

theorem literalOne_wf : literalOne.Wf := by
  have hlt : 1 < deciBase := one_lt_deciBase
  have htop : ([1] : List Nat).getLast? ≠ some 0 := by decide
  exact ⟨Nat.zero_le _, digits_cons.mpr ⟨hlt, digits_nil⟩, htop⟩

theorem literalOne_value : literalOne.value = 1 := by
  simp [literalOne, Number.value, Number.signFactor, Number.absValue, Number.mag]

/-! ## The two functions -/

theorem performAop_div (hy : y.Wf) (hy0 : y.value ≠ 0) (ntp : NumberTruncateParams) (sh : Sharing) :
    performAop ntp sh .aopDiv (.num x) (.num y) = .ok (.num (numberDiv sh.uniqLeft x y ntp)) := by
  have hne : numberIsZero y = false := by
    rw [← Bool.not_eq_true, numberIsZero_iff y hy]
    exact mt Number.value_eq_zero.mpr hy0
  simp [performAop, performNumberAop, hne]

theorem performAop_idiv (hy : y.Wf) (hy0 : Rounding.trunc y.value ≠ 0) (ntp : NumberTruncateParams)
    (sh : Sharing) :
    performAop ntp sh .aopIdiv (.num x) (.num y) = .ok (.num (numberIdiv sh.uniqLeft x y)) := by
  have hne : numberIsIzero y = false := by
    rw [← Bool.not_eq_true, numberIsIzero_iff hy]
    exact hy0
  simp [performAop, performNumberAop, hne]

theorem fdiv_spec (hx : x.Wf) (hy : y.Wf) (hy0 : y.value ≠ 0) (p : Nat) (div idiv : Sharing) :
    ∃ q : Number, fdiv (ntpFromPrec p) div idiv (.num x) (.num y) = .ok (.num q) ∧ q.Wf ∧
      q.value = Rounding.trunc (x.value / y.value) := by
  obtain ⟨hwf, hvalue⟩ := numberDiv_value div.uniqLeft hx hy hy0 p
  have hone : Rounding.trunc literalOne.value = 1 := by
    rw [literalOne_value]
    simp [Rounding.trunc]
  have hone0 : Rounding.trunc literalOne.value ≠ 0 := by
    rw [hone]
    decide
  obtain ⟨hqwf, hq⟩ := numberIdiv_value idiv.uniqLeft hwf literalOne_wf hone0
  refine ⟨_, ?_, hqwf, ?_⟩
  · rw [fdiv, performAop_div hy hy0]
    exact performAop_idiv literalOne_wf hone0 (ntpFromPrec p) idiv
  · rw [hq, hone, Int.tdiv_one, hvalue,
      Rounding.trunc_trunc_mul_div _ (Nat.pow_pos (by decide))]

/-- At every scale, `fdiv` is the exact quotient rounded toward zero and `fmod` what it leaves: less
than the divisor, and of the sign of the dividend. -/
theorem quotient_scale_independent (hx : x.Wf) (hy : y.Wf) (hy0 : y.value ≠ 0) (p : Nat)
    (div idiv mul sub : Sharing) : ∃ q r : Number,
    fdiv (ntpFromPrec p) div idiv (.num x) (.num y) = .ok (.num q) ∧
      fmod (ntpFromPrec p) div idiv mul sub (.num x) (.num y) = .ok (.num r) ∧
      q.value = Rounding.trunc (x.value / y.value) ∧ r.value = x.value - y.value * q.value ∧
      |r.value| < |y.value| ∧ (r.value = 0 ∨ 0 < r.value * x.value) := by
  obtain ⟨q, hrun, hqwf, hq⟩ := fdiv_spec hx hy hy0 p div idiv
  obtain ⟨hmwf, hmul⟩ := numberMul_spec hy hqwf false (fun h => absurd h Bool.false_ne_true)
  obtain ⟨-, hsub⟩ := numberSub_spec hx hmwf sub.uniqLeft sub.uniqRight
  rw [hmul] at hsub
  refine ⟨q, _, hrun, ?_, hq, hsub, Rounding.remainder_bounds hy0 (by rw [hsub, hq])⟩
  rw [fmod, hrun]
  rfl

omit [Libdeci] in
/-- Minus seven and a half by two, at scale zero. -/
theorem quotient_scale_independent_halves : ∃ q r : Number,
    @fdiv libdeciByValue (@ntpFromPrec deciBase64 0) ⟨true, true, false⟩ ⟨true, true, false⟩
      (.num ⟨true, 1, [5000000000000000000, 7]⟩) (.num ⟨false, 0, [2]⟩) = .ok (.num q) ∧
    @Number.value deciBase64 q = -3 ∧ @Number.value deciBase64 r = -3 / 2 := by
  let := libdeciByValue
  have hbase : deciBase = 10 ^ 19 := rfl
  have hx : Number.value ⟨true, 1, [5000000000000000000, 7]⟩ = -15 / 2 := by
    norm_num [Number.value, Number.signFactor, Number.absValue, Number.mag, hbase, Nat.ofDigits]
  have hy : Number.value ⟨false, 0, [2]⟩ = 2 := by
    norm_num [Number.value, Number.signFactor, Number.absValue, Number.mag, hbase, Nat.ofDigits]
  have htrunc : Rounding.trunc (-15 / 2 / 2 : ℚ) = -3 := by
    norm_num [Rounding.trunc]
  obtain ⟨q, r, hrun, -, hq, hr, -⟩ := quotient_scale_independent
    (x := ⟨true, 1, [5000000000000000000, 7]⟩) (y := ⟨false, 0, [2]⟩) (by decide) (by decide)
    (by rw [hy]; norm_num) 0 ⟨true, true, false⟩ ⟨true, true, false⟩ ⟨true, true, false⟩
    ⟨true, true, false⟩
  rw [hx, hy, htrunc] at hq
  refine ⟨q, r, hrun, by rw [hq]; norm_num, ?_⟩
  rw [hr, hx, hy, hq]
  norm_num

end Calx
