import Calx.Natives.Decimal
import Calx.Stdlib.Decimal
import Calx.Stdlib.Quotient

/-!
# Operators on numbers and on their values

The library functions are stated over integers and rationals. Here the operators
and native functions that they use are those of the machine: on numbers that
denote the operands, both return the same value or stop with the same message.

## Implementation notes

`val` reads a result as a rational. Every operand may be shared or not.
-/

namespace Calx.Stdlib

open Libdeci Loop

section

variable [Libdeci] {x y m : Number} {a b : ℤ} {p q : ℚ} {w : World}

/-! ## The relation -/

/-- A well-formed number and its value. -/
structure Denotes (x : Number) (q : ℚ) : Prop where
  wf : x.Wf
  value : x.value = q

/-- How an operator of the machine fails, as seen by a library function. -/
def stopOf : OperatorError → Stop
  | .prepared text => .raised text
  | .panic text => .panicked text

/-- The machine ends like the operation on values, which leaves the world as it is. -/
inductive SameOutcome {α : Type} (val : α → ℚ) (w : World) :
    Except OperatorError Value → Except Stop (α × World) → Prop
  | value {z : Number} {c : α} (h : Denotes z (val c)) : SameOutcome val w (.ok (.num z)) (.ok (c, w))
  | stop (e : OperatorError) : SameOutcome val w (.error e) (.error (stopOf e))

theorem Denotes.trunc (h : Denotes x q) : Rounding.trunc x.value = Stdlib.trunc q := by
  rw [h.value]
  rfl

theorem Denotes.trunc_int (h : Denotes x a) : Rounding.trunc x.value = a := by
  rw [h.trunc, trunc_intCast]

theorem Denotes.toU32 (h : Denotes x a) : (numberToU32 x).toNat = Stdlib.toU32 a := by
  rw [numberToU32_value h.wf, h.trunc_int]

/-! ## Integral division -/

theorem idivNum_same (hx : Denotes x p) (hy : Denotes y q) (ntp : NumberTruncateParams) (sh : Sharing) :
    SameOutcome (↑) w (performAop ntp sh .aopIdiv (.num x) (.num y)) (idivNum p q w) := by
  rw [idivNum]
  by_cases hzero : Stdlib.trunc q = 0
  · have hrun := ((divByZero_iff (x := x) hy.wf ntp sh).1).mpr (hy.trunc.trans hzero)
    rw [hrun, idiv, if_pos hzero]
    exact .stop _
  · have hne : Rounding.trunc y.value ≠ 0 := by
      rw [hy.trunc]
      exact hzero
    obtain ⟨hwf, hvalue⟩ := numberIdiv_value sh.uniqLeft hx.wf hy.wf hne
    rw [performAop_idiv hy.wf hne, idiv_eq hzero]
    rw [hx.trunc, hy.trunc] at hvalue
    exact .value ⟨hwf, hvalue⟩

theorem idiv_same (hx : Denotes x a) (hy : Denotes y b) (ntp : NumberTruncateParams) (sh : Sharing) :
    SameOutcome (↑) w (performAop ntp sh .aopIdiv (.num x) (.num y)) (idiv a b w) := by
  have hrun := idivNum_same (w := w) hx hy ntp sh
  rwa [idivNum, trunc_intCast, trunc_intCast] at hrun

theorem performAop_imod (hy : y.Wf) (hy0 : Rounding.trunc y.value ≠ 0) (ntp : NumberTruncateParams)
    (sh : Sharing) :
    performAop ntp sh .aopMod (.num x) (.num y) = .ok (.num (numberImod sh.uniqLeft x y)) := by
  have hne : numberIsIzero y = false := by
    rw [← Bool.not_eq_true, numberIsIzero_iff hy]
    exact hy0
  simp [performAop, performNumberAop, hne]

theorem imod_same (hx : Denotes x a) (hy : Denotes y b) (ntp : NumberTruncateParams) (sh : Sharing) :
    SameOutcome (↑) w (performAop ntp sh .aopMod (.num x) (.num y)) (imod a b w) := by
  by_cases hzero : b = 0
  · have hrun := ((divByZero_iff (x := x) hy.wf ntp sh).2).mpr (hy.trunc_int.trans hzero)
    rw [hrun, imod, if_pos hzero]
    exact .stop _
  · have hne : Rounding.trunc y.value ≠ 0 := by
      rw [hy.trunc_int]
      exact hzero
    obtain ⟨hwf, hvalue⟩ := numberImod_value sh.uniqLeft hx.wf hy.wf hne
    rw [performAop_imod hy.wf hne, imod_eq hzero]
    rw [hx.trunc_int, hy.trunc_int] at hvalue
    exact .value ⟨hwf, hvalue⟩

/-! ## Powers -/

/-- `number_pow` panics on exponents that do not fit, unless the base is trivial. -/
theorem numberPow_none (uniq : Bool) (hx : x.Wf) (hy : y.Wf) {n : ℕ} (hn : y.value = n)
    (hlarge : sizeMax ≤ n) (h0 : x.value ≠ 0) (h1 : |x.value| ≠ 1) : numberPow uniq x y = none := by
  obtain ⟨-, -, -, hzu⟩ := exponent_of_nat hy hn
  have hmax : numberToZu y = Calx.sizeMax := by
    rw [hzu]
    unfold Calx.sizeMax
    unfold sizeMax at hlarge
    split <;> omega
  have hzero : ¬ numberIsZero x = true := by
    rw [numberIsZero_iff x hx]
    exact fun h => h0 (Number.value_eq_zero.mpr h)
  have hone : ¬ numberAbsEqUword x 1 = true := by
    rw [numberAbsEqUword_one_iff hx, ← Number.abs_value]
    exact h1
  rw [numberPow, if_pos hmax, if_neg hzero, if_neg hone]

omit [Libdeci] in
/-- A trivial base has its power for every exponent. -/
theorem pow_of_trivial {n : ℕ} (hn : sizeMax ≤ n) (ha : a = 0 ∨ a.natAbs = 1) :
    pow a n = pure (a ^ n) := by
  have hn0 : n ≠ 0 := by
    unfold sizeMax at hn
    omega
  rw [pow, if_neg (by omega), if_neg (by exact_mod_cast not_lt.mpr hn)]
  rcases ha with rfl | ha
  · rw [if_pos rfl, zero_pow hn0]
  · have ha0 : a ≠ 0 := by omega
    rw [if_neg ha0, if_pos ha]
    have hodd : Stdlib.toU32 n % 2 = 1 ↔ Odd n := by
      rw [Stdlib.toU32, Nat.odd_iff]
      omega
    rcases Int.natAbs_eq_iff.mp ha with rfl | rfl
    · rw [if_neg (by simp), Nat.cast_one, one_pow]
    · rw [Nat.cast_one]
      by_cases hp : Odd n
      · rw [if_pos ⟨by decide, hodd.mpr hp⟩, hp.neg_one_pow]
      · rw [if_neg fun h => hp (hodd.mp h.2), (Nat.not_odd_iff_even.mp hp).neg_one_pow]

theorem pow_same (hx : Denotes x a) (hy : Denotes y b) (ntp : NumberTruncateParams) (sh : Sharing) :
    SameOutcome (↑) w (performAop ntp sh .aopPow (.num x) (.num y)) (pow a b w) := by
  have hrun : performAop ntp sh .aopPow (.num x) (.num y) = doPow sh.uniqLeft x y := rfl
  rw [hrun, doPow]
  by_cases hneg : b < 0
  · have hcheck : (y.sign && !numberIsZero y) = true := by
      rw [exponent_negative_iff hy.wf, hy.value]
      exact_mod_cast hneg
    rw [hcheck, if_pos rfl, pow, if_pos hneg]
    exact .stop _
  · obtain ⟨n, rfl⟩ := Int.eq_ofNat_of_zero_le (not_lt.mp hneg)
    have hn : y.value = n := by
      rw [hy.value]
      rfl
    obtain ⟨hcheck, hfraction, -, -⟩ := exponent_of_nat hy.wf hn
    rw [hcheck, hfraction]
    -- The power is computed, trivial, or refused.
    by_cases hcase : n < sizeMax ∨ a = 0 ∨ a.natAbs = 1
    · have hvalues : n < 2 ^ 64 - 1 ∨ x.value = 0 ∨ |x.value| = 1 := by
        rw [hx.value]
        refine hcase.imp id (Or.imp (fun h => by exact_mod_cast h) fun h => ?_)
        rw [← Int.cast_abs, Int.abs_eq_natAbs, h]
        rfl
      obtain ⟨r, hr, hwf, hvalue⟩ := numberPow_spec sh.uniqLeft hx.wf hy.wf hn hvalues
      have hpow : pow a n = pure (a ^ n) := by
        by_cases hlt : n < sizeMax
        · exact pow_eq (Int.natCast_nonneg n) (by exact_mod_cast hlt)
        · exact pow_of_trivial (not_lt.mp hlt) (hcase.resolve_left hlt)
      rw [hr, hpow]
      refine .value ⟨hwf, ?_⟩
      rw [hvalue, hx.value, Int.cast_pow]
    · obtain ⟨hlarge, h0, h1⟩ : sizeMax ≤ n ∧ a ≠ 0 ∧ a.natAbs ≠ 1 := by
        rwa [not_or, not_or, not_lt] at hcase
      have hnone : numberPow sh.uniqLeft x y = none := by
        apply numberPow_none sh.uniqLeft hx.wf hy.wf hn hlarge
        · rw [hx.value]
          exact_mod_cast h0
        · rw [hx.value, ← Int.cast_abs, Int.abs_eq_natAbs]
          exact_mod_cast h1
      have hpow : pow a n = throw (.panicked "exponent is too large") := by
        rw [pow, if_neg hneg, if_neg (by exact_mod_cast not_lt.mpr hlarge), if_neg h0, if_neg h1]
      rw [hnone, hpow]
      exact .stop _

/-! ## All operators on integers -/

/-- The operators of `perform_aop` that library functions apply to integers. -/
def integerAop (a b : ℤ) : Aop → Option (Calc ℤ)
  | .aopAdd => some (pure (a + b))
  | .aopSub => some (pure (a - b))
  | .aopMul => some (pure (a * b))
  | .aopIdiv => some (idiv a b)
  | .aopMod => some (imod a b)
  | .aopPow => some (pow a b)
  | .aopBitAnd => some (pure (bitAnd a b))
  | .aopLshift => some (pure (bitShl a b))
  | _ => none

/-- The bitwise operators have their documented results on integers. -/
theorem bitwise_same (hx : Denotes x a) (hy : Denotes y b) (ntp : NumberTruncateParams) (sh : Sharing)
    {aop : Aop} {z : ℕ} (hz : bitwise aop (Stdlib.toU32 a) (Stdlib.toU32 b) = some z) :
    SameOutcome ((↑) : ℤ → ℚ) w (performAop ntp sh aop (.num x) (.num y)) (.ok (z, w)) := by
  rw [← hx.toU32, ← hy.toU32] at hz
  obtain ⟨hwf, hvalue⟩ := numberNewFromZu_spec z
  rw [bitwise_run ntp sh hz]
  exact .value ⟨hwf, hvalue⟩

/-- On numbers that denote integers an operator of the machine ends like the one on integers. -/
theorem operator_same (hx : Denotes x a) (hy : Denotes y b) (ntp : NumberTruncateParams) {sh : Sharing}
    (hsame : sh.same = true → x = y) {aop : Aop} {c : Calc ℤ} (hc : integerAop a b aop = some c) :
    SameOutcome (↑) w (performAop ntp sh aop (.num x) (.num y)) (c w) := by
  cases aop <;> cases hc
  case aopAdd =>
    obtain ⟨hwf, hvalue⟩ := numberAdd_spec hx.wf hy.wf sh.uniqLeft sh.uniqRight
    refine .value ⟨hwf, ?_⟩
    rw [hvalue, hx.value, hy.value, Int.cast_add]
  case aopSub =>
    obtain ⟨hwf, hvalue⟩ := numberSub_spec hx.wf hy.wf sh.uniqLeft sh.uniqRight
    refine .value ⟨hwf, ?_⟩
    rw [hvalue, hx.value, hy.value, Int.cast_sub]
  case aopMul =>
    obtain ⟨hwf, hvalue⟩ := numberMul_spec hx.wf hy.wf sh.same hsame
    refine .value ⟨hwf, ?_⟩
    rw [hvalue, hx.value, hy.value, Int.cast_mul]
  case aopIdiv => exact idiv_same hx hy ntp sh
  case aopMod => exact imod_same hx hy ntp sh
  case aopPow => exact pow_same hx hy ntp sh
  case aopBitAnd => exact bitwise_same hx hy ntp sh rfl
  case aopLshift =>
    have hshift : bitShl a b = (if Stdlib.toU32 b < 32 then
        (Stdlib.toU32 a <<< Stdlib.toU32 b) % 2 ^ 32 else 0 : ℕ) := by
      rw [Nat.cast_ite]
      rfl
    rw [hshift]
    exact bitwise_same hx hy ntp sh rfl

/-! ## Decimal operations -/

/-- `/` at the current scale. -/
theorem div_same (hx : Denotes x p) (hy : Denotes y q) (sh : Sharing) :
    SameOutcome id w (performAop (ntpFromPrec w.scale) sh .aopDiv (.num x) (.num y)) (div p q w) := by
  rw [div]
  by_cases hzero : q = 0
  · have hcheck : numberIsZero y = true := by
      rw [numberIsZero_iff y hy.wf, ← Number.value_eq_zero, hy.value, hzero]
    have hrun : performAop (ntpFromPrec w.scale) sh .aopDiv (.num x) (.num y) = divByZero := by
      simp [performAop, performNumberAop, hcheck]
    rw [hrun, if_pos hzero]
    exact .stop _
  · have hne : y.value ≠ 0 := by
      rw [hy.value]
      exact hzero
    obtain ⟨hwf, hvalue⟩ := numberDiv_value sh.uniqLeft hx.wf hy.wf hne w.scale
    rw [performAop_div hy.wf hne, if_neg hzero]
    refine .value ⟨hwf, ?_⟩
    rw [hvalue, hx.value, hy.value]
    push_cast
    rfl

/-- A message of a native function, as an error of the machine. -/
def thrown (r : Except String Value) : Except OperatorError Value := r.mapError .prepared

/-- `Scale()`, for the scales that `Scale` accepts. -/
theorem scale_same (hw : w.scale < Stdlib.sizeMax) :
    SameOutcome ((↑) : ℤ → ℚ) w (thrown ((xScale (ntpFromPrec w.scale) []).map Prod.fst))
      (scale w) := by
  have hprec : ntpToPrec (ntpFromPrec w.scale) = w.scale := by
    apply ntpToPrec_ntpFromPrec
    unfold Stdlib.sizeMax at hw
    omega
  have hrun : (xScale (ntpFromPrec w.scale) []).map Prod.fst =
      .ok (.num (numberNewFromZu (ntpToPrec (ntpFromPrec w.scale)))) := rfl
  obtain ⟨hwf, hvalue⟩ := numberNewFromZu_spec w.scale
  rw [hrun, hprec]
  exact .value ⟨hwf, hvalue⟩

/-- `floor` and `ceil`. -/
theorem floor_ceil_same (hx : Denotes x q) :
    SameOutcome ((↑) : ℤ → ℚ) w (thrown (xFloor [.num x])) (.ok (floor q, w)) ∧
      SameOutcome ((↑) : ℤ → ℚ) w (thrown (xCeil [.num x])) (.ok (ceil q, w)) := by
  obtain ⟨hwf, hvalue⟩ := numberFloor_spec false hx.wf
  obtain ⟨hwf', hvalue'⟩ := numberCeil_spec false hx.wf
  rw [hx.value] at hvalue hvalue'
  exact ⟨.value ⟨hwf, hvalue⟩, .value ⟨hwf', hvalue'⟩⟩

/-- `guard_magnitude` of a number that denotes an integer. -/
theorem guardMagnitude_same (hm : Denotes m b) :
    Stdlib.guardMagnitude b w = match Calx.guardMagnitude m with
      | .ok mag => .ok (mag, w)
      | .error text => .error (.raised text) := by
  have hneg : m.value < 0 ↔ b < 0 := by
    rw [hm.value]
    exact Int.cast_lt_zero
  rw [Calx.guardMagnitude_eq hm.wf, hm.trunc_int, if_congr hneg rfl rfl, Stdlib.guardMagnitude]
  have hmax : Stdlib.sizeMax = Calx.sizeMax := rfl
  rw [hmax]
  split
  · rfl
  · split
    · rfl
    · rfl

/-- A native function that moves the point, when the numbers it computes denote the values. -/
theorem movePoint_same {α : Type} {val : α → ℚ} (hm : Denotes m b) {f : Number → Nat → Number}
    {g : ℕ → α} (hf : ∀ mag, Denotes (f x mag) (val (g mag))) :
    SameOutcome val w (thrown (xMovePoint f [.num x, .num m]))
      ((Stdlib.guardMagnitude b >>= fun mag => pure (g mag) : Calc α) w) := by
  have hbind : (Stdlib.guardMagnitude b >>= fun mag => pure (g mag) : Calc α) w =
      Stdlib.guardMagnitude b w >>= fun r => .ok (g r.1, r.2) := rfl
  rw [hbind, guardMagnitude_same hm, xMovePoint_eq]
  cases Calx.guardMagnitude m with
  | error text => exact .stop (.prepared text)
  | ok mag => exact .value (hf mag)

theorem upScale_same {α : Type} [Semiring α] (val : α →+* ℚ) {c : α} (hx : Denotes x (val c))
    (hm : Denotes m b) :
    SameOutcome val w (thrown (xUpScale [.num x, .num m])) (upScale c b w) := by
  refine movePoint_same hm fun mag => ?_
  obtain ⟨hwf, hvalue⟩ := numberScaleUp_spec false hx.wf mag
  refine ⟨hwf, ?_⟩
  rw [hvalue, hx.value, map_mul, map_pow, map_ofNat]

theorem downScale_same (hx : Denotes x q) (hm : Denotes m b) :
    SameOutcome id w (thrown (xDownScale [.num x, .num m])) (downScale q b w) := by
  refine movePoint_same hm fun mag => ?_
  obtain ⟨hwf, hvalue⟩ := numberScaleDown_spec false hx.wf mag
  refine ⟨hwf, ?_⟩
  rw [hvalue, hx.value]
  rfl

/-- `NumDigits(x, "i")`. -/
theorem numDigits_same (hx : Denotes x a) : ∃ r, xNumDigits [.num x, .str [ch 'i']] = some r ∧
    SameOutcome (↑) w (thrown r) (numDigits a w) := by
  have habs : ⌊x.absValue⌋₊ = a.natAbs := by
    rw [← Number.abs_value, hx.value, ← Int.cast_abs, Int.abs_eq_natAbs]
    exact Nat.floor_natCast _
  have hcount : numberNintdigits x = min (nintdigits a.natAbs) Stdlib.sizeMax := by
    rw [numberNintdigits_value hx.wf, habs]
    rfl
  have hrun : xNumDigits [.num x, .str [ch 'i']] = some (digitsResult (numberNintdigits x)) := rfl
  refine ⟨_, hrun, ?_⟩
  rw [hcount, digitsResult, numDigits]
  have hmax : Calx.sizeMax = Stdlib.sizeMax := rfl
  rw [hmax]
  by_cases hlt : nintdigits a.natAbs < Stdlib.sizeMax
  · obtain ⟨hwf, hvalue⟩ := numberNewFromZu_spec (nintdigits a.natAbs)
    rw [min_eq_left hlt.le, if_neg hlt.ne, if_pos hlt]
    exact .value ⟨hwf, hvalue⟩
  · rw [min_eq_right (not_lt.mp hlt), if_pos rfl, if_neg hlt]
    exact .stop (.prepared _)

end

end Calx.Stdlib
