import Calx.Stdlib.Ops
import Mathlib.Data.Rat.Floor
import Mathlib.Data.Nat.Digits.Lemmas

/-!
# Decimal operations of the standard library

The operators and natives that `stdlib.calx` uses on numbers with a fraction:
`/` at the current scale, `//`, `floor`, `ceil`, `UpScale`, `DownScale` and
`NumDigits`, with their guards.

## Implementation notes

A number is its value in `ℚ`. `UpScale` keeps integers integers and is generic
in the type of its argument.
-/

namespace Calx.Stdlib

open Loop

/-- `trunc`. -/
def trunc (x : ℚ) : ℤ := if 0 ≤ x then ⌊x⌋ else ⌈x⌉

/-- `/`: the quotient truncated at the current scale. -/
def div (a b : ℚ) : Calc ℚ := fun w =>
  if b = 0 then .error (.raised "division by zero")
  else .ok ((trunc (a / b * 10 ^ w.scale) : ℚ) / 10 ^ w.scale, w)

/-- `//` on numbers that need not be integers. -/
def idivNum (a b : ℚ) : Calc ℤ := idiv (trunc a) (trunc b)

/-- `floor`. -/
def floor (x : ℚ) : ℤ := ⌊x⌋

/-- `ceil`. -/
def ceil (x : ℚ) : ℤ := ⌈x⌉

/-- `Scale()`. -/
def scale : Calc ℤ := fun w => .ok ((w.scale : ℤ), w)

/-- `guard_magnitude` of an integer. -/
def guardMagnitude (m : ℤ) : Calc Nat :=
  if m < 0 then throw (.raised "scale magnitude is negative")
  else if m < sizeMax then pure m.toNat
  else throw (.raised "scale magnitude is too big")

/-- `UpScale`. -/
def upScale {α : Type} [Semiring α] (x : α) (m : ℤ) : Calc α := do
  let mag ← guardMagnitude m
  pure (x * 10 ^ mag)

/-- `DownScale`. -/
def downScale (x : ℚ) (m : ℤ) : Calc ℚ := do
  let mag ← guardMagnitude m
  pure (x / 10 ^ mag)

/-- The number of decimal digits of a natural number; zero has none. -/
def nintdigits (m : ℕ) : ℕ := (Nat.digits 10 m).length

/-- `NumDigits(x, "i")` of an integer. -/
def numDigits (x : ℤ) : Calc ℤ :=
  if nintdigits x.natAbs < sizeMax then pure (nintdigits x.natAbs)
  else throw (.raised "overflow (result >= SIZE_MAX)")

/-! ## What the operations return -/

variable {w : World} {m x : ℤ}

theorem scale_holds {P : ℤ → World → Prop} {R : Stop → Prop} (h : P w.scale w) :
    Holds scale w P R := by
  unfold Holds scale
  exact h

theorem guardMagnitude_eq (h0 : 0 ≤ m) (h : m < sizeMax) : guardMagnitude m = pure m.toNat := by
  rw [guardMagnitude, if_neg (by omega), if_pos h]

theorem upScale_eq {α : Type} [Semiring α] (x : α) (h0 : 0 ≤ m) (h : m < sizeMax) :
    upScale x m = pure (x * 10 ^ m.toNat) := by
  rw [upScale, guardMagnitude_eq h0 h, pure_bind]

theorem downScale_eq (x : ℚ) (h0 : 0 ≤ m) (h : m < sizeMax) :
    downScale x m = pure (x / 10 ^ m.toNat) := by
  rw [downScale, guardMagnitude_eq h0 h, pure_bind]

theorem numDigits_eq (h : nintdigits x.natAbs < sizeMax) :
    numDigits x = pure (nintdigits x.natAbs : ℤ) := if_pos h

theorem trunc_nonneg {q : ℚ} (hq : 0 ≤ q) : 0 ≤ trunc q := by
  rw [trunc, if_pos hq]
  exact Int.floor_nonneg.mpr hq

@[simp] theorem trunc_intCast (z : ℤ) : trunc z = z := by
  simp [trunc]

/-- A quotient of non-negative numbers is non-negative at every scale. -/
theorem div_holds {a b : ℚ} {R : Stop → Prop} (ha : 0 ≤ a) (hb : 0 < b) :
    Holds (div a b) w (fun q w' => 0 ≤ q ∧ w' = w) R := by
  have hq : 0 ≤ a / b * 10 ^ w.scale := by positivity
  have ht := trunc_nonneg hq
  unfold Holds div
  rw [if_neg hb.ne']
  exact ⟨by positivity, rfl⟩

theorem lt_pow_nintdigits (m : ℕ) : m < 10 ^ nintdigits m :=
  Nat.lt_base_pow_length_digits (by norm_num)

theorem nintdigits_le_iff {m k : ℕ} : nintdigits m ≤ k ↔ m < 10 ^ k :=
  Nat.digits_length_le_iff (by norm_num) m

theorem nintdigits_pos {m : ℕ} (hm : m ≠ 0) : 0 < nintdigits m :=
  List.length_pos_iff.mpr (Nat.digits_ne_nil_iff_ne_zero.mpr hm)

end Calx.Stdlib
