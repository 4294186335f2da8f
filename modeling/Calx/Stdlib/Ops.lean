import Calx.Lib.Loop
import Mathlib.Data.Int.Cast.Lemmas
import Mathlib.Data.Int.Order.Basic
import Mathlib.Algebra.Order.Ring.Int
import Mathlib.Tactic.NormNum

/-!
# What the standard library computes with

The operators and natives that `stdlib.calx` uses on integer values, with their
errors. The world of a running library function is what it can observe of the
state: the words that `Random32` is going to deliver and the current scale.

## Implementation notes

Integer arguments (`$requires … integer`) are `ℤ`. Nothing here depends on how
a number is stored. `exhausted` is the end of the fuel that bounds the loops; a
run that ends so has not returned.
-/

namespace Calx.Stdlib

open Loop

/-- The part of the state that library functions read. -/
structure World where
  /-- The words that `Random32` is going to deliver. -/
  words : List UInt32
  /-- What `Scale()` returns. -/
  scale : Nat

/-- Why a library function stops without returning. -/
inductive Stop
  /-- A runtime error with its message. -/
  | raised (message : String)
  /-- `UU_PANIC` with its message. -/
  | panicked (message : String)
  /-- The device behind `Random32` delivers no more words. -/
  | starved
  /-- A loop has been run as often as the fuel allows. -/
  | exhausted
deriving DecidableEq

/-- A library function's body. -/
abbrev Calc := StateT World (Except Stop)

/-- `TO_UINT32`: `number_to_u32` of an integer. -/
def toU32 (x : ℤ) : Nat := (x % 2 ^ 32).toNat

/-- `&`. -/
def bitAnd (x y : ℤ) : ℤ := (toU32 x &&& toU32 y : Nat)

/-- `<<`. -/
def bitShl (x y : ℤ) : ℤ := if toU32 y < 32 then ((toU32 x <<< toU32 y) % 2 ^ 32 : Nat) else 0

/-- `//`. -/
def idiv (a b : ℤ) : Calc ℤ :=
  if b = 0 then throw (.raised "division by zero") else pure (a.tdiv b)

/-- `%`. -/
def imod (a b : ℤ) : Calc ℤ :=
  if b = 0 then throw (.raised "division by zero") else pure (a.tmod b)

/-- `SIZE_MAX`. -/
def sizeMax : Nat := 2 ^ 64 - 1

/-- `**`, with the checks of `do_pow` and the cases of `number_pow`. -/
def pow (b e : ℤ) : Calc ℤ :=
  if e < 0 then throw (.raised "exponent is negative")
  else if e < sizeMax then pure (b ^ e.toNat)
  else if b = 0 then pure b
  else if b.natAbs = 1 then pure (if b < 0 ∧ toU32 e % 2 = 1 then b else 1)
  else throw (.panicked "exponent is too large")

/-- `Random32()`. -/
def random32 : Calc ℤ := fun w =>
  match w.words with
  | [] => .error .starved
  | x :: words => .ok ((x.toNat : ℤ), { w with words })

/-! ## What the operators return -/

variable {a b e : ℤ} {w : World} {P : ℤ → World → Prop} {R : Stop → Prop}

theorem idiv_eq (hb : b ≠ 0) : idiv a b = pure (a.tdiv b) := if_neg hb

theorem imod_eq (hb : b ≠ 0) : imod a b = pure (a.tmod b) := if_neg hb

theorem pow_eq (he : 0 ≤ e) (he' : e < sizeMax) : pow b e = pure (b ^ e.toNat) := by
  rw [pow, if_neg (by omega), if_pos he']

theorem random32_holds (hR : R .starved)
    (h : ∀ (x : UInt32) words, w.words = x :: words → P (x.toNat : ℤ) { w with words }) :
    Holds random32 w P R := by
  unfold Holds random32
  cases hw : w.words with
  | nil => exact hR
  | cons x words => exact h x words hw

theorem bitAnd_nonneg (x y : ℤ) : 0 ≤ bitAnd x y := Int.natCast_nonneg _

theorem bitShl_nonneg (x y : ℤ) : 0 ≤ bitShl x y := by
  unfold bitShl
  split
  · exact Int.natCast_nonneg _
  · exact le_rfl

/-- The lowest bit tells odd from even. -/
theorem bitAnd_one (x : ℤ) : bitAnd x 1 = x % 2 := by
  have h1 : toU32 1 = 1 := rfl
  rw [bitAnd, h1, Nat.and_one_is_mod, toU32]
  omega

/-- A mask of `k` ones takes the residue modulo `2 ^ k`. -/
theorem bitAnd_mask (x : ℤ) {k : ℕ} (hk : k ≤ 32) : bitAnd x (2 ^ k - 1) = x % 2 ^ k := by
  have hcast : ((2 ^ k : ℕ) : ℤ) = 2 ^ k := by
    rw [Nat.cast_pow, Nat.cast_ofNat]
  have hpow : (2 : ℤ) ^ k ≤ 2 ^ 32 := pow_le_pow_right₀ (by norm_num) hk
  have hpos : 0 < 2 ^ k := Nat.two_pow_pos k
  have hmask : toU32 (2 ^ k - 1) = 2 ^ k - 1 := by
    rw [toU32, Int.emod_eq_of_lt (by omega) (by omega)]
    omega
  have hx : 0 ≤ x % 2 ^ 32 := Int.emod_nonneg _ (by norm_num)
  rw [bitAnd, hmask, Nat.and_two_pow_sub_one_eq_mod, toU32, Int.natCast_mod,
    Int.toNat_of_nonneg hx, hcast, Int.emod_emod_of_dvd x (pow_dvd_pow 2 hk)]

end Calx.Stdlib
