import Calx.Number.Laws
import Calx.Vm.Operators

/-!
# Integral division and powers

What the operators `//`, `%` and `**` compute, and which operands they refuse.
-/

namespace Calx

open Refcount Libdeci Counted
open Nat (ofDigits)

/-! ## Integers by sign and magnitude -/

/-- The sign as an integer factor. -/
def intSign (sign : Bool) : ℤ := if sign then -1 else 1

theorem tdiv_intSign (s t : Bool) (n k : ℕ) :
    (intSign s * n).tdiv (intSign t * k) = intSign (s ^^ t) * (n / k : ℕ) := by
  rw [Int.ofNat_tdiv]
  cases s <;> cases t <;> simp [intSign, Int.neg_tdiv, Int.tdiv_neg]

theorem tmod_intSign (s t : Bool) (n k : ℕ) :
    (intSign s * n).tmod (intSign t * k) = intSign s * (n % k : ℕ) := by
  rw [Int.ofNat_tmod]
  cases s <;> cases t <;> simp [intSign, Int.neg_tmod, Int.tmod_neg]

section

variable [Libdeci] {m : Memory Number} {own : Multiset Addr} {a b : Addr} {x y z : Number}

/-! ## Quotients -/

theorem Number.value_of_nat {n : ℕ} (h : z.absValue = n) : z.value = (intSign z.sign * n : ℤ) := by
  rw [Number.value, Number.signFactor, h, intSign]
  split <;> norm_num

theorem Number.trunc_value (x : Number) :
    Rounding.trunc x.value = intSign x.sign * ⌊x.absValue⌋₊ := by
  have hodd := Number.odd_value Rounding.trunc_neg x
  rw [Rounding.trunc_of_nonneg x.absValue_nonneg, Number.intFloor_absValue] at hodd
  have hcast : (Rounding.trunc x.value : ℚ) = (intSign x.sign * ⌊x.absValue⌋₊ : ℤ) := by
    rw [hodd, Number.signFactor, intSign]
    split <;> norm_num
  exact_mod_cast hcast

/-- `/` rounds toward zero at the current scale. -/
theorem numberDiv_value (uniq : Bool) (hx : x.Wf) (hy : y.Wf) (hy0 : y.value ≠ 0) (p : Nat) :
    (numberDiv uniq x y (ntpFromPrec p)).Wf ∧ (numberDiv uniq x y (ntpFromPrec p)).value =
      (Rounding.trunc (x.value / y.value * (10 ^ p : ℕ)) : ℚ) / (10 ^ p : ℕ) := by
  obtain ⟨hwf, hsign, habs⟩ := numberDiv_spec uniq hx hy (mt Number.value_eq_zero.mpr hy0) p
  refine ⟨hwf, ?_⟩
  have hnonneg : 0 ≤ x.absValue / y.absValue * (10 ^ p : ℕ) :=
    mul_nonneg (div_nonneg x.absValue_nonneg y.absValue_nonneg) (Nat.cast_nonneg _)
  have hfloor : (Rounding.trunc (x.absValue / y.absValue * (10 ^ p : ℕ)) : ℚ) =
      ⌊x.absValue / y.absValue * 10 ^ p⌋₊ := by
    rw [Rounding.trunc_of_nonneg hnonneg, ← Int.natCast_floor_eq_floor hnonneg]
    push_cast
    rfl
  have hten : ((10 ^ p : ℕ) : ℚ) = 10 ^ p := by
    push_cast
    rfl
  rw [Number.value, Number.signFactor, hsign, habs, ← hfloor, ← hten, Number.value, Number.value,
    Number.signFactor, Number.signFactor]
  cases x.sign <;> cases y.sign <;> simp [neg_div, div_neg]

/-! ## Integral division -/

/-- The divisor is refused just when its integer part is zero. -/
theorem numberIsIzero_iff (hy : y.Wf) : numberIsIzero y = true ↔ Rounding.trunc y.value = 0 := by
  have hsign : intSign y.sign ≠ 0 := by
    unfold intSign
    split <;> decide
  rw [Number.trunc_value, mul_eq_zero, or_iff_right hsign, Int.natCast_eq_zero]
  constructor
  · intro hzero
    rw [numberIsIzero, decide_eq_true_eq] at hzero
    rw [← Number.ofDigits_drop_scale hy.words, List.drop_of_length_le hzero.le, Nat.ofDigits_nil]
  · intro hfloor
    by_contra hne
    exact (floor_absValue_pos hy (Bool.not_eq_true _ ▸ hne)).ne' hfloor

theorem numberIdiv_value (uniq : Bool) (hx : x.Wf) (hy : y.Wf)
    (hy0 : Rounding.trunc y.value ≠ 0) :
    (numberIdiv uniq x y).Wf ∧ (numberIdiv uniq x y).value =
      ((Rounding.trunc x.value).tdiv (Rounding.trunc y.value) : ℤ) := by
  have hizero : numberIsIzero y = false := by
    rw [← Bool.not_eq_true, numberIsIzero_iff hy]
    exact hy0
  obtain ⟨hwf, hsign, habs⟩ := numberIdiv_spec uniq hx hy hizero
  refine ⟨hwf, ?_⟩
  rw [Number.value_of_nat habs, hsign, Number.trunc_value, Number.trunc_value, tdiv_intSign]

theorem numberImod_value (uniq : Bool) (hx : x.Wf) (hy : y.Wf)
    (hy0 : Rounding.trunc y.value ≠ 0) :
    (numberImod uniq x y).Wf ∧ (numberImod uniq x y).value =
      ((Rounding.trunc x.value).tmod (Rounding.trunc y.value) : ℤ) := by
  have hizero : numberIsIzero y = false := by
    rw [← Bool.not_eq_true, numberIsIzero_iff hy]
    exact hy0
  obtain ⟨hwf, hsign, habs⟩ := numberImod_spec uniq hx hy hizero
  refine ⟨hwf, ?_⟩
  rw [Number.value_of_nat habs, hsign, Number.trunc_value, Number.trunc_value, tmod_intSign]

/-- `//` and `%` report a division by zero just when the integer part of the divisor is zero. -/
theorem divByZero_iff (hy : y.Wf) (ntp : NumberTruncateParams) (sh : Sharing) :
    (performAop ntp sh .aopIdiv (.num x) (.num y) = .error (.prepared "division by zero") ↔
        Rounding.trunc y.value = 0) ∧
      (performAop ntp sh .aopMod (.num x) (.num y) = .error (.prepared "division by zero") ↔
        Rounding.trunc y.value = 0) := by
  rw [← numberIsIzero_iff hy]
  cases hzero : numberIsIzero y with
  | true => simp [performAop, performNumberAop, hzero, divByZero]
  | false => simp [performAop, performNumberAop, hzero]

/-- Quotient and remainder of the integer parts. -/
theorem integral_division (h : m.Counts (a ::ₘ b ::ₘ own)) (hx : m.content? a = some x)
    (hy : m.content? b = some y) (hwx : x.Wf) (hwy : y.Wf) :
    (Rounding.trunc y.value ≠ 0 → ∃ q r : ℤ,
      YieldsValue (Counted.numberIdiv a b) m own q ∧ YieldsValue (Counted.numberImod a b) m own r ∧
        (∀ ntp sh, ∃ zq zr : Number,
          (performAop ntp sh .aopIdiv (.num x) (.num y) = .ok (.num zq) ∧ zq.value = q) ∧
          (performAop ntp sh .aopMod (.num x) (.num y) = .ok (.num zr) ∧ zr.value = r)) ∧
        Rounding.trunc x.value = q * Rounding.trunc y.value + r ∧
        |r| < |Rounding.trunc y.value| ∧ (r = 0 ∨ 0 < r * x.value) ∧
        q = Rounding.trunc ((Rounding.trunc x.value : ℚ) / Rounding.trunc y.value)) ∧
      ∀ ntp sh,
        (performAop ntp sh .aopIdiv (.num x) (.num y) = .error (.prepared "division by zero") ↔
          Rounding.trunc y.value = 0) ∧
        (performAop ntp sh .aopMod (.num x) (.num y) = .error (.prepared "division by zero") ↔
          Rounding.trunc y.value = 0) := by
  refine ⟨fun hy0 => ?_, divByZero_iff hwy⟩
  have hizero : numberIsIzero y = false := by
    rw [← Bool.not_eq_true, numberIsIzero_iff hwy]
    exact hy0
  refine ⟨_, _, ⟨_, numberIdiv_yields h hx hy, numberIdiv_value _ hwx hwy hy0⟩,
    ⟨_, numberImod_yields h hx hy, numberImod_value _ hwx hwy hy0⟩, fun ntp sh => ?_, ?_, ?_, ?_, ?_⟩
  · refine ⟨numberIdiv sh.uniqLeft x y, numberImod sh.uniqLeft x y,
      ⟨?_, (numberIdiv_value _ hwx hwy hy0).2⟩, ⟨?_, (numberImod_value _ hwx hwy hy0).2⟩⟩
    · simp [performAop, performNumberAop, hizero]
    · simp [performAop, performNumberAop, hizero]
  · exact (Int.tdiv_mul_add_tmod _ _).symm
  · rw [Int.abs_eq_natAbs, Int.abs_eq_natAbs, Int.natAbs_tmod]
    exact_mod_cast Nat.mod_lt _ (Int.natAbs_pos.mpr hy0)
  · rw [Number.trunc_value, Number.trunc_value, tmod_intSign]
    obtain ⟨n, hn⟩ : ∃ n, n = ⌊x.absValue⌋₊ % ⌊y.absValue⌋₊ := ⟨_, rfl⟩
    rw [← hn]
    by_cases hn0 : n = 0
    · exact Or.inl (by rw [hn0, Nat.cast_zero, mul_zero])
    · have hnpos : (0 : ℚ) < n := by exact_mod_cast Nat.pos_of_ne_zero hn0
      have hxpos : 0 < x.absValue := by
        refine Nat.pos_of_floor_pos (Nat.pos_of_ne_zero fun hzero => hn0 ?_)
        rw [hn, hzero, Nat.zero_mod]
      have hpos := mul_pos hnpos hxpos
      refine Or.inr ?_
      rw [Number.value, Number.signFactor, intSign]
      split
      · push_cast
        linarith
      · push_cast
        linarith
  · rw [Rounding.trunc_intCast_div]

omit [Libdeci] in
/-- Minus seven and a half, divided by itself. -/
theorem integral_division_same : ∃ q r : ℤ,
    @YieldsValue libdeciByValue (@Counted.numberIdiv libdeciByValue 0 0)
      [some ⟨2, ⟨true, 1, [5000000000000000000, 7]⟩⟩] 0 q ∧
    @YieldsValue libdeciByValue (@Counted.numberImod libdeciByValue 0 0)
      [some ⟨2, ⟨true, 1, [5000000000000000000, 7]⟩⟩] 0 r := by
  let := libdeciByValue
  have hw : Number.Wf ⟨true, 1, [5000000000000000000, 7]⟩ := by decide
  have hne : Rounding.trunc (Number.value ⟨true, 1, [5000000000000000000, 7]⟩) ≠ 0 :=
    mt (numberIsIzero_iff hw).mpr (by decide)
  have hcounts : Memory.Counts
      [some ⟨2, (⟨true, 1, [5000000000000000000, 7]⟩ : Number)⟩] (0 ::ₘ 0 ::ₘ 0) :=
    Memory.counts_replicate _ 2
  obtain ⟨q, r, hq, hr, -⟩ := (integral_division hcounts rfl rfl hw hw).1 hne
  exact ⟨q, r, hq, hr⟩

/-! ## Powers -/

/-- The first check of `do_pow`. -/
theorem exponent_negative_iff (hx : x.Wf) : (x.sign && !numberIsZero x) = true ↔ x.value < 0 := by
  have hzero := numberIsZero_iff x hx
  rw [Bool.and_eq_true, Bool.not_eq_true', ← Bool.not_eq_true, hzero]
  constructor
  · exact fun ⟨hsign, h0⟩ => Number.value_neg_of_sign hsign h0
  · intro hneg
    have h0 : x.mag ≠ 0 := fun h => hneg.ne (Number.value_eq_zero.mpr h)
    refine ⟨?_, h0⟩
    by_contra hsign
    rw [Bool.not_eq_true] at hsign
    rw [Number.value_of_sign hsign] at hneg
    exact absurd x.absValue_nonneg (not_le.mpr hneg)

/-- The second check of `do_pow`. -/
theorem exponent_fraction_iff (hx : x.Wf) : numberIsFzero x = true ↔ ∃ z : ℤ, x.value = z := by
  rw [numberIsFzero_iff hx]
  constructor
  · intro h
    exact ⟨_, Number.value_of_nat h⟩
  · rintro ⟨z, hz⟩
    have habs : x.absValue = z.natAbs := by
      rw [← x.abs_value, hz, ← Int.cast_abs, Int.abs_eq_natAbs]
      rfl
    rw [habs, Nat.floor_natCast]

/-- `number_to_u32` of a number without a sign. -/
theorem numberToU32_eq (hx : x.Wf) (hsign : x.sign = false) :
    numberToU32 x = UInt32.ofNat ⌊x.absValue⌋₊ := by
  have hfold : ∀ (w : List Nat) (r : Nat), w.foldl
      (fun r w => r * UInt32.ofNat deciBase + UInt32.ofNat w) (UInt32.ofNat r) =
        UInt32.ofNat (r * deciBase ^ w.length + ofDigits deciBase w.reverse) := by
    intro w
    induction w with
    | nil => simp
    | cons v w ih =>
        intro r
        rw [List.foldl_cons, ← UInt32.ofNat_mul, ← UInt32.ofNat_add, ih, List.reverse_cons,
          Nat.ofDigits_append, Nat.ofDigits_singleton, List.length_reverse, List.length_cons,
          Nat.pow_succ]
        congr 1
        ring
  have hrun := hfold (x.words.drop x.scale).reverse 0
  rw [Nat.zero_mul, Nat.zero_add, List.reverse_reverse, Number.ofDigits_drop_scale hx.words] at hrun
  rw [numberToU32, hsign, if_neg Bool.false_ne_true]
  exact hrun

/-- The lowest bit of the truncated exponent is its parity. -/
theorem numberToU32_odd_iff (hx : x.Wf) (hsign : x.sign = false) {n : ℕ} (hn : x.absValue = n) :
    numberToU32 x &&& 1 ≠ 0 ↔ Odd n := by
  rw [numberToU32_eq hx hsign, hn, Nat.floor_natCast, Nat.odd_iff, ne_eq, ← UInt32.toNat_inj,
    UInt32.toNat_and, UInt32.toNat_ofNat', UInt32.toNat_one, Nat.and_one_is_mod, UInt32.toNat_zero]
  omega

/-- `number_abs_eq_uword` for one. -/
theorem numberAbsEqUword_one_iff (hx : x.Wf) : numberAbsEqUword x 1 = true ↔ x.absValue = 1 := by
  have hdigits := hx.words.drop x.scale
  rw [numberAbsEqUword, if_neg one_ne_zero, Bool.and_eq_true, numberIsFzero_iff hx,
    decide_eq_true_eq]
  constructor
  · rintro ⟨hfloor, hone⟩
    rw [hfloor, ← Number.ofDigits_drop_scale hx.words, hone]
    simp
  · intro hone
    have hfloor : ⌊x.absValue⌋₊ = 1 := by rw [hone, Nat.floor_one]
    refine ⟨by rw [hfloor, hone, Nat.cast_one], ?_⟩
    rw [← Number.ofDigits_drop_scale hx.words] at hfloor
    rcases hw : x.words.drop x.scale with _ | ⟨v, _ | ⟨u, w⟩⟩
    · rw [hw] at hfloor
      exact absurd hfloor zero_ne_one
    · rw [hw, Nat.ofDigits_singleton] at hfloor
      rw [hfloor]
    · have htop := (Positional.topNonzero_iff one_lt_deciBase (hx.words.drop x.scale)).mp hx.top
      rw [hfloor, hw] at htop
      have hpow : 1 < deciBase ^ ((v :: u :: w).length - 1) :=
        Nat.one_lt_pow (by simp) one_lt_deciBase
      exact absurd (htop.resolve_left (List.cons_ne_nil _ _)) (not_le.mpr hpow)

/-- A natural exponent passes both checks and is read without its sign. -/
theorem exponent_of_nat (hx : x.Wf) {n : ℕ} (hn : x.value = n) :
    (x.sign && !numberIsZero x) = false ∧ numberIsFzero x = true ∧ x.absValue = n ∧
      numberToZu x = if n < 2 ^ 64 then n else sizeMax := by
  have hnonneg : 0 ≤ x.value := by rw [hn]; exact Nat.cast_nonneg n
  have habs : x.absValue = n := by rw [← x.abs_value, hn, Nat.abs_cast]
  refine ⟨?_, (exponent_fraction_iff hx).mpr ⟨n, by rw [hn, Int.cast_natCast]⟩, habs, ?_⟩
  · rw [← Bool.not_eq_true, exponent_negative_iff hx]
    exact not_lt.mpr hnonneg
  · rw [numberToZu_eq x hx, habs, Nat.floor_natCast]
    split
    · rename_i hsign
      have hmag : x.mag = 0 := by
        by_contra h0
        exact absurd hnonneg (not_le.mpr (Number.value_neg_of_sign hsign h0))
      have hn0 : n = 0 := by
        rw [Number.value_eq_zero.mpr hmag] at hn
        exact_mod_cast hn.symm
      rw [if_pos hmag, hn0]
      rfl
    · rfl

/-- `number_pow` with an exponent for which the power can be computed. -/
theorem numberPow_spec (uniq : Bool) (hx : x.Wf) (hy : y.Wf) {n : ℕ} (hn : y.value = n)
    (hcase : n < 2 ^ 64 - 1 ∨ x.value = 0 ∨ |x.value| = 1) :
    ∃ r, numberPow uniq x y = some r ∧ r.Wf ∧ r.value = x.value ^ n := by
  obtain ⟨-, -, habs, hzu⟩ := exponent_of_nat hy hn
  rw [numberPow, hzu]
  by_cases hlt : n < 2 ^ 64 - 1
  · have hn64 : n < 2 ^ 64 := by omega
    have hne : n ≠ sizeMax := by
      unfold sizeMax
      omega
    rw [if_pos hn64, if_neg hne]
    exact ⟨_, rfl, numberPowZu_spec uniq hx n⟩
  · have hmax : (if n < 2 ^ 64 then n else sizeMax) = sizeMax := by
      unfold sizeMax
      split <;> omega
    have hn0 : n ≠ 0 := by omega
    rw [if_pos hmax]
    by_cases hzero : numberIsZero x = true
    · have hvalue := Number.value_eq_zero.mpr ((numberIsZero_iff x hx).mp hzero)
      rw [if_pos hzero]
      exact ⟨x, rfl, hx, by rw [hvalue, zero_pow hn0]⟩
    · have hone : |x.value| = 1 := by
        refine (hcase.resolve_left hlt).resolve_left fun h0 => hzero ?_
        exact (numberIsZero_iff x hx).mpr (Number.value_eq_zero.mp h0)
      rw [Number.abs_value] at hone
      have hsign : y.sign = false := by
        refine Number.sign_of_pos ?_
        rw [hn]
        exact_mod_cast Nat.pos_of_ne_zero hn0
      rw [if_neg hzero, if_pos ((numberAbsEqUword_one_iff hx).mpr hone)]
      have hodd := numberToU32_odd_iff hy hsign habs
      obtain ⟨hwf, hvalue⟩ := numberNewFromZu_spec 1
      -- The sign of the power is the parity of the exponent.
      cases hxs : x.sign with
      | false =>
          rw [Bool.false_and, if_neg Bool.false_ne_true]
          refine ⟨_, rfl, hwf, ?_⟩
          rw [hvalue, Number.value_of_sign hxs, hone, one_pow, Nat.cast_one]
      | true =>
          have hneg : x.value = -1 := by
            rw [Number.value, Number.signFactor, if_pos hxs, hone, mul_one]
          rw [Bool.true_and, hneg]
          by_cases hp : Odd n
          · rw [if_pos (decide_eq_true (hodd.mpr hp)), hp.neg_one_pow]
            exact ⟨x, rfl, hx, hneg⟩
          · rw [if_neg (by rw [decide_eq_true_eq, hodd]; exact hp),
              (Nat.not_odd_iff_even.mp hp).neg_one_pow]
            exact ⟨_, rfl, hwf, by rw [hvalue, Nat.cast_one]⟩

/-- `**` is exact, and an error is raised just for negative and fractional exponents. -/
theorem power_exact (hx : x.Wf) (hy : y.Wf) (ntp : NumberTruncateParams) (sh : Sharing) :
    (∀ n : ℕ, y.value = n → (n < 2 ^ 64 - 1 ∨ x.value = 0 ∨ |x.value| = 1) →
      ∃ r, performAop ntp sh .aopPow (.num x) (.num y) = .ok (.num r) ∧ r.Wf ∧
        r.value = x.value ^ n) ∧
      ((∃ text, performAop ntp sh .aopPow (.num x) (.num y) = .error (.prepared text)) ↔
        y.value < 0 ∨ ¬ ∃ z : ℤ, y.value = z) := by
  have hrun : performAop ntp sh .aopPow (.num x) (.num y) = doPow sh.uniqLeft x y := rfl
  rw [hrun, doPow]
  constructor
  · intro n hn hcase
    obtain ⟨hnonneg, hfzero, -, -⟩ := exponent_of_nat hy hn
    obtain ⟨r, hr, hwf, hvalue⟩ := numberPow_spec sh.uniqLeft hx hy hn hcase
    rw [hnonneg, hfzero, hr]
    exact ⟨r, rfl, hwf, hvalue⟩
  · rw [← exponent_negative_iff hy, ← exponent_fraction_iff hy]
    split_ifs with hneg hfrac
    · exact iff_of_true ⟨_, rfl⟩ (Or.inl hneg)
    · exact iff_of_true ⟨_, rfl⟩ (Or.inr (by simpa using hfrac))
    · refine iff_of_false ?_ (not_or.mpr ⟨hneg, by simpa using hfrac⟩)
      rintro ⟨text, htext⟩
      cases hpow : numberPow sh.uniqLeft x y with
      | none =>
          rw [hpow] at htext
          cases htext
      | some r =>
          rw [hpow] at htext
          cases htext

omit [Libdeci] in
/-- Minus one, written with a zero fraction word, to the power 2^64 + 1. -/
theorem power_exact_minus_one : ∃ r, @performAop libdeciByValue ⟨0, 1⟩ ⟨true, true, false⟩ .aopPow
    (.num ⟨true, 1, [0, 1]⟩) (.num ⟨false, 0, [8446744073709551617, 1]⟩) = .ok (.num r) ∧
      @Number.value deciBase64 r = -1 := by
  let := libdeciByValue
  have hbase : deciBase = 10 ^ 19 := rfl
  have hx : Number.value ⟨true, 1, [0, 1]⟩ = -1 := by
    norm_num [Number.value, Number.signFactor, Number.absValue, Number.mag, hbase, Nat.ofDigits]
  have hy : Number.value ⟨false, 0, [8446744073709551617, 1]⟩ = (18446744073709551617 : ℕ) := by
    norm_num [Number.value, Number.signFactor, Number.absValue, Number.mag, hbase, Nat.ofDigits]
  obtain ⟨r, hr, -, hvalue⟩ := (power_exact (x := ⟨true, 1, [0, 1]⟩)
    (y := ⟨false, 0, [8446744073709551617, 1]⟩) (by decide) (by decide) ⟨0, 1⟩
    ⟨true, true, false⟩).1 18446744073709551617 hy (Or.inr (Or.inr (by rw [hx]; norm_num)))
  refine ⟨r, hr, ?_⟩
  rw [hvalue, hx]
  exact Odd.neg_one_pow (by decide)

end

end Calx
