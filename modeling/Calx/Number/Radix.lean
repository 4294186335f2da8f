import Calx.Number.Parse
import Calx.Number.Rounding

/-!
# Numbers in other bases

`number_parse_base`, the reader of numbers in any base.

## Implementation notes

The digits after the dot are read like the others and made up for by one
division at the end, which cuts the result off: `truncated` says where.
-/

namespace Calx

open Nat (ofDigits)
open Positional Libdeci

/-! ## Reading -/

/-- The loop of `number_parse_base`: the number, and `base_scale`. -/
def parseBaseLoop [Libdeci] (base : Nat) : Bytes → Number → Bool → Nat → Number × Nat
  | [], a, _, baseScale => (a, baseScale)
  | c :: s, a, seenDot, baseScale =>
      if c = ch '.' then parseBaseLoop base s a true baseScale
      else if c = quote then parseBaseLoop base s a seenDot baseScale
      else
        parseBaseLoop base s (numberAbsAddUword true (numberMulUword true a base) (decodeDigit c))
          seenDot (if seenDot then baseScale + 1 else baseScale)

/-- `number_parse_base`. -/
def numberParseBase [Libdeci] (s : Bytes) (base : Nat) (ntp : NumberTruncateParams) : Number :=
  let r := parseBaseLoop base (unsigned s) (numberNewFromZu 0) false 0
  let a :=
    if r.2 ≠ 0 then numberDiv true r.1 (numberPowZu true (numberNewFromZu base) r.2) ntp else r.1
  if s.head? = some (ch '-') then numberNegate true a else a

/-- A number with its digits cut off after `n` places in a base. -/
def truncated (base n : Nat) (q : ℚ) : ℚ :=
  (if q < 0 then -1 else 1) * (⌊|q| * base ^ n⌋₊ / base ^ n)

theorem truncated_of_nonneg {base n : Nat} {q : ℚ} (h : 0 ≤ q) :
    truncated base n q = ⌊q * base ^ n⌋₊ / (base : ℚ) ^ n := by
  rw [truncated, if_neg h.not_gt, one_mul, abs_of_nonneg h]

@[simp] theorem truncated_zero (base n : Nat) : truncated base n 0 = 0 := by
  rw [truncated_of_nonneg le_rfl]
  simp

theorem truncated_neg (base n : Nat) (q : ℚ) : truncated base n (-q) = -truncated base n q := by
  rcases lt_trichotomy q 0 with h | rfl | h
  · rw [truncated, truncated, if_pos h, if_neg (by linarith), abs_neg]
    ring
  · simp
  · rw [truncated, truncated, if_neg h.le.not_gt, if_pos (by linarith), abs_neg]
    ring

/-- Integers have no digits to cut off. -/
theorem truncated_natCast {base : Nat} (hb : 0 < base) (n v : Nat) :
    truncated base n v = v := by
  have hpos : (0 : ℚ) < (base : ℚ) ^ n := by positivity
  rw [truncated_of_nonneg (Nat.cast_nonneg v), ← Nat.cast_pow, ← Nat.cast_mul, Nat.floor_natCast]
  push_cast
  field_simp

/-- The digits of a text, with no regard to the dot. -/
def allDigits (s : Bytes) : List Nat := digitsIn (s.filter fun c => c ≠ ch '.')

theorem allDigits_cons_quote (s : Bytes) : allDigits (quote :: s) = allDigits s := by
  have hne : quote ≠ ch '.' := by decide
  simp [allDigits, digitsIn, hne]

theorem allDigits_cons_dot (s : Bytes) : allDigits (ch '.' :: s) = allDigits s := by
  simp [allDigits]

theorem allDigits_cons {c : UInt8} (hdot : c ≠ ch '.') (hquote : c ≠ quote) (s : Bytes) :
    allDigits (c :: s) = decodeDigit c :: allDigits s := by
  simp [allDigits, digitsIn, hdot, hquote]

theorem allDigits_of_no_dot {s : Bytes} (h : ch '.' ∉ s) : allDigits s = digitsIn s := by
  rw [allDigits, List.filter_eq_self.mpr]
  exact fun c hc => decide_eq_true (ne_of_mem_of_not_mem hc h)

/-- The digits before and after the dot are all digits. -/
theorem allDigits_eq {s : Bytes} (h : s.count (ch '.') ≤ 1) :
    allDigits s = intDigits s ++ fracDigits s := by
  by_cases hmem : ch '.' ∈ s
  · obtain ⟨i, f, rfl, hi⟩ := List.eq_append_cons_of_mem hmem
    rw [List.count_append, List.count_cons_self] at h
    have hf : ch '.' ∉ f := List.count_eq_zero.mp (by omega)
    rw [intDigits, fracDigits, takeWhile_point hi, dropWhile_ne_point hi, ← allDigits_of_no_dot hi,
      ← allDigits_of_no_dot hf]
    simp [allDigits, digitsIn]
  · have hall : ∀ c ∈ s, decide (c ≠ ch '.') = true := fun c hc =>
      decide_eq_true (ne_of_mem_of_not_mem hc hmem)
    rw [intDigits, fracDigits, List.takeWhile_eq_self_iff.mpr hall, List.dropWhile_eq_nil_iff.mpr hall,
      allDigits_of_no_dot hmem]
    simp [digitsIn]

theorem decodeDigit_le (c : UInt8) : decodeDigit c ≤ 255 := by
  have hc := c.toNat_lt
  have ha : (ch 'a').toNat = 97 := rfl
  have hA : (ch 'A').toNat = 65 := rfl
  unfold decodeDigit
  split_ifs <;> omega

theorem lt_deciBase_of_le [DeciBase] {x : Nat} (h : x ≤ 255) : x < deciBase := by
  have hlog : 9 ≤ deciBaseLog := by
    rcases DeciBase.baseLog_eq with h | h <;> simp [deciBaseLog, h]
  calc x ≤ 255 := h
    _ < 10 ^ 9 := by norm_num
    _ ≤ deciBase := Nat.pow_le_pow_right (by norm_num) hlog

section

variable [Libdeci] {base : Nat} {a : Number}

/-- The digits are accumulated in a number without a sign. -/
theorem parseBaseLoop_spec (hb : 0 < base) (hb' : base ≤ 255) (s : Bytes) (ha : a.Wf)
    (hsign : a.sign = false) {v : Nat} (habs : a.absValue = v) (seenDot : Bool) (n : Nat) :
    (parseBaseLoop base s a seenDot n).1.Wf ∧ (parseBaseLoop base s a seenDot n).1.sign = false ∧
      (parseBaseLoop base s a seenDot n).1.absValue =
        (v * base ^ (allDigits s).length + evalDigits base (allDigits s) : Nat) := by
  induction s generalizing a v seenDot n with
  | nil => exact ⟨ha, hsign, by simpa [parseBaseLoop, allDigits, digitsIn, evalDigits] using habs⟩
  | cons c s ih =>
      rw [parseBaseLoop]
      split
      · rename_i hdot
        rw [hdot, allDigits_cons_dot]
        exact ih ha hsign habs true n
      · rename_i hdot
        split
        · rename_i hquote
          rw [hquote, allDigits_cons_quote]
          exact ih ha hsign habs seenDot n
        · rename_i hquote
          obtain ⟨hmul, hmulValue⟩ :=
            numberMulUword_spec true ha (lt_deciBase_of_le hb')
          have hmulSign := (numberMulUword_sign true a hb.ne').trans hsign
          obtain ⟨hadd, haddSign, haddAbs⟩ :=
            numberAbsAddUword_spec true hmul (lt_deciBase_of_le (decodeDigit_le c))
          obtain ⟨hwf, hs, hr⟩ := ih (v := v * base + decodeDigit c) hadd (haddSign.trans hmulSign)
            (by
              rw [haddAbs, ← Number.abs_value, hmulValue, abs_mul, Number.abs_value, habs]
              push_cast
              rw [Nat.abs_cast])
            seenDot (if seenDot then n + 1 else n)
          refine ⟨hwf, hs, ?_⟩
          rw [hr, allDigits_cons hdot hquote, ← List.singleton_append, evalDigits_append,
            List.length_append, List.length_singleton]
          congr 1
          simp only [evalDigits, List.foldl_cons, List.foldl_nil]
          ring

/-- After the dot every digit counts. -/
theorem baseScale_after_dot {s : Bytes} (h : ch '.' ∉ s) (n : Nat) :
    (parseBaseLoop base s a true n).2 = n + (digitsIn s).length := by
  induction s generalizing a n with
  | nil => rfl
  | cons c s ih =>
      obtain ⟨hc, hs⟩ := not_or.mp (mt List.mem_cons.mpr h)
      rw [parseBaseLoop, if_neg (Ne.symm hc)]
      split
      · rename_i hquote
        rw [ih hs, hquote]
        simp [digitsIn]
      · rename_i hquote
        rw [if_pos rfl, ih hs]
        simp [digitsIn, hquote]
        omega

theorem baseScale_eq {s : Bytes} (h : s.count (ch '.') ≤ 1) (n : Nat) :
    (parseBaseLoop base s a false n).2 = n + (fracDigits s).length := by
  induction s generalizing a n with
  | nil => rfl
  | cons c s ih =>
      rw [parseBaseLoop]
      split
      · rename_i hdot
        subst hdot
        rw [List.count_cons_self] at h
        rw [baseScale_after_dot (List.count_eq_zero.mp (by omega))]
        simp [fracDigits]
      · rename_i hdot
        have hfrac : fracDigits (c :: s) = fracDigits s := by simp [fracDigits, hdot]
        rw [List.count_cons_of_ne hdot] at h
        rw [hfrac]
        split
        · exact ih h n
        · rw [if_neg Bool.false_ne_true]
          exact ih h n

/-- The quotient by the power of the base that belongs to the digits after the dot. -/
theorem parsedQuotient_spec (hb : 0 < base) {k v : Nat} (ha : a.Wf) (hsign : a.sign = false)
    (habs : a.absValue = v) (p : Nat) :
    (numberDiv true a (numberPowZu true (numberNewFromZu base) k) (ntpFromPrec p)).Wf ∧
      (numberDiv true a (numberPowZu true (numberNewFromZu base) k) (ntpFromPrec p)).value =
        truncated 10 p (v / (base : ℚ) ^ k) := by
  obtain ⟨hbase, hbaseValue⟩ := numberNewFromZu_spec base
  obtain ⟨hpow, hpowValue⟩ := numberPowZu_spec true hbase k
  rw [hbaseValue] at hpowValue
  have hpos : (0 : ℚ) < (base : ℚ) ^ k := by positivity
  have hpowSign := Number.sign_of_pos (hpowValue ▸ hpos)
  rw [Number.value_of_sign hpowSign] at hpowValue
  have hne : (numberPowZu true (numberNewFromZu base) k).mag ≠ 0 := fun h0 =>
    hpos.ne' (hpowValue ▸ Number.absValue_eq_zero.mpr h0)
  obtain ⟨hwf, hs, hr⟩ := numberDiv_spec true ha hpow hne p
  rw [hsign, hpowSign, Bool.xor_false] at hs
  refine ⟨hwf, ?_⟩
  rw [Number.value_of_sign hs, hr, habs, hpowValue, truncated_of_nonneg (by positivity)]
  norm_num

/-- Before the sign is looked at, the digits of a text have been read up to its precision. -/
theorem parsedAbs_spec (hb : 0 < base) (hb' : base ≤ 255) (s : Bytes) (p : Nat)
    {r : Number × Nat} (hr : r = parseBaseLoop base s (numberNewFromZu 0) false 0)
    (ha : a = if r.2 ≠ 0 then
      numberDiv true r.1 (numberPowZu true (numberNewFromZu base) r.2) (ntpFromPrec p) else r.1) :
    a.Wf ∧ (s.count (ch '.') ≤ 1 → a.value = truncated 10 p (denotedAbs base s)) := by
  obtain ⟨hzero, hzeroValue⟩ := numberNewFromZu_spec 0
  obtain ⟨hwf, hsign, habs⟩ := parseBaseLoop_spec hb hb' s hzero rfl
    (v := 0) (by rwa [← Number.value_of_sign rfl]) false 0
  rw [Nat.zero_mul, Nat.zero_add] at habs
  have hscale : s.count (ch '.') ≤ 1 → r.2 = (fracDigits s).length := by
    intro h
    rw [hr, baseScale_eq h, Nat.zero_add]
  rw [← hr] at hwf hsign habs
  by_cases hnone : r.2 = 0
  · rw [if_neg (not_not.mpr hnone)] at ha
    subst ha
    refine ⟨hwf, fun h => ?_⟩
    have hlen : (fracDigits s).length = 0 := (hscale h).symm.trans hnone
    rw [Number.value_of_sign hsign, habs, denotedAbs, hlen, pow_zero, div_one, ← allDigits_eq h,
      truncated_natCast (by norm_num)]
  · rw [if_pos hnone] at ha
    obtain ⟨hquotient, hvalue⟩ := parsedQuotient_spec (k := r.2) hb hwf hsign habs p
    subst ha
    refine ⟨hquotient, fun h => ?_⟩
    rw [hvalue, denotedAbs, hscale h, allDigits_eq h]

/-- `number_parse_base` keeps the representation invariant on any text, and what it reads of an
accepted text is the number meant, cut off behind its precision. -/
theorem numberParseBase_spec (hb : 0 < base) (hb' : base ≤ 255) (s : Bytes) (p : Nat) :
    (numberParseBase s base (ntpFromPrec p)).Wf ∧
      (numberParseBaseValidate s base = true →
        (numberParseBase s base (ntpFromPrec p)).value = truncated 10 p (denoted base s)) := by
  obtain ⟨hwf, hvalue⟩ := parsedAbs_spec hb hb' (unsigned s) p rfl rfl
  simp only [numberParseBase, denoted]
  split
  · obtain ⟨hneg, hnegValue⟩ := @numberNegate_spec _ _ true hwf
    refine ⟨hneg, fun h => ?_⟩
    rw [hnegValue, hvalue (numberParseBaseValidate_iff.mp h).dots, neg_one_mul, truncated_neg]
  · refine ⟨hwf, fun h => ?_⟩
    rw [hvalue (numberParseBaseValidate_iff.mp h).dots, one_mul]

end

end Calx
