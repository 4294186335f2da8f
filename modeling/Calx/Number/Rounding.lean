import Calx.Lib.Rounding
import Calx.Number.Division

/-!
# Rounding and powers of ten

The operations that move the point or cut the fraction off.
-/

namespace Calx

open Nat (ofDigits)
open Positional Libdeci

variable [Libdeci] {a : Number} {uniq : Bool}

/-! ## Rounding -/

theorem numberNegate_spec (ha : a.Wf) :
    (numberNegate uniq a).Wf ∧ (numberNegate uniq a).value = -a.value := by
  simp only [numberNegate, mkuniq_eq]
  refine ⟨ha.withSign _, ?_⟩
  change (if a.sign ^^ true then (-1 : ℚ) else 1) * a.absValue = -(a.signFactor * a.absValue)
  rw [signFactor_xor, if_pos rfl]
  simp only [Number.signFactor]
  ring

theorem mkuniqScaleDown_spec (uniq : Bool) (ha : a.Wf) :
    (mkuniqScaleDown uniq a 0).Wf ∧ (mkuniqScaleDown uniq a 0).sign = a.sign ∧
      (mkuniqScaleDown uniq a 0).absValue = ⌊a.absValue⌋₊ := by
  rw [mkuniqScaleDown_zero ha, ← Number.ofDigits_drop_scale ha.words]
  exact ⟨⟨Nat.zero_le _, ha.words.drop _, ha.top⟩, rfl, by simp [Number.absValue, Number.mag]⟩

/-- Rounding away from zero adds one to the integer part. -/
theorem truncAway_spec (uniq : Bool) (ha : a.Wf) (away : Bool) :
    (truncAway uniq away a).Wf ∧ (truncAway uniq away a).sign = a.sign ∧
      (truncAway uniq away a).absValue = (⌊a.absValue⌋₊ + away.toNat : Nat) := by
  cases away with
  | false => exact mkuniqScaleDown_spec uniq ha
  | true =>
      obtain ⟨hwf, hsign, habs⟩ := numberAbsAddUword_spec uniq ha one_lt_deciBase
      obtain ⟨hwf', hsign', habs'⟩ := mkuniqScaleDown_spec true hwf
      refine ⟨hwf', hsign'.trans hsign, habs'.trans ?_⟩
      rw [habs, Nat.cast_one, Nat.floor_add_one a.absValue_nonneg]
      rfl

/-- The fraction of the magnitude. -/
theorem Number.absValue_sub_floor (ha : a.Wf) :
    a.absValue - ⌊a.absValue⌋₊ =
      ofDigits deciBase (a.words.take a.scale) / (deciBase : ℚ) ^ a.scale := by
  have hpos := Number.deciBase_pow_pos a.scale
  rw [← Number.ofDigits_drop_scale ha.words, eq_div_iff hpos.ne', Number.absValue, Number.mag,
    ofDigits_split a.scale a.words ha.scale_le, sub_mul, div_mul_cancel₀ _ hpos.ne']
  push_cast
  ring

theorem numberFrac_spec (uniq : Bool) (ha : a.Wf) :
    (numberFrac uniq a).Wf ∧ (numberFrac uniq a).sign = a.sign ∧
      (numberFrac uniq a).absValue = a.absValue - ⌊a.absValue⌋₊ := by
  have htake : (a.words.take a.scale).length = a.scale := List.length_take_of_le ha.scale_le
  rw [Number.absValue_sub_floor ha]
  simp only [numberFrac, mkuniq_eq]
  rw [unsafeStrip_eq le_rfl, Nat.sub_self, List.drop_zero]
  refine ⟨⟨?_, ha.words.take _, ?_⟩, rfl, rfl⟩
  · rw [Number.nwords_mk, htake]
  · simp only [List.drop_of_length_le htake.le]
    exact topNonzero_nil

/-- A number with no fraction is the integer part. -/
theorem numberIsFzero_iff (ha : a.Wf) :
    numberIsFzero a = true ↔ a.absValue = ⌊a.absValue⌋₊ := by
  have hpos := Number.deciBase_pow_pos a.scale
  rw [numberIsFzero, deciIsZero_iff, ← ofDigits_eq_zero deciBase_pos,
    ← sub_eq_zero (a := a.absValue), Number.absValue_sub_floor ha, div_eq_zero_iff,
    or_iff_left hpos.ne', Nat.cast_eq_zero]

theorem two_dvd_deciBase : 2 ∣ deciBase :=
  dvd_pow (by decide) deciBaseLog_pos.ne'

/-- The top word of the fraction tells whether the fraction is one half or more. -/
theorem half_le_fraction_iff (ha : a.Wf) :
    (a.words.take a.scale).getLast?.any (deciBase / 2 ≤ ·) = true ↔
      1 / 2 ≤ a.absValue - ⌊a.absValue⌋₊ := by
  have hpos := Number.deciBase_pow_pos a.scale
  have htake : (a.words.take a.scale).length = a.scale := List.length_take_of_le ha.scale_le
  rw [(ha.words.take a.scale).half_le_top one_lt_deciBase two_dvd_deciBase, htake,
    Number.absValue_sub_floor ha, le_div_iff₀ hpos, one_div, inv_mul_le_iff₀ two_pos]
  exact_mod_cast Iff.rfl

/-! ### Rounding of the magnitude -/

theorem Number.intFloor_absValue (a : Number) : ⌊a.absValue⌋ = ⌊a.absValue⌋₊ :=
  (Int.natCast_floor_eq_floor a.absValue_nonneg).symm

theorem Number.intCeil_absValue (ha : a.Wf) :
    ⌈a.absValue⌉ = (⌊a.absValue⌋₊ + (!numberIsFzero a).toNat : Nat) := by
  have hle := Nat.floor_le a.absValue_nonneg
  have hlt := Nat.lt_floor_add_one a.absValue
  rw [Int.ceil_eq_iff]
  cases hf : numberIsFzero a with
  | true =>
      have heq := (numberIsFzero_iff ha).mp hf
      rw [Bool.not_true, Bool.toNat_false, Nat.add_zero, Int.cast_natCast]
      constructor <;> linarith
  | false =>
      have hne : a.absValue ≠ ⌊a.absValue⌋₊ := fun h =>
        Bool.false_ne_true (hf.symm.trans ((numberIsFzero_iff ha).mpr h))
      have hgt := lt_of_le_of_ne hle (Ne.symm hne)
      rw [Bool.not_false, Bool.toNat_true]
      push_cast
      constructor <;> linarith

theorem Number.nearest_absValue (ha : a.Wf) :
    Rounding.nearest a.absValue = (⌊a.absValue⌋₊ +
      ((a.words.take a.scale).getLast?.any (deciBase / 2 ≤ ·)).toNat : Nat) := by
  have hle := Nat.floor_le a.absValue_nonneg
  have hlt := Nat.lt_floor_add_one a.absValue
  rw [Rounding.nearest_of_nonneg a.absValue_nonneg, Int.floor_eq_iff]
  cases hbit : (a.words.take a.scale).getLast?.any (deciBase / 2 ≤ ·) with
  | true =>
      have hhalf := (half_le_fraction_iff ha).mp hbit
      rw [Bool.toNat_true]
      push_cast
      constructor <;> linarith
  | false =>
      have hbelow : a.absValue - ⌊a.absValue⌋₊ < 1 / 2 := by
        by_contra hge
        exact Bool.false_ne_true
          (hbit.symm.trans ((half_le_fraction_iff ha).mpr (not_lt.mp hge)))
      rw [Bool.toNat_false, Nat.add_zero, Int.cast_natCast]
      constructor <;> linarith

/-- A function that commutes with negation acts on the magnitude. -/
theorem Number.odd_value {f : ℚ → ℤ} (hf : ∀ x, f (-x) = -f x) (a : Number) :
    (f a.value : ℚ) = a.signFactor * f a.absValue := by
  rw [Number.value, Number.signFactor]
  split
  · rw [neg_one_mul, neg_one_mul, hf, Int.cast_neg]
  · rw [one_mul, one_mul]

/-! ### Rounding of the value -/

theorem truncAway_value (uniq : Bool) (ha : a.Wf) (away : Bool) :
    (truncAway uniq away a).value = a.signFactor * ((⌊a.absValue⌋₊ + away.toNat : Nat) : ℤ) := by
  obtain ⟨-, hsign, habs⟩ := truncAway_spec uniq ha away
  rw [Number.value, Number.signFactor, hsign, habs, Int.cast_natCast]
  rfl

/-- `number_trunc` rounds toward zero. -/
theorem numberTrunc_spec (uniq : Bool) (ha : a.Wf) :
    (numberTrunc uniq a).Wf ∧ (numberTrunc uniq a).value = Rounding.trunc a.value := by
  refine ⟨(truncAway_spec uniq ha false).1, ?_⟩
  have hvalue := truncAway_value uniq ha false
  rw [Number.odd_value Rounding.trunc_neg, Rounding.trunc_of_nonneg a.absValue_nonneg,
    Number.intFloor_absValue]
  exact hvalue

/-- `number_floor` rounds down. -/
theorem numberFloor_spec (uniq : Bool) (ha : a.Wf) :
    (numberFloor uniq a).Wf ∧ (numberFloor uniq a).value = ⌊a.value⌋ := by
  refine ⟨(truncAway_spec uniq ha _).1, ?_⟩
  rw [numberFloor, truncAway_value uniq ha, Number.value, Number.signFactor]
  cases a.sign with
  | false =>
      rw [if_neg Bool.false_ne_true, one_mul, one_mul, Number.intFloor_absValue]
      rfl
  | true =>
      rw [if_pos rfl, neg_one_mul, neg_one_mul, Int.floor_neg, Number.intCeil_absValue ha,
        Int.cast_neg]
      rfl

/-- `number_ceil` rounds up, for negative numbers too. -/
theorem numberCeil_spec (uniq : Bool) (ha : a.Wf) :
    (numberCeil uniq a).Wf ∧ (numberCeil uniq a).value = ⌈a.value⌉ := by
  refine ⟨(truncAway_spec uniq ha _).1, ?_⟩
  rw [numberCeil, truncAway_value uniq ha, Number.value, Number.signFactor]
  cases a.sign with
  | false =>
      rw [if_neg Bool.false_ne_true, one_mul, one_mul, Number.intCeil_absValue ha]
      rfl
  | true =>
      rw [if_pos rfl, neg_one_mul, neg_one_mul, Int.ceil_neg, Number.intFloor_absValue,
        Int.cast_neg]
      rfl

/-- `number_round` rounds to the nearest integer, ties away from zero. -/
theorem numberRound_spec (uniq : Bool) (ha : a.Wf) :
    (numberRound uniq a).Wf ∧ (numberRound uniq a).value = Rounding.nearest a.value := by
  refine ⟨(truncAway_spec uniq ha _).1, ?_⟩
  rw [numberRound, truncAway_value uniq ha, Number.odd_value Rounding.nearest_neg,
    Number.nearest_absValue ha]

/-- The integer part and the fraction make up the number. -/
theorem numberTrunc_add_numberFrac (uniq : Bool) (ha : a.Wf) :
    (numberTrunc uniq a).value + (numberFrac uniq a).value = a.value := by
  obtain ⟨-, hsign, habs⟩ := numberFrac_spec uniq ha
  have htrunc := truncAway_value uniq ha false
  rw [Bool.toNat_false, Nat.add_zero, Int.cast_natCast] at htrunc
  have hfrac : (numberFrac uniq a).value = a.signFactor * (a.absValue - ⌊a.absValue⌋₊) := by
    rw [Number.value, Number.signFactor, hsign, habs]
    rfl
  calc (numberTrunc uniq a).value + (numberFrac uniq a).value
      = a.signFactor * ⌊a.absValue⌋₊ + a.signFactor * (a.absValue - ⌊a.absValue⌋₊) := by
        rw [hfrac, ← htrunc]
        rfl
    _ = a.value := by
        rw [Number.value]
        ring

/-! ## Powers of ten -/

theorem tenPow_lt {r : Nat} (h : r < deciBaseLog) : 10 ^ r < deciBase :=
  Nat.pow_lt_pow_right (by decide) h

theorem tenPow_split (n : Nat) :
    (10 : ℚ) ^ n = (deciBase : ℚ) ^ (n / deciBaseLog) * 10 ^ (n % deciBaseLog) := by
  have hbase : (deciBase : ℚ) = 10 ^ deciBaseLog := by
    unfold deciBase
    push_cast
    rfl
  rw [hbase, ← pow_mul, ← pow_add, Nat.div_add_mod]

theorem numberScaleUp_spec (uniq : Bool) (ha : a.Wf) (n : Nat) :
    (numberScaleUp uniq a n).Wf ∧ (numberScaleUp uniq a n).value = a.value * 10 ^ n := by
  have hle := ha.scale_le
  obtain ⟨q, hq⟩ : ∃ q, q = n / deciBaseLog := ⟨_, rfl⟩
  have hmax : (if a.scale > q then a.scale else q) = max a.scale q := by
    split <;> omega
  obtain ⟨hwf, hsign, habs⟩ := unsafeNormalizeFull_spec
    (a := ⟨a.sign, max a.scale q - q, List.replicate (max a.scale q - a.scale) 0 ++ a.words⟩)
    (show max a.scale q - q ≤ (List.replicate (max a.scale q - a.scale) 0 ++ a.words).length by
      rw [List.length_append, List.length_replicate, Number.length_words]
      omega)
    (digits_append.mpr ⟨digits_replicate_zero deciBase_pos, ha.words⟩)
  obtain ⟨b, hb⟩ : ∃ b, b = unsafeNormalizeFull
    ⟨a.sign, max a.scale q - q, List.replicate (max a.scale q - a.scale) 0 ++ a.words⟩ := ⟨_, rfl⟩
  rw [← hb] at hwf hsign habs
  have hvalue : b.value = a.value * deciBase ^ q := by
    have h1 := Number.deciBase_pow_pos (max a.scale q - q)
    have h2 := Number.deciBase_pow_pos a.scale
    have hpow : (deciBase : ℚ) ^ (max a.scale q - a.scale) * deciBase ^ a.scale =
        deciBase ^ q * deciBase ^ (max a.scale q - q) := by
      rw [← pow_add, ← pow_add]
      congr 1
      omega
    rw [Number.value, habs, Number.signFactor, hsign]
    simp only [Number.value, Number.signFactor, Number.absValue, Number.mag,
      ofDigits_replicate_append]
    push_cast
    rw [mul_assoc]
    congr 1
    rw [div_mul_eq_mul_div, div_eq_div_iff h1.ne' h2.ne']
    calc _ = (ofDigits deciBase a.words : ℚ) *
          (deciBase ^ (max a.scale q - a.scale) * deciBase ^ a.scale) := by ring
      _ = _ := by rw [hpow]; ring
  have hrun : numberScaleUp uniq a n =
      if n % deciBaseLog ≠ 0 then numberMulUword true b (10 ^ (n % deciBaseLog)) else b := by
    simp only [numberScaleUp, ← hq, hmax]
    rw [mkuniqScaleUp_eq (le_max_left _ _), hb]
  rw [hrun, tenPow_split, ← mul_assoc, ← hq, ← hvalue]
  split
  · obtain ⟨hwf', hvalue'⟩ := numberMulUword_spec true hwf
      (tenPow_lt (Nat.mod_lt n deciBaseLog_pos))
    refine ⟨hwf', hvalue'.trans ?_⟩
    push_cast
    rfl
  · rename_i hr
    rw [not_not.mp hr, pow_zero, mul_one]
    exact ⟨hwf, rfl⟩

/-- The digits that `number_scale_down` moves within the words, with a new lowest word for those
that fall out. -/
theorem shiftDown_spec {r : Nat} (hlt : r < deciBaseLog) (hle : a.scale ≤ a.nwords)
    (hw : Words a.words) {b : Number}
    (hb : b = if (deciDivmodUword a.words (10 ^ r)).2 ≠ 0 then
        { mkuniqScaleUp true { a with words := (deciDivmodUword a.words (10 ^ r)).1 }
            (a.scale + 1) with
          words := (mkuniqScaleUp true { a with words := (deciDivmodUword a.words (10 ^ r)).1 }
            (a.scale + 1)).words.set 0
              ((deciDivmodUword a.words (10 ^ r)).2 * 10 ^ (deciBaseLog - r)) }
      else { a with words := (deciDivmodUword a.words (10 ^ r)).1 }) :
    b.scale ≤ b.nwords ∧ Words b.words ∧ b.sign = a.sign ∧ b.absValue = a.absValue / 10 ^ r := by
  obtain ⟨hlen, hwords, hquot, hrem⟩ := deciDivmodUword_spec a.words (10 ^ r) hw
    (Nat.pow_pos (by decide)) (tenPow_lt hlt)
  obtain ⟨w, hw'⟩ : ∃ w, w = (deciDivmodUword a.words (10 ^ r)).1 := ⟨_, rfl⟩
  obtain ⟨m, hm⟩ : ∃ m, m = (deciDivmodUword a.words (10 ^ r)).2 := ⟨_, rfl⟩
  rw [← hw'] at hlen hwords hquot
  rw [← hm] at hrem
  rw [← hw', ← hm] at hb
  have hten : (10 : ℚ) ^ r ≠ 0 := by positivity
  have hscale := Number.deciBase_pow_pos a.scale
  have hdm := Nat.div_add_mod (ofDigits deciBase a.words) (10 ^ r)
  rw [← hquot, ← hrem] at hdm
  have hdm' : (10 : ℚ) ^ r * ofDigits deciBase w + m = a.mag := by
    rw [Number.mag, ← hdm]
    push_cast
    rfl
  split at hb
  · have hup : mkuniqScaleUp true { a with words := w } (a.scale + 1) =
        ⟨a.sign, a.scale + 1, 0 :: w⟩ := by
      have hle' : ({ a with words := w } : Number).scale ≤ a.scale + 1 := Nat.le_succ a.scale
      rw [mkuniqScaleUp_eq hle']
      simp
    have hpow : deciBase = 10 ^ r * 10 ^ (deciBaseLog - r) := by
      rw [← pow_add, Nat.add_sub_cancel' hlt.le]
      rfl
    rw [hup] at hb
    subst hb
    refine ⟨?_, digits_cons.mpr ⟨?_, hwords⟩, rfl, ?_⟩
    · rw [Number.nwords_mk, List.set_cons_zero, List.length_cons, hlen]
      exact Nat.succ_le_succ hle
    · rw [hpow]
      refine Nat.mul_lt_mul_of_pos_right ?_ (Nat.pow_pos (by decide))
      rw [hrem]
      exact Nat.mod_lt _ (Nat.pow_pos (by decide))
    · have hpow' : (deciBase : ℚ) = 10 ^ r * 10 ^ (deciBaseLog - r) := by exact_mod_cast hpow
      have hten' : (10 : ℚ) ^ (deciBaseLog - r) ≠ 0 := by positivity
      simp only [Number.absValue, Number.mag, List.set_cons_zero, Nat.ofDigits_cons]
      rw [← Number.mag, ← hdm', pow_succ, hpow']
      push_cast
      rw [hpow']
      field_simp
      ring
  · rename_i hm0
    subst hb
    refine ⟨?_, hwords, rfl, ?_⟩
    · rw [Number.nwords_mk, hlen]
      exact hle
    · rw [not_not.mp hm0, Nat.cast_zero, add_zero] at hdm'
      simp only [Number.absValue, Number.mag]
      rw [← Number.mag, ← hdm']
      field_simp

theorem numberScaleDown_spec (uniq : Bool) (ha : a.Wf) (n : Nat) :
    (numberScaleDown uniq a n).Wf ∧ (numberScaleDown uniq a n).value = a.value / 10 ^ n := by
  have hle := ha.scale_le
  obtain ⟨q, hq⟩ : ∃ q, q = n / deciBaseLog := ⟨_, rfl⟩
  obtain ⟨k, hk⟩ : ∃ k, k = (if a.nwords > a.scale + q then a.nwords else a.scale + q) := ⟨_, rfl⟩
  have hk' : a.nwords ≤ k ∧ a.scale + q ≤ k := by
    rw [hk]
    split <;> omega
  -- The point is moved by whole words.
  obtain ⟨b, hb⟩ : ∃ b : Number,
      b = ⟨a.sign, a.scale + q, a.words ++ List.replicate (k - a.nwords) 0⟩ := ⟨_, rfl⟩
  have hbscale : b.scale ≤ b.nwords := by
    rw [hb, Number.nwords_mk]
    change a.scale + q ≤ (a.words ++ List.replicate (k - a.nwords) 0).length
    rw [List.length_append, List.length_replicate, Number.length_words]
    omega
  have hbwords : Words b.words := by
    rw [hb]
    exact digits_append.mpr ⟨ha.words, digits_replicate_zero deciBase_pos⟩
  have hbabs : b.absValue = a.absValue / deciBase ^ q := by
    rw [hb, Number.absValue_append_replicate, Number.absValue, Number.absValue, pow_add, div_div]
    rfl
  have hfinish : ∀ c : Number, c.scale ≤ c.nwords → Words c.words → c.sign = a.sign →
      c.absValue = a.absValue / 10 ^ n → (unsafeNormalizeFull c).Wf ∧
        (unsafeNormalizeFull c).value = a.value / 10 ^ n := by
    intro c hc hcw hsign habs
    obtain ⟨hwf, hsign', habs'⟩ := unsafeNormalizeFull_spec hc hcw
    refine ⟨hwf, ?_⟩
    rw [Number.value, Number.signFactor, hsign', habs', hsign, habs]
    exact (mul_div_assoc _ _ _).symm
  have hsplit := tenPow_split n
  rw [← hq] at hsplit
  subst hb
  simp only [numberScaleDown, ← hq, ← hk, mkuniqExtend_eq]
  split
  · rename_i hr
    obtain ⟨hcs, hcw, hcsign, hcabs⟩ := shiftDown_spec (Nat.mod_lt n deciBaseLog_pos) hbscale
      hbwords rfl
    refine hfinish _ hcs hcw hcsign ?_
    rw [hcabs, hbabs, hsplit, div_div]
  · rename_i hr
    rw [not_not.mp hr, pow_zero, mul_one] at hsplit
    exact hfinish _ hbscale hbwords rfl (by rw [hbabs, hsplit])

end Calx
