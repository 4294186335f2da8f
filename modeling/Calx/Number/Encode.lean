import Calx.Number.Numerals
import Calx.Number.Radix

/-!
# Encoding and decoding

`number_tostring_base`, which writes a number in any base, against
`number_parse_base`, which reads it.

## Implementation notes

What is written is the canonical numeral of the number cut off after some places
in the base, whatever fuel and buffer the printer is given as long as they suffice.
-/

namespace Calx

open Nat (ofDigits)
open Positional Libdeci

/-! ## Numerals without a dot -/

theorem digits_digits {base : Nat} (hb : 1 < base) (v : Nat) : Digits base (Nat.digits base v) :=
  fun _ hd => Nat.digits_lt_base hb hd

/-- Nothing is cut off a numeral without digits after its dot. -/
theorem truncated_denoted {base : Nat} {s : Bytes} (h : fracDigits (unsigned s) = []) (p : Nat) :
    truncated 10 p (denoted base s) = denoted base s := by
  have habs : denotedAbs base (unsigned s) = (evalDigits base (intDigits (unsigned s)) : ℕ) := by
    rw [denotedAbs, h, List.append_nil, List.length_nil, pow_zero, div_one]
  rw [denoted, habs]
  split
  · rw [neg_one_mul, truncated_neg, truncated_natCast (by decide)]
  · rw [one_mul, truncated_natCast (by decide)]

theorem fracDigits_of_no_dot {s : Bytes} (h : ch '.' ∉ s) : fracDigits (unsigned s) = [] := by
  have hmem : ∀ c ∈ unsigned s, c ∈ s := by
    intro c hc
    rw [unsigned] at hc
    split at hc
    · exact List.mem_of_mem_tail hc
    · exact hc
  have hdrop : (unsigned s).dropWhile (· ≠ ch '.') = [] := by
    apply List.dropWhile_eq_nil_iff.mpr
    intro c hc
    exact decide_eq_true (ne_of_mem_of_not_mem (hmem c hc) h)
  rw [fracDigits, hdrop]
  rfl

section

variable [Libdeci] {base : Nat} {a : Number}

/-! ## The digits that are written -/

/-- Cutting off looks at the magnitude only. -/
theorem Number.truncated_value (a : Number) (base n : Nat) : truncated base n a.value =
    a.signFactor * (⌊a.absValue * (base : ℚ) ^ n⌋₊ / (base : ℚ) ^ n) := by
  rw [value, signFactor]
  split
  · rw [neg_one_mul, truncated_neg, truncated_of_nonneg a.absValue_nonneg, neg_one_mul]
  · rw [one_mul, truncated_of_nonneg a.absValue_nonneg, one_mul]

theorem Number.digits_fracBase (hb : 0 < base) (a : Number) (nfrac : Nat) :
    Digits base (a.fracBase base nfrac) := digits_fixedDigits hb _ _

theorem Number.length_fracBase (a : Number) (base nfrac : Nat) :
    (a.fracBase base nfrac).length = nfrac := length_fixedDigits _ _ _

/-- The digits of both parts are those of the magnitude in the base. -/
theorem Number.ofDigits_base (ha : a.Wf) (hb : 1 < base) (nfrac : Nat) :
    ofDigits base (a.fracBase base nfrac ++
      Nat.digits base (ofDigits deciBase (a.words.drop a.scale))) =
        ⌊a.absValue * (base : ℚ) ^ nfrac⌋₊ := by
  obtain ⟨f, hf⟩ : ∃ f, f = ofDigits deciBase (a.words.take a.scale) := ⟨_, rfl⟩
  obtain ⟨i, hi⟩ : ∃ i, i = ofDigits deciBase (a.words.drop a.scale) := ⟨_, rfl⟩
  have hlen : (a.words.take a.scale).length = a.scale := List.length_take_of_le ha.scale_le
  have hpow : 0 < deciBase ^ a.scale := Nat.pow_pos deciBase_pos
  have hlt : f < deciBase ^ a.scale := by
    have hlt := (ha.words.take a.scale).lt one_lt_deciBase
    rwa [hlen, ← hf] at hlt
  have hmag : a.mag = f + deciBase ^ a.scale * i := by
    conv_lhs => rw [Number.mag, ← List.take_append_drop a.scale a.words, Nat.ofDigits_append, hlen]
    rw [hf, hi]
  have hfrac : f * base ^ nfrac / deciBase ^ a.scale < base ^ nfrac := by
    rw [Nat.div_lt_iff_lt_mul hpow, Nat.mul_comm (base ^ nfrac)]
    exact Nat.mul_lt_mul_of_pos_right hlt (Nat.pow_pos hb.le)
  rw [Nat.ofDigits_append, Nat.ofDigits_digits, Number.length_fracBase, Number.fracBase,
    ofDigits_fixedDigits, ← hf, ← hi, Nat.mod_eq_of_lt hfrac]
  have hfloor : ⌊a.absValue * (base : ℚ) ^ nfrac⌋₊ = a.mag * base ^ nfrac / deciBase ^ a.scale := by
    rw [absValue, div_mul_eq_mul_div, ← Nat.cast_pow, ← Nat.cast_pow, ← Nat.cast_mul,
      Nat.floor_div_eq_div]
  calc f * base ^ nfrac / deciBase ^ a.scale + base ^ nfrac * i
      = (f * base ^ nfrac + deciBase ^ a.scale * (base ^ nfrac * i)) / deciBase ^ a.scale :=
        (Nat.add_mul_div_left _ _ hpow).symm
    _ = a.mag * base ^ nfrac / deciBase ^ a.scale := by
        rw [hmag]
        congr 1
        ring
    _ = ⌊a.absValue * (base : ℚ) ^ nfrac⌋₊ := hfloor.symm

/-! ## The numeral that is written -/

/-- The canonical numeral of a number cut off after `nfrac` places in a base. -/
def Number.numeralBase (a : Number) (hb : 1 < base) (nfrac : Nat) : Numeral base :=
  Numeral.trimmed a.sign (a.fracBase base nfrac)
    (Nat.digits base (ofDigits deciBase (a.words.drop a.scale))) hb.le
    (a.digits_fracBase hb.le nfrac) (digits_digits hb _)

theorem Number.numeralBase_value (ha : a.Wf) (hb : 1 < base) (nfrac : Nat) :
    (a.numeralBase hb nfrac).value = truncated base nfrac a.value := by
  rw [Number.numeralBase, Numeral.trimmed_value, Number.ofDigits_base ha hb, Number.length_fracBase,
    Number.truncated_value]
  rfl

/-- `number_tostring_base` writes the canonical numeral. -/
theorem numberTostringBase_numeral (ha : a.Wf) (hb : 1 < base) (hb' : base ≤ 36) {nfrac : Nat}
    {fuel cap : Nat} (hfuel : a.nwords * Nat.clog base deciBase < fuel)
    (hcap : 3 + nfrac + a.nwords * Nat.clog base deciBase ≤ cap) :
    numberTostringBase fuel cap a base nfrac = some (a.numeralBase hb nfrac).text := by
  obtain ⟨v, hv⟩ : ∃ v, v = Nat.digits base (ofDigits deciBase (a.words.drop a.scale)) := ⟨_, rfl⟩
  have hvdigits : Digits base v := hv ▸ digits_digits hb _
  have htop : trimTop v = v := by
    apply trimTop_of_topNonzero
    intro h0
    rw [hv] at h0
    have hne : Nat.digits base (ofDigits deciBase (a.words.drop a.scale)) ≠ [] :=
      List.ne_nil_of_mem (List.mem_of_getLast? h0)
    rw [List.getLast?_eq_some_getLast hne] at h0
    exact Nat.getLast_digit_ne_zero base (Nat.digits_ne_nil_iff_ne_zero.mp hne)
      (Option.some.inj h0)
  have hint : (v.map digitChar ++ if v.map digitChar = [] then [ch '0'] else []).reverse =
      Numeral.bytes (if trimTop v = [] then [0] else trimTop v) := by
    rw [htop, Numeral.bytes]
    by_cases hnil : v = []
    · rw [hnil]
      rfl
    · rw [if_neg (mt List.map_eq_nil_iff.mp hnil), if_neg hnil, List.append_nil]
  have hdigits : Digits base (a.fracBase base nfrac) := a.digits_fracBase hb.le nfrac
  have hfrac := dropWhile_map_digitChar hdigits hb'
  rw [numberTostringBase_eq ha hb hb' rfl rfl hfuel hcap, ← hv, hint, hfrac,
    if_congr List.map_eq_nil_iff rfl rfl]
  subst hv
  congr 1
  exact Numeral.finalizeTostring_trimmed hb hb' hdigits hvdigits

/-! ## Reading back -/

/-- An accepted text is read up to the precision, and all of it when no digit follows the dot. -/
theorem decode_spec (hb : 0 < base) (hb' : base ≤ 36) {s : Bytes}
    (hs : numberParseBaseValidate s base = true) (p : Nat) :
    (numberParseBase s base (ntpFromPrec p)).value = truncated 10 p (denoted base s) ∧
      (fracDigits (unsigned s) = [] →
        (numberParseBase s base (ntpFromPrec p)).value = denoted base s) := by
  have hvalue := (numberParseBase_spec hb (hb'.trans (by decide)) s p).2 hs
  constructor
  · exact hvalue
  · intro h
    rw [hvalue, truncated_denoted h]

/-- `Decode` undoes `Encode`: what is written in a base is accepted in it, stands for the number cut
off after `nfrac` places, and is read back up to the precision; and every accepted text is read up to
the precision. -/
theorem encode_decode (hb : 2 ≤ base) (hb' : base ≤ 36) :
    (∀ a : Number, a.Wf → ∀ nfrac, ∃ s,
      (∀ fuel cap, a.nwords * Nat.clog base deciBase < fuel →
        3 + nfrac + a.nwords * Nat.clog base deciBase ≤ cap →
          numberTostringBase fuel cap a base nfrac = some s) ∧
      numberParseBaseValidate s base = true ∧ denoted base s = truncated base nfrac a.value ∧
      ∀ p, (numberParseBase s base (ntpFromPrec p)).value =
          truncated 10 p (truncated base nfrac a.value) ∧
        (ch '.' ∉ s →
          (numberParseBase s base (ntpFromPrec p)).value = truncated base nfrac a.value)) ∧
    ∀ s, numberParseBaseValidate s base = true → ∀ p,
      (numberParseBase s base (ntpFromPrec p)).value = truncated 10 p (denoted base s) ∧
        (fracDigits (unsigned s) = [] →
          (numberParseBase s base (ntpFromPrec p)).value = denoted base s) := by
  have hpos : 0 < base := by omega
  constructor
  · intro a ha nfrac
    have haccepted := (a.numeralBase hb nfrac).text_accepted hb'
    have hdenoted : denoted base (a.numeralBase hb nfrac).text = truncated base nfrac a.value := by
      rw [(a.numeralBase hb nfrac).denoted_text hb', Number.numeralBase_value ha]
    refine ⟨(a.numeralBase hb nfrac).text, ?_, haccepted, hdenoted, ?_⟩
    · intro fuel cap hfuel hcap
      exact numberTostringBase_numeral ha hb hb' hfuel hcap
    · intro p
      obtain ⟨hread, hexact⟩ := decode_spec hpos hb' haccepted p
      rw [hdenoted] at hread hexact
      exact ⟨hread, fun hdot => hexact (fracDigits_of_no_dot hdot)⟩
  · intro s hs p
    exact decode_spec hpos hb' hs p

end

/-- Minus one half is written and read back in base sixteen, and so is a text with a quote. -/
theorem encode_decode_half :
    (∃ s, @numberTostringBase libdeciByValue 100 100 ⟨true, 1, [5000000000000000000]⟩ 16 4 = some s ∧
      numberParseBaseValidate s 16 = true) ∧
    @Number.value deciBase64 (@numberParseBase libdeciByValue (bytesOf "-f'F.8") 16
      (@ntpFromPrec deciBase64 3)) = truncated 10 3 (denoted 16 (bytesOf "-f'F.8")) := by
  let := libdeciByValue
  have hwf : Number.Wf ⟨true, 1, [5000000000000000000]⟩ := by decide
  obtain ⟨hencode, hdecode⟩ := @encode_decode _ 16 (by decide) (by decide)
  obtain ⟨s, hrun, haccepted, -⟩ := hencode _ hwf 4
  have hclog : Nat.clog 16 deciBase ≤ 64 := clog_deciBase_le (by decide)
  constructor
  · refine ⟨s, hrun 100 100 ?_ ?_, haccepted⟩
    · change 1 * Nat.clog 16 deciBase < 100
      omega
    · change 3 + 4 + 1 * Nat.clog 16 deciBase ≤ 100
      omega
  · exact (hdecode (bytesOf "-f'F.8") (by decide) 3).1

end Calx
