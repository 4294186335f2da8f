import Calx.Lib.Positional
import Calx.Number.Basic

/-!
# Spans of words

What `number.c` uses of libdeci, and the choice of algorithms in `fancy.c`.

## Implementation notes

The sources of libdeci are not part of the repository. Its routines are the
fields of the class `Libdeci`, with what their names say about them: they
compute with the values of spans in base `DECI_BASE`. A span that a routine
writes to is returned. What `deci_div` and `decinewt_div` leave above the
quotient is not specified.
-/

namespace Calx

open Nat (ofDigits)
open Positional

/-- The words of a span are below `DECI_BASE`. -/
abbrev Words [DeciBase] (w : List Nat) : Prop := Digits deciBase w

theorem deciBaseLog_pos [DeciBase] : 0 < deciBaseLog := by
  rcases DeciBase.baseLog_eq with h | h <;> simp [deciBaseLog, h]

theorem one_lt_deciBase [DeciBase] : 1 < deciBase :=
  Nat.one_lt_pow deciBaseLog_pos.ne' (by decide)

theorem deciBase_pos [DeciBase] : 0 < deciBase := Nat.zero_lt_of_lt one_lt_deciBase

/-- The span holds the product of two spans. -/
structure IsProduct [DeciBase] (r wa wb : List Nat) : Prop where
  length : r.length = wa.length + wb.length
  words : Words r
  value : ofDigits deciBase r = ofDigits deciBase wa * ofDigits deciBase wb

/-- The low words of a span of `n` words hold a value. -/
structure LeavesLow [DeciBase] (r : List Nat × Nat) (n value : Nat) : Prop where
  length : r.1.length = n
  words : Words r.1
  low_le : r.2 ≤ n
  low : ofDigits deciBase (r.1.take r.2) = value

/-- The routines of libdeci. -/
class Libdeci extends DeciBase where
  /-- `deci_normalize`: the span without the zeros on top. -/
  deciNormalize : List Nat → List Nat
  /-- `deci_skip0`: the span from its lowest word that is not zero. -/
  deciSkip0 : List Nat → List Nat
  /-- `deci_is_zero_n`. -/
  deciIsZero : List Nat → Bool
  /-- `deci_add`: the first span, and the carry. -/
  deciAdd : List Nat → List Nat → List Nat × Bool
  /-- `deci_sub_raw`: the first span, and the borrow. -/
  deciSubRaw : List Nat → List Nat → List Nat × Bool
  /-- `deci_uncomplement`: what a borrow has made of a difference, back to its magnitude. -/
  deciUncomplement : List Nat → List Nat
  /-- `deci_mul_uword`: the span, and the word above it. -/
  deciMulUword : List Nat → Nat → List Nat × Nat
  /-- `deci_divmod_uword`: the span, and the remainder. -/
  deciDivmodUword : List Nat → Nat → List Nat × Nat
  /-- `deci_mul` on an output of zeros. -/
  deciMul : List Nat → List Nat → List Nat
  /-- `decikara_mul`. -/
  decikaraMul : List Nat → List Nat → List Nat
  /-- `decintt_mul`. -/
  decinttMul : List Nat → List Nat → List Nat
  /-- `decintt_sqr`. -/
  decinttSqr : List Nat → List Nat
  /-- `deci_div`: the dividend's span with the quotient, and the length of the quotient. -/
  deciDiv : List Nat → List Nat → List Nat × Nat
  /-- `deci_mod`: the dividend's span with the remainder, and the length of the remainder. -/
  deciMod : List Nat → List Nat → List Nat × Nat
  /-- `DECINEWT_MIN`. -/
  decinewtMin : Nat
  /-- `decinewt_div`: the product of quotient and divisor, and the quotient. -/
  decinewtDiv : List Nat → List Nat → List Nat × List Nat
  deciNormalize_eq : ∀ w, deciNormalize w = trimTop w
  deciSkip0_eq : ∀ w, deciSkip0 w = w.dropWhile (· = 0)
  deciIsZero_iff : ∀ w, deciIsZero w = true ↔ ∀ x ∈ w, x = 0
  deciAdd_spec : ∀ wa wb, Words wa → Words wb → wb.length ≤ wa.length →
    (deciAdd wa wb).1.length = wa.length ∧ Words (deciAdd wa wb).1 ∧
      ofDigits deciBase (deciAdd wa wb).1 + deciBase ^ wa.length * (deciAdd wa wb).2.toNat =
        ofDigits deciBase wa + ofDigits deciBase wb
  deciSubRaw_spec : ∀ wa wb, Words wa → Words wb → wb.length ≤ wa.length →
    (deciSubRaw wa wb).1.length = wa.length ∧ Words (deciSubRaw wa wb).1 ∧
      ofDigits deciBase (deciSubRaw wa wb).1 + ofDigits deciBase wb =
        ofDigits deciBase wa + deciBase ^ wa.length * (deciSubRaw wa wb).2.toNat
  deciUncomplement_spec : ∀ w, Words w → 0 < ofDigits deciBase w →
    (deciUncomplement w).length = w.length ∧ Words (deciUncomplement w) ∧
      ofDigits deciBase (deciUncomplement w) + ofDigits deciBase w = deciBase ^ w.length
  deciMulUword_spec : ∀ w x, Words w → x < deciBase →
    (deciMulUword w x).1.length = w.length ∧ Words (deciMulUword w x).1 ∧
      (deciMulUword w x).2 < deciBase ∧
      ofDigits deciBase (deciMulUword w x).1 + deciBase ^ w.length * (deciMulUword w x).2 =
        ofDigits deciBase w * x
  deciDivmodUword_spec : ∀ w x, Words w → 0 < x → x < deciBase →
    (deciDivmodUword w x).1.length = w.length ∧ Words (deciDivmodUword w x).1 ∧
      ofDigits deciBase (deciDivmodUword w x).1 = ofDigits deciBase w / x ∧
      (deciDivmodUword w x).2 = ofDigits deciBase w % x
  deciMul_spec : ∀ wa wb, Words wa → Words wb → IsProduct (deciMul wa wb) wa wb
  decikaraMul_spec : ∀ wa wb, Words wa → Words wb → IsProduct (decikaraMul wa wb) wa wb
  decinttMul_spec : ∀ wa wb, Words wa → Words wb → IsProduct (decinttMul wa wb) wa wb
  decinttSqr_spec : ∀ w, Words w → IsProduct (decinttSqr w) w w
  deciDiv_spec : ∀ wa wb, Words wa → Words wb → TopNonzero wb → wb ≠ [] →
    LeavesLow (deciDiv wa wb) wa.length (ofDigits deciBase wa / ofDigits deciBase wb)
  deciMod_spec : ∀ wa wb, Words wa → Words wb → TopNonzero wb → wb ≠ [] →
    LeavesLow (deciMod wa wb) wa.length (ofDigits deciBase wa % ofDigits deciBase wb)
  decinewtDiv_spec : ∀ wa wb, Words wa → Words wb → TopNonzero wb → wb ≠ [] →
    wb.length ≤ wa.length →
    (decinewtDiv wa wb).1.length = wa.length ∧ Words (decinewtDiv wa wb).1 ∧
      ofDigits deciBase (decinewtDiv wa wb).1 = ofDigits deciBase wa / ofDigits deciBase wb * ofDigits deciBase wb ∧
      (decinewtDiv wa wb).2.length = wa.length - wb.length + 1 ∧
      Words (decinewtDiv wa wb).2 ∧
      ofDigits deciBase (decinewtDiv wa wb).2 = ofDigits deciBase wa / ofDigits deciBase wb

open Libdeci

attribute [simp] deciNormalize_eq deciSkip0_eq deciIsZero_iff

/-! ## The choice of algorithms -/

/-- `fancy_mul`; `same` says that the spans are one. -/
def fancyMul [Libdeci] (same : Bool) (wa wb : List Nat) : List Nat :=
  let minN := min wa.length wb.length
  if minN < 30 then deciMul wa wb
  else if minN < 75 then decikaraMul wa wb
  else if same then decinttSqr wa
  else decinttMul wa wb

/-- `quotient_or_remainder`. -/
def quotientOrRemainder [Libdeci] (wa wb : List Nat) (quotient : Bool) : List Nat × Nat :=
  let a := deciNormalize wa
  let above := wa.drop a.length
  let b := deciNormalize wb
  let ndelta := a.length - b.length + 1
  if a.length < b.length ∨ min ndelta b.length < 75 ∨ b.length < decinewtMin then
    let r := if quotient then deciDiv a b else deciMod a b
    (r.1 ++ above, r.2)
  else
    let r := decinewtDiv a b
    if quotient then (r.2 ++ a.drop ndelta ++ above, ndelta)
    else ((deciSubRaw a r.1).1 ++ above, a.length)

/-- `fancy_div`. -/
def fancyDiv [Libdeci] (wa wb : List Nat) : List Nat × Nat := quotientOrRemainder wa wb true

/-- `fancy_mod`. -/
def fancyMod [Libdeci] (wa wb : List Nat) : List Nat × Nat := quotientOrRemainder wa wb false

section

variable [Libdeci] {wa wb : List Nat}

theorem fancyMul_spec (ha : Words wa) (hb : Words wb) (same : Bool) (hsame : same = true → wa = wb) :
    IsProduct (fancyMul same wa wb) wa wb := by
  simp only [fancyMul]
  split
  · exact deciMul_spec wa wb ha hb
  · split
    · exact decikaraMul_spec wa wb ha hb
    · split
      · obtain rfl := hsame ‹_›
        exact decinttSqr_spec wa ha
      · exact decinttMul_spec wa wb ha hb

/-- The words above the span of a routine stay. -/
theorem LeavesLow.append {r : List Nat × Nat} {n value : Nat} {above : List Nat}
    (h : LeavesLow r n value) (habove : Words above) :
    LeavesLow (r.1 ++ above, r.2) (n + above.length) value := by
  refine ⟨?_, digits_append.mpr ⟨h.words, habove⟩, Nat.le_trans h.low_le (Nat.le_add_right _ _), ?_⟩
  · rw [List.length_append, h.length]
  · rw [List.take_append_of_le_length (by rw [h.length]; exact h.low_le), h.low]

theorem quotientOrRemainder_spec (ha : Words wa) (hb : Words wb) (hpos : 0 < ofDigits deciBase wb)
    (quotient : Bool) :
    LeavesLow (quotientOrRemainder wa wb quotient) wa.length
      (if quotient then ofDigits deciBase wa / ofDigits deciBase wb else ofDigits deciBase wa % ofDigits deciBase wb) := by
  have hwa := ha.trimTop
  have hwb := hb.trimTop
  have htop := topNonzero_trimTop wb
  have hne : trimTop wb ≠ [] := fun hnil => by
    have hzero : ofDigits deciBase (trimTop wb) = ofDigits deciBase wb := ofDigits_trimTop wb
    rw [hnil, Nat.ofDigits_nil] at hzero
    omega
  have hlen : wa.length = (trimTop wa).length + (wa.drop (trimTop wa).length).length := by
    have hle := length_trimTop_le wa
    rw [List.length_drop]
    omega
  have habove : Words (wa.drop (trimTop wa).length) := ha.drop _
  rw [← ofDigits_trimTop (b := deciBase) wa, ← ofDigits_trimTop (b := deciBase) wb]
  unfold quotientOrRemainder
  simp only [deciNormalize_eq]
  rw [hlen]
  split
  · cases quotient with
    | true => exact (deciDiv_spec _ _ hwa hwb htop hne).append habove
    | false => exact (deciMod_spec _ _ hwa hwb htop hne).append habove
  · have hle : (trimTop wb).length ≤ (trimTop wa).length := by omega
    have hposb : 0 < (trimTop wb).length := List.length_pos_iff.mpr hne
    obtain ⟨hplen, hpwords, hpvalue, hqlen, hqwords, hqvalue⟩ :=
      decinewtDiv_spec _ _ hwa hwb htop hne hle
    cases quotient with
    | true =>
        simp only [if_true]
        refine LeavesLow.append (r := (_, _)) ⟨?_, ?_, ?_, ?_⟩ habove
        · rw [List.length_append, List.length_drop, hqlen]
          omega
        · exact digits_append.mpr ⟨hqwords, hwa.drop _⟩
        · omega
        · rw [List.take_left' hqlen, hqvalue]
    | false =>
        obtain ⟨hslen, hswords, hsvalue⟩ := deciSubRaw_spec _ _ hwa hpwords (by omega)
        simp only [Bool.false_eq_true, if_false]
        refine LeavesLow.append (r := (_, _)) ⟨hslen, hswords, le_rfl, ?_⟩ habove
        have hdm := Nat.div_add_mod' (ofDigits deciBase (trimTop wa)) (ofDigits deciBase (trimTop wb))
        have hlt := hswords.lt one_lt_deciBase
        rw [hslen] at hlt
        rw [hpvalue] at hsvalue
        rw [← hslen, List.take_length]
        cases hborrow : (deciSubRaw (trimTop wa) (decinewtDiv (trimTop wa) (trimTop wb)).1).2 with
        | false =>
            rw [hborrow, Bool.toNat_false, Nat.mul_zero] at hsvalue
            omega
        | true =>
            rw [hborrow, Bool.toNat_true, Nat.mul_one] at hsvalue
            omega

end

/-! ## Routines that compute with the values -/

section

variable [DeciBase]

/-- The low words of a value. -/
def spanOf (n v : Nat) : List Nat := fixedDigits deciBase n v

theorem words_spanOf (n v : Nat) : Words (spanOf n v) := digits_fixedDigits deciBase_pos n v

theorem length_spanOf (n v : Nat) : (spanOf n v).length = n := length_fixedDigits _ n v

theorem ofDigits_spanOf {n v : Nat} (h : v < deciBase ^ n) : ofDigits deciBase (spanOf n v) = v := by
  rw [spanOf, ofDigits_fixedDigits, Nat.mod_eq_of_lt h]

/-- The product of two values as a span. -/
def productOf (wa wb : List Nat) : List Nat :=
  spanOf (wa.length + wb.length) (ofDigits deciBase wa * ofDigits deciBase wb)

theorem productOf_spec {wa wb : List Nat} (ha : Words wa) (hb : Words wb) :
    IsProduct (productOf wa wb) wa wb := by
  refine ⟨length_spanOf _ _, words_spanOf _ _, ofDigits_spanOf ?_⟩
  rw [pow_add]
  exact Nat.mul_lt_mul'' (ha.lt one_lt_deciBase) (hb.lt one_lt_deciBase)

theorem leavesLow_spanOf {n v : Nat} (h : v < deciBase ^ n) : LeavesLow (spanOf n v, n) n v := by
  refine ⟨length_spanOf n v, words_spanOf n v, le_rfl, ?_⟩
  rw [List.take_of_length_le (length_spanOf n v).le, ofDigits_spanOf h]

theorem carry_spanOf {n s : Nat} (h : s < 2 * deciBase ^ n) :
    ofDigits deciBase (spanOf n s) + deciBase ^ n * (decide (deciBase ^ n ≤ s)).toNat = s := by
  rw [spanOf, ofDigits_fixedDigits]
  by_cases hle : deciBase ^ n ≤ s
  · rw [decide_eq_true hle, Bool.toNat_true, Nat.mod_eq_sub_mod hle, Nat.mod_eq_of_lt (by omega)]
    omega
  · rw [decide_eq_false hle, Bool.toNat_false, Nat.mod_eq_of_lt (by omega)]
    rfl

theorem borrow_spanOf {n a b : Nat} (ha : a < deciBase ^ n) (hb : b < deciBase ^ n) :
    ofDigits deciBase (spanOf n (deciBase ^ n + a - b)) + b =
      a + deciBase ^ n * (decide (a < b)).toNat := by
  rw [spanOf, ofDigits_fixedDigits]
  by_cases hlt : a < b
  · rw [decide_eq_true hlt, Bool.toNat_true, Nat.mod_eq_of_lt (by omega)]
    omega
  · rw [decide_eq_false hlt, Bool.toNat_false, Nat.mod_eq_sub_mod (by omega),
      Nat.mod_eq_of_lt (by omega)]
    omega

theorem ofDigits_lt_of_le {wa wb : List Nat} (hb : Words wb) (h : wb.length ≤ wa.length) :
    ofDigits deciBase wb < deciBase ^ wa.length :=
  Nat.lt_of_lt_of_le (hb.lt one_lt_deciBase) (Nat.pow_le_pow_right deciBase_pos h)

theorem quotient_lt {wa wb : List Nat} (ha : Words wa) (hb : Words wb) (htop : TopNonzero wb)
    (hne : wb ≠ []) (hle : wb.length ≤ wa.length) :
    ofDigits deciBase wa / ofDigits deciBase wb < deciBase ^ (wa.length - wb.length + 1) := by
  have hlow := ((topNonzero_iff one_lt_deciBase hb).mp htop).resolve_left hne
  have hpos := List.length_pos_iff.mpr hne
  have hb0 : 0 < deciBase ^ (wb.length - 1) := Nat.pow_pos deciBase_pos
  rw [Nat.div_lt_iff_lt_mul (by omega)]
  calc ofDigits deciBase wa < deciBase ^ wa.length := ha.lt one_lt_deciBase
    _ = deciBase ^ (wa.length - wb.length + 1) * deciBase ^ (wb.length - 1) := by
        rw [← pow_add]
        congr 1
        omega
    _ ≤ deciBase ^ (wa.length - wb.length + 1) * ofDigits deciBase wb :=
        Nat.mul_le_mul_left _ hlow

end

/-- Routines with nineteen digits to a word that convert the spans to numbers and back. -/
@[reducible] def libdeciByValue : Libdeci :=
  letI := deciBase64
  { deciBase64 with
    deciNormalize := trimTop
    deciSkip0 := fun w => w.dropWhile (· = 0)
    deciIsZero := fun w => w.all (· = 0)
    deciAdd := fun wa wb =>
      (spanOf wa.length (ofDigits deciBase wa + ofDigits deciBase wb),
        decide (deciBase ^ wa.length ≤ ofDigits deciBase wa + ofDigits deciBase wb))
    deciSubRaw := fun wa wb =>
      (spanOf wa.length (deciBase ^ wa.length + ofDigits deciBase wa - ofDigits deciBase wb),
        decide (ofDigits deciBase wa < ofDigits deciBase wb))
    deciUncomplement := fun w => spanOf w.length (deciBase ^ w.length - ofDigits deciBase w)
    deciMulUword := fun w x =>
      (spanOf w.length (ofDigits deciBase w * x), ofDigits deciBase w * x / deciBase ^ w.length)
    deciDivmodUword := fun w x => (spanOf w.length (ofDigits deciBase w / x), ofDigits deciBase w % x)
    deciMul := productOf
    decikaraMul := productOf
    decinttMul := productOf
    decinttSqr := fun w => productOf w w
    deciDiv := fun wa wb => (spanOf wa.length (ofDigits deciBase wa / ofDigits deciBase wb), wa.length)
    deciMod := fun wa wb => (spanOf wa.length (ofDigits deciBase wa % ofDigits deciBase wb), wa.length)
    decinewtMin := 0
    decinewtDiv := fun wa wb =>
      (spanOf wa.length (ofDigits deciBase wa / ofDigits deciBase wb * ofDigits deciBase wb),
        spanOf (wa.length - wb.length + 1) (ofDigits deciBase wa / ofDigits deciBase wb))
    deciNormalize_eq := fun _ => rfl
    deciSkip0_eq := fun _ => rfl
    deciIsZero_iff := fun w => by simp
    deciAdd_spec := fun wa wb ha hb hle =>
      ⟨length_spanOf _ _, words_spanOf _ _, carry_spanOf (by
        have h := ha.lt one_lt_deciBase
        have h' := ofDigits_lt_of_le hb hle
        omega)⟩
    deciSubRaw_spec := fun wa wb ha hb hle =>
      ⟨length_spanOf _ _, words_spanOf _ _,
        borrow_spanOf (ha.lt one_lt_deciBase) (ofDigits_lt_of_le hb hle)⟩
    deciUncomplement_spec := fun w hw hpos => by
      have hlt := hw.lt one_lt_deciBase
      refine ⟨length_spanOf _ _, words_spanOf _ _, ?_⟩
      rw [ofDigits_spanOf (by omega)]
      omega
    deciMulUword_spec := fun w x hw hx => by
      refine ⟨length_spanOf _ _, words_spanOf _ _, ?_, ?_⟩
      · rw [Nat.div_lt_iff_lt_mul (Nat.pow_pos deciBase_pos), Nat.mul_comm]
        exact Nat.mul_lt_mul'' hx (hw.lt one_lt_deciBase)
      · rw [spanOf, ofDigits_fixedDigits]
        exact Nat.mod_add_div _ _
    deciDivmodUword_spec := fun w x hw _ _ =>
      ⟨length_spanOf _ _, words_spanOf _ _, ofDigits_spanOf
        (Nat.lt_of_le_of_lt (Nat.div_le_self _ _) (hw.lt one_lt_deciBase)), rfl⟩
    deciMul_spec := fun _ _ => productOf_spec
    decikaraMul_spec := fun _ _ => productOf_spec
    decinttMul_spec := fun _ _ => productOf_spec
    decinttSqr_spec := fun _ h => productOf_spec h h
    deciDiv_spec := fun wa wb ha _ _ _ =>
      leavesLow_spanOf (Nat.lt_of_le_of_lt (Nat.div_le_self _ _) (ha.lt one_lt_deciBase))
    deciMod_spec := fun wa wb ha _ _ _ =>
      leavesLow_spanOf (Nat.lt_of_le_of_lt (Nat.mod_le _ _) (ha.lt one_lt_deciBase))
    decinewtDiv_spec := fun wa wb ha hb htop hne hle =>
      ⟨length_spanOf _ _, words_spanOf _ _, ofDigits_spanOf
        (Nat.lt_of_le_of_lt (Nat.div_mul_le_self _ _) (ha.lt one_lt_deciBase)),
        length_spanOf _ _, words_spanOf _ _, ofDigits_spanOf (quotient_lt ha hb htop hne hle)⟩ }

end Calx
