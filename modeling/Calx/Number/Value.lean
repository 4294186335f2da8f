import Calx.Number.Ops
import Mathlib.Algebra.Order.Floor.Semifield
import Mathlib.Data.Rat.Floor
import Mathlib.Data.Sign.Basic
import Mathlib.Tactic.FieldSimp
import Mathlib.Tactic.Linarith
import Mathlib.Tactic.Ring

/-!
# The value of a number

What a word array stands for, the representation invariant of `number.h`, and
the operations that change the shape of the array only.

## Implementation notes

`absValue` is the rational magnitude: the value of all words divided by
`DECI_BASE` to the scale. The operations on shapes are first brought to a closed
form, from which invariant and value follow.
-/

namespace Calx

open Nat (ofDigits)
open Positional Libdeci

namespace Number

theorem nwords_mk (sign : Bool) (s : Nat) (w : List Nat) :
    (⟨sign, s, w⟩ : Number).nwords = w.length := rfl

theorem length_words (a : Number) : a.words.length = a.nwords := rfl

variable [DeciBase]

/-- The representation invariant: the span of the integer part has no zero on top. -/
structure Wf (a : Number) : Prop where
  scale_le : a.scale ≤ a.nwords
  words : Words a.words
  top : TopNonzero (a.words.drop a.scale)

instance (a : Number) : Decidable a.Wf :=
  decidable_of_iff (a.scale ≤ a.nwords ∧ (∀ x ∈ a.words, x < deciBase) ∧
      (a.words.drop a.scale).getLast? ≠ some 0)
    ⟨fun ⟨hle, hw, htop⟩ => ⟨hle, hw, htop⟩, fun h => ⟨h.scale_le, h.words, h.top⟩⟩

/-- The value of the words, as an integer. -/
def mag (a : Number) : Nat := ofDigits deciBase a.words

/-- The magnitude. -/
def absValue (a : Number) : ℚ := a.mag / (deciBase : ℚ) ^ a.scale

/-- The sign as a factor. -/
def signFactor (a : Number) : ℚ := if a.sign then -1 else 1

/-- The value of a number. -/
def value (a : Number) : ℚ := a.signFactor * a.absValue

variable {a b : Number}

theorem absValue_nonneg (a : Number) : 0 ≤ a.absValue := by
  unfold absValue
  positivity

theorem deciBase_pow_pos (n : Nat) : (0 : ℚ) < (deciBase : ℚ) ^ n :=
  pow_pos (by exact_mod_cast deciBase_pos) n

theorem mag_lt (h : Words a.words) : a.mag < deciBase ^ a.nwords := h.lt one_lt_deciBase

/-- The invariant by the size of the magnitude. -/
theorem wf_iff : a.Wf ↔ a.scale ≤ a.nwords ∧ Words a.words ∧
    (a.nwords = a.scale ∨ deciBase ^ (a.nwords - 1) ≤ a.mag) := by
  have key : a.scale ≤ a.nwords → Words a.words → (TopNonzero (a.words.drop a.scale) ↔
      (a.nwords = a.scale ∨ deciBase ^ (a.nwords - 1) ≤ a.mag)) := by
    intro hle hw
    rw [topNonzero_iff one_lt_deciBase (hw.drop _), List.drop_eq_nil_iff, List.length_drop,
      hw.drop_eq deciBase_pos, Nat.le_div_iff_mul_le (Nat.pow_pos deciBase_pos), ← pow_add]
    change a.nwords ≤ a.scale ∨ deciBase ^ (a.nwords - a.scale - 1 + a.scale) ≤ a.mag ↔ _
    by_cases heq : a.nwords = a.scale
    · simp [heq]
    · rw [show a.nwords - a.scale - 1 + a.scale = a.nwords - 1 by omega]
      refine or_congr_left ⟨fun h => absurd (Nat.le_antisymm h hle) heq, fun h => absurd h heq⟩
  exact ⟨fun h => ⟨h.scale_le, h.words, (key h.scale_le h.words).mp h.top⟩,
    fun ⟨hle, hw, htop⟩ => ⟨hle, hw, (key hle hw).mpr htop⟩⟩

/-- The integer part of the magnitude. -/
theorem ofDigits_drop_scale (h : Words a.words) :
    ofDigits deciBase (a.words.drop a.scale) = ⌊a.absValue⌋₊ := by
  rw [h.drop_eq deciBase_pos, absValue, ← Nat.cast_pow, Nat.floor_div_eq_div]
  rfl

theorem absValue_eq_zero : a.absValue = 0 ↔ a.mag = 0 := by
  rw [absValue, div_eq_zero_iff, or_iff_left (deciBase_pow_pos _).ne', Nat.cast_eq_zero]

theorem value_eq_zero : a.value = 0 ↔ a.mag = 0 := by
  rw [value, mul_eq_zero, or_iff_right, absValue_eq_zero]
  unfold signFactor
  split <;> norm_num

theorem abs_value (a : Number) : |a.value| = a.absValue := by
  have hsign : |a.signFactor| = 1 := by
    unfold signFactor
    split <;> norm_num
  rw [value, abs_mul, hsign, one_mul, abs_of_nonneg a.absValue_nonneg]

theorem sign_of_pos (h : 0 < a.value) : a.sign = false := by
  by_contra hsign
  rw [value, signFactor, if_pos (by simpa using hsign), neg_one_mul] at h
  linarith [a.absValue_nonneg]

theorem value_of_sign (h : a.sign = false) : a.value = a.absValue := by
  rw [value, signFactor, h, if_neg Bool.false_ne_true, one_mul]

theorem value_neg_of_sign (hsign : a.sign = true) (h0 : a.mag ≠ 0) : a.value < 0 := by
  have hne : a.absValue ≠ 0 := mt absValue_eq_zero.mp h0
  have hpos : 0 < a.absValue := lt_of_le_of_ne a.absValue_nonneg (Ne.symm hne)
  rw [value, signFactor, if_pos hsign]
  linarith

/-- The sign bit is the sign, but for zero. -/
theorem signFactor_mul (a : Number) {q : ℚ} (h : a.absValue = 0 → q = 0) :
    a.signFactor * q = (SignType.sign a.value : ℚ) * q := by
  by_cases h0 : a.absValue = 0
  · rw [h h0, mul_zero, mul_zero]
  · have hpos : 0 < a.absValue := lt_of_le_of_ne a.absValue_nonneg (Ne.symm h0)
    unfold value signFactor
    split
    · rw [neg_one_mul, neg_one_mul, sign_neg (neg_neg_of_pos hpos)]
      simp
    · rw [one_mul, one_mul, sign_pos hpos]
      simp

/-- Words added below, with the scale. -/
theorem absValue_replicate_append (sign : Bool) (d s : Nat) (w : List Nat) :
    (⟨sign, d + s, List.replicate d 0 ++ w⟩ : Number).absValue =
      (⟨sign, s, w⟩ : Number).absValue := by
  have hd := deciBase_pow_pos d
  have hs := deciBase_pow_pos s
  simp only [absValue, mag, ofDigits_replicate_append, pow_add]
  push_cast
  field_simp

theorem absValue_append_replicate (sign : Bool) (d s : Nat) (w : List Nat) :
    (⟨sign, s, w ++ List.replicate d 0⟩ : Number).absValue = (⟨sign, s, w⟩ : Number).absValue := by
  simp only [absValue, mag, Nat.ofDigits_append_replicate_zero]

/-- Zeros are put on top of the integer part or taken off it, and below the fraction. -/
theorem absValue_zeros (sign sign' : Bool) (d s k : Nat) (w : List Nat) :
    (⟨sign, d + s, List.replicate d 0 ++ (w ++ List.replicate k 0)⟩ : Number).absValue =
      (⟨sign', s, w⟩ : Number).absValue := by
  rw [absValue_replicate_append, absValue_append_replicate]
  rfl

end Number

theorem signFactor_xor (s t : Bool) : (if s ^^ t then (-1 : ℚ) else 1) =
    (if s then -1 else 1) * (if t then -1 else 1) := by
  cases s <;> cases t <;> norm_num

variable {uniq : Bool} {a : Number}

/-! ## Changes of the shape -/

@[simp] theorem mkuniq_eq : mkuniq uniq a = a := by
  unfold mkuniq
  split <;> rfl

theorem mkuniqScaleUp_eq {sr : Nat} (h : a.scale ≤ sr) :
    mkuniqScaleUp uniq a sr = ⟨a.sign, sr, List.replicate (sr - a.scale) 0 ++ a.words⟩ := by
  unfold mkuniqScaleUp
  split
  · rename_i hu
    obtain ⟨-, rfl⟩ := hu
    rw [Nat.sub_self]
    rfl
  · rfl

theorem mkuniqScaleDown_eq {sr : Nat} (h : sr ≤ a.scale) (hle : a.scale ≤ a.nwords) :
    mkuniqScaleDown uniq a sr = ⟨a.sign, sr, a.words.drop (a.scale - sr)⟩ := by
  unfold mkuniqScaleDown
  split
  · rename_i hu
    obtain ⟨-, rfl⟩ := hu
    rw [Nat.sub_self]
    rfl
  · simp only [show a.nwords - (a.nwords - a.scale + sr) = a.scale - sr by omega]

theorem mkuniqExtend_eq {n : Nat} :
    mkuniqExtend uniq a n = ⟨a.sign, a.scale, a.words ++ List.replicate (n - a.nwords) 0⟩ := by
  unfold mkuniqExtend
  split
  · split
    · rfl
    · rename_i heq
      rw [not_not.mp heq, Nat.sub_self, List.replicate_zero, List.append_nil]
  · rfl

theorem unsafeStrip_eq {nwr sr : Nat} (h : sr ≤ a.scale) :
    unsafeStrip a nwr sr = ⟨a.sign, sr, (a.words.drop (a.scale - sr)).take nwr⟩ := by
  unfold unsafeStrip
  split
  · rename_i hsame
    obtain ⟨rfl, rfl⟩ := hsame
    rw [Nat.sub_self, List.drop_zero, Number.nwords, List.take_length]
  · rfl

theorem mkuniqScaleUp_absValue [DeciBase] {sr : Nat} (h : a.scale ≤ sr) :
    (mkuniqScaleUp uniq a sr).absValue = a.absValue := by
  have habs := Number.absValue_replicate_append a.sign (sr - a.scale) a.scale a.words
  rw [Nat.sub_add_cancel h] at habs
  rw [mkuniqScaleUp_eq h, habs]

theorem mkuniqExtend_absValue [DeciBase] {n : Nat} :
    (mkuniqExtend uniq a n).absValue = a.absValue := by
  rw [mkuniqExtend_eq, Number.absValue_append_replicate]

/-! ## Normalization -/

/-- The fraction is zeros and what `deci_skip0` leaves of it. -/
theorem take_scale_split {f : List Nat} (h : a.scale ≤ a.nwords)
    (hf : f = (a.words.take a.scale).dropWhile (· = 0)) :
    f.length ≤ a.scale ∧ a.words.take a.scale = List.replicate (a.scale - f.length) 0 ++ f := by
  have hlen : (a.words.take a.scale).length = a.scale := List.length_take_of_le h
  have hsplit := dropWhile_zero_split (a.words.take a.scale)
  rw [hlen, ← hf] at hsplit
  refine ⟨?_, hsplit⟩
  have hlen' := congrArg List.length hsplit
  rw [hlen, List.length_append, List.length_replicate] at hlen'
  omega

section

variable [Libdeci]

theorem unsafeNormalizeFull_eq (h : a.scale ≤ a.nwords) :
    unsafeNormalizeFull a =
      ⟨a.sign, ((a.words.take a.scale).dropWhile (· = 0)).length,
        (a.words.take a.scale).dropWhile (· = 0) ++ trimTop (a.words.drop a.scale)⟩ := by
  obtain ⟨f, hf⟩ : ∃ f, f = (a.words.take a.scale).dropWhile (· = 0) := ⟨_, rfl⟩
  obtain ⟨hle, hsplit⟩ := take_scale_split h hf
  have hdrop : a.words.drop (a.scale - f.length) = f ++ a.words.drop a.scale := by
    conv_lhs => rw [← List.take_append_drop a.scale a.words, hsplit, List.append_assoc]
    rw [List.drop_left' (List.length_replicate)]
  simp only [unsafeNormalizeFull, deciSkip0_eq, deciNormalize_eq, ← hf]
  rw [show a.scale - (a.scale - f.length) = f.length by omega, unsafeStrip_eq hle, hdrop,
    List.take_length_add_append, ← trimTop_eq_take]

/-- Normalization establishes the invariant and keeps the value. -/
theorem unsafeNormalizeFull_spec (h : a.scale ≤ a.nwords) (hw : Words a.words) :
    (unsafeNormalizeFull a).Wf ∧ (unsafeNormalizeFull a).sign = a.sign ∧
      (unsafeNormalizeFull a).absValue = a.absValue := by
  rw [unsafeNormalizeFull_eq h]
  obtain ⟨f, hf⟩ : ∃ f, f = (a.words.take a.scale).dropWhile (· = 0) := ⟨_, rfl⟩
  rw [← hf]
  obtain ⟨hle, hsplit⟩ := take_scale_split h hf
  refine ⟨⟨?_, ?_, ?_⟩, rfl, ?_⟩
  · simp [Number.nwords]
  · refine digits_append.mpr ⟨fun x hx => ?_, (hw.drop _).trimTop⟩
    rw [hf] at hx
    exact hw x (List.mem_of_mem_take ((List.dropWhile_suffix _).subset hx))
  · simp only [List.drop_left]
    exact topNonzero_trimTop _
  · have hwords : a.words = List.replicate (a.scale - f.length) 0 ++
        ((f ++ trimTop (a.words.drop a.scale)) ++ List.replicate
          ((a.words.drop a.scale).length - (trimTop (a.words.drop a.scale)).length) 0) := by
      rw [List.append_assoc f, trimTop_append_zeros, ← List.append_assoc, ← hsplit,
        List.take_append_drop]
    have hscale : a.scale - f.length + f.length = a.scale := by omega
    rw [← Number.absValue_zeros a.sign a.sign (a.scale - f.length) f.length
      ((a.words.drop a.scale).length - (trimTop (a.words.drop a.scale)).length), ← hwords, hscale]

end

end Calx
