import Calx.Number.NumDigits
import Calx.Number.Numerals
import Calx.Number.Compare

/-!
# The two decimal printers

`number_write` of `number.c`, which hands its text to a writer piece by piece,
against `number_tostring`, which writes all digits and takes zeros back.

## Implementation notes

A run of `number_write` is the list of its calls of the writer. Both printers come
to the canonical numeral of the number's decimal digits.
-/

namespace Calx

open Nat (ofDigits)
open Buffer Positional Libdeci

/-! ## The writer -/

/-- The loop of `word2str`, which fills its buffer from the end. -/
def word2strLoop : Nat → Nat → Bytes → Bytes
  | 0, _, r => r
  | i + 1, x, r => word2strLoop i (x / 10) (((ch '0').toNat + x % 10).toUInt8 :: r)

/-- `word2str`. -/
def word2str [DeciBase] (x : Nat) : Bytes := word2strLoop deciBaseLog x []

/-- `write_leading`. -/
def writeLeading [DeciBase] (x : Nat) : Bytes := (word2str x).dropWhile (· = ch '0')

/-- `write_trailing`. -/
def writeTrailing [DeciBase] (x : Nat) : Bytes := (word2str x).rdropWhile (· = ch '0')

/-- The calls of `write_seq`. -/
def writeSeq [DeciBase] (words : List Nat) : List Bytes := words.reverse.map word2str

/-- The calls of `number_write`. -/
def numberWrite [Libdeci] (a : Number) : List Bytes :=
  (if a.sign && !numberIsZero a then [[ch '-']] else []) ++
    ((if a.nwords = a.scale then [[ch '0']]
      else writeLeading (a.words.getD (a.nwords - 1) 0) ::
        writeSeq ((a.words.drop a.scale).dropLast)) ++
      match deciSkip0 (a.words.take a.scale) with
      | [] => []
      | lo :: words => [ch '.'] :: (writeSeq words ++ [writeTrailing lo]))

/-! ## The digits of one word -/

theorem writeWord_eq (j x : Nat) : writeWord j x = (fixedDigits 10 j x).map digitChar := by
  have hdigit : ∀ d < 10, ((ch '0').toNat + d).toUInt8 = digitChar d := by decide
  induction j generalizing x with
  | zero => rfl
  | succ j ih => rw [writeWord, fixedDigits, List.map_cons, ih, hdigit _ (Nat.mod_lt x (by decide))]

theorem word2strLoop_eq (i x : Nat) (r : Bytes) :
    word2strLoop i x r = (writeWord i x).reverse ++ r := by
  induction i generalizing x r with
  | zero => rfl
  | succ i ih => rw [word2strLoop, ih, writeWord, List.reverse_cons, List.append_assoc,
      List.singleton_append]

/-! ## The digits of words -/

section

variable [DeciBase]

theorem word2str_eq (x : Nat) : word2str x = (writeWord deciBaseLog x).reverse := by
  rw [word2str, word2strLoop_eq, List.append_nil]

theorem flatten_writeSeq (words : List Nat) :
    (writeSeq words).flatten = (wordDigits words).reverse := by
  induction words with
  | nil => rfl
  | cons w words ih =>
      rw [writeSeq, List.reverse_cons, List.map_append, List.flatten_append, ← writeSeq, ih,
        wordDigits_cons, List.reverse_append, List.map_singleton, List.flatten_singleton, word2str_eq]

/-- The decimal digits of words, the lowest first. -/
def wordNats (words : List Nat) : List Nat := words.flatMap (fixedDigits 10 deciBaseLog)

theorem wordDigits_eq (words : List Nat) : wordDigits words = (wordNats words).map digitChar := by
  rw [wordDigits, wordNats, List.map_flatMap]
  congr 1
  funext w
  exact writeWord_eq _ w

theorem digits_wordNats (words : List Nat) : Digits 10 (wordNats words) := by
  intro d hd
  obtain ⟨w, -, hw⟩ := List.mem_flatMap.mp hd
  exact digits_fixedDigits (by decide) _ _ d hw

theorem length_wordNats (words : List Nat) : (wordNats words).length = words.length * deciBaseLog := by
  rw [← length_wordDigits words, wordDigits_eq, List.length_map]

theorem ofDigits_wordNats {words : List Nat} (h : Words words) :
    ofDigits 10 (wordNats words) = ofDigits deciBase words := by
  induction words with
  | nil => rfl
  | cons w words ih =>
      obtain ⟨hw, hrest⟩ := digits_cons.mp h
      rw [wordNats, List.flatMap_cons, Nat.ofDigits_append, ← wordNats, ih hrest, Nat.ofDigits_cons,
        ofDigits_fixedDigits, length_fixedDigits, ← deciBase, Nat.mod_eq_of_lt hw]

end

/-! ## The numeral of a number -/

section

variable [Libdeci] {a b : Number}

/-- The canonical decimal of a number. -/
def Number.numeral (a : Number) : Numeral 10 :=
  Numeral.trimmed a.sign (wordNats (a.words.take a.scale)) (wordNats (a.words.drop a.scale))
    (by decide) (digits_wordNats _) (digits_wordNats _)

theorem Number.numeral_canonical (a : Number) : a.numeral.Canonical :=
  Numeral.trimmed_canonical _ _ _

/-- All digits are those of the magnitude. -/
theorem Number.ofDigits_wordNats (ha : a.Wf) :
    ofDigits 10 (wordNats (a.words.take a.scale) ++ wordNats (a.words.drop a.scale)) = a.mag := by
  have happend : wordNats (a.words.take a.scale) ++ wordNats (a.words.drop a.scale) =
      wordNats a.words := by
    rw [wordNats, wordNats, ← List.flatMap_append, List.take_append_drop, wordNats]
  rw [happend, Calx.ofDigits_wordNats ha.words]
  rfl

theorem Number.numeral_value (ha : a.Wf) : a.numeral.value = a.value := by
  have hpow : ((10 : ℕ) : ℚ) ^ (wordNats (a.words.take a.scale)).length =
      (deciBase : ℚ) ^ a.scale := by
    rw [length_wordNats, List.length_take_of_le ha.scale_le, Nat.mul_comm, pow_mul, deciBase]
    push_cast
    rfl
  rw [Number.numeral, Numeral.trimmed_value, Number.ofDigits_wordNats ha, hpow]
  rfl

theorem Number.intText_eq (ha : a.Wf) : a.intText.reverse = Numeral.bytes a.numeral.int := by
  have hdrop := digits_wordNats (a.words.drop a.scale)
  rw [Numeral.bytes, Number.intText, Number.numeral, Numeral.trimmed]
  dsimp only
  by_cases h : a.nwords = a.scale
  · have hnil : a.words.drop a.scale = [] :=
      List.drop_of_length_le (by rw [Number.length_words, h])
    rw [if_pos h, hnil]
    rfl
  · obtain ⟨u, hi, hw, -, -, hhi, h0⟩ := intWords_concat ha h
    have hne : trimTop (wordNats (a.words.drop a.scale)) ≠ [] := by
      intro hnil
      have hvalue := Calx.ofDigits_wordNats (ha.words.drop a.scale)
      rw [← ofDigits_trimTop, hnil, Nat.ofDigits_nil, eq_comm,
        ofDigits_eq_zero_iff_nil one_lt_deciBase (ha.words.drop a.scale) ha.top, hw] at hvalue
      exact List.append_ne_nil_of_right_ne_nil _ (List.cons_ne_nil _ _) hvalue
    rw [if_neg h, if_neg hne, wordDigits_eq, rdropWhile_map_digitChar hdrop (by decide)]

theorem Number.fracText_eq (a : Number) : a.fracText.reverse = Numeral.bytes a.numeral.frac := by
  rw [Number.fracText, wordDigits_eq, dropWhile_map_digitChar (digits_wordNats _) (by decide)]
  rfl

/-- `number_tostring` prints the canonical decimal. -/
theorem numberTostring_numeral (ha : a.Wf) : numberTostring a = a.numeral.text := by
  have hfrac : a.fracText = [] ↔ a.numeral.frac = [] := by
    rw [← List.reverse_eq_nil_iff, Number.fracText_eq, Numeral.bytes, List.reverse_eq_nil_iff,
      List.map_eq_nil_iff]
  rw [numberTostring_eq ha, Number.intText_eq ha, Number.fracText_eq, if_congr hfrac rfl rfl]
  exact Numeral.finalizeTostring_trimmed (by decide) (by decide) (digits_wordNats _)
    (digits_wordNats _)

/-! ## The calls of the writer -/

/-- The sign is written unless the number is zero. -/
theorem Number.numeral_neg (ha : a.Wf) : a.numeral.neg = (a.sign && !numberIsZero a) := by
  have hzero : numberIsZero a = decide (a.mag = 0) := by
    rw [Bool.eq_iff_iff, numberIsZero_iff a ha, decide_eq_true_eq]
  rw [Number.numeral, Numeral.trimmed, Number.ofDigits_wordNats ha, hzero]
  simp only [decide_not]

/-- `write_leading` of the top word and `write_seq` of the others. -/
theorem write_int (ha : a.Wf) : (if a.nwords = a.scale then [[ch '0']]
    else writeLeading (a.words.getD (a.nwords - 1) 0) ::
      writeSeq ((a.words.drop a.scale).dropLast)).flatten = a.intText.reverse := by
  rw [Number.intText]
  by_cases h : a.nwords = a.scale
  · rw [if_pos h, if_pos h]
    rfl
  · obtain ⟨u, hi, hw, hget, -, hhi, h0⟩ := intWords_concat ha h
    have hleading : writeLeading hi = ((writeWord deciBaseLog hi).rdropWhile (· = ch '0')).reverse := by
      rw [writeLeading, word2str_eq, List.rdropWhile, List.reverse_reverse]
    rw [if_neg h, if_neg h, hget, hw, List.dropLast_concat, List.flatten_cons, flatten_writeSeq,
      hleading, (wordDigits_highest u hhi h0).2, List.reverse_append]

/-- The dot, `write_seq` of all words but the lowest, and `write_trailing` of that. -/
theorem write_frac (ha : a.Wf) : (match deciSkip0 (a.words.take a.scale) with
    | [] => []
    | lo :: words => [ch '.'] :: (writeSeq words ++ [writeTrailing lo])).flatten =
      if a.fracText = [] then [] else ch '.' :: a.fracText.reverse := by
  have hwords := ha.words.take a.scale
  rw [deciSkip0_eq, Number.fracText, wordDigits_dropWhile hwords]
  cases hskip : (a.words.take a.scale).dropWhile (· = 0) with
  | nil => rfl
  | cons lo words =>
      obtain ⟨-, -, hne, htext⟩ := wordDigits_lowest hwords hskip
      rw [if_neg (by rw [htext]; exact List.append_ne_nil_of_left_ne_nil hne _), htext,
        List.flatten_cons, List.flatten_append, flatten_writeSeq, List.flatten_singleton,
        List.reverse_append, writeTrailing, word2str_eq, List.rdropWhile_reverse]
      rfl

/-- What `number_write` hands to its writer is the canonical decimal. -/
theorem flatten_numberWrite (ha : a.Wf) : (numberWrite a).flatten = a.numeral.text := by
  have hsign : (if a.sign && !numberIsZero a then [[ch '-']] else []).flatten =
      if a.numeral.neg then [ch '-'] else [] := by
    rw [Number.numeral_neg ha]
    split <;> rfl
  have hfrac : a.fracText = [] ↔ a.numeral.frac = [] := by
    rw [← List.reverse_eq_nil_iff, Number.fracText_eq, Numeral.bytes, List.reverse_eq_nil_iff,
      List.map_eq_nil_iff]
  rw [numberWrite, List.flatten_append, List.flatten_append, hsign, write_int ha, write_frac ha,
    Number.intText_eq ha, Number.fracText_eq, if_congr hfrac rfl rfl]
  rfl

/-! ## Both printers -/

/-- The text of a number is accepted, stands for its value, and has a digit before the dot. -/
theorem numberTostring_denoted (ha : a.Wf) : numberParseBaseValidate (numberTostring a) 10 = true ∧
    denoted 10 (numberTostring a) = a.value ∧ intDigits (unsigned (numberTostring a)) ≠ [] := by
  have hb : 10 ≤ 36 := by decide
  rw [numberTostring_numeral ha, a.numeral.unsigned_text hb, a.numeral.intDigits_absText hb]
  refine ⟨a.numeral.text_accepted hb, ?_, mt List.reverse_eq_nil_iff.mp a.numeral.int_ne_nil⟩
  rw [a.numeral.denoted_text hb, Number.numeral_value ha]

/-- Texts are equal just when the values are. -/
theorem numberTostring_inj (ha : a.Wf) (hb : b.Wf) :
    numberTostring a = numberTostring b ↔ a.value = b.value := by
  constructor
  · intro h
    rw [← (numberTostring_denoted ha).2.1, ← (numberTostring_denoted hb).2.1, h]
  · intro h
    have hnumeral : a.numeral = b.numeral := by
      apply a.numeral_canonical.ext (by decide) b.numeral_canonical
      rw [Number.numeral_value ha, Number.numeral_value hb, h]
    rw [numberTostring_numeral ha, numberTostring_numeral hb, hnumeral]

/-- Both printers write the canonical decimal of the value. It is shorter than every other decimal,
which has a digit before its dot as the lexer's numbers do, reads back as the number, and tells
numbers apart as `number_compare` does. -/
theorem printers_agree (ha : a.Wf) :
    (numberWrite a).flatten = numberTostring a ∧
    (∃ n : Numeral 10, n.Canonical ∧ n.text = numberTostring a ∧ n.value = a.value) ∧
    (numberParseBaseValidate (numberTostring a) 10 = true ∧
      denoted 10 (numberTostring a) = a.value ∧ intDigits (unsigned (numberTostring a)) ≠ []) ∧
    (∀ s, numberParseBaseValidate s 10 = true → intDigits (unsigned s) ≠ [] →
      denoted 10 s = a.value → s = numberTostring a ∨ (numberTostring a).length < s.length) ∧
    numberCompare (numberParse (numberTostring a)) a = compareEq ∧
    ∀ b : Number, b.Wf → (numberTostring a = numberTostring b ↔ numberCompare a b = compareEq) := by
  have htext := numberTostring_denoted ha
  refine ⟨?_, ⟨a.numeral, a.numeral_canonical, (numberTostring_numeral ha).symm,
    Number.numeral_value ha⟩, htext, ?_, ?_, ?_⟩
  · rw [flatten_numberWrite ha, numberTostring_numeral ha]
  · intro s hs hint hvalue
    have hsub : (numberTostring a).Sublist s := by
      rw [numberTostring_numeral ha]
      apply a.numeral_canonical.sublist hs hint
      rw [hvalue, Number.numeral_value ha]
    rcases hsub.length_le.eq_or_lt with heq | hlt
    · exact Or.inl (hsub.eq_of_length heq).symm
    · exact Or.inr hlt
  · apply (numberCompare_iff (numberParse_spec htext.1).1 ha).2.1.mpr
    rw [numberParse_value htext.1, htext.2.1]
  · intro b hb
    rw [numberTostring_inj ha hb, (numberCompare_iff ha hb).2.1]

end

/-- Minus one half, with a zero word at the end of its fraction. -/
theorem printers_agree_half :
    (@numberWrite libdeciByValue ⟨true, 2, [0, 5000000000000000000]⟩).flatten =
      @numberTostring deciBase64 ⟨true, 2, [0, 5000000000000000000]⟩ := by
  let := libdeciByValue
  exact (printers_agree (a := ⟨true, 2, [0, 5000000000000000000]⟩) (by decide)).1

end Calx
