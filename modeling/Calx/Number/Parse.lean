import Calx.Number.Text
import Calx.Lexer

/-!
# The reader of decimals

`number_parse` on texts that `number_parse_base_validate` accepts with base ten.

## Implementation notes

The text is first brought to the form digits, dot, digits. Each of the two runs
of digits is cut into words by a function of its own, and `Cut` says how many
words a run of a given length takes.
-/

namespace Calx

open Nat (ofDigits)
open Positional Libdeci

/-! ## Runs of decimal digits -/

/-- A run of decimal digits. -/
def Decimal (s : Bytes) : Prop := ∀ c ∈ s, ch '0' ≤ c ∧ c ≤ ch '9'

@[simp] theorem decimal_nil : Decimal [] := fun _ h => absurd h List.not_mem_nil

@[simp] theorem decimal_cons {c : UInt8} {s : Bytes} :
    Decimal (c :: s) ↔ (ch '0' ≤ c ∧ c ≤ ch '9') ∧ Decimal s := by
  simp [Decimal]

@[simp] theorem decimal_append {s t : Bytes} : Decimal (s ++ t) ↔ Decimal s ∧ Decimal t := by
  simp only [Decimal, List.forall_mem_append]

theorem Decimal.sublist {s t : Bytes} (h : Decimal s) (hsub : t.Sublist s) : Decimal t :=
  fun c hc => h c (hsub.subset hc)

theorem decodeDigit_of_decimal {c : UInt8} (h : ch '0' ≤ c ∧ c ≤ ch '9') :
    decodeDigit c = c.toNat - (ch '0').toNat := if_pos h

theorem decodeDigit_lt_ten {c : UInt8} : decodeDigit c < 10 ↔ ch '0' ≤ c ∧ c ≤ ch '9' := by
  have h0 : (ch '0').toNat = 48 := rfl
  have ha : (ch 'a').toNat = 97 := rfl
  have hA : (ch 'A').toNat = 65 := rfl
  have h9 : (ch '9').toNat = 57 := rfl
  simp only [decodeDigit, UInt8.le_iff_toNat_le]
  split_ifs <;> omega

theorem decodeDigit_eq_zero {c : UInt8} (h : ch '0' ≤ c ∧ c ≤ ch '9') :
    decodeDigit c = 0 ↔ c = ch '0' := by
  rw [decodeDigit_of_decimal h, Nat.sub_eq_zero_iff_le, ← UInt8.le_iff_toNat_le]
  exact ⟨fun hle => UInt8.le_antisymm hle h.1, fun heq => heq ▸ UInt8.le_refl _⟩

/-- The integer that a run of digits stands for. -/
def decimalValue (s : Bytes) : Nat := evalDigits 10 (s.map decodeDigit)

theorem decimalValue_append (s t : Bytes) :
    decimalValue (s ++ t) = decimalValue s * 10 ^ t.length + decimalValue t := by
  rw [decimalValue, List.map_append, evalDigits_append, List.length_map]
  rfl

theorem parseWord_eq {s : Bytes} (h : Decimal s) : parseWord s = decimalValue s := by
  rw [parseWord, decimalValue, evalDigits, List.foldl_map]
  refine List.foldl_ext _ _ _ fun r c hc => ?_
  rw [decodeDigit_of_decimal (h c hc)]

theorem decimalValue_lt {s : Bytes} (h : Decimal s) : decimalValue s < 10 ^ s.length := by
  have hd : Digits 10 (s.map decodeDigit) := fun x hx => by
    obtain ⟨c, hc, rfl⟩ := List.mem_map.mp hx
    exact decodeDigit_lt_ten.mpr (h c hc)
  simpa [decimalValue] using evalDigits_lt (by norm_num) hd

theorem decimalValue_zeros (n : Nat) : decimalValue (List.replicate n (ch '0')) = 0 := by
  induction n with
  | zero => rfl
  | succ n ih =>
      rw [List.replicate_succ, ← List.singleton_append, decimalValue_append, ih]
      have h0 : decodeDigit (ch '0') = 0 := by decide
      simp [decimalValue, evalDigits, h0]

/-- A run that starts with another digit than zero has a value of its length. -/
theorem le_decimalValue {c : UInt8} {s : Bytes} (h : Decimal (c :: s)) (hc : c ≠ ch '0') :
    10 ^ s.length ≤ decimalValue (c :: s) := by
  have hpos : 0 < decodeDigit c :=
    Nat.pos_of_ne_zero fun h0 => hc ((decodeDigit_eq_zero (decimal_cons.mp h).1).mp h0)
  rw [← List.singleton_append, decimalValue_append]
  have hone : decimalValue [c] = decodeDigit c := by simp [decimalValue, evalDigits]
  rw [hone]
  exact Nat.le_trans (Nat.le_mul_of_pos_left _ hpos) (Nat.le_add_right _ _)

/-! ## Cutting into words -/

section

variable [DeciBase]

/-- `n` words are needed for a run of `k` digits. -/
structure Cut (n k : Nat) : Prop where
  le : k ≤ n * deciBaseLog
  ge : (n - 1) * deciBaseLog ≤ k - 1
  zero : k = 0 → n = 0

theorem cut_parseNcharsToNwords (k : Nat) : Cut (parseNcharsToNwords k) k := by
  have hpos : 0 < deciBaseLog := deciBaseLog_pos
  have hdiv : k / deciBaseLog * deciBaseLog + k % deciBaseLog = k := Nat.div_add_mod' k deciBaseLog
  unfold parseNcharsToNwords
  split
  · rename_i h0
    rw [h0] at hdiv
    refine ⟨hdiv.ge, ?_, fun hk => by simp [hk]⟩
    rw [Nat.add_zero, Nat.sub_mul]
    omega
  · rename_i h0
    have hlt := Nat.mod_lt k hpos
    refine ⟨?_, ?_, fun hk => absurd (by simp [hk]) h0⟩
    · rw [Nat.add_mul]
      omega
    · rw [Nat.add_sub_cancel]
      omega

/-- Behind a whole word, one word less is needed. -/
theorem Cut.rest {n k : Nat} (h : Cut (n + 2) k) :
    deciBaseLog < k ∧ Cut (n + 1) (k - deciBaseLog) := by
  obtain ⟨hle, hge, -⟩ := h
  have hpos : 0 < deciBaseLog := deciBaseLog_pos
  rw [Nat.succ_mul, Nat.succ_mul] at hle
  rw [Nat.succ_sub_one, Nat.succ_mul] at hge
  have hlt : deciBaseLog < k := by omega
  refine ⟨hlt, ?_, ?_, ?_⟩
  · rw [Nat.succ_mul]
    omega
  · rw [Nat.add_sub_cancel]
    omega
  · omega

theorem decimalValue_lt_deciBase {s : Bytes} (h : Decimal s) (hlen : s.length ≤ deciBaseLog) :
    decimalValue s < deciBase :=
  Nat.lt_of_lt_of_le (decimalValue_lt h) (Nat.pow_le_pow_right (by norm_num) hlen)

theorem deciBase_pow (n : Nat) : deciBase ^ n = 10 ^ (n * deciBaseLog) := by
  rw [deciBase, ← pow_mul, Nat.mul_comm]

/-- The words of the integer part hold its value. -/
theorem parseIntPart_spec {n : Nat} {s : Bytes} (h : Decimal s) (hcut : Cut n s.length) :
    (parseIntPart n s).length = n ∧ Words (parseIntPart n s) ∧
      ofDigits deciBase (parseIntPart n s) = decimalValue s := by
  induction n, s using parseIntPart.induct with
  | case1 s =>
      obtain rfl : s = [] := List.length_eq_zero_iff.mp (by have := hcut.le; omega)
      exact ⟨rfl, digits_nil, rfl⟩
  | case2 s =>
      rw [parseIntPart, parseWord_eq h]
      refine ⟨rfl, ?_, Nat.ofDigits_singleton⟩
      exact digits_cons.mpr ⟨decimalValue_lt_deciBase h (by have := hcut.le; omega), digits_nil⟩
  | case3 n s ih =>
      obtain ⟨hlt, hrest⟩ := hcut.rest
      have htake : (s.take (s.length - deciBaseLog)).length = s.length - deciBaseLog :=
        List.length_take_of_le (Nat.sub_le _ _)
      have hdrop : (s.drop (s.length - deciBaseLog)).length = deciBaseLog := by
        rw [List.length_drop]
        omega
      obtain ⟨hlen, hwords, hvalue⟩ := ih (h.sublist (List.take_sublist _ s)) (by rwa [htake])
      have hlow := h.sublist (List.drop_sublist (s.length - deciBaseLog) s)
      rw [parseIntPart, parseWord_eq hlow]
      refine ⟨by rw [List.length_cons, hlen], ?_, ?_⟩
      · exact digits_cons.mpr ⟨decimalValue_lt_deciBase hlow hdrop.le, hwords⟩
      · conv_rhs => rw [← List.take_append_drop (s.length - deciBaseLog) s, decimalValue_append]
        rw [Nat.ofDigits_cons, hvalue, hdrop, deciBase]
        ring

/-- The top word of the integer part is not zero when the run does not start with zero. -/
theorem topNonzero_parseIntPart {n : Nat} {s : Bytes} (h : Decimal s) (hcut : Cut n s.length)
    (hhead : s.head? ≠ some (ch '0')) : TopNonzero (parseIntPart n s) := by
  obtain ⟨hlen, hwords, hvalue⟩ := parseIntPart_spec h hcut
  rw [topNonzero_iff one_lt_deciBase hwords, hlen, hvalue, ← List.length_eq_zero_iff, hlen]
  cases s with
  | nil => exact Or.inl (hcut.zero rfl)
  | cons c s =>
      right
      have hlow := le_decimalValue h fun hc => hhead (congrArg some hc)
      refine Nat.le_trans ?_ hlow
      rw [deciBase_pow]
      exact Nat.pow_le_pow_right (by norm_num) hcut.ge

/-- The words of the fraction hold its digits, filled up with zeros. -/
theorem parseFracPart_spec {n : Nat} {s : Bytes} (h : Decimal s) (hcut : Cut n s.length) :
    (parseFracPart n s).length = n ∧ Words (parseFracPart n s) ∧
      ofDigits deciBase (parseFracPart n s) =
        decimalValue s * 10 ^ (n * deciBaseLog - s.length) := by
  induction n, s using parseFracPart.induct with
  | case1 s =>
      obtain rfl : s = [] := List.length_eq_zero_iff.mp (by have := hcut.le; omega)
      exact ⟨rfl, digits_nil, by simp [parseFracPart, decimalValue, evalDigits]⟩
  | case2 s =>
      have hle := hcut.le
      rw [Nat.one_mul] at hle
      rw [parseFracPart, parseWordPad, parseWord_eq h, Nat.one_mul]
      refine ⟨rfl, digits_cons.mpr ⟨?_, digits_nil⟩, Nat.ofDigits_singleton⟩
      calc decimalValue s * 10 ^ (deciBaseLog - s.length)
          < 10 ^ s.length * 10 ^ (deciBaseLog - s.length) :=
            Nat.mul_lt_mul_of_pos_right (decimalValue_lt h) (by positivity)
        _ = deciBase := by rw [← pow_add, Nat.add_sub_cancel' hle, deciBase]
  | case3 n s ih =>
      obtain ⟨hlt, hrest⟩ := hcut.rest
      have hle := hcut.le
      rw [Nat.succ_mul, Nat.succ_mul] at hle
      have htake : (s.take deciBaseLog).length = deciBaseLog := List.length_take_of_le hlt.le
      have hdrop : (s.drop deciBaseLog).length = s.length - deciBaseLog := List.length_drop
      obtain ⟨hlen, hwords, hvalue⟩ := ih (h.sublist (List.drop_sublist _ s)) (by rwa [hdrop])
      have hhigh := h.sublist (List.take_sublist deciBaseLog s)
      rw [parseFracPart, parseWord_eq hhigh]
      refine ⟨by rw [List.length_append, hlen, List.length_singleton], ?_, ?_⟩
      · exact digits_append.mpr
          ⟨hwords, digits_cons.mpr ⟨decimalValue_lt_deciBase hhigh htake.le, digits_nil⟩⟩
      · have hpad : (n + 1) * deciBaseLog - (s.drop deciBaseLog).length =
            (n + 2) * deciBaseLog - s.length := by
          rw [hdrop, Nat.succ_mul, Nat.succ_mul, Nat.succ_mul]
          omega
        have hpow : deciBase ^ (n + 1) = 10 ^ (s.length - deciBaseLog) *
            10 ^ ((n + 2) * deciBaseLog - s.length) := by
          rw [deciBase_pow, ← pow_add]
          congr 1
          rw [Nat.succ_mul, Nat.succ_mul, Nat.succ_mul]
          omega
        conv_rhs => rw [← List.take_append_drop deciBaseLog s, decimalValue_append]
        rw [List.take_append_drop, Nat.ofDigits_append, hvalue, hlen, hpad, hpow, hdrop,
          Nat.ofDigits_singleton]
        ring

end

/-! ## Zeros around the digits -/

/-- The runs of digits keep the value without their zeros in front. -/
theorem decimalValue_dropWhile (s : Bytes) :
    decimalValue (s.dropWhile (· = ch '0')) = decimalValue s := by
  induction s with
  | nil => rfl
  | cons c s ih =>
      rw [List.dropWhile_cons]
      split
      · rename_i hc
        have hc : c = ch '0' := by simpa using hc
        have hzero : decimalValue [ch '0'] = 0 := decimalValue_zeros 1
        rw [ih, hc, ← List.singleton_append, decimalValue_append, hzero, Nat.zero_mul, Nat.zero_add]
      · rfl

theorem head_dropWhile_zeros (s : Bytes) : (s.dropWhile (· = ch '0')).head? ≠ some (ch '0') := by
  intro h
  have hall := List.head?_dropWhile_not (fun c => decide (c = ch '0')) s
  rw [h] at hall
  simp at hall

/-- Zeros at the end of a run of digits multiply its value. -/
theorem decimalValue_rdropWhile (s : Bytes) :
    decimalValue s = decimalValue (s.rdropWhile (· = ch '0')) *
      10 ^ (s.length - (s.rdropWhile (· = ch '0')).length) := by
  induction s using List.reverseRecOn with
  | nil => rfl
  | append_singleton s c ih =>
      rw [List.rdropWhile_concat]
      split
      · rename_i hc
        have hc : c = ch '0' := by simpa using hc
        have hzero : decimalValue [ch '0'] = 0 := decimalValue_zeros 1
        have hle := (List.rdropWhile_prefix (fun c => decide (c = ch '0')) s).length_le
        rw [decimalValue_append, hc, hzero, ih, List.length_append, List.length_singleton,
          pow_one, Nat.add_zero, Nat.mul_assoc, ← Nat.pow_succ, Nat.succ_sub hle]
      · simp

theorem rdropWhile_point (i f : Bytes) :
    (i ++ ch '.' :: f).rdropWhile (· = ch '0') = i ++ ch '.' :: f.rdropWhile (· = ch '0') := by
  induction f using List.reverseRecOn with
  | nil =>
      rw [List.rdropWhile_concat, if_neg (by decide)]
      rfl
  | append_singleton f c ih =>
      rw [← List.cons_append, ← List.append_assoc, List.rdropWhile_concat, List.rdropWhile_concat, ih]
      split
      · rfl
      · simp

theorem dropWhile_point (i f : Bytes) :
    (i ++ ch '.' :: f).dropWhile (· = ch '0') = i.dropWhile (· = ch '0') ++ ch '.' :: f := by
  induction i with
  | nil => rfl
  | cons c i ih =>
      rw [List.cons_append, List.dropWhile_cons, List.dropWhile_cons]
      split
      · exact ih
      · rfl

theorem Decimal.point_not_mem {s : Bytes} (h : Decimal s) : ch '.' ∉ s := fun hmem =>
  absurd (h _ hmem).1 (by decide)

theorem takeWhile_point {i f : Bytes} (h : ch '.' ∉ i) :
    (i ++ ch '.' :: f).takeWhile (· ≠ ch '.') = i := by
  rw [List.takeWhile_append_of_pos fun c hc => decide_eq_true (ne_of_mem_of_not_mem hc h)]
  simp

theorem dropWhile_ne_point {i f : Bytes} (h : ch '.' ∉ i) :
    ((i ++ ch '.' :: f).dropWhile (· ≠ ch '.')).tail = f := by
  rw [List.dropWhile_append_of_pos fun c hc => decide_eq_true (ne_of_mem_of_not_mem hc h)]
  simp

/-! ## The reader -/

/-- The digits around the dot of a text without quotes. -/
inductive Digitized : Bytes → Bytes → Bytes → Prop
  | int {i : Bytes} (hi : Decimal i) : Digitized i i []
  | point {i f : Bytes} (hi : Decimal i) (hf : Decimal f) : Digitized (i ++ ch '.' :: f) i f

theorem decimal_of_no_point {s : Bytes} (h : ∀ c ∈ s, c = ch '.' ∨ ch '0' ≤ c ∧ c ≤ ch '9')
    (hmem : ch '.' ∉ s) : Decimal s := fun c hc =>
  (h c hc).resolve_left (ne_of_mem_of_not_mem hc hmem)

theorem digitized_of_clean {u : Bytes}
    (hchars : ∀ c ∈ u, c = ch '.' ∨ ch '0' ≤ c ∧ c ≤ ch '9') (hdots : u.count (ch '.') ≤ 1) :
    Digitized u (u.takeWhile (· ≠ ch '.')) (u.dropWhile (· ≠ ch '.')).tail := by
  by_cases hmem : ch '.' ∈ u
  · obtain ⟨i, f, rfl, hi⟩ := List.eq_append_cons_of_mem hmem
    rw [takeWhile_point hi, dropWhile_ne_point hi]
    rw [List.count_append, List.count_cons_self] at hdots
    have hf : ch '.' ∉ f := List.count_eq_zero.mp (by omega)
    simp only [List.mem_append, List.mem_cons] at hchars
    exact .point (decimal_of_no_point (fun c hc => hchars c (Or.inl hc)) hi)
      (decimal_of_no_point (fun c hc => hchars c (Or.inr (Or.inr hc))) hf)
  · have hall : ∀ c ∈ u, decide (c ≠ ch '.') = true := fun c hc =>
      decide_eq_true (ne_of_mem_of_not_mem hc hmem)
    rw [List.takeWhile_eq_self_iff.mpr hall, List.dropWhile_eq_nil_iff.mpr hall]
    exact .int (decimal_of_no_point hchars hmem)

/-! ## Quotes -/

/-- Leaving out the quotes keeps the place of the dot. -/
theorem takeWhile_copyRemoveSq (s : Bytes) :
    (copyRemoveSq s).takeWhile (· ≠ ch '.') = copyRemoveSq (s.takeWhile (· ≠ ch '.')) := by
  induction s with
  | nil => rfl
  | cons c s ih =>
      unfold copyRemoveSq at ih ⊢
      by_cases hq : c = quote
      · have hdot : quote ≠ ch '.' := by decide
        simpa [hq, hdot] using ih
      · by_cases hdot : c = ch '.' <;> simp_all

theorem dropWhile_copyRemoveSq (s : Bytes) :
    (copyRemoveSq s).dropWhile (· ≠ ch '.') = copyRemoveSq (s.dropWhile (· ≠ ch '.')) := by
  induction s with
  | nil => rfl
  | cons c s ih =>
      unfold copyRemoveSq at ih ⊢
      by_cases hq : c = quote
      · have hdot : quote ≠ ch '.' := by decide
        simpa [hq, hdot] using ih
      · by_cases hdot : c = ch '.' <;> simp_all

theorem tail_copyRemoveSq {s : Bytes} (h : s.head? ≠ some quote) :
    (copyRemoveSq s).tail = copyRemoveSq s.tail := by
  cases s with
  | nil => rfl
  | cons c s =>
      have hc : c ≠ quote := fun hc => h (congrArg some hc)
      simp [copyRemoveSq, hc]

theorem digitsIn_eq (s : Bytes) : digitsIn s = (copyRemoveSq s).map decodeDigit := rfl

theorem head_dropWhile_ne_point (s : Bytes) :
    (s.dropWhile (· ≠ ch '.')).head? ≠ some quote := by
  intro h
  have hnot := List.head?_dropWhile_not (fun c => decide (c ≠ ch '.')) s
  rw [h] at hnot
  exact absurd hnot (by decide)

/-- The sign in front of an accepted text stays there without the quotes. -/
theorem unsigned_copyRemoveSq {base : Nat} {s : Bytes} (h : DigitText base (unsigned s))
    (hbase : base ≤ 255) :
    unsigned (copyRemoveSq s) = copyRemoveSq (unsigned s) ∧
      ((copyRemoveSq s).head? = some (ch '-') ↔ s.head? = some (ch '-')) := by
  by_cases hsign : s.head? = some (ch '-')
  · obtain ⟨t, rfl⟩ := List.head?_eq_some_iff.mp hsign
    have hminus : copyRemoveSq (ch '-' :: t) = ch '-' :: copyRemoveSq t := by
      have hne : ch '-' ≠ quote := by decide
      simp [copyRemoveSq, hne]
    rw [hminus]
    simp [unsigned]
  · have hunsigned : unsigned s = s := if_neg hsign
    rw [hunsigned] at h ⊢
    have hclean : (copyRemoveSq s).head? ≠ some (ch '-') := by
      intro hhead
      have hmem : ch '-' ∈ s := (List.mem_filter.mp (List.mem_of_head? hhead)).1
      rcases h.chars _ hmem with hdot | hq | hlt
      · exact absurd hdot (by decide)
      · exact absurd hq (by decide)
      · have hval : decodeDigit (ch '-') = 255 := by decide
        omega
    exact ⟨if_neg hclean, iff_of_false hclean hsign⟩

section

variable [DeciBase]

/-- Words of a fraction and words of an integer part make a number. -/
theorem parsed_spec (sign : Bool) {i f : Bytes} (hi : Decimal i) (hf : Decimal f)
    (hhead : i.head? ≠ some (ch '0')) :
    (⟨sign, parseNcharsToNwords f.length, parseFracPart (parseNcharsToNwords f.length) f ++
        parseIntPart (parseNcharsToNwords i.length) i⟩ : Number).Wf ∧
      (⟨sign, parseNcharsToNwords f.length, parseFracPart (parseNcharsToNwords f.length) f ++
        parseIntPart (parseNcharsToNwords i.length) i⟩ : Number).absValue =
          decimalValue i + decimalValue f / (10 : ℚ) ^ f.length := by
  have hcut := cut_parseNcharsToNwords f.length
  obtain ⟨hflen, hfwords, hfvalue⟩ := parseFracPart_spec hf hcut
  obtain ⟨hilen, hiwords, hivalue⟩ := parseIntPart_spec hi (cut_parseNcharsToNwords i.length)
  refine ⟨⟨?_, digits_append.mpr ⟨hfwords, hiwords⟩, ?_⟩, ?_⟩
  · rw [Number.nwords_mk, List.length_append, hflen]
    exact Nat.le_add_right _ _
  · rw [List.drop_left' hflen]
    exact topNonzero_parseIntPart hi (cut_parseNcharsToNwords i.length) hhead
  · have hpow : (deciBase : ℚ) ^ parseNcharsToNwords f.length =
        10 ^ (parseNcharsToNwords f.length * deciBaseLog - f.length) * 10 ^ f.length := by
      rw [← pow_add, Nat.sub_add_cancel hcut.le]
      exact_mod_cast deciBase_pow (parseNcharsToNwords f.length)
    have hpos : (0 : ℚ) < 10 ^ (parseNcharsToNwords f.length * deciBaseLog - f.length) := by
      positivity
    simp only [Number.absValue, Number.mag, Nat.ofDigits_append, hfvalue, hivalue, hflen]
    push_cast
    rw [hpow]
    field_simp
    ring

/-- `parse_no_sq` on the digits of a text. -/
theorem parseNoSq_spec {s i f : Bytes} (h : Digitized (unsigned s) i f) :
    (parseNoSq s).Wf ∧ (parseNoSq s).sign = decide (s.head? = some (ch '-')) ∧
      (parseNoSq s).absValue = decimalValue (i ++ f) / (10 : ℚ) ^ f.length := by
  generalize hu : unsigned s = u at h
  rw [unsigned] at hu
  simp only [parseNoSq, hu]
  cases h with
  | int hi =>
      have hstrip := hi.sublist (List.dropWhile_sublist (· = ch '0'))
      rw [if_neg hstrip.point_not_mem]
      obtain ⟨hwf, habs⟩ := parsed_spec (decide (s.head? = some (ch '-'))) hstrip
        decimal_nil (head_dropWhile_zeros _)
      have hzero : parseNcharsToNwords ([] : Bytes).length = 0 := by simp [parseNcharsToNwords]
      rw [hzero, parseFracPart, List.nil_append] at hwf habs
      refine ⟨hwf, rfl, ?_⟩
      rw [habs, decimalValue_dropWhile, List.append_nil]
      simp [decimalValue, evalDigits]
  | @point _ f hi hf =>
      have hstrip := hi.sublist (List.dropWhile_sublist (· = ch '0'))
      have htrim := hf.sublist (List.rdropWhile_prefix (· = ch '0') f).sublist
      rw [dropWhile_point, if_pos (by simp), rdropWhile_point, takeWhile_point hstrip.point_not_mem,
        dropWhile_ne_point hstrip.point_not_mem]
      obtain ⟨hwf, habs⟩ := parsed_spec (decide (s.head? = some (ch '-'))) hstrip htrim
        (head_dropWhile_zeros i)
      refine ⟨hwf, rfl, ?_⟩
      have hle := (List.rdropWhile_prefix (fun c => decide (c = ch '0')) f).length_le
      have hpow : (10 : ℚ) ^ f.length =
          10 ^ (f.length - (f.rdropWhile (· = ch '0')).length) *
            10 ^ (f.rdropWhile (· = ch '0')).length := by
        rw [← pow_add, Nat.sub_add_cancel hle]
      rw [habs, decimalValue_dropWhile, decimalValue_append, decimalValue_rdropWhile f]
      push_cast
      rw [hpow]
      field_simp

/-- `number_parse` of an accepted text is the number that it stands for. -/
theorem numberParse_spec {s : Bytes} (h : numberParseBaseValidate s 10 = true) :
    (numberParse s).Wf ∧ (numberParse s).sign = decide (s.head? = some (ch '-')) ∧
      (numberParse s).absValue = denotedAbs 10 (unsigned s) := by
  have htext := numberParseBaseValidate_iff.mp h
  obtain ⟨hunsigned, hhead⟩ := unsigned_copyRemoveSq htext (by norm_num)
  have hparse : numberParse s = parseNoSq (copyRemoveSq s) := by
    unfold numberParse
    split
    · rfl
    · rename_i hq
      rw [copyRemoveSq, List.filter_eq_self.mpr]
      exact fun c hc => decide_eq_true (ne_of_mem_of_not_mem hc hq)
  have hclean : ∀ c ∈ copyRemoveSq (unsigned s), c = ch '.' ∨ ch '0' ≤ c ∧ c ≤ ch '9' := by
    intro c hc
    obtain ⟨hmem, hne⟩ := List.mem_filter.mp hc
    rcases htext.chars c hmem with hdot | hq | hlt
    · exact Or.inl hdot
    · exact absurd hq (by simpa using hne)
    · exact Or.inr (decodeDigit_lt_ten.mp hlt)
  have hdots : (copyRemoveSq (unsigned s)).count (ch '.') ≤ 1 :=
    Nat.le_trans (List.filter_sublist.count_le _) htext.dots
  have hdigits := digitized_of_clean hclean hdots
  rw [takeWhile_copyRemoveSq, dropWhile_copyRemoveSq, tail_copyRemoveSq] at hdigits
  · rw [← hunsigned] at hdigits
    obtain ⟨hwf, hsign, habs⟩ := parseNoSq_spec hdigits
    rw [hparse]
    refine ⟨hwf, ?_, ?_⟩
    · rw [hsign, decide_eq_decide.mpr hhead]
    · rw [habs, denotedAbs, intDigits, fracDigits, digitsIn_eq, digitsIn_eq, ← List.map_append,
        List.length_map, decimalValue]
      norm_num
  · exact head_dropWhile_ne_point _

theorem numberParse_value {s : Bytes} (h : numberParseBaseValidate s 10 = true) :
    (numberParse s).value = denoted 10 s := by
  obtain ⟨-, hsign, habs⟩ := numberParse_spec h
  simp only [Number.value, Number.signFactor, hsign, habs, denoted, decide_eq_true_eq]

end

/-! ## Lexed numbers -/

theorem validateLoop_numberLen (s : Bytes) (seenDot : Bool) :
    validateLoop 10 (s.take (numberLen seenDot s)) seenDot true = true := by
  induction s generalizing seenDot with
  | nil => rfl
  | cons c s ih =>
      have hdigit : isDigit c = true → c ≠ ch '.' ∧ ¬ decodeDigit c ≥ 10 := by
        intro h
        have hc : ch '0' ≤ c ∧ c ≤ ch '9' := by simpa [isDigit] using h
        exact ⟨fun hdot => absurd (hdot ▸ hc.1) (by decide), (decodeDigit_lt_ten.mpr hc).not_ge⟩
      rw [numberLen]
      split
      · rename_i h
        rw [Nat.add_comm, List.take_succ_cons, validateLoop]
        by_cases hq : c = quote
        · have hdot : quote ≠ ch '.' := by decide
          rw [hq, if_neg hdot, if_pos rfl]
          exact ih seenDot
        · have hd := hdigit (by simpa [hq] using h)
          rw [if_neg hd.1, if_neg hq, if_neg hd.2]
          exact ih seenDot
      · split
        · rename_i hdot
          cases seenDot with
          | true => rfl
          | false =>
              rw [if_neg Bool.false_ne_true, Nat.add_comm, List.take_succ_cons, validateLoop,
                if_pos hdot, if_neg Bool.false_ne_true]
              exact ih true
        · rfl

/-- The text of a number lexeme is accepted. -/
theorem validate_number {x : Lexer} {c : UInt8} {s : Bytes} (hx : x.rest = c :: s)
    (hc : isDigit c = true) : numberParseBaseValidate (number x).1.text 10 = true := by
  have hdigit : ch '0' ≤ c ∧ c ≤ ch '9' := by simpa [isDigit] using hc
  have hne : ∀ d, ¬ ch '0' ≤ d → c ≠ d := fun d hd heq => hd (heq ▸ hdigit.1)
  have htext : (number x).1.text = c :: s.take (numberLen false s) := by
    simp only [number, makeLexemeAdvance, hx, List.tail_cons, Nat.add_comm 1, List.take_succ_cons]
  have hsign : (c :: s.take (numberLen false s)).head? ≠ some (ch '-') := fun h =>
    hne (ch '-') (by decide) (Option.some.inj h)
  rw [htext, numberParseBaseValidate, unsigned, if_neg hsign, validateLoop,
    if_neg (hne _ (by decide)), if_neg (hne _ (by decide)),
    if_neg (decodeDigit_lt_ten.mpr hdigit).not_ge]
  exact validateLoop_numberLen s false

end Calx
