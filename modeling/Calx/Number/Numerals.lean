import Calx.Number.Parse
import Calx.Number.Printer

/-!
# Numerals

Texts of digits in a base that nothing can be left out of, what they stand for,
and that no other such text stands for the same number.

## Implementation notes

Digits are listed from the lowest up, like the words of a number. The text has them
the other way round.
-/

namespace Calx

open Nat (ofDigits)
open Positional Libdeci

/-! ## Zeros among the bytes of digits -/

section

variable {base : Nat} {digits : List Nat}

theorem digitChar_zero_iff {d : Nat} (hd : d < 36) : decide (digitChar d = ch '0') = decide (d = 0) :=
  decide_eq_decide.mpr (digitChar_spec hd).2.2.2.2

theorem dropWhile_map_digitChar (h : Digits base digits) (hb : base ≤ 36) :
    (digits.map digitChar).dropWhile (· = ch '0') = (digits.dropWhile (· = 0)).map digitChar := by
  induction digits with
  | nil => rfl
  | cons d digits ih =>
      obtain ⟨hd, hrest⟩ := digits_cons.mp h
      rw [List.map_cons, List.dropWhile_cons, List.dropWhile_cons,
        digitChar_zero_iff (hd.trans_le hb)]
      split
      · exact ih hrest
      · rfl

theorem rdropWhile_map_digitChar (h : Digits base digits) (hb : base ≤ 36) :
    (digits.map digitChar).rdropWhile (· = ch '0') = (trimTop digits).map digitChar := by
  have hrev : Digits base digits.reverse := fun d hd => h d (List.mem_reverse.mp hd)
  rw [List.rdropWhile, trimTop, List.rdropWhile, ← List.map_reverse,
    dropWhile_map_digitChar hrev hb, List.map_reverse]

end

/-! ## Numerals -/

/-- A number written in a base, with at least one digit before the dot. -/
structure Numeral (base : Nat) where
  neg : Bool
  frac : List Nat
  int : List Nat
  int_ne_nil : int ≠ []
  frac_digits : Digits base frac
  int_digits : Digits base int

namespace Numeral

variable {base : Nat}

/-- The digits as one integer. -/
def magnitude (n : Numeral base) : ℕ := ofDigits base (n.frac ++ n.int)

/-- What a numeral stands for. -/
def value (n : Numeral base) : ℚ :=
  (if n.neg then -1 else 1) * (n.magnitude / (base : ℚ) ^ n.frac.length)

/-- The bytes of digits, the highest first. -/
def bytes (digits : List Nat) : Bytes := (digits.map digitChar).reverse

/-- The text without its sign; there is no dot without digits behind it. -/
def absText (n : Numeral base) : Bytes :=
  bytes n.int ++ if n.frac = [] then [] else ch '.' :: bytes n.frac

/-- The text of a numeral. -/
def text (n : Numeral base) : Bytes := (if n.neg then [ch '-'] else []) ++ n.absText

/-- Nothing can be left out: no leading or trailing zero, and no sign of zero. -/
structure Canonical (n : Numeral base) : Prop where
  lead : n.int = [0] ∨ TopNonzero n.int
  last : n.frac.head? ≠ some 0
  sign : n.neg = true → n.magnitude ≠ 0

/-! ## Reading a numeral -/

theorem mem_bytes {digits : List Nat} {c : UInt8} :
    c ∈ bytes digits ↔ ∃ d ∈ digits, digitChar d = c := by
  rw [bytes, List.mem_reverse, List.mem_map]

theorem digitsIn_bytes {digits : List Nat} (h : Digits base digits) (hb : base ≤ 36) :
    digitsIn (bytes digits) = digits.reverse := by
  have hkeep : ∀ c ∈ bytes digits, decide (c ≠ quote) = true := by
    intro c hc
    obtain ⟨d, hd, rfl⟩ := mem_bytes.mp hc
    exact decide_eq_true (digitChar_spec ((h d hd).trans_le hb)).2.1
  have hdecode : ∀ d ∈ digits, (decodeDigit ∘ digitChar) d = d := fun d hd =>
    (digitChar_spec ((h d hd).trans_le hb)).2.2.2.1
  rw [digitsIn, List.filter_eq_self.mpr hkeep, bytes, List.map_reverse, List.map_map,
    List.map_congr_left hdecode, List.map_id']

section

variable (n : Numeral base) (hb : base ≤ 36)

include hb

/-- Before the dot there is neither a dot nor a sign. -/
theorem int_bytes : ∀ c ∈ bytes n.int, c ≠ ch '.' ∧ c ≠ ch '-' := by
  intro c hc
  obtain ⟨d, hd, rfl⟩ := mem_bytes.mp hc
  have hspec := digitChar_spec ((n.int_digits d hd).trans_le hb)
  exact ⟨hspec.1, hspec.2.2.1⟩

theorem absText_head : n.absText.head? ≠ some (ch '-') := by
  have hne : bytes n.int ≠ [] := by
    rw [bytes, List.reverse_ne_nil_iff]
    exact mt List.map_eq_nil_iff.mp n.int_ne_nil
  obtain ⟨c, t, hct⟩ := List.exists_cons_of_ne_nil hne
  have hc := (n.int_bytes hb c (hct ▸ List.mem_cons_self)).2
  rw [absText, hct, List.cons_append, List.head?_cons]
  exact fun h => hc (Option.some.inj h)

theorem text_head : n.text.head? = some (ch '-') ↔ n.neg = true := by
  rw [text]
  cases n.neg with
  | true => exact iff_of_true rfl rfl
  | false => exact iff_of_false (n.absText_head hb) Bool.false_ne_true

theorem unsigned_text : unsigned n.text = n.absText := by
  rw [unsigned, if_congr (n.text_head hb) rfl rfl, text]
  cases n.neg with
  | true => rfl
  | false => rfl

theorem takeWhile_absText : n.absText.takeWhile (· ≠ ch '.') = bytes n.int := by
  rw [absText, List.takeWhile_append_of_pos fun c hc => decide_eq_true (n.int_bytes hb c hc).1]
  split
  · rw [List.takeWhile_nil, List.append_nil]
  · rw [List.takeWhile_cons_of_neg (by simp), List.append_nil]

theorem dropWhile_absText : n.absText.dropWhile (· ≠ ch '.') =
    if n.frac = [] then [] else ch '.' :: bytes n.frac := by
  rw [absText, List.dropWhile_append_of_pos fun c hc => decide_eq_true (n.int_bytes hb c hc).1]
  split
  · rfl
  · rw [List.dropWhile_cons_of_neg (by simp)]

theorem intDigits_absText : intDigits n.absText = n.int.reverse := by
  rw [intDigits, n.takeWhile_absText hb, digitsIn_bytes n.int_digits hb]

theorem fracDigits_absText : fracDigits n.absText = n.frac.reverse := by
  rw [fracDigits, n.dropWhile_absText hb]
  split
  · rename_i h
    rw [h]
    rfl
  · rw [List.tail_cons, digitsIn_bytes n.frac_digits hb]

/-- A numeral stands for what its text stands for. -/
theorem denoted_text : denoted base n.text = n.value := by
  rw [denoted, if_congr (n.text_head hb) rfl rfl, n.unsigned_text hb, denotedAbs,
    n.intDigits_absText hb, n.fracDigits_absText hb, evalDigits_eq, List.length_reverse,
    List.reverse_append, List.reverse_reverse, List.reverse_reverse]
  rfl

/-- The text of a numeral is accepted. -/
theorem text_accepted : numberParseBaseValidate n.text base = true := by
  rw [numberParseBaseValidate_iff, n.unsigned_text hb]
  have hdigit : ∀ {digits : List Nat}, Digits base digits → ∀ c ∈ bytes digits,
      c ≠ ch '.' ∧ c ≠ quote ∧ decodeDigit c < base := by
    intro digits h c hc
    obtain ⟨d, hd, rfl⟩ := mem_bytes.mp hc
    have hspec := digitChar_spec ((h d hd).trans_le hb)
    exact ⟨hspec.1, hspec.2.1, by rw [hspec.2.2.2.1]; exact h d hd⟩
  have hcount : ∀ {digits : List Nat}, Digits base digits → (bytes digits).count (ch '.') = 0 :=
    fun h => List.count_eq_zero.mpr fun hmem => (hdigit h _ hmem).1 rfl
  constructor
  · intro c hc
    rcases List.mem_append.mp hc with hc | hc
    · exact Or.inr (Or.inr (hdigit n.int_digits c hc).2.2)
    · split at hc
      · exact absurd hc List.not_mem_nil
      · rcases List.mem_cons.mp hc with rfl | hc
        · exact Or.inl rfl
        · exact Or.inr (Or.inr (hdigit n.frac_digits c hc).2.2)
  · rw [absText, List.count_append, hcount n.int_digits]
    split
    · rw [List.count_nil]
      omega
    · rw [List.count_cons_self, hcount n.frac_digits]
  · obtain ⟨d, t, hdt⟩ := List.exists_cons_of_ne_nil n.int_ne_nil
    have hmem : digitChar d ∈ bytes n.int := mem_bytes.mpr ⟨d, hdt ▸ List.mem_cons_self, rfl⟩
    have hspec := hdigit n.int_digits _ hmem
    exact ⟨_, List.mem_append_left _ hmem, hspec.1, hspec.2.1⟩

end

/-! ## One canonical numeral for a number -/

section

variable {n n' : Numeral base} (hb : 1 < base)

include hb

theorem value_eq_zero : n.value = 0 ↔ n.magnitude = 0 := by
  have hpow : (0 : ℚ) < (base : ℚ) ^ n.frac.length := pow_pos (by exact_mod_cast hb.le) _
  have hsign : (if n.neg then (-1 : ℚ) else 1) ≠ 0 := by
    split <;> norm_num
  rw [value, mul_eq_zero, or_iff_right hsign, div_eq_zero_iff, or_iff_left hpow.ne',
    Nat.cast_eq_zero]

theorem abs_value (n : Numeral base) :
    |n.value| = n.magnitude / (base : ℚ) ^ n.frac.length := by
  have hnonneg : (0 : ℚ) ≤ n.magnitude / (base : ℚ) ^ n.frac.length := by positivity
  rw [value, abs_mul, abs_of_nonneg hnonneg]
  split
  · rw [abs_neg, abs_one, one_mul]
  · rw [abs_one, one_mul]

theorem Canonical.neg_iff (h : n.Canonical) : n.neg = true ↔ n.value < 0 := by
  constructor
  · intro hneg
    have hpos : (0 : ℚ) < n.magnitude := by exact_mod_cast Nat.pos_of_ne_zero (h.sign hneg)
    have hpow : (0 : ℚ) < (base : ℚ) ^ n.frac.length := pow_pos (by exact_mod_cast hb.le) _
    rw [value, if_pos hneg, neg_one_mul]
    exact neg_neg_of_pos (div_pos hpos hpow)
  · intro hlt
    by_contra hneg
    have habs := n.abs_value hb
    rw [value, if_neg hneg, one_mul] at hlt
    rw [← habs] at hlt
    exact absurd (abs_nonneg n.value) (not_le.mpr hlt)

/-- No digit after the dot can be left out, so that fewer are not enough. -/
theorem Canonical.frac_le (h : n.Canonical)
    (heq : n.magnitude * base ^ n'.frac.length = n'.magnitude * base ^ n.frac.length) :
    n.frac.length ≤ n'.frac.length := by
  by_contra hlt
  obtain ⟨k, hk⟩ : ∃ k, n.frac.length = n'.frac.length + (k + 1) :=
    ⟨n.frac.length - n'.frac.length - 1, by omega⟩
  have hpow : 0 < base ^ n'.frac.length := Nat.pow_pos hb.le
  have hmul : n.magnitude = base * (n'.magnitude * base ^ k) := by
    apply Nat.eq_of_mul_eq_mul_right hpow
    rw [heq, hk, pow_add, pow_succ]
    ring
  obtain ⟨d, t, hdt⟩ : ∃ d t, n.frac = d :: t :=
    List.exists_cons_of_length_pos (by omega)
  have hd : d < base := n.frac_digits d (hdt ▸ List.mem_cons_self)
  have hd0 : d = 0 := by
    have hmod : n.magnitude % base = d := by
      rw [magnitude, hdt, List.cons_append, Nat.ofDigits_cons, Nat.add_mul_mod_self_left,
        Nat.mod_eq_of_lt hd]
    rw [← hmod, hmul, Nat.mul_mod_right]
  apply h.last
  rw [hdt, hd0]
  rfl

/-- The digits before the dot are those of their integer. -/
theorem Canonical.int_eq (h : n.Canonical) :
    n.int = if ofDigits base n.int = 0 then [0] else Nat.digits base (ofDigits base n.int) := by
  rcases h.lead with hzero | htop
  · rw [hzero, if_pos (by simp)]
  · have hne : ofDigits base n.int ≠ 0 := fun h0 =>
      n.int_ne_nil ((ofDigits_eq_zero_iff_nil hb n.int_digits htop).mp h0)
    rw [if_neg hne, Nat.digits_ofDigits base hb n.int n.int_digits]
    intro hnil hlast
    apply htop
    rw [List.getLast?_eq_some_getLast hnil, hlast]

/-- Canonical numerals that stand for the same number are the same. -/
theorem Canonical.ext (h : n.Canonical) (h' : n'.Canonical) (hvalue : n.value = n'.value) :
    n = n' := by
  have hpow : ∀ k : ℕ, (base : ℚ) ^ k ≠ 0 := fun k => pow_ne_zero k (by exact_mod_cast hb.ne_bot)
  have hcross : n.magnitude * base ^ n'.frac.length = n'.magnitude * base ^ n.frac.length := by
    have habs := congrArg abs hvalue
    rw [n.abs_value hb, n'.abs_value hb, div_eq_div_iff (hpow _) (hpow _)] at habs
    exact_mod_cast habs
  have hlen : n.frac.length = n'.frac.length :=
    Nat.le_antisymm (h.frac_le hb hcross) (h'.frac_le hb hcross.symm)
  have hmag : n.magnitude = n'.magnitude := by
    rw [hlen] at hcross
    exact Nat.eq_of_mul_eq_mul_right (Nat.pow_pos hb.le) hcross
  have hneg : n.neg = n'.neg := by
    rw [Bool.eq_iff_iff, h.neg_iff hb, h'.neg_iff hb, hvalue]
  have hsplit : ∀ n : Numeral base, ofDigits base n.frac = n.magnitude % base ^ n.frac.length ∧
      ofDigits base n.int = n.magnitude / base ^ n.frac.length := by
    intro n
    have hlt := n.frac_digits.lt hb
    rw [magnitude, Nat.ofDigits_append, Nat.add_mul_mod_self_left, Nat.mod_eq_of_lt hlt,
      Nat.add_mul_div_left _ _ (Nat.pow_pos hb.le), Nat.div_eq_of_lt hlt, Nat.zero_add]
    exact ⟨rfl, rfl⟩
  have hfrac : n.frac = n'.frac := by
    apply Digits.ext hb n.frac_digits n'.frac_digits hlen
    rw [(hsplit n).1, (hsplit n').1, hmag, hlen]
  have hint : n.int = n'.int := by
    rw [h.int_eq hb, h'.int_eq hb, (hsplit n).2, (hsplit n').2, hmag, hlen]
  cases n
  cases n'
  congr

end

/-! ## Leaving out what is redundant -/

/-- The canonical numeral with these digits after and before the dot. -/
def trimmed (neg : Bool) (frac int : List Nat) (hb : 0 < base) (hfrac : Digits base frac)
    (hint : Digits base int) : Numeral base where
  neg := neg && decide (ofDigits base (frac ++ int) ≠ 0)
  frac := frac.dropWhile (· = 0)
  int := if trimTop int = [] then [0] else trimTop int
  int_ne_nil := by
    split
    · exact List.cons_ne_nil _ _
    · assumption
  frac_digits := fun d hd => hfrac d ((List.dropWhile_sublist _).subset hd)
  int_digits := by
    split
    · exact digits_cons.mpr ⟨hb, digits_nil⟩
    · exact hint.trimTop

section

variable {neg : Bool} {frac int : List Nat} (hb : 0 < base) (hfrac : Digits base frac)
  (hint : Digits base int)

theorem trimmed_magnitude (neg : Bool) : ofDigits base (frac ++ int) =
    base ^ (frac.length - (frac.dropWhile (· = 0)).length) *
      (trimmed neg frac int hb hfrac hint).magnitude := by
  have hint' : ofDigits base (if trimTop int = [] then [0] else trimTop int) = ofDigits base int := by
    split
    · rename_i h
      rw [← ofDigits_trimTop (b := base) int, h, Nat.ofDigits_nil, Nat.ofDigits_singleton]
    · exact ofDigits_trimTop int
  conv_lhs => rw [dropWhile_zero_split frac, List.append_assoc, ofDigits_replicate_append]
  rw [magnitude, trimmed, Nat.ofDigits_append, Nat.ofDigits_append, hint']

/-- Leaving out zeros does not change what a numeral stands for. -/
theorem trimmed_value : (trimmed neg frac int hb hfrac hint).value =
    (if neg then -1 else 1) * ((ofDigits base (frac ++ int) : ℕ) / (base : ℚ) ^ frac.length) := by
  obtain ⟨n, hn⟩ : ∃ n, n = trimmed neg frac int hb hfrac hint := ⟨_, rfl⟩
  have hmag := trimmed_magnitude hb hfrac hint neg
  obtain ⟨k, hk⟩ : ∃ k, k = frac.length - (frac.dropWhile (· = 0)).length := ⟨_, rfl⟩
  have hlen : frac.length = k + n.frac.length := by
    have hle := (List.dropWhile_sublist (l := frac) fun d => decide (d = 0)).length_le
    have hfrac' : n.frac = frac.dropWhile (· = 0) := by rw [hn, trimmed]
    rw [hfrac']
    omega
  rw [← hn, ← hk] at hmag
  rw [← hn]
  have hbase : (base : ℚ) ≠ 0 := by exact_mod_cast hb.ne'
  have hquot : ((ofDigits base (frac ++ int) : ℕ) : ℚ) / (base : ℚ) ^ frac.length =
      n.magnitude / (base : ℚ) ^ n.frac.length := by
    rw [hmag, hlen, pow_add]
    push_cast
    exact mul_div_mul_left _ _ (pow_ne_zero k hbase)
  rw [value, hquot]
  by_cases h0 : n.magnitude = 0
  · rw [h0, Nat.cast_zero, zero_div, mul_zero, mul_zero]
  · have hne : ofDigits base (frac ++ int) ≠ 0 := by
      rw [hmag]
      exact Nat.mul_ne_zero (Nat.pow_pos hb).ne' h0
    have hneg : n.neg = neg := by
      rw [hn, trimmed, decide_eq_true hne, Bool.and_true]
    rw [hneg]

theorem trimmed_canonical : (trimmed neg frac int hb hfrac hint).Canonical := by
  constructor
  · rw [trimmed]
    dsimp only
    split
    · exact Or.inl rfl
    · exact Or.inr (topNonzero_trimTop int)
  · intro h
    have hnot := List.head?_dropWhile_not (fun d => decide (d = 0)) frac
    change (frac.dropWhile (· = 0)).head? = some 0 at h
    rw [h] at hnot
    exact absurd hnot (by decide)
  · intro hneg h0
    have hmag := trimmed_magnitude hb hfrac hint neg
    rw [h0, Nat.mul_zero] at hmag
    rw [trimmed, decide_eq_false (not_not_intro hmag), Bool.and_false] at hneg
    exact Bool.false_ne_true hneg

end

/-! ## The shortest text -/

theorem digitChar_decodeDigit {c : UInt8} (h : decodeDigit c < 10) : digitChar (decodeDigit c) = c := by
  have hc := decodeDigit_lt_ten.mp h
  obtain ⟨k, hk, rfl⟩ : ∃ k < 10, c = digitChar k := by
    refine ⟨c.toNat - 48, ?_, ?_⟩
    · have h9 : c.toNat ≤ 57 := UInt8.le_iff_toNat_le.mp hc.2
      omega
    · have h0 : 48 ≤ c.toNat := UInt8.le_iff_toNat_le.mp hc.1
      have h9 : c.toNat ≤ 57 := UInt8.le_iff_toNat_le.mp hc.2
      have hchar : ∀ j < 10, digitChar j = UInt8.ofNat (48 + j) := by decide
      rw [hchar _ (by omega), Nat.add_sub_cancel' h0, UInt8.ofNat_toNat]
  rw [(digitChar_spec (hk.trans (by decide))).2.2.2.1]

/-- The digits of a text without dots are a part of it. -/
theorem digitsIn_sublist {t : Bytes} (h : ∀ c ∈ t, c = quote ∨ decodeDigit c < 10) :
    ((digitsIn t).map digitChar).Sublist t := by
  have hmap : ∀ c ∈ t.filter (fun c => decide (c ≠ quote)), (digitChar ∘ decodeDigit) c = c := by
    intro c hc
    obtain ⟨hmem, hne⟩ := List.mem_filter.mp hc
    exact digitChar_decodeDigit ((h c hmem).resolve_left (of_decide_eq_true hne))
  rw [digitsIn, List.map_map, List.map_congr_left hmap, List.map_id']
  exact List.filter_sublist

theorem digits_digitsIn {t : Bytes} (h : ∀ c ∈ t, c = quote ∨ decodeDigit c < 10) :
    Digits 10 (digitsIn t) := by
  intro d hd
  obtain ⟨c, hc, rfl⟩ := List.mem_map.mp hd
  obtain ⟨hmem, hne⟩ := List.mem_filter.mp hc
  exact (h c hmem).resolve_left (of_decide_eq_true hne)

theorem bytes_reverse (digits : List Nat) : bytes digits.reverse = digits.map digitChar := by
  rw [bytes, List.map_reverse, List.reverse_reverse]

theorem bytes_trimTop (digits : List Nat) :
    bytes (trimTop digits.reverse) = (digits.dropWhile (· = 0)).map digitChar := by
  rw [trimTop, List.rdropWhile, List.reverse_reverse, bytes_reverse]

/-- Without leading zeros the digits before the dot are a part of what they were. -/
theorem int_sublist {digits : List Nat} (hne : digits ≠ []) :
    (bytes (if trimTop digits.reverse = [] then [0] else trimTop digits.reverse)).Sublist
      (digits.map digitChar) := by
  split
  · rename_i hnil
    have hall := List.rdropWhile_eq_nil_iff.mp hnil
    obtain ⟨d, t, rfl⟩ := List.exists_cons_of_ne_nil hne
    have hd : d = 0 := of_decide_eq_true (hall d (List.mem_reverse.mpr List.mem_cons_self))
    rw [hd, List.map_cons]
    exact (List.nil_sublist _).cons_cons _
  · rw [bytes_trimTop]
    exact (List.dropWhile_sublist _).map _

/-- Without trailing zeros the digits after the dot are a part of what they were. -/
theorem bytes_dropWhile_sublist (digits : List Nat) :
    (bytes (digits.reverse.dropWhile (· = 0))).Sublist (digits.map digitChar) := by
  rw [← bytes_reverse, bytes, bytes]
  exact ((List.dropWhile_sublist _).map _).reverse

/-- What follows the digits before the dot is nothing, or the dot and the rest. -/
theorem dropWhile_dot (u : Bytes) : u.dropWhile (· ≠ ch '.') = [] ∨
    u.dropWhile (· ≠ ch '.') = ch '.' :: (u.dropWhile (· ≠ ch '.')).tail := by
  have hnot := List.head?_dropWhile_not (fun c => decide (c ≠ ch '.')) u
  cases hr : u.dropWhile (· ≠ ch '.') with
  | nil => exact Or.inl rfl
  | cons c t =>
      rw [hr] at hnot
      have hc : c = ch '.' := by simpa using hnot
      rw [hc]
      exact Or.inr rfl

/-- Every decimal with a digit before the dot contains the canonical one. -/
theorem exists_canonical_sublist {s : Bytes} (h : numberParseBaseValidate s 10 = true)
    (hint : intDigits (unsigned s) ≠ []) :
    ∃ n : Numeral 10, n.Canonical ∧ n.value = denoted 10 s ∧ n.text.Sublist s := by
  obtain ⟨u, hu⟩ : ∃ u, u = unsigned s := ⟨_, rfl⟩
  have htext := numberParseBaseValidate_iff.mp h
  rw [← hu] at htext hint
  obtain ⟨i, hi⟩ : ∃ i, i = u.takeWhile (· ≠ ch '.') := ⟨_, rfl⟩
  obtain ⟨f, hf⟩ : ∃ f, f = (u.dropWhile (· ≠ ch '.')).tail := ⟨_, rfl⟩
  have hsplit : u = i ++ u.dropWhile (· ≠ ch '.') := by
    rw [hi, List.takeWhile_append_dropWhile]
  have hrest := dropWhile_dot u
  rw [← hf] at hrest
  have hichars : ∀ c ∈ i, c = quote ∨ decodeDigit c < 10 := by
    intro c hc
    rw [hi] at hc
    have hne : c ≠ ch '.' := by simpa using List.mem_takeWhile_imp hc
    exact (htext.chars c ((List.takeWhile_sublist _).subset hc)).resolve_left hne
  have hfchars : ∀ c ∈ f, c = quote ∨ decodeDigit c < 10 := by
    intro c hc
    have hmem : c ∈ u.dropWhile (· ≠ ch '.') := List.mem_of_mem_tail (hf ▸ hc)
    refine (htext.chars c ((List.dropWhile_sublist _).subset hmem)).resolve_left ?_
    rintro rfl
    have hcount := htext.dots
    rw [hsplit, List.count_append, hrest.resolve_left (List.ne_nil_of_mem hmem),
      List.count_cons_self] at hcount
    have hpos := List.count_pos_iff.mpr hc
    omega
  have hidigits : Digits 10 (intDigits u).reverse := fun d hd =>
    digits_digitsIn hichars d (by rw [hi]; exact List.mem_reverse.mp hd)
  have hfdigits : Digits 10 (fracDigits u).reverse := fun d hd =>
    digits_digitsIn hfchars d (by rw [hf]; exact List.mem_reverse.mp hd)
  refine ⟨trimmed (decide (s.head? = some (ch '-'))) _ _ (by decide) hfdigits hidigits,
    trimmed_canonical _ _ _, ?_, ?_⟩
  · rw [trimmed_value, denoted, denotedAbs, evalDigits_eq, ← hu, List.reverse_append,
      List.length_reverse]
    simp only [decide_eq_true_eq]
  · have hsign : s = (if s.head? = some (ch '-') then [ch '-'] else []) ++ u := by
      rw [hu, unsigned]
      split
      · rename_i hhead
        obtain ⟨t, rfl⟩ := List.head?_eq_some_iff.mp hhead
        rfl
      · rfl
    conv_rhs => rw [hsign, hsplit]
    refine List.Sublist.append ?_ (List.Sublist.append ?_ ?_)
    · by_cases hhead : s.head? = some (ch '-')
      · have hdrop : ∀ b : Bool, (if b then [ch '-'] else []).Sublist [ch '-'] := by decide
        rw [if_pos hhead]
        exact hdrop _
      · rw [if_neg hhead, trimmed, decide_eq_false hhead]
        exact List.Sublist.refl []
    · have hpart := digitsIn_sublist hichars
      rw [hi] at hpart ⊢
      exact (int_sublist hint).trans hpart
    · have hpart := digitsIn_sublist hfchars
      rw [trimmed]
      dsimp only
      split
      · exact List.nil_sublist _
      · rename_i hne
        have hbytes : (bytes ((fracDigits u).reverse.dropWhile (· = 0))).Sublist f := by
          refine List.Sublist.trans ?_ hpart
          rw [hf]
          exact bytes_dropWhile_sublist (fracDigits u)
        rcases hrest with hnil | hdot
        · have hempty : fracDigits u = [] := by
            rw [fracDigits, hnil]
            rfl
          rw [hempty] at hne
          exact absurd rfl hne
        · rw [hdot]
          exact hbytes.cons_cons _

/-- A canonical decimal is a part of every other one with a digit before the dot. -/
theorem Canonical.sublist {n : Numeral 10} (h : n.Canonical) {s : Bytes}
    (hs : numberParseBaseValidate s 10 = true) (hint : intDigits (unsigned s) ≠ [])
    (hvalue : denoted 10 s = n.value) : n.text.Sublist s := by
  obtain ⟨n', hcanonical, hvalue', hsub⟩ := exists_canonical_sublist hs hint
  have heq : n = n' := h.ext (by decide) hcanonical (by rw [hvalue', hvalue])
  rw [heq]
  exact hsub

/-! ## The end of the printers -/

/-- A canonical numeral of zero is the digit zero. -/
theorem Canonical.absText_zero {n : Numeral base} (hb : 1 < base) (h : n.Canonical)
    (h0 : n.magnitude = 0) : n.absText = [ch '0'] := by
  rw [magnitude, Nat.ofDigits_append, Nat.add_eq_zero_iff, Nat.mul_eq_zero] at h0
  have hint : n.int = [0] := by
    have hpow : base ^ n.frac.length ≠ 0 := (Nat.pow_pos hb.le).ne'
    rw [h.int_eq hb, if_pos (h0.2.resolve_left hpow)]
  have hfrac : n.frac = [] := by
    rcases hf : n.frac with _ | ⟨d, t⟩
    · rfl
    · have hd : d = 0 := (ofDigits_eq_zero hb.le).mp h0.1 d (hf ▸ List.mem_cons_self)
      exact absurd (by rw [hf, hd]; rfl) h.last
  rw [absText, hint, hfrac, if_pos rfl]
  rfl

/-- `finalize_tostring` takes the sign from a zero and from nothing else. -/
theorem finalizeTostring_trimmed {neg : Bool} {frac int : List Nat} (hb : 1 < base) (hb' : base ≤ 36)
    (hfrac : Digits base frac) (hint : Digits base int) :
    finalizeTostring ((if neg then [ch '-'] else []) ++
      (trimmed neg frac int hb.le hfrac hint).absText) =
        (trimmed neg frac int hb.le hfrac hint).text := by
  obtain ⟨n, hn⟩ : ∃ n, n = trimmed neg frac int hb.le hfrac hint := ⟨_, rfl⟩
  have hcanonical : n.Canonical := hn ▸ trimmed_canonical hb.le hfrac hint
  have hmag : ofDigits base (frac ++ int) = 0 ↔ n.magnitude = 0 := by
    rw [trimmed_magnitude hb.le hfrac hint neg, ← hn, Nat.mul_eq_zero,
      or_iff_right (Nat.pow_pos hb.le).ne']
  have hneg : n.neg = (neg && decide (n.magnitude ≠ 0)) := by
    rw [decide_eq_decide.mpr (not_congr hmag.symm), hn]
    rfl
  rw [← hn, text, hneg]
  cases neg with
  | false =>
      have hne : n.absText ≠ [ch '-', ch '0'] := by
        intro h
        apply n.absText_head hb'
        rw [h]
        rfl
      rw [if_neg Bool.false_ne_true, List.nil_append, finalizeTostring, if_neg hne]
      rfl
  | true =>
      by_cases h0 : n.magnitude = 0
      · rw [hcanonical.absText_zero hb h0, decide_eq_false (not_not_intro h0)]
        rfl
      · have hne : [ch '-'] ++ n.absText ≠ [ch '-', ch '0'] := by
          intro h
          have habs : n.absText = [ch '0'] := List.append_cancel_left h
          have hi := n.intDigits_absText hb'
          have hf := n.fracDigits_absText hb'
          rw [habs] at hi hf
          have hint' : n.int = [0] := List.reverse_eq_iff.mp hi.symm
          have hfrac' : n.frac = [] := List.reverse_eq_iff.mp hf.symm
          apply h0
          rw [magnitude, hint', hfrac']
          rfl
        rw [decide_eq_true h0, if_pos rfl, finalizeTostring, if_neg hne]
        rfl

end Numeral

end Calx
