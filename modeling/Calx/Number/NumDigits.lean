import Calx.Number.Printer
import Calx.Number.Text
import Calx.Vm.Arithmetic

/-!
# Counting digits

`number_nintdigits` and `number_nfracdigits` of `number.c`, which look at one word
of each part, against the text that `number_tostring` writes.

## Implementation notes

The text is brought to a closed form: the sign, the digits of the integer part
without leading zeros, and the digits of the fraction without trailing ones. A
count that does not fit into a `size_t` is `SIZE_MAX`.
-/

namespace Calx

open Buffer Positional Libdeci

/-! ## The counts of the code -/

/-- `for (; hi; hi /= 10) ++summand`. -/
def leadingLoop (hi summand : Nat) : Nat :=
  if hi = 0 then summand else leadingLoop (hi / 10) (summand + 1)
termination_by hi

/-- `number_nintdigits`. -/
def numberNintdigits [DeciBase] (a : Number) : Nat :=
  let n := a.nwords - a.scale
  if n = 0 then 0
  else
    let hi := a.words.getD (a.nwords - 1) 0
    uuAddZuOrSaturate (leadingLoop hi 0) (uuMulZuOrSaturate (n - 1) deciBaseLog)

/-- `for (; lo % 10 == 0; lo /= 10) --summand`, which does not end at zero. -/
def trailingLoop (lo summand : Nat) : Option Nat :=
  if lo = 0 then none
  else if lo % 10 = 0 then trailingLoop (lo / 10) (summand - 1) else some summand
termination_by lo

/-- `number_nfracdigits`. -/
def numberNfracdigits [Libdeci] (a : Number) : Option Nat :=
  match deciSkip0 (a.words.take a.scale) with
  | [] => some 0
  | lo :: words => do
      let summand ← trailingLoop lo deciBaseLog
      some (uuAddZuOrSaturate summand (uuMulZuOrSaturate words.length deciBaseLog))

/-! ## The counts of a text -/

/-- How many digits a text has before its dot. -/
def digitsBefore (s : Bytes) : Nat := ((unsigned s).takeWhile (· ≠ ch '.')).length

/-- How many digits a text has after its dot. -/
def digitsAfter (s : Bytes) : Nat := (s.dropWhile (· ≠ ch '.')).tail.length

/-! ## The digits of one word -/

/-- What the bytes of digits are, and what they are not. -/
theorem digit_byte {d : Nat} (hd : d < 10) :
    ((((ch '0').toNat + d).toUInt8 = ch '0' ↔ d = 0) ∧ ((ch '0').toNat + d).toUInt8 ≠ ch '.' ∧
      ((ch '0').toNat + d).toUInt8 ≠ ch '-') := by
  revert d
  decide

/-- A byte that is a digit. -/
def IsDigit (c : UInt8) : Prop := c ≠ ch '.' ∧ c ≠ ch '-'

theorem isDigit_writeWord (j x : Nat) : ∀ c ∈ writeWord j x, IsDigit c := by
  induction j generalizing x with
  | zero => exact fun c hc => absurd hc List.not_mem_nil
  | succ j ih =>
      intro c hc
      rcases List.mem_cons.mp hc with rfl | hc
      · exact (digit_byte (Nat.mod_lt x (by decide))).2
      · exact ih (x / 10) c hc

theorem leadingLoop_eq (hi summand : Nat) :
    leadingLoop hi summand = (Nat.digits 10 hi).length + summand := by
  induction hi using Nat.strongRecOn generalizing summand with
  | ind hi ih =>
      rw [leadingLoop]
      split
      · rename_i h
        simp [h]
      · rename_i h
        have hdigits := Nat.digits_def' (b := 10) (n := hi) (by decide) (by omega)
        rw [ih (hi / 10) (by omega), hdigits, List.length_cons]
        omega

/-- Without the zeros on top a word has as many digits as its value. -/
theorem length_rdropWhile_writeWord {j x : Nat} (hx : x < 10 ^ j) :
    ((writeWord j x).rdropWhile (· = ch '0')).length = (Nat.digits 10 x).length := by
  induction j generalizing x with
  | zero =>
      obtain rfl : x = 0 := by simpa using hx
      simp [writeWord]
  | succ j ih =>
      have hlow := (digit_byte (Nat.mod_lt x (by decide : 0 < 10))).1
      have hrest := ih (x := x / 10) (by rw [pow_succ] at hx; omega)
      rw [writeWord, ← List.singleton_append, rdropWhile_append]
      by_cases hnil : (writeWord j (x / 10)).rdropWhile (· = ch '0') = []
      · have hquot : x / 10 = 0 := by
          rw [hnil, List.length_nil] at hrest
          exact Nat.digits_eq_nil_iff_eq_zero.mp (List.length_eq_zero_iff.mp hrest.symm)
        rw [if_pos hnil, List.rdropWhile_singleton]
        by_cases hx0 : x = 0
        · subst hx0
          simp
        · have hmod : x % 10 ≠ 0 := by omega
          rw [if_neg (by simpa using mt hlow.mp hmod), Nat.digits_of_lt 10 x hx0 (by omega)]
          rfl
      · have hdigits := Nat.digits_def' (b := 10) (n := x) (by decide) (by
          by_contra hx0
          obtain rfl : x = 0 := by omega
          apply hnil
          rw [← List.length_eq_zero_iff, hrest]
          rfl)
        rw [if_neg hnil, List.singleton_append, List.length_cons, hrest, hdigits, List.length_cons]

/-- The second loop counts the digits of a word without the zeros below. -/
theorem trailingLoop_eq {j x : Nat} (hx : x < 10 ^ j) (h0 : 0 < x) :
    trailingLoop x j = some ((writeWord j x).dropWhile (· = ch '0')).length := by
  induction j generalizing x with
  | zero =>
      rw [pow_zero] at hx
      omega
  | succ j ih =>
      have hlow := (digit_byte (Nat.mod_lt x (by decide : 0 < 10))).1
      rw [trailingLoop, if_neg (by omega), writeWord]
      by_cases hd : x % 10 = 0
      · rw [if_pos hd, List.dropWhile_cons_of_pos (by simpa using hlow.mpr hd), Nat.add_sub_cancel]
        exact ih (by rw [pow_succ] at hx; omega) (by omega)
      · rw [if_neg hd, List.dropWhile_cons_of_neg (by simpa using mt hlow.mp hd), List.length_cons,
          length_writeWord]

/-- A word other than zero has a digit other than zero. -/
theorem exists_digit_ne_zero {j x : Nat} (hx : x < 10 ^ j) (h0 : 0 < x) :
    ∃ c ∈ writeWord j x, c ≠ ch '0' := by
  by_contra hall
  push Not at hall
  have hnil : (writeWord j x).rdropWhile (· = ch '0') = [] :=
    List.rdropWhile_eq_nil_iff.mpr fun c hc => decide_eq_true (hall c hc)
  have hlen := length_rdropWhile_writeWord hx
  rw [hnil, List.length_nil] at hlen
  exact h0.ne' (Nat.digits_eq_nil_iff_eq_zero.mp (List.length_eq_zero_iff.mp hlen.symm))

theorem dropWhile_writeWord_zero (j : Nat) : (writeWord j 0).dropWhile (· = ch '0') = [] := by
  induction j with
  | zero => rfl
  | succ j ih =>
      rw [writeWord, List.dropWhile_cons_of_pos]
      · exact ih
      · decide

/-! ## The digits of a part -/

section

variable [DeciBase] {w : List Nat}

theorem isDigit_wordDigits (w : List Nat) : ∀ c ∈ wordDigits w, IsDigit c := by
  intro c hc
  obtain ⟨x, -, hx⟩ := List.mem_flatMap.mp hc
  exact isDigit_writeWord _ _ c hx

/-- The top word keeps a digit, and the words below it keep all. -/
theorem wordDigits_highest (u : List Nat) {hi : Nat} (hhi : hi < deciBase) (h0 : 0 < hi) :
    (writeWord deciBaseLog hi).rdropWhile (· = ch '0') ≠ [] ∧
      (wordDigits (u ++ [hi])).rdropWhile (· = ch '0') =
        wordDigits u ++ (writeWord deciBaseLog hi).rdropWhile (· = ch '0') := by
  have hne : (writeWord deciBaseLog hi).rdropWhile (· = ch '0') ≠ [] := by
    rw [← List.length_pos_iff, length_rdropWhile_writeWord hhi]
    exact List.length_pos_iff.mpr (Nat.digits_ne_nil_iff_ne_zero.mpr h0.ne')
  have hlast : wordDigits [hi] = writeWord deciBaseLog hi := by
    rw [wordDigits_cons]
    exact List.append_nil _
  refine ⟨hne, ?_⟩
  rw [wordDigits_append, hlast, rdropWhile_append, if_neg hne]

/-- The integer part keeps all digits of its lower words. -/
theorem length_leading {u : List Nat} {hi : Nat} (hhi : hi < deciBase) (h0 : 0 < hi) :
    ((wordDigits (u ++ [hi])).rdropWhile (· = ch '0')).length =
      leadingLoop hi 0 + u.length * deciBaseLog := by
  rw [(wordDigits_highest u hhi h0).2, List.length_append, length_wordDigits,
    length_rdropWhile_writeWord hhi, leadingLoop_eq, Nat.add_zero, Nat.add_comm]

/-- Words of zero are zeros at the bottom. -/
theorem wordDigits_dropWhile {words : List Nat} (h : Words words) :
    (wordDigits words).dropWhile (· = ch '0') =
      (wordDigits (words.dropWhile (· = 0))).dropWhile (· = ch '0') := by
  induction words with
  | nil => rfl
  | cons w words ih =>
      rw [List.dropWhile_cons]
      split
      · rename_i hw
        rw [of_decide_eq_true hw, wordDigits_cons, List.dropWhile_append, dropWhile_writeWord_zero]
        exact ih (digits_cons.mp h).2
      · rfl

/-- The lowest word that is not zero keeps a digit. -/
theorem wordDigits_lowest {words rest : List Nat} {lo : Nat} (h : Words words)
    (hskip : words.dropWhile (· = 0) = lo :: rest) :
    lo < deciBase ∧ 0 < lo ∧ (writeWord deciBaseLog lo).dropWhile (· = ch '0') ≠ [] ∧
      (wordDigits (lo :: rest)).dropWhile (· = ch '0') =
        (writeWord deciBaseLog lo).dropWhile (· = ch '0') ++ wordDigits rest := by
  have hmem : lo ∈ words.dropWhile (· = 0) := hskip ▸ List.mem_cons_self
  have hlo : lo < deciBase := h lo ((List.dropWhile_sublist _).subset hmem)
  have h0 : 0 < lo := by
    apply Nat.pos_of_ne_zero
    intro h0
    have hnot := List.head?_dropWhile_not (fun w => decide (w = 0)) words
    rw [hskip, h0] at hnot
    simp at hnot
  obtain ⟨c, hc, hc0⟩ := exists_digit_ne_zero hlo h0
  have hne : (writeWord deciBaseLog lo).dropWhile (· = ch '0') ≠ [] := by
    intro hnil
    exact hc0 (of_decide_eq_true (List.dropWhile_eq_nil_iff.mp hnil c hc))
  refine ⟨hlo, h0, hne, ?_⟩
  rw [wordDigits_cons, List.dropWhile_append, if_neg (by simpa using hne)]

/-- The fraction keeps all digits of the words above the lowest that is not zero. -/
theorem length_trailing (hw : Words w) :
    (match w.dropWhile (· = 0) with
      | [] => some 0
      | lo :: words => (trailingLoop lo deciBaseLog).map (· + words.length * deciBaseLog)) =
      some ((wordDigits w).dropWhile (· = ch '0')).length := by
  rw [wordDigits_dropWhile hw]
  cases hskip : w.dropWhile (· = 0) with
  | nil => rfl
  | cons lo words =>
      obtain ⟨hlo, h0, -, htext⟩ := wordDigits_lowest hw hskip
      rw [htext, List.length_append, length_wordDigits]
      simp only [trailingLoop_eq hlo h0, Option.map_some]

end

/-! ## The printed text -/

section

variable [DeciBase] {a : Number}

/-- The digits of the integer part as they are printed, the lowest first. -/
def Number.intText (a : Number) : Bytes :=
  if a.nwords = a.scale then [ch '0'] else (wordDigits (a.words.drop a.scale)).rdropWhile (· = ch '0')

/-- The digits of the fraction as they are printed, the lowest first. -/
def Number.fracText (a : Number) : Bytes :=
  (wordDigits (a.words.take a.scale)).dropWhile (· = ch '0')

/-- The printer writes the sign, the integer part, and the fraction behind a dot if it has digits. -/
theorem numberTostring_eq (ha : a.Wf) : numberTostring a =
    finalizeTostring ((if a.sign then [ch '-'] else []) ++ (a.intText.reverse ++
      if a.fracText = [] then [] else ch '.' :: a.fracText.reverse)) := by
  obtain ⟨d, hd⟩ : ∃ d, d = wordDigits (a.words.take a.scale) := ⟨_, rfl⟩
  obtain ⟨sgn, hsgn⟩ : ∃ sgn, sgn = if a.sign then [ch '-'] else [] := ⟨_, rfl⟩
  have hlead : (if a.nwords = a.scale then writeWords a.scale 0 a.words ++ [ch '.', ch '0']
      else (writeWords a.scale 0 a.words).rdropWhile (· = ch '0')) = d ++ ch '.' :: a.intText := by
    rw [Number.writeWords_eq ha, ← hd, Number.intText]
    split
    · rw [List.append_nil]
    · exact rdropWhile_append_cons _ _ (by decide)
  have hrev : (if a.sign then d ++ ch '.' :: a.intText ++ [ch '-']
      else d ++ ch '.' :: a.intText).reverse = sgn ++ a.intText.reverse ++ ch '.' :: d.reverse := by
    rw [hsgn]
    cases a.sign <;> simp
  have hdot : ch '.' ∉ d := by
    intro hmem
    exact (isDigit_wordDigits _ _ (hd ▸ hmem)).1 rfl
  rw [numberTostring, hlead, hrev, takenBack_eq hdot rfl, hd, ← Number.fracText, ← hsgn,
    List.append_assoc]

/-! ## The counts agree -/

theorem isDigit_intText (a : Number) : ∀ c ∈ a.intText, IsDigit c := by
  intro c hc
  rw [Number.intText] at hc
  split at hc
  · rw [List.mem_singleton.mp hc]
    exact ⟨by decide, by decide⟩
  · exact isDigit_wordDigits _ c ((List.rdropWhile_prefix _ _).subset hc)

end

/-- A zero loses its sign at the end, which is not a digit. -/
theorem digits_finalizeTostring (s : Bytes) : digitsBefore (finalizeTostring s) = digitsBefore s ∧
    digitsAfter (finalizeTostring s) = digitsAfter s := by
  rw [finalizeTostring]
  split
  · rename_i h
    rw [h]
    exact ⟨by decide, by decide⟩
  · exact ⟨rfl, rfl⟩

/-- The digits before the dot are those between the sign and the rest. -/
theorem digitsBefore_text {i r : Bytes} (sign : Bool) (hi : ∀ c ∈ i, IsDigit c) (hne : i ≠ [])
    (hr : r = [] ∨ ∃ t, r = ch '.' :: t) :
    digitsBefore ((if sign then [ch '-'] else []) ++ (i ++ r)) = i.length := by
  have htake : (i ++ r).takeWhile (· ≠ ch '.') = i := by
    rw [List.takeWhile_append_of_pos fun c hc => decide_eq_true (hi c hc).1]
    rcases hr with rfl | ⟨t, rfl⟩
    · simp
    · simp
  have hunsigned : unsigned ((if sign then [ch '-'] else []) ++ (i ++ r)) = i ++ r := by
    cases sign with
    | true => rfl
    | false =>
        obtain ⟨c, t, rfl⟩ := List.exists_cons_of_ne_nil hne
        have hc := (hi c List.mem_cons_self).2
        simp [unsigned, hc]
  rw [digitsBefore, hunsigned, htake]

/-- The digits after the dot are what follows it. -/
theorem digitsAfter_text {i r : Bytes} (sign : Bool) (hi : ∀ c ∈ i, IsDigit c)
    (hr : r = [] ∨ ∃ t, r = ch '.' :: t) :
    digitsAfter ((if sign then [ch '-'] else []) ++ (i ++ r)) = r.length - 1 := by
  have hall : ∀ c ∈ (if sign then [ch '-'] else []) ++ i, decide (c ≠ ch '.') = true := by
    intro c hc
    rcases List.mem_append.mp hc with hc | hc
    · cases sign with
      | true =>
          rw [List.mem_singleton.mp hc]
          decide
      | false => exact absurd hc List.not_mem_nil
    · exact decide_eq_true (hi c hc).1
  rw [digitsAfter, ← List.append_assoc, List.dropWhile_append_of_pos hall]
  rcases hr with rfl | ⟨t, rfl⟩
  · simp
  · simp

section

variable [Libdeci] {a : Number}

/-- The words of the integer part, with the top word that both the printer and the count look at. -/
theorem intWords_concat (ha : a.Wf) (h : a.nwords ≠ a.scale) : ∃ u hi,
    a.words.drop a.scale = u ++ [hi] ∧ a.words.getD (a.nwords - 1) 0 = hi ∧
      u.length = a.nwords - a.scale - 1 ∧ hi < deciBase ∧ 0 < hi := by
  have hle := ha.scale_le
  rcases List.eq_nil_or_concat' (a.words.drop a.scale) with hnil | ⟨u, hi, hw⟩
  · rw [List.drop_eq_nil_iff, Number.length_words] at hnil
    omega
  · have hwords : a.words = a.words.take a.scale ++ u ++ [hi] := by
      rw [List.append_assoc, ← hw, List.take_append_drop]
    have hlast : a.words.getLast? = some hi := by
      rw [hwords, List.getLast?_concat]
    have hlen : u.length + 1 = a.nwords - a.scale := by
      rw [← Number.length_words, ← List.length_drop, hw, List.length_append, List.length_singleton]
    refine ⟨u, hi, hw, ?_, by omega, ?_, ?_⟩
    · rw [List.getD_eq_getElem?_getD, ← Number.length_words, ← List.getLast?_eq_getElem?, hlast]
      rfl
    · apply ha.words
      rw [hwords]
      simp
    · apply Nat.pos_of_ne_zero
      rintro rfl
      apply ha.top
      rw [hw, List.getLast?_concat]

theorem length_intText (ha : a.Wf) (h : a.nwords ≠ a.scale) : a.intText.length =
    leadingLoop (a.words.getD (a.nwords - 1) 0) 0 + (a.nwords - a.scale - 1) * deciBaseLog := by
  obtain ⟨u, hi, hw, hget, hlen, hhi, h0⟩ := intWords_concat ha h
  rw [Number.intText, if_neg h, hw, length_leading hhi h0, hget, hlen]

theorem intText_ne_nil (ha : a.Wf) : a.intText ≠ [] := by
  by_cases h : a.nwords = a.scale
  · rw [Number.intText, if_pos h]
    exact List.cons_ne_nil _ _
  · obtain ⟨u, hi, -, hget, -, -, h0⟩ := intWords_concat ha h
    have hdigits := List.length_pos_iff.mpr (Nat.digits_ne_nil_iff_ne_zero (b := 10).mpr h0.ne')
    rw [← List.length_pos_iff, length_intText ha h, hget, leadingLoop_eq]
    omega

theorem numberNintdigits_eq (ha : a.Wf) : numberNintdigits a =
    if a.nwords = a.scale then 0 else min a.intText.length sizeMax := by
  have hle := ha.scale_le
  by_cases h : a.nwords = a.scale
  · rw [if_pos h, numberNintdigits, if_pos (by omega)]
  · rw [if_neg h, numberNintdigits, if_neg (by omega), saturate_eq, length_intText ha h]

theorem numberNfracdigits_eq (ha : a.Wf) :
    numberNfracdigits a = some (min a.fracText.length sizeMax) := by
  have hcount := length_trailing (ha.words.take a.scale)
  rw [numberNfracdigits, deciSkip0_eq, Number.fracText]
  split
  · rename_i hskip
    rw [hskip] at hcount
    rw [← Option.some.inj hcount, Nat.zero_min]
  · rename_i lo words hskip
    rw [hskip] at hcount
    obtain ⟨summand, hsummand, hsum⟩ := Option.map_eq_some_iff.mp hcount
    rw [hsummand, Option.bind_eq_bind, Option.bind_some, saturate_eq, hsum]

theorem length_text_le (ha : a.Wf) : a.intText.length ≤ a.nwords * deciBaseLog + 1 ∧
    a.fracText.length ≤ a.nwords * deciBaseLog := by
  have hint : (wordDigits (a.words.drop a.scale)).length ≤ a.nwords * deciBaseLog := by
    rw [length_wordDigits, List.length_drop]
    exact Nat.mul_le_mul_right _ (Nat.sub_le _ _)
  have hfrac : (wordDigits (a.words.take a.scale)).length ≤ a.nwords * deciBaseLog := by
    rw [length_wordDigits, List.length_take_of_le ha.scale_le]
    exact Nat.mul_le_mul_right _ ha.scale_le
  constructor
  · rw [Number.intText]
    split
    · rw [List.length_singleton]
      omega
    · exact (length_rdropWhile_le _ _).trans (hint.trans (Nat.le_succ _))
  · exact (List.dropWhile_sublist _).length_le.trans hfrac

/-- The counts are those of the printed text, cut at `SIZE_MAX`, which no text that can be printed
reaches. -/
theorem num_digits_agree (ha : a.Wf) :
    (numberNintdigits a = if Rounding.trunc a.value = 0 then 0
      else min (digitsBefore (numberTostring a)) sizeMax) ∧
    numberNfracdigits a = some (min (digitsAfter (numberTostring a)) sizeMax) ∧
    (numberTostringSize a ≠ sizeMax → digitsBefore (numberTostring a) < sizeMax ∧
      digitsAfter (numberTostring a) < sizeMax) := by
  have hdigit := isDigit_intText a
  have hrev : ∀ c ∈ a.intText.reverse, IsDigit c := fun c hc => hdigit c (List.mem_reverse.mp hc)
  obtain ⟨r, hr⟩ : ∃ r, r = if a.fracText = [] then [] else ch '.' :: a.fracText.reverse :=
    ⟨_, rfl⟩
  have hshape : r = [] ∨ ∃ t, r = ch '.' :: t := by
    rw [hr]
    split
    · exact .inl rfl
    · exact .inr ⟨_, rfl⟩
  have hbefore : digitsBefore (numberTostring a) = a.intText.length := by
    rw [numberTostring_eq ha, (digits_finalizeTostring _).1, ← hr, digitsBefore_text _ hrev
      (List.reverse_ne_nil_iff.mpr (intText_ne_nil ha)) hshape, List.length_reverse]
  have hafter : digitsAfter (numberTostring a) = a.fracText.length := by
    rw [numberTostring_eq ha, (digits_finalizeTostring _).2, ← hr,
      digitsAfter_text _ hrev hshape, hr]
    split
    · rename_i hnil
      rw [hnil]
      rfl
    · rw [List.length_cons, List.length_reverse, Nat.add_sub_cancel]
  have hzero : a.nwords = a.scale ↔ Rounding.trunc a.value = 0 := by
    rw [← numberIsIzero_iff ha, numberIsIzero, decide_eq_true_eq]
  rw [hbefore, hafter, numberNintdigits_eq ha, numberNfracdigits_eq ha, if_congr hzero rfl rfl]
  refine ⟨rfl, rfl, fun hsize => ?_⟩
  obtain ⟨hint, hfrac⟩ := length_text_le ha
  rw [numberTostringSize_eq] at hsize
  constructor
  · omega
  · omega

end

/-- Minus twelve and a half, with a fraction word of zero. -/
theorem num_digits_agree_half :
    @numberNfracdigits libdeciByValue ⟨true, 2, [0, 5000000000000000000, 12]⟩ =
      some (min (digitsAfter (@numberTostring deciBase64
        ⟨true, 2, [0, 5000000000000000000, 12]⟩)) sizeMax) :=
  (@num_digits_agree libdeciByValue _ (by decide)).2.1

end Calx
