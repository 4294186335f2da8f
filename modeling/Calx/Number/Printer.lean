import Calx.Lib.Buffer
import Calx.Number.Text
import Calx.Vm.Operators

/-!
# Printing into a buffer

`number_tostring` and `number_tostring_base` of `number.c` with the buffers that
their callers reserve for them.

## Implementation notes

A run is given the capacity of the buffer and fails when it writes behind it or
looks back past its start, so that a result is a run within the buffer. The loop
over the integer part in another base is bounded by an argument of its own.
-/

namespace Calx

open Nat (ofDigits)
open Buffer Positional Libdeci

/-! ## Sizes -/

/-- `uu_add_zu_or_saturate`. -/
def uuAddZuOrSaturate (a b : Nat) : Nat := if a + b < 2 ^ 64 then a + b else sizeMax

/-- `uu_mul_zu_or_saturate`. -/
def uuMulZuOrSaturate (a b : Nat) : Nat := if a * b < 2 ^ 64 then a * b else sizeMax

/-- `number_tostring_size`. -/
def numberTostringSize [DeciBase] (a : Number) : Nat :=
  uuAddZuOrSaturate 3 (uuMulZuOrSaturate a.nwords deciBaseLog)

/-- The loop of `number_tostring_base_size`. -/
def dpwLoop [DeciBase] (base : Nat) : Nat → Nat → Nat → Option Nat
  | 0, _, _ => none
  | fuel + 1, x, dpw => if x < deciBase then dpwLoop base fuel (x * base) (dpw + 1) else some dpw

/-- `number_tostring_base_size`. -/
def numberTostringBaseSize [DeciBase] (fuel : Nat) (a : Number) (base nfrac : Nat) : Option Nat := do
  let dpw ← dpwLoop base fuel 1 0
  some (uuAddZuOrSaturate 3 (uuAddZuOrSaturate nfrac (uuMulZuOrSaturate a.nwords dpw)))

/-! ## The decimal printer -/

/-- The digits of one word. -/
def writeWordIn (cap : Nat) : Nat → Nat → Bytes → Option Bytes
  | 0, _, s => some s
  | j + 1, x, s => do
      let s ← push cap ((ch '0').toNat + x % 10).toUInt8 s
      writeWordIn cap j (x / 10) s

/-- The digits of all words, with the dot before word `sa`. -/
def writeWordsIn [DeciBase] (cap sa : Nat) : Nat → List Nat → Bytes → Option Bytes
  | _, [], s => some s
  | i, w :: words, s => do
      let s ← pushWhen cap (i = sa) (ch '.') s
      let s ← writeWordIn cap deciBaseLog w s
      writeWordsIn cap sa (i + 1) words s

/-- `number_tostring` into a buffer of `cap` bytes. -/
def numberTostringIn [DeciBase] (cap : Nat) (a : Number) : Option Bytes := do
  let p ← writeWordsIn cap a.scale 0 a.words []
  let p ← (if a.nwords = a.scale then push cap (ch '.') p >>= push cap (ch '0')
    else trim (· = ch '0') p)
  let p ← pushWhen cap a.sign (ch '-') p
  let p ← trim (· = ch '0') p.reverse
  let p ← trimOne (· = ch '.') p
  some (finalizeTostring p)

/-! ## The printer for other bases -/

/-- `CHARS`. -/
def chars : Bytes := bytesOf "0123456789ABCDEFGHIJKLMNOPQRSTUVWXYZ"

/-- The loop over the integer part. -/
def writeIntBase [Libdeci] (cap base : Nat) : Nat → List Nat → Bytes → Option Bytes
  | 0, _, _ => none
  | fuel + 1, w, s =>
      if w = [] then some s
      else do
        let d := deciDivmodUword w base
        let c ← chars[d.2]?
        let s ← push cap c s
        writeIntBase cap base fuel (deciNormalize d.1) s

/-- The loop over the digits of the fraction. -/
def writeFracBase [Libdeci] (cap base : Nat) : Nat → List Nat → Bytes → Option Bytes
  | 0, _, s => some s
  | nfrac + 1, w, s => do
      let d := deciMulUword w base
      let c ← chars[d.2]?
      let s ← push cap c s
      writeFracBase cap base nfrac d.1 s

/-- `number_tostring_base` into a buffer of `cap` bytes. -/
def numberTostringBase [Libdeci] (fuel cap : Nat) (a : Number) (base nfrac : Nat) :
    Option Bytes := do
  let p ← writeIntBase cap base fuel (a.words.drop a.scale) []
  let p ← pushWhen cap (p = []) (ch '0') p
  let p ← pushWhen cap a.sign (ch '-') p
  let p ← push cap (ch '.') p.reverse
  let p ← writeFracBase cap base nfrac (a.words.take a.scale) p
  let p ← trim (· = ch '0') p
  let p ← trimOne (· = ch '.') p
  some (finalizeTostring p)

theorem saturate_eq (a b c : Nat) :
    uuAddZuOrSaturate a (uuMulZuOrSaturate b c) = min (a + b * c) sizeMax := by
  unfold uuAddZuOrSaturate uuMulZuOrSaturate sizeMax
  split_ifs <;> omega

theorem numberTostringSize_eq [DeciBase] (a : Number) :
    numberTostringSize a = min (3 + a.nwords * deciBaseLog) sizeMax := saturate_eq _ _ _

theorem baseSize_eq (a b c : Nat) : uuAddZuOrSaturate 3 (uuAddZuOrSaturate a
    (uuMulZuOrSaturate b c)) = min (3 + a + b * c) sizeMax := by
  rw [saturate_eq]
  unfold uuAddZuOrSaturate sizeMax
  split_ifs <;> omega

/-! ## The digits of words -/

@[simp] theorem length_writeWord (j x : Nat) : (writeWord j x).length = j := by
  induction j generalizing x with
  | zero => rfl
  | succ j ih => rw [writeWord, List.length_cons, ih]

theorem writeWordIn_eq {cap j : Nat} (x : Nat) {s : Bytes} (h : s.length + j ≤ cap) :
    writeWordIn cap j x s = some (s ++ writeWord j x) := by
  induction j generalizing x s with
  | zero => simp [writeWordIn, writeWord]
  | succ j ih =>
      rw [writeWordIn, push_eq (by omega), Option.bind_eq_bind, Option.bind_some, ih, writeWord,
        List.append_assoc, List.singleton_append]
      rw [List.length_append, List.length_singleton]
      omega

section Decimal

variable [DeciBase] {cap : Nat} {a : Number}

/-- The decimal digits of words, the lowest first. -/
def wordDigits (words : List Nat) : Bytes := words.flatMap (writeWord deciBaseLog)

theorem wordDigits_cons (w : Nat) (words : List Nat) :
    wordDigits (w :: words) = writeWord deciBaseLog w ++ wordDigits words := rfl

theorem wordDigits_append (words words' : List Nat) :
    wordDigits (words ++ words') = wordDigits words ++ wordDigits words' := List.flatMap_append

@[simp] theorem length_wordDigits (words : List Nat) :
    (wordDigits words).length = words.length * deciBaseLog := by
  induction words with
  | nil => simp [wordDigits]
  | cons w words ih =>
      rw [wordDigits_cons, List.length_append, length_writeWord, ih, List.length_cons, Nat.succ_mul,
        Nat.add_comm]

/-- Behind the dot there are digits only. -/
theorem writeWords_past {sa i : Nat} (words : List Nat) (h : sa < i) :
    writeWords sa i words = wordDigits words := by
  induction words generalizing i with
  | nil => rfl
  | cons w words ih =>
      rw [writeWords, if_neg (by omega), List.nil_append, ih (by omega), wordDigits_cons]

/-- The text of the words: the fraction, then the dot and the integer part if there is one. -/
theorem writeWords_eq {sa i : Nat} (words : List Nat) (h : i ≤ sa) :
    writeWords sa i words = wordDigits (words.take (sa - i)) ++
      if sa < i + words.length then ch '.' :: wordDigits (words.drop (sa - i)) else [] := by
  induction words generalizing i with
  | nil =>
      rw [writeWords, List.take_nil, if_neg (by rw [List.length_nil]; omega), List.append_nil]
      rfl
  | cons w words ih =>
      rw [writeWords, List.length_cons]
      rcases h.eq_or_lt with rfl | hlt
      · rw [if_pos rfl, if_pos (by omega), Nat.sub_self, List.take_zero, List.drop_zero,
          writeWords_past words (Nat.lt_succ_self i), wordDigits_cons]
        rfl
      · obtain ⟨d, hd⟩ : ∃ d, sa - i = d + 1 := ⟨sa - i - 1, by omega⟩
        have hd' : sa - (i + 1) = d := by omega
        rw [if_neg (by omega), List.nil_append, ih (by omega), hd, hd', List.take_succ_cons,
          List.drop_succ_cons, wordDigits_cons, List.append_assoc]
        congr 3
        exact propext (by omega)

theorem writeWordsIn_eq {sa i : Nat} {words : List Nat} {s : Bytes}
    (h : s.length + (writeWords sa i words).length ≤ cap) :
    writeWordsIn cap sa i words s = some (s ++ writeWords sa i words) := by
  induction words generalizing i s with
  | nil => simp [writeWordsIn, writeWords]
  | cons w words ih =>
      rw [writeWords] at h ⊢
      simp only [List.length_append, length_writeWord] at h
      rw [writeWordsIn, pushWhen_eq, Option.bind_eq_bind, Option.bind_some, writeWordIn_eq,
        Option.bind_some, ih]
      · simp only [List.append_assoc, decide_eq_true_eq]
      · simp only [List.length_append, length_writeWord, decide_eq_true_eq]
        omega
      · simp only [List.length_append, decide_eq_true_eq]
        omega
      · intro hi
        rw [if_pos (of_decide_eq_true hi), List.length_singleton] at h
        omega

/-! ## Decimals fit -/

/-- The text of the words of a number. -/
theorem Number.writeWords_eq (ha : a.Wf) : writeWords a.scale 0 a.words =
    wordDigits (a.words.take a.scale) ++
      if a.nwords = a.scale then [] else ch '.' :: wordDigits (a.words.drop a.scale) := by
  have hle := ha.scale_le
  rw [Calx.writeWords_eq a.words (Nat.zero_le _), Nat.sub_zero, Nat.zero_add, Number.length_words]
  congr 1
  by_cases h : a.nwords = a.scale
  · rw [if_pos h, if_neg (by omega)]
  · rw [if_neg h, if_pos (by omega)]

/-- What the loop over the words writes: all digits, and the dot when there is an integer part. -/
theorem Number.length_writeWords (ha : a.Wf) : (writeWords a.scale 0 a.words).length =
    a.nwords * deciBaseLog + if a.nwords = a.scale then 0 else 1 := by
  have hsum : a.scale * deciBaseLog + (a.nwords - a.scale) * deciBaseLog =
      a.nwords * deciBaseLog := by
    rw [← Nat.add_mul, Nat.add_sub_cancel' ha.scale_le]
  rw [Number.writeWords_eq ha, List.length_append, length_wordDigits,
    List.length_take_of_le ha.scale_le]
  split
  · rename_i h
    rw [List.length_nil, h]
  · rw [List.length_cons, length_wordDigits, List.length_drop, Number.length_words]
    omega

/-- Without an integer part the printer adds a dot and a zero, else it looks back for the leading
zeros. -/
theorem leading_eq (ha : a.Wf) (hcap : a.nwords * deciBaseLog + 2 ≤ cap) {p q : Bytes}
    (hp : p = writeWords a.scale 0 a.words)
    (hq : q = if a.nwords = a.scale then p ++ [ch '.', ch '0'] else p.rdropWhile (· = ch '0')) :
    (if a.nwords = a.scale then push cap (ch '.') p >>= push cap (ch '0')
      else trim (· = ch '0') p) = some q ∧ ch '.' ∈ q ∧ q.length ≤ a.nwords * deciBaseLog + 2 := by
  have hlen := Number.length_writeWords ha
  rw [← hp] at hlen
  by_cases h : a.nwords = a.scale
  · rw [if_pos h] at hq hlen ⊢
    have hlast : (p ++ [ch '.']).length < cap := by
      rw [List.length_append, List.length_singleton]
      omega
    refine ⟨?_, ?_, ?_⟩
    · rw [push_eq (by omega), Option.bind_eq_bind, Option.bind_some, push_eq hlast,
        List.append_assoc, hq]
      rfl
    · rw [hq]
      simp
    · rw [hq, List.length_append, hlen]
      rfl
  · rw [if_neg h] at hq hlen ⊢
    have hdot : ch '.' ∈ p := by
      rw [hp, Number.writeWords_eq ha, if_neg h]
      simp
    refine ⟨?_, ?_, ?_⟩
    · rw [trim_eq ⟨_, hdot, by decide⟩, hq]
    · rw [hq]
      exact mem_rdropWhile hdot (by decide)
    · have := length_rdropWhile_le (fun c => decide (c = ch '0')) p
      rw [hq]
      omega

/-- The decimal printer keeps to a buffer of `number_tostring_size` bytes. -/
theorem numberTostringIn_eq (ha : a.Wf) (hcap : 3 + a.nwords * deciBaseLog ≤ cap) :
    numberTostringIn cap a = some (numberTostring a) := by
  obtain ⟨p, hp⟩ : ∃ p, p = writeWords a.scale 0 a.words := ⟨_, rfl⟩
  obtain ⟨q, hq⟩ : ∃ q, q = if a.nwords = a.scale then p ++ [ch '.', ch '0']
    else p.rdropWhile (· = ch '0') := ⟨_, rfl⟩
  have hroom : a.nwords * deciBaseLog + 2 ≤ cap := by omega
  obtain ⟨hlead, hdot, hlen⟩ := leading_eq ha hroom hp hq
  have hp0 : ([] : Bytes).length + (writeWords a.scale 0 a.words).length ≤ cap := by
    rw [Number.length_writeWords ha, List.length_nil]
    split
    · omega
    · omega
  have hsign : q.length < cap := by omega
  obtain ⟨r, hr⟩ : ∃ r, r = (q ++ if a.sign then [ch '-'] else []).reverse := ⟨_, rfl⟩
  have hdot' : ch '.' ∈ r := by
    rw [hr]
    exact List.mem_reverse.mpr (List.mem_append_left _ hdot)
  have htrim : trim (· = ch '0') r = some (r.rdropWhile (· = ch '0')) :=
    trim_eq ⟨_, hdot', by decide⟩
  have hdot'' : ch '.' ∈ r.rdropWhile (· = ch '0') := mem_rdropWhile hdot' (by decide)
  have hif : (if a.sign then q ++ [ch '-'] else q).reverse = r := by
    rw [hr]
    cases a.sign <;> simp
  rw [numberTostringIn, writeWordsIn_eq hp0, ← hp, List.nil_append]
  simp only [Option.bind_eq_bind, Option.bind_some] at hlead ⊢
  rw [hlead, Option.bind_some, pushWhen_eq fun _ => hsign, Option.bind_some, ← hr, htrim,
    Option.bind_some, trimOne_eq (List.ne_nil_of_mem hdot''), Option.bind_some, numberTostring,
    ← hp, ← hq, hif]

/-- What is printed fits into the buffer. -/
theorem length_numberTostring_le (ha : a.Wf) :
    (numberTostring a).length ≤ 3 + a.nwords * deciBaseLog := by
  obtain ⟨p, hp⟩ : ∃ p, p = writeWords a.scale 0 a.words := ⟨_, rfl⟩
  obtain ⟨q, hq⟩ : ∃ q, q = if a.nwords = a.scale then p ++ [ch '.', ch '0']
    else p.rdropWhile (· = ch '0') := ⟨_, rfl⟩
  obtain ⟨-, -, hlen⟩ := leading_eq ha (Nat.le_refl _) hp hq
  obtain ⟨r, hr⟩ : ∃ r, r = (if a.sign then q ++ [ch '-'] else q).reverse := ⟨_, rfl⟩
  have hrlen : r.length ≤ a.nwords * deciBaseLog + 3 := by
    rw [hr, List.length_reverse]
    split
    · rw [List.length_append, List.length_singleton]
      omega
    · omega
  have htrim := length_rdropWhile_le (fun c => decide (c = ch '0')) r
  have hfinal : ∀ s, (finalizeTostring s).length ≤ s.length := fun s => by
    rw [finalizeTostring]
    split
    · rename_i h
      rw [h]
      decide
    · exact Nat.le_refl _
  rw [numberTostring, ← hp, ← hq, ← hr]
  refine (hfinal _).trans ?_
  split
  · rw [List.length_dropLast]
    omega
  · omega

end Decimal

/-! ## The end of both printers -/

/-- The zeros behind the last digit of the fraction are taken back, and a dot without digits. -/
theorem takenBack_eq {s f r : Bytes} (hf : ch '.' ∉ f)
    (hr : r = (s ++ ch '.' :: f.reverse).rdropWhile (· = ch '0')) :
    (if r.getLast? = some (ch '.') then r.dropLast else r) =
      s ++ if f.dropWhile (· = ch '0') = [] then []
        else ch '.' :: (f.dropWhile (· = ch '0')).reverse := by
  have hback : r = s ++ ch '.' :: (f.dropWhile (· = ch '0')).reverse := by
    rw [hr, rdropWhile_append_cons _ _ (by decide), List.rdropWhile_reverse]
  rw [hback]
  cases hcons : f.dropWhile (· = ch '0') with
  | nil => simp
  | cons c t =>
      have hmem : c ∈ f := (List.dropWhile_sublist _).subset (hcons ▸ List.mem_cons_self)
      have hget : (s ++ ch '.' :: (c :: t).reverse).getLast? = some c := by
        rw [List.reverse_cons, ← List.cons_append, ← List.append_assoc]
        exact List.getLast?_concat
      have hne : c ≠ ch '.' := ne_of_mem_of_not_mem hmem hf
      rw [hget, if_neg fun h => hne (Option.some.inj h), if_neg (List.cons_ne_nil c t)]

/-! ## Digits per word -/

section

variable [DeciBase] {base fuel : Nat}

/-- The loop finds the least exponent for which the power of the base is no less than a word. -/
theorem dpwLoop_eq (hb : 2 ≤ base) {k : Nat} (hk : k ≤ Nat.clog base deciBase)
    (hfuel : Nat.clog base deciBase < fuel + k) :
    dpwLoop base fuel (base ^ k) k = some (Nat.clog base deciBase) := by
  induction fuel generalizing k with
  | zero => omega
  | succ fuel ih =>
      rw [dpwLoop, ← pow_succ]
      by_cases hlt : base ^ k < deciBase
      · have hk' : k < Nat.clog base deciBase := (Nat.lt_clog_iff_pow_lt hb).mpr hlt
        rw [if_pos hlt, ih hk' (by omega)]
      · have hle : Nat.clog base deciBase ≤ k := (Nat.clog_le_iff_le_pow hb).mpr (not_lt.mp hlt)
        rw [if_neg hlt, Nat.le_antisymm hk hle]

/-- Sixty-four digits are enough for a word in every base. -/
theorem clog_deciBase_le (hb : 2 ≤ base) : Nat.clog base deciBase ≤ 64 := by
  apply (Nat.clog_le_iff_le_pow hb).mpr
  have hword : deciBase ≤ 2 ^ 64 := by
    rw [deciBase]
    rcases DeciBase.baseLog_eq with h | h
    · rw [deciBaseLog, h]
      norm_num
    · rw [deciBaseLog, h]
      norm_num
  exact hword.trans (Nat.pow_le_pow_left hb 64)

/-- An integer of `k` words has at most `k` times as many digits as a word can have. -/
theorem length_digits_le (hb : 2 ≤ base) {w : List Nat} (hw : Words w) :
    (Nat.digits base (ofDigits deciBase w)).length ≤ w.length * Nat.clog base deciBase := by
  rw [Nat.digits_length_le_iff hb]
  calc ofDigits deciBase w < deciBase ^ w.length := hw.lt one_lt_deciBase
    _ ≤ (base ^ Nat.clog base deciBase) ^ w.length :=
        Nat.pow_le_pow_left (Nat.le_pow_clog hb deciBase) _
    _ = base ^ (w.length * Nat.clog base deciBase) := by rw [← pow_mul, Nat.mul_comm]

end

/-! ## Other bases fit -/

/-- The byte of a digit. -/
def digitChar (d : Nat) : UInt8 := chars.getD d 0

theorem chars_getElem {d : Nat} (hd : d < 36) : chars[d]? = some (digitChar d) := by
  have hlen : chars.length = 36 := by decide
  rw [digitChar, List.getD_eq_getElem?_getD, List.getElem?_eq_getElem (hlen ▸ hd),
    Option.getD_some]

/-- What the bytes of digits are, and what they are not. -/
theorem digitChar_spec {d : Nat} (hd : d < 36) :
    digitChar d ≠ ch '.' ∧ digitChar d ≠ quote ∧ digitChar d ≠ ch '-' ∧
      decodeDigit (digitChar d) = d ∧ (digitChar d = ch '0' ↔ d = 0) := by
  revert d
  decide

section Base

variable [Libdeci] {cap base fuel : Nat} {a : Number}

theorem base_lt_deciBase (hb' : base ≤ 36) : base < deciBase := by
  have hword : 10 ^ 9 ≤ deciBase := by
    rw [deciBase, deciBaseLog]
    rcases DeciBase.baseLog_eq with h | h
    · rw [h]
    · rw [h]
      norm_num
  omega

/-- The loop over the integer part writes its digits, the lowest first. -/
theorem writeIntBase_eq (hb : 2 ≤ base) (hb' : base ≤ 36) {w : List Nat} (hw : Words w)
    (htop : TopNonzero w) {s : Bytes}
    (hfuel : (Nat.digits base (ofDigits deciBase w)).length < fuel)
    (hcap : s.length + (Nat.digits base (ofDigits deciBase w)).length ≤ cap) :
    writeIntBase cap base fuel w s =
      some (s ++ (Nat.digits base (ofDigits deciBase w)).map digitChar) := by
  have hpos : 0 < base := by omega
  induction fuel generalizing w s with
  | zero => exact absurd hfuel (Nat.not_lt_zero _)
  | succ fuel ih =>
      by_cases hnil : w = []
      · subst hnil
        simp [writeIntBase]
      · obtain ⟨v, hv⟩ : ∃ v, v = ofDigits deciBase w := ⟨_, rfl⟩
        rw [← hv] at hfuel hcap ⊢
        have hv0 : 0 < v := by
          rw [hv]
          exact Nat.pos_of_ne_zero (mt (ofDigits_eq_zero_iff_nil one_lt_deciBase hw htop).mp hnil)
        obtain ⟨hlen, hwords, hquot, hrem⟩ :=
          deciDivmodUword_spec w base hw hpos (base_lt_deciBase hb')
        rw [← hv] at hquot hrem
        have hrest : ofDigits deciBase (deciNormalize (deciDivmodUword w base).1) = v / base := by
          rw [deciNormalize_eq, ofDigits_trimTop, hquot]
        have hdigits := Nat.digits_def' hb hv0
        rw [hdigits, List.length_cons] at hfuel hcap
        have hc : chars[(deciDivmodUword w base).2]? = some (digitChar (v % base)) := by
          rw [hrem]
          exact chars_getElem ((Nat.mod_lt _ hpos).trans_le hb')
        have ht := ih (w := deciNormalize (deciDivmodUword w base).1)
          (s := s ++ [digitChar (v % base)])
          (by rw [deciNormalize_eq]; exact hwords.trimTop)
          (by rw [deciNormalize_eq]; exact topNonzero_trimTop _)
          (by rw [hrest]; omega)
          (by rw [hrest, List.length_append, List.length_singleton]; omega)
        rw [writeIntBase, if_neg hnil]
        simp only [hc, Option.bind_eq_bind, Option.bind_some]
        rw [push_eq (by omega), Option.bind_some, ht, hrest, hdigits, List.append_assoc,
          List.singleton_append, List.map_cons]

/-- One turn of the loop over the fraction takes off the highest digit. -/
theorem fracTurn (hb : 2 ≤ base) (hb' : base ≤ 36) {w : List Nat} (hw : Words w) (nfrac : Nat) :
    (deciMulUword w base).2 < base ∧
      fixedDigits base (nfrac + 1) (ofDigits deciBase w * base ^ (nfrac + 1) / deciBase ^ w.length) =
        fixedDigits base nfrac
          (ofDigits deciBase (deciMulUword w base).1 * base ^ nfrac / deciBase ^ w.length) ++
            [(deciMulUword w base).2] := by
  obtain ⟨hlen, hwords, -, hvalue⟩ := deciMulUword_spec w base hw (base_lt_deciBase hb')
  have hpow : 0 < deciBase ^ w.length := Nat.pow_pos deciBase_pos
  have hcarry : (deciMulUword w base).2 < base := by
    apply Nat.lt_of_mul_lt_mul_left (a := deciBase ^ w.length)
    calc deciBase ^ w.length * (deciMulUword w base).2
        ≤ ofDigits deciBase w * base := hvalue ▸ Nat.le_add_left _ _
      _ < deciBase ^ w.length * base :=
          Nat.mul_lt_mul_of_pos_right (hw.lt one_lt_deciBase) (by omega)
  have hlt := hwords.lt one_lt_deciBase
  rw [hlen] at hlt
  have hrest : ofDigits deciBase (deciMulUword w base).1 * base ^ nfrac / deciBase ^ w.length <
      base ^ nfrac := by
    rw [Nat.div_lt_iff_lt_mul hpow, Nat.mul_comm (base ^ nfrac)]
    exact Nat.mul_lt_mul_of_pos_right hlt (Nat.pow_pos (by omega))
  refine ⟨hcarry, ?_⟩
  rw [← fixedDigits_concat hb hrest hcarry]
  congr 1
  calc ofDigits deciBase w * base ^ (nfrac + 1) / deciBase ^ w.length
      = ofDigits deciBase w * base * base ^ nfrac / deciBase ^ w.length := by
        rw [pow_succ', Nat.mul_assoc]
    _ = (ofDigits deciBase (deciMulUword w base).1 * base ^ nfrac +
          deciBase ^ w.length * (base ^ nfrac * (deciMulUword w base).2)) /
            deciBase ^ w.length := by
        rw [← hvalue]
        congr 1
        ring
    _ = _ := Nat.add_mul_div_left _ _ hpow

/-- The loop over the fraction writes as many digits as it is told, the highest first. -/
theorem writeFracBase_eq (hb : 2 ≤ base) (hb' : base ≤ 36) {nfrac : Nat} {w : List Nat}
    (hw : Words w) {s : Bytes} (hcap : s.length + nfrac ≤ cap) :
    writeFracBase cap base nfrac w s = some (s ++ ((fixedDigits base nfrac
      (ofDigits deciBase w * base ^ nfrac / deciBase ^ w.length)).map digitChar).reverse) := by
  induction nfrac generalizing w s with
  | zero => simp [writeFracBase, fixedDigits]
  | succ nfrac ih =>
      obtain ⟨hlen, hwords, -, -⟩ := deciMulUword_spec w base hw (base_lt_deciBase hb')
      obtain ⟨hcarry, hturn⟩ := fracTurn hb hb' hw nfrac
      have ht := ih (s := s ++ [digitChar (deciMulUword w base).2]) hwords (by
        rw [List.length_append, List.length_singleton]
        omega)
      rw [hlen] at ht
      rw [writeFracBase]
      simp only [chars_getElem (hcarry.trans_le hb'), Option.bind_eq_bind, Option.bind_some]
      rw [push_eq (by omega), Option.bind_some, ht, hturn, List.map_append, List.reverse_append,
        List.append_assoc]
      rfl

/-- The digits of the fraction that are printed, the lowest first. -/
def Number.fracBase (a : Number) (base nfrac : Nat) : List Nat :=
  fixedDigits base nfrac (ofDigits deciBase (a.words.take a.scale) * base ^ nfrac / deciBase ^ a.scale)

/-- The printer for another base writes the sign, the integer part or a zero for it, and the fraction
behind a dot if it has digits, and keeps to a buffer with room for three bytes more than digits. -/
theorem numberTostringBase_eq (ha : a.Wf) (hb : 2 ≤ base) (hb' : base ≤ 36) {nfrac : Nat}
    {i f : Bytes} (hi : i = (Nat.digits base (ofDigits deciBase (a.words.drop a.scale))).map digitChar)
    (hf : f = ((a.fracBase base nfrac).map digitChar).dropWhile (· = ch '0'))
    (hfuel : a.nwords * Nat.clog base deciBase < fuel)
    (hcap : 3 + nfrac + a.nwords * Nat.clog base deciBase ≤ cap) :
    numberTostringBase fuel cap a base nfrac = some (finalizeTostring
      ((if a.sign then [ch '-'] else []) ++ ((i ++ if i = [] then [ch '0'] else []).reverse ++
        if f = [] then [] else ch '.' :: f.reverse))) := by
  have hdigits : (Nat.digits base (ofDigits deciBase (a.words.drop a.scale))).length ≤
      a.nwords * Nat.clog base deciBase := by
    refine (length_digits_le hb (ha.words.drop a.scale)).trans (Nat.mul_le_mul_right _ ?_)
    rw [List.length_drop]
    exact Nat.sub_le _ _
  have hint := writeIntBase_eq (s := []) hb hb' (ha.words.drop a.scale) ha.top
    (hdigits.trans_lt hfuel) (show _ ≤ cap by rw [List.length_nil]; omega)
  rw [List.nil_append, ← hi] at hint
  have hilen : i.length ≤ a.nwords * Nat.clog base deciBase := by
    rw [hi, List.length_map]
    exact hdigits
  -- A zero stands for an integer part without digits.
  obtain ⟨u, hu⟩ : ∃ u, u = i ++ if i = [] then [ch '0'] else [] := ⟨_, rfl⟩
  have hzero : pushWhen cap (i = []) (ch '0') i = some u := by
    rw [pushWhen_eq fun _ => by omega, hu]
    simp only [decide_eq_true_eq]
  have hulen : u.length ≤ a.nwords * Nat.clog base deciBase + 1 := by
    rw [hu]
    split
    · rw [List.length_append, List.length_singleton]
      omega
    · rw [List.append_nil]
      omega
  obtain ⟨v, hv⟩ : ∃ v, v = (if a.sign then [ch '-'] else []) ++ u.reverse := ⟨_, rfl⟩
  have hrev : (u ++ if a.sign then [ch '-'] else []).reverse = v := by
    rw [hv, List.reverse_append]
    cases a.sign <;> rfl
  have hvlen : v.length ≤ a.nwords * Nat.clog base deciBase + 2 := by
    rw [← hrev, List.length_reverse, List.length_append]
    split
    · rw [List.length_singleton]
      omega
    · rw [List.length_nil]
      omega
  obtain ⟨g, hg⟩ : ∃ g, g = (a.fracBase base nfrac).map digitChar := ⟨_, rfl⟩
  have hfrac := writeFracBase_eq (s := v ++ [ch '.']) hb hb' (ha.words.take a.scale)
    (show _ + nfrac ≤ cap by rw [List.length_append, List.length_singleton]; omega)
  rw [List.length_take_of_le ha.scale_le, ← Number.fracBase, ← hg, List.append_assoc,
    List.singleton_append] at hfrac
  have hdot : ch '.' ∈ v ++ ch '.' :: g.reverse := by simp
  obtain ⟨r, hr⟩ : ∃ r, r = (v ++ ch '.' :: g.reverse).rdropWhile (· = ch '0') := ⟨_, rfl⟩
  have hdot' : ch '.' ∈ r := hr ▸ mem_rdropWhile hdot (by decide)
  have hgdot : ch '.' ∉ g := by
    intro hmem
    obtain ⟨d, hd, hchar⟩ := List.mem_map.mp (hg ▸ hmem)
    have hlt : d < base := digits_fixedDigits (by omega) _ _ d hd
    exact (digitChar_spec (hlt.trans_le hb')).1 hchar
  rw [numberTostringBase, hint]
  simp only [Option.bind_eq_bind, Option.bind_some]
  rw [hzero, Option.bind_some, pushWhen_eq fun _ => by omega, Option.bind_some, hrev,
    push_eq (by omega), Option.bind_some, hfrac, Option.bind_some, trim_eq ⟨_, hdot, by decide⟩,
    Option.bind_some, ← hr, trimOne_eq (List.ne_nil_of_mem hdot'), Option.bind_some,
    takenBack_eq hgdot hr, hf, ← hg, hv, ← hu, List.append_assoc]

/-- What `X_Encode` relies on: the size that it reserves is enough unless it is `SIZE_MAX`. -/
theorem numberTostringBaseSize_fits (ha : a.Wf) (hb : 2 ≤ base) (hb' : base ≤ 36) {nfrac : Nat}
    (hfuel : 64 < fuel) (hfuel' : a.nwords * Nat.clog base deciBase < fuel) :
    ∃ size, numberTostringBaseSize fuel a base nfrac = some size ∧
      (size ≠ sizeMax → ∃ s, numberTostringBase fuel size a base nfrac = some s) := by
  have hle := clog_deciBase_le hb
  have hdpw := dpwLoop_eq (k := 0) hb (Nat.zero_le _) (show _ < fuel + 0 by omega)
  rw [pow_zero] at hdpw
  refine ⟨_, by rw [numberTostringBaseSize, hdpw]; rfl, fun hsize => ?_⟩
  refine ⟨_, numberTostringBase_eq ha hb hb' rfl rfl hfuel' ?_⟩
  rw [baseSize_eq] at hsize ⊢
  omega

/-- Both printers run within the buffers that are reserved for them, in every base. -/
theorem print_buffers (ha : a.Wf) :
    (∀ cap, 3 + a.nwords * deciBaseLog ≤ cap → numberTostringIn cap a = some (numberTostring a)) ∧
    ∀ base, 2 ≤ base → base ≤ 36 → ∃ dpw, (∀ fuel, 64 < fuel → dpwLoop base fuel 1 0 = some dpw) ∧
      ∀ nfrac cap fuel, 3 + nfrac + a.nwords * dpw ≤ cap → a.nwords * dpw < fuel →
        ∃ s, numberTostringBase fuel cap a base nfrac = some s := by
  constructor
  · intro cap hcap
    exact numberTostringIn_eq ha hcap
  · intro base hb hb'
    refine ⟨Nat.clog base deciBase, fun fuel hfuel => ?_, fun nfrac cap fuel hcap hfuel => ?_⟩
    · have hle := clog_deciBase_le hb
      exact dpwLoop_eq (k := 0) hb (Nat.zero_le _) (by omega)
    · exact ⟨_, numberTostringBase_eq ha hb hb' rfl rfl hfuel hcap⟩

end Base

/-- Minus one half takes all its twenty-two bytes, and sixteen digits of it in base two fit. -/
theorem print_buffers_half :
    @numberTostringIn deciBase64 22 ⟨true, 1, [5000000000000000000]⟩ =
        some (@numberTostring deciBase64 ⟨true, 1, [5000000000000000000]⟩) ∧
      ∃ s, @numberTostringBase libdeciByValue 100 100 ⟨true, 1, [5000000000000000000]⟩ 2 16 =
        some s := by
  let := libdeciByValue
  have hwf : Number.Wf ⟨true, 1, [5000000000000000000]⟩ := by decide
  obtain ⟨hdecimal, hbase⟩ := print_buffers hwf
  obtain ⟨dpw, hdpw, hrun⟩ := hbase 2 (by decide) (by decide)
  have hle : dpw = 64 := by
    have h := hdpw 65 (by decide)
    have heval : dpwLoop 2 65 1 0 = some 64 := by decide
    exact Option.some.inj (h.symm.trans heval)
  subst hle
  exact ⟨hdecimal 22 (by decide), hrun 16 100 100 (by decide) (by decide)⟩

end Calx
