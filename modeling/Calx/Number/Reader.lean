import Calx.Number.Parse
import Calx.Lexing

/-!
# Decimals read from a span

`number_parse` with the span of its text as an array and its pointers as offsets.
Every byte is read through a bounds check, and a pointer that would leave the
span on either side yields no number.
-/

namespace Calx

open LexemeKind Positional Libdeci

section

variable (a : Bytes)

/-- `span_memchr`. -/
def spanMemchr (s e : Nat) (c : UInt8) : Option (Option Nat) :=
  Span.find (· = c) a (a.length + 1) s e

/-- `memcpy` of `n` bytes from offset `s`. -/
def memcpyFrom (s n : Nat) : Option Bytes :=
  if s + n ≤ a.length then some (Span.slice a s (s + n)) else none

/-- The loop of `copy_remove_sq`, with the bytes copied so far. -/
def copyRemoveSqLoop : Nat → Nat → Bytes → Option Bytes
  | 0, _, _ => none
  | turns + 1, s, r => do
      match ← spanMemchr a s a.length quote with
      | some nextQuote => do
          let segment ← memcpyFrom a s (nextQuote - s)
          copyRemoveSqLoop turns (nextQuote + 1) (r ++ segment)
      | none =>
          if s = a.length then some r
          else do
            let segment ← memcpyFrom a s (a.length - s)
            some (r ++ segment)

/-- `parse_word`. -/
def parseWordAt (s e : Nat) : Option Nat :=
  Span.fold (fun r c => r * 10 + (c.toNat - (ch '0').toNat)) a (a.length + 1) s e 0

variable [DeciBase]

/-- `parse_word_pad`. The number of digits to add must not wrap around. -/
def parseWordPadAt (s e : Nat) : Option Nat :=
  if e - s ≤ deciBaseLog then do
    let r ← parseWordAt a s e
    some (r * 10 ^ (deciBaseLog - (e - s)))
  else none

/-- `parse_int_part` into `n` words. -/
def parseIntPartAt : Nat → Nat → Nat → Option (List Nat)
  | 0, _, _ => some []
  | 1, s, e => do
      let word ← parseWordAt a s e
      some [word]
  | n + 2, s, e =>
      if deciBaseLog ≤ e then do
        let word ← parseWordAt a (e - deciBaseLog) e
        let words ← parseIntPartAt (n + 1) s (e - deciBaseLog)
        some (word :: words)
      else none

/-- `parse_frac_part` into `n` words. -/
def parseFracPartAt : Nat → Nat → Nat → Option (List Nat)
  | 0, _, _ => some []
  | 1, s, e => do
      let word ← parseWordPadAt a s e
      some [word]
  | n + 2, s, e => do
      let word ← parseWordAt a s (s + deciBaseLog)
      let words ← parseFracPartAt (n + 1) (s + deciBaseLog) e
      some (words ++ [word])

/-- `parse_no_sq`. -/
def parseNoSqAt : Option Number := do
  let c ← a[0]?
  let s ← Span.skip (· = ch '0') a (a.length + 1) (if c = ch '-' then 1 else 0) a.length
  match ← spanMemchr a s a.length (ch '.') with
  | some period => do
      let e ← Span.trim (· = ch '0') a a.length
      let intNwords := parseNcharsToNwords (period - s)
      let fracNwords := parseNcharsToNwords (e - (period + 1))
      let fracWords ← parseFracPartAt a fracNwords (period + 1) e
      let intWords ← parseIntPartAt a intNwords s period
      some ⟨c = ch '-', fracNwords, fracWords ++ intWords⟩
  | none => do
      let words ← parseIntPartAt a (parseNcharsToNwords (a.length - s)) s a.length
      some ⟨c = ch '-', 0, words⟩

/-- `number_parse`. -/
def numberParseAt : Option Number := do
  match ← spanMemchr a 0 a.length quote with
  | some _ => do
      let copy ← copyRemoveSqLoop a (a.length + 1) 0 []
      parseNoSqAt copy
  | none => parseNoSqAt a

end

/-! ## Words -/

section

variable {a : Bytes} {s e : Nat}

theorem parseWordAt_eq (hs : s ≤ e) (he : e ≤ a.length) :
    parseWordAt a s e = some (parseWord (Span.slice a s e)) :=
  Span.fold_eq hs he (by omega)

variable [DeciBase]

theorem parseWordPadAt_eq (hs : s ≤ e) (he : e ≤ a.length) (hlog : e - s ≤ deciBaseLog) :
    parseWordPadAt a s e = some (parseWordPad (Span.slice a s e)) := by
  rw [parseWordPadAt, if_pos hlog, parseWordAt_eq hs he, parseWordPad, Span.length_slice he]
  rfl

/-- The words of the integer part are read inside its digits. -/
theorem parseIntPartAt_eq {n : Nat} (hs : s ≤ e) (he : e ≤ a.length) (hcut : Cut n (e - s)) :
    parseIntPartAt a n s e = some (parseIntPart n (Span.slice a s e)) := by
  induction n using Nat.twoStepInduction generalizing e with
  | zero => rfl
  | one =>
      rw [parseIntPartAt, parseWordAt_eq hs he, parseIntPart]
      rfl
  | more n _ ih =>
      obtain ⟨hlt, hrest⟩ := hcut.rest
      rw [Nat.sub_right_comm] at hrest
      have hsplit := Span.slice_append (a := a) (i := s) (j := e - deciBaseLog) (e := e)
        (by omega) (Nat.sub_le _ _)
      have hlen : (Span.slice a s e).length - deciBaseLog =
          (Span.slice a s (e - deciBaseLog)).length := by
        rw [Span.length_slice he, Span.length_slice (by omega)]
        omega
      rw [parseIntPartAt, if_pos (by omega), parseWordAt_eq (Nat.sub_le _ _) he,
        ih (by omega) (by omega) hrest, parseIntPart, hlen, hsplit, List.drop_left, List.take_left]
      rfl

/-- The words of the fraction are read inside its digits. -/
theorem parseFracPartAt_eq {n : Nat} (hs : s ≤ e) (he : e ≤ a.length) (hcut : Cut n (e - s)) :
    parseFracPartAt a n s e = some (parseFracPart n (Span.slice a s e)) := by
  induction n using Nat.twoStepInduction generalizing s with
  | zero => rfl
  | one =>
      have hlog := hcut.le
      rw [Nat.one_mul] at hlog
      rw [parseFracPartAt, parseWordPadAt_eq hs he hlog, parseFracPart]
      rfl
  | more n _ ih =>
      obtain ⟨hlt, hrest⟩ := hcut.rest
      rw [Nat.sub_sub] at hrest
      have hmid : s + deciBaseLog ≤ e := by omega
      have hsplit := Span.slice_append (a := a) (i := s) (j := s + deciBaseLog) (e := e)
        (Nat.le_add_right _ _) hmid
      have hlen : (Span.slice a s (s + deciBaseLog)).length = deciBaseLog := by
        rw [Span.length_slice (by omega), Nat.add_sub_cancel_left]
      rw [parseFracPartAt, parseWordAt_eq (Nat.le_add_right _ _) (by omega), ih hmid hrest,
        parseFracPart, hsplit, List.drop_left' hlen, List.take_left' hlen]
      rfl

end

/-! ## Quotes -/

section

variable {a : Bytes} {s e : Nat} {c : UInt8}

theorem spanMemchr_none (hs : s ≤ e) (he : e ≤ a.length) (h : c ∉ Span.slice a s e) :
    spanMemchr a s e c = some none := by
  apply Span.find_none hs he (by omega)
  intro d hd
  exact decide_eq_false (ne_of_mem_of_not_mem hd h)

/-- `span_memchr` splits the span at the first `c`. -/
theorem spanMemchr_some {i f : Bytes} (hs : s ≤ e) (he : e ≤ a.length)
    (h : Span.slice a s e = i ++ c :: f) (hi : c ∉ i) :
    spanMemchr a s e c = some (some (s + i.length)) ∧ s + i.length < e ∧
      Span.slice a s (s + i.length) = i ∧ Span.slice a (s + i.length + 1) e = f := by
  have hmem : ∃ d ∈ Span.slice a s e, decide (d = c) = true := ⟨c, by simp [h], by simp⟩
  have hturns : e - s < a.length + 1 := by omega
  obtain ⟨j, hj, hsj, hje, htake, -⟩ := Span.find_some hs he hturns hmem
  have htakeWhile : (i ++ c :: f).takeWhile (fun d => !decide (d = c)) = i := by
    rw [List.takeWhile_append_of_pos fun d hd => by simp [ne_of_mem_of_not_mem hd hi]]
    simp
  have hlen := congrArg List.length htake
  rw [h, htakeWhile, Span.length_slice (by omega)] at hlen
  obtain rfl : j = s + i.length := by omega
  exact ⟨hj, Span.slice_split_cons he hs h⟩

theorem memcpyFrom_eq (hs : s ≤ e) (he : e ≤ a.length) :
    memcpyFrom a s (e - s) = some (Span.slice a s e) := by
  rw [memcpyFrom, Nat.add_sub_cancel' hs, if_pos he]

/-- `copy_remove_sq` copies the bytes that are no quotes. -/
theorem copyRemoveSqLoop_eq {turns : Nat} (r : Bytes) (hs : s ≤ a.length)
    (hturns : a.length - s < turns) :
    copyRemoveSqLoop a turns s r = some (r ++ copyRemoveSq (Span.slice a s a.length)) := by
  induction turns generalizing s r with
  | zero => omega
  | succ turns ih =>
      rw [copyRemoveSqLoop]
      by_cases hq : quote ∈ Span.slice a s a.length
      · obtain ⟨i, f, hif, hi⟩ := List.eq_append_cons_of_mem hq
        obtain ⟨hfind, hlt, hslice, hrest⟩ := spanMemchr_some hs (Nat.le_refl _) hif hi
        have hclean : copyRemoveSq i = i := List.filter_eq_self.mpr fun d hd =>
          decide_eq_true (ne_of_mem_of_not_mem hd hi)
        have hcopy : copyRemoveSq (i ++ quote :: f) = i ++ copyRemoveSq f := by
          have happend : copyRemoveSq (i ++ quote :: f) =
              copyRemoveSq i ++ copyRemoveSq (quote :: f) := List.filter_append _ _
          rw [happend, hclean]
          rfl
        rw [hfind]
        simp only [Option.bind_eq_bind, Option.bind_some]
        rw [memcpyFrom_eq (Nat.le_add_right _ _) (Nat.le_of_lt hlt), hslice, Option.bind_some,
          ih _ hlt (by omega), hrest, hif, hcopy, List.append_assoc]
      · have hclean : copyRemoveSq (Span.slice a s a.length) = Span.slice a s a.length :=
          List.filter_eq_self.mpr fun d hd => decide_eq_true (ne_of_mem_of_not_mem hd hq)
        rw [spanMemchr_none hs (Nat.le_refl _) hq, hclean]
        simp only [Option.bind_eq_bind, Option.bind_some]
        split
        · rename_i hend
          rw [Span.slice_of_le (Nat.le_of_eq hend.symm), List.append_nil]
        · rw [memcpyFrom_eq hs (Nat.le_refl _)]
          rfl

end

/-! ## The reader -/

section

variable [DeciBase] {a : Bytes}

/-- `parse_no_sq` reads inside a span that is not empty. -/
theorem parseNoSqAt_eq (h : a ≠ []) : parseNoSqAt a = some (parseNoSq a) := by
  obtain ⟨c, t, rfl⟩ := List.exists_cons_of_ne_nil h
  have hsign : (c :: t).head? = some (ch '-') ↔ c = ch '-' := by simp
  have hstart : Span.slice (c :: t) (if c = ch '-' then 1 else 0) (c :: t).length =
      if c = ch '-' then t else c :: t := by
    rw [Span.slice_length]
    split <;> rfl
  have hle : (if c = ch '-' then 1 else 0) ≤ (c :: t).length := by
    rw [List.length_cons]
    split <;> omega
  have hturns : (c :: t).length - (if c = ch '-' then 1 else 0) < (c :: t).length + 1 := by omega
  obtain ⟨s, hskip, hcs, hse, -, hslice⟩ :=
    Span.skip_spec (p := (· = ch '0')) hle (Nat.le_refl _) hturns
  rw [hstart] at hslice
  rw [parseNoSqAt, List.getElem?_cons_zero]
  simp only [parseNoSq, Option.bind_eq_bind, Option.bind_some, hskip, hsign, List.tail_cons]
  rw [← hslice]
  by_cases hpoint : ch '.' ∈ Span.slice (c :: t) s (c :: t).length
  · obtain ⟨i, f, hif, hi⟩ := List.eq_append_cons_of_mem hpoint
    obtain ⟨hfind, hlt, -, -⟩ := spanMemchr_some hse (Nat.le_refl _) hif hi
    have hstop : ∃ d ∈ Span.slice (c :: t) s (c :: t).length, decide (d = ch '0') = false :=
      ⟨ch '.', hpoint, by decide⟩
    obtain ⟨e, htrim, hsne, hele, htrimmed⟩ := Span.trim_spec (Nat.le_refl _) hstop
    rw [hif, rdropWhile_point] at htrimmed
    obtain ⟨hie, hint, hfrac⟩ := Span.slice_split_cons hele (Nat.le_of_lt hsne) htrimmed
    have hintLen : s + i.length - s = i.length := Nat.add_sub_cancel_left s i.length
    have hfracLen : e - (s + i.length + 1) = (f.rdropWhile (· = ch '0')).length := by
      rw [← hfrac, Span.length_slice hele]
    have hfracCut := cut_parseNcharsToNwords (e - (s + i.length + 1))
    have hintCut := cut_parseNcharsToNwords (s + i.length - s)
    rw [hfind]
    simp only [Option.bind_some, htrim, parseFracPartAt_eq hie hele hfracCut,
      parseIntPartAt_eq (Nat.le_add_right _ _) (Nat.le_of_lt hlt) hintCut, if_pos hpoint]
    rw [hif, rdropWhile_point, takeWhile_point hi, dropWhile_ne_point hi, hint, hfrac, hintLen,
      hfracLen]
  · rw [spanMemchr_none hse (Nat.le_refl _) hpoint]
    have hcut := cut_parseNcharsToNwords ((c :: t).length - s)
    simp only [Option.bind_some, parseIntPartAt_eq hse (Nat.le_refl _) hcut, if_neg hpoint,
      Span.length_slice (Nat.le_refl _)]

/-- `number_parse` reads inside the span of an accepted text. -/
theorem numberParseAt_eq (h : numberParseBaseValidate a 10 = true) :
    numberParseAt a = some (numberParse a) := by
  obtain ⟨d, hd, -, hquote⟩ := (numberParseBaseValidate_iff.mp h).digit
  have hmem : d ∈ a := by
    rw [unsigned] at hd
    split at hd
    · exact List.mem_of_mem_tail hd
    · exact hd
  have hslice : Span.slice a 0 a.length = a := by rw [Span.slice_length, List.drop_zero]
  rw [numberParseAt, numberParse]
  by_cases hq : quote ∈ a
  · obtain ⟨i, f, hif, hi⟩ := List.eq_append_cons_of_mem hq
    obtain ⟨hfind, -⟩ := spanMemchr_some (Nat.zero_le _) (Nat.le_refl _) (hslice.trans hif) hi
    have hcopy := copyRemoveSqLoop_eq (a := a) [] (Nat.zero_le _) (Nat.lt_succ_self a.length)
    have hne : copyRemoveSq a ≠ [] :=
      List.ne_nil_of_mem (List.mem_filter.mpr ⟨hmem, decide_eq_true hquote⟩)
    rw [hslice, List.nil_append] at hcopy
    simp only [Option.bind_eq_bind, hfind, Option.bind_some, hcopy, parseNoSqAt_eq hne, if_pos hq]
  · have hfind := spanMemchr_none (Nat.zero_le _) (Nat.le_refl _) (by rwa [hslice])
    simp only [Option.bind_eq_bind, hfind, Option.bind_some,
      parseNoSqAt_eq (List.ne_nil_of_mem hmem), if_neg hq]

end

/-! ## Lexed numbers -/

theorem operators_not_number : ∀ o ∈ operators, o.2 ≠ lkNumber := by decide

theorem keywords_not_number : ∀ k ∈ keywords, k.2.1 ≠ lkNumber := by decide

/-- The text of a number lexeme is accepted. -/
theorem TokenForm.number_accepted {x : Lexer} {c : UInt8} {s : Bytes} {r : Lexeme × Lexer}
    (h : TokenForm x c r) (hr : x.rest = c :: s) (hk : r.1.kind = lkNumber) :
    numberParseBaseValidate r.1.text 10 = true := by
  cases h with
  | fake hc hi => cases hk
  | number hc => exact validate_number hr hc
  | identifier hc =>
      rw [identifier_eq x hc] at hk
      have hkind : (keywordKind (x.rest.take (identifierLen x.rest))).1 ≠ lkNumber := by
        rcases keywordKind_cases (x.rest.take (identifierLen x.rest)) with h | ⟨k, hk, h⟩
        · rw [h]
          decide
        · rw [h]
          exact keywords_not_number k hk
      exact absurd hk hkind
  | string hc =>
      unfold Calx.string at hk
      split at hk <;> cases hk
  | operator ho => exact absurd hk (operators_not_number _ ho.mem)
  | unexpected => cases hk

theorem lexerNext_number_accepted (x : Lexer) (hk : (lexerNext x).1.kind = lkNumber) :
    numberParseBaseValidate (lexerNext x).1.text 10 = true := by
  obtain ⟨y, hform, -⟩ := lexerNext_form x
  generalize lexerNext x = r at *
  cases hform with
  | eof hr hi => cases hk
  | fake hr hi => cases hk
  | token hr hblank hline hcomment h => exact h.number_accepted hr hk

/-- The text of every number lexeme of a run is accepted. -/
theorem lexAll_number_accepted (x : Lexer) :
    ∀ l ∈ lexAll x, l.kind = lkNumber → numberParseBaseValidate l.text 10 = true := by
  apply lexAll_forall (I := fun _ => True)
    (P := fun l => l.kind = lkNumber → numberParseBaseValidate l.text 10 = true)
  · intro x _
    exact ⟨lexerNext_number_accepted x, Or.inr trivial⟩
  · trivial

/-- `number_parse` of an accepted text, and of the text of every number lexeme, reads inside the
text and returns a well-formed number with the value of the text. -/
theorem decimal_read_exactly [DeciBase] (s : Bytes)
    (h : numberParseBaseValidate s 10 = true ∨
      ∃ source, ∃ l ∈ lexAll (lexerNew source), l.kind = lkNumber ∧ l.text = s) :
    ∃ a, numberParseAt s = some a ∧ a.Wf ∧ a.value = denoted 10 s := by
  have hvalid : numberParseBaseValidate s 10 = true := by
    rcases h with h | ⟨source, l, hl, hk, rfl⟩
    · exact h
    · exact lexAll_number_accepted _ l hl hk
  exact ⟨_, numberParseAt_eq hvalid, (numberParse_spec hvalid).1, numberParse_value hvalid⟩

/-- A text with a sign, a quote, zeros and no digit behind the dot. -/
theorem decimal_read_exactly_quoted :
    letI := deciBase64
    ∃ a, numberParseAt (bytesOf "-00'7.") = some a ∧ a.Wf ∧
      a.value = denoted 10 (bytesOf "-00'7.") :=
  letI := deciBase64
  decimal_read_exactly _ (Or.inl (by decide))

end Calx
