import Calx.Code
import Calx.Positions

/-!
# Line breaks in lexemes

Only a string can hold a line break, behind a backslash, and then the string
has no value: `unescape` knows no such escape.
-/

namespace Calx

open LexemeKind

/-! ## Strings -/

/-- What `string` may pass between the quotes. -/
inductive Quoted : Bytes → Prop
  | nil : Quoted []
  | plain {c : UInt8} {w : Bytes} (hb : c ≠ ch '\\') (hn : ch '\n' ≠ c) (h : Quoted w) :
      Quoted (c :: w)
  | escape {c : UInt8} {w : Bytes} (h : Quoted w) : Quoted (ch '\\' :: c :: w)

theorem Quoted.tail {c : UInt8} {w : Bytes} (h : Quoted (c :: w)) (hc : c ≠ ch '\\') :
    Quoted w := by
  cases h with
  | plain hb hn h => exact h
  | escape h => exact absurd rfl hc

/-- What a closed string holds before its closing quote. -/
theorem stringScan_quoted {s : Bytes} {n : Nat} (h : stringScan s = .closed n) :
    ∃ w, s.take n = w ++ [ch '"'] ∧ Quoted w := by
  fun_induction stringScan s generalizing n with
  | case2 =>
      obtain rfl := StringEnd.closed.inj h
      exact ⟨[], rfl, .nil⟩
  | case6 =>
      obtain rfl := StringEnd.closed.inj h
      exact ⟨[], rfl, .nil⟩
  | case7 c' cs hc ih =>
      obtain ⟨m, hm, rfl⟩ := StringEnd.shift_eq_closed h
      obtain ⟨w, hw, hquoted⟩ := ih hm
      exact ⟨ch '\\' :: c' :: w, by simp [hw], .escape hquoted⟩
  | case9 c c' cs hq hb hn ih =>
      obtain ⟨m, hm, rfl⟩ := StringEnd.shift_eq_closed h
      obtain ⟨w, hw, hquoted⟩ := ih hm
      refine ⟨c :: w, ?_, .plain hb (Ne.symm hn) hquoted⟩
      rw [List.take_succ_cons, hw]
      rfl
  | _ => simp_all

/-- The bytes up to the first backslash, and the escape there. -/
theorem Quoted.split {w : Bytes} (h : Quoted w) :
    ch '\n' ∉ w.takeWhile (· ≠ ch '\\') ∧
      (w.dropWhile (· ≠ ch '\\') = [] ∨
        ∃ c w', w.dropWhile (· ≠ ch '\\') = ch '\\' :: c :: w' ∧ Quoted w') := by
  induction h with
  | nil => exact ⟨by simp, Or.inl rfl⟩
  | plain hb hn h ih =>
      rw [List.takeWhile_cons_of_pos (by simpa using hb),
        List.dropWhile_cons_of_pos (by simpa using hb), List.mem_cons, not_or]
      exact ⟨⟨hn, ih.1⟩, ih.2⟩
  | @escape c w h ih =>
      rw [List.takeWhile_cons_of_neg (by simp), List.dropWhile_cons_of_neg (by simp)]
      exact ⟨List.not_mem_nil, Or.inr ⟨c, w, rfl, h⟩⟩

theorem decodeHex_spec {c : UInt8} {d : Nat} (h : decodeHex c = some d) :
    c ≠ ch '\\' ∧ ch '\n' ≠ c := by
  constructor
  all_goals
    rintro rfl
    simp +decide [decodeHex] at h

/-- A valid escape reads no line break and stops before a byte of the string. -/
theorem unescape_quoted {c v : UInt8} {w : Bytes} {k : Nat} (h : unescape (c :: w) = .ok (v, k))
    (hw : Quoted w) :
    ∃ a b, c :: w = a ++ b ∧ a.length = k ∧ ch '\n' ∉ a ∧ Quoted b := by
  simp only [unescape] at h
  by_cases hx : c = ch 'x'
  · rw [if_pos hx] at h
    rcases w with _ | ⟨hi, w⟩
    · cases h
    · simp only at h
      cases hhi : decodeHex hi with
      | none => simp [hhi] at h
      | some d =>
          rw [hhi] at h
          rcases w with _ | ⟨lo, w⟩
          · cases h
          · simp only at h
            cases hlo : decodeHex lo with
            | none => simp [hlo] at h
            | some e =>
                rw [hlo] at h
                simp only [Except.ok.injEq, Prod.mk.injEq] at h
                obtain ⟨hhi1, hhi2⟩ := decodeHex_spec hhi
                obtain ⟨hlo1, hlo2⟩ := decodeHex_spec hlo
                refine ⟨[c, hi, lo], w, rfl, h.2, ?_, (hw.tail hhi1).tail hlo1⟩
                have hn : ch '\n' ≠ c := by
                  rw [hx]
                  decide
                simp [hn, hhi2, hlo2]
  · rw [if_neg hx] at h
    cases hc : escapeByte c with
    | none => simp [hc] at h
    | some u =>
        rw [hc] at h
        simp only [Except.ok.injEq, Prod.mk.injEq] at h
        refine ⟨[c], w, rfl, h.2, ?_, hw⟩
        have hn : ch '\n' ≠ c := by
          rintro rfl
          simp +decide [escapeByte] at hc
        simpa using hn

/-- A string all of whose escapes are valid holds no line break. -/
theorem Quoted.unbroken {fuel : Nat} {w t : Bytes} (hw : Quoted w) (hfuel : w.length < fuel)
    (h : stringContent fuel w = .ok t) : ch '\n' ∉ w := by
  induction fuel generalizing w t with
  | zero => omega
  | succ fuel ih =>
      obtain ⟨hplain, hrest⟩ := hw.split
      have hsplit : w = w.takeWhile (· ≠ ch '\\') ++ w.dropWhile (· ≠ ch '\\') :=
        List.takeWhile_append_dropWhile.symm
      rw [stringContent] at h
      simp only [Span.drop_takeWhile] at h
      rcases hrest with hnil | ⟨c, w', hesc, hw'⟩
      · rw [hsplit, hnil, List.append_nil]
        exact hplain
      · rw [hesc] at h
        simp only at h
        cases hu : unescape (c :: w') with
        | error k => simp [hu] at h
        | ok r =>
            obtain ⟨v, k⟩ := r
            obtain ⟨a, b, hab, hk, ha, hb⟩ := unescape_quoted hu hw'
            have hdrop : (c :: w').drop k = b := by
              rw [hab, ← hk, List.drop_left]
            simp only [hu, hdrop] at h
            have hlen := congrArg List.length hsplit
            rw [hesc, hab] at hlen
            simp only [List.length_append, List.length_cons] at hlen
            cases hs : stringContent fuel b with
            | error e => simp [hs] at h
            | ok t' =>
                have hbn := ih hb (by omega) hs
                have hne : ch '\n' ≠ ch '\\' := by decide
                rw [hsplit, hesc, hab]
                simp only [List.mem_append, List.mem_cons, not_or]
                exact ⟨hplain, hne, ha, hbn⟩

/-! ## Lexemes -/

/-- The bytes of a lexeme. -/
inductive TextOf (l : Lexeme) : Prop
  | error (h : l.kind = lkError)
  | unbroken (h : ch '\n' ∉ l.text)
  | string {w : Bytes} (hk : l.kind = lkString) (ht : l.text = ch '"' :: (w ++ [ch '"']))
      (hw : Quoted w)

theorem TokenForm.textOf {x : Lexer} {c : UInt8} {s : Bytes} {r : Lexeme × Lexer}
    (h : TokenForm x c r) (hr : x.rest = c :: s) (hline : c ≠ ch '\n') : TextOf r.1 := by
  cases h with
  | fake hc hi => exact .unbroken (by simp [fakeSemicolon, makeLexemeAdvance])
  | number hc =>
      apply TextOf.unbroken
      rw [Calx.number, makeLexemeAdvance, hr, List.tail_cons]
      exact number_text_unbroken hline
  | identifier hc =>
      rw [identifier_eq x hc]
      apply TextOf.unbroken
      rw [makeLexemeAdvance, (samePlace_tokenState x c _).rest_eq, hr]
      exact identifier_text_unbroken hline
  | string hc =>
      rw [Calx.string, hr, List.tail_cons]
      cases hs : stringScan s with
      | closed n =>
          obtain ⟨w, hw, hquoted⟩ := stringScan_quoted hs
          refine .string (w := w) rfl ?_ hquoted
          simp only [makeLexemeAdvance]
          rw [hr, Nat.add_comm, List.take_succ_cons, hw, hc]
      | atEof n => exact .error rfl
      | atEol n => exact .error rfl
  | @operator o ho =>
      apply TextOf.unbroken
      rw [makeLexemeAdvance, (samePlace_tokenState x c _).rest_eq]
      exact ho.text_unbroken
  | unexpected => exact .error rfl

theorem lexAll_textOf (x : Lexer) : ∀ l ∈ lexAll x, TextOf l := by
  apply lexAll_forall (I := fun _ => True) (P := TextOf)
  · intro x _
    refine ⟨?_, Or.inr trivial⟩
    obtain ⟨y, hform, -⟩ := lexerNext_form x
    generalize lexerNext x = r at *
    cases hform with
    | eof hr hi => exact .unbroken (by simp [makeLexemeAdvance])
    | fake hr hi => exact .unbroken (by simp [fakeSemicolon, makeLexemeAdvance])
    | token hr hblank hline hcomment h => exact h.textOf hr hline
  · trivial

/-- A string that has a value holds no line break. -/
theorem TextOf.of_value [DeciBase] {l : Lexeme} (h : TextOf l) (herr : l.kind ≠ lkError)
    (hs : l.kind = lkString → (litConst l).isSome = true) : ch '\n' ∉ l.text := by
  cases h with
  | error h => exact absurd h herr
  | unbroken h => exact h
  | @string w hk ht hw =>
      have hcontent : l.text.tail.dropLast = w := by
        rw [ht, List.tail_cons, List.dropLast_concat]
      have hvalue := hs hk
      rw [litConst, hk] at hvalue
      simp only [hcontent] at hvalue
      cases hc : stringContent (w.length + 1) w with
      | error e => simp [hc] at hvalue
      | ok t =>
          have hn := hw.unbroken (Nat.lt_succ_self _) hc
          have hne : ch '\n' ≠ ch '"' := by decide
          simp [ht, hn, hne]

end Calx
