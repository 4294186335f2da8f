import Calx.Lexing

/-!
# Positions of lexemes

The line and the column of a lexeme, and `text_nth_line` of `text_manip.c`, which
leads from a line number back to the line. The lexer counts a line break when
`lexer_next` passes it, and the scanner of strings passes one behind a
backslash uncounted.

## Implementation notes

Whether a source has such a string is decided by reading it byte by byte, with a
`Place` that says what the next byte belongs to.
-/

namespace Calx

open LexemeKind

/-! ## Lines of a text -/

/-- `memchr`: the offset of the first `c`. -/
def memchr (s : Bytes) (c : UInt8) : Option Nat :=
  if c ∈ s then some (s.takeWhile (· ≠ c)).length else none

/-- The loop of `text_nth_line`: the bytes passed, and the text behind them. -/
def nthLineLoop : Nat → Bytes → Nat × Bytes
  | 0, text => (0, text)
  | lineno + 1, text =>
      match memchr text (ch '\n') with
      | none => (0, text)
      | some cr =>
          let r := nthLineLoop lineno (text.drop (cr + 1))
          (cr + 1 + r.1, r.2)

/-- `text_nth_line`: the offset of the line and its bytes. -/
def textNthLine (text : Bytes) (lineno : Nat) : Nat × Bytes :=
  let r := nthLineLoop lineno text
  (r.1,
    match memchr r.2 (ch '\n') with
    | none => r.2
    | some cr => r.2.take cr)

/-- The bytes behind the last line break. -/
def sinceBreak (s : Bytes) : Bytes := (s.reverse.takeWhile (· ≠ ch '\n')).reverse

/-- The position of the byte behind `s`. -/
def positionAfter (s : Bytes) : Position :=
  ⟨1 + s.count (ch '\n'), 1 + (sinceBreak s).length⟩

/-- `line` is the line of the text that starts at offset `start`. -/
structure IsLine (text : Bytes) (start : Nat) (line : Bytes) : Prop where
  span : line <+: text.drop start
  unbroken : ch '\n' ∉ line
  begins : start = 0 ∨ text[start - 1]? = some (ch '\n')
  ends : start + line.length = text.length ∨ text[start + line.length]? = some (ch '\n')

/-- The position of a lexeme is that of its first byte, and leads back to its line. -/
structure TruePosition (source : Bytes) (l : Lexeme) : Prop where
  pos : l.pos = positionAfter (source.take l.start)
  line : ∃ start line, textNthLine source (l.pos.line - 1) = (start, line) ∧
    IsLine source start line ∧ start + (l.pos.column - 1) = l.start ∧
    l.start + l.size ≤ start + line.length

theorem memchr_append {a b : Bytes} {c : UInt8} (h : c ∉ a) :
    memchr (a ++ c :: b) c = some a.length := by
  have htake : (a ++ c :: b).takeWhile (· ≠ c) = a := by
    rw [List.takeWhile_append_of_pos fun d hd => decide_eq_true (ne_of_mem_of_not_mem hd h)]
    simp
  rw [memchr, if_pos (by simp), htake]

theorem sinceBreak_append {s t : Bytes} (h : ch '\n' ∉ t) :
    sinceBreak (s ++ t) = sinceBreak s ++ t := by
  have hall : ∀ c ∈ t.reverse, decide (c ≠ ch '\n') = true := fun c hc =>
    decide_eq_true (ne_of_mem_of_not_mem (List.mem_reverse.mp hc) h)
  rw [sinceBreak, List.reverse_append, List.takeWhile_append_of_pos hall, List.reverse_append,
    List.reverse_reverse, sinceBreak]

theorem sinceBreak_of_unbroken {s : Bytes} (h : ch '\n' ∉ s) : sinceBreak s = s :=
  sinceBreak_append (s := []) h

theorem sinceBreak_break (s t : Bytes) : sinceBreak (s ++ ch '\n' :: t) = sinceBreak t := by
  have htake : (t.reverse ++ ch '\n' :: s.reverse).takeWhile (· ≠ ch '\n') =
      t.reverse.takeWhile (· ≠ ch '\n') := by
    rw [List.takeWhile_append]
    split
    · rename_i hlen
      rw [List.takeWhile_cons, if_neg (by simp), List.append_nil]
      exact ((List.takeWhile_sublist _).eq_of_length hlen).symm
    · rfl
  rw [sinceBreak, List.reverse_append, List.reverse_cons, List.append_assoc,
    List.singleton_append, htake, sinceBreak]

/-- What stands in front of the last line. -/
theorem sinceBreak_split (s : Bytes) :
    ∃ t, s = t ++ sinceBreak s ∧ ch '\n' ∉ sinceBreak s ∧
      (t = [] ∨ t.getLast? = some (ch '\n')) := by
  by_cases hmem : ch '\n' ∈ s
  · obtain ⟨a, b, hab, ha⟩ := List.eq_append_cons_of_mem (List.mem_reverse.mpr hmem)
    have hs : s = b.reverse ++ ch '\n' :: a.reverse := by
      rw [← List.reverse_reverse s, hab, List.reverse_append, List.reverse_cons, List.append_assoc,
        List.singleton_append]
    have hlast : ch '\n' ∉ a.reverse := fun h => ha (List.mem_reverse.mp h)
    have hsince : sinceBreak s = a.reverse := by
      rw [hs, sinceBreak_break, sinceBreak_of_unbroken hlast]
    refine ⟨b.reverse ++ [ch '\n'], ?_, by rwa [hsince], Or.inr List.getLast?_concat⟩
    rw [hsince, List.append_assoc, List.singleton_append, hs]
  · have hsince := sinceBreak_of_unbroken hmem
    exact ⟨[], by rw [hsince, List.nil_append], by rwa [hsince], Or.inl rfl⟩

theorem length_sinceBreak_le (s : Bytes) : (sinceBreak s).length ≤ s.length := by
  obtain ⟨t, ht, -⟩ := sinceBreak_split s
  have hlen := congrArg List.length ht
  rw [List.length_append] at hlen
  omega

theorem nthLineLoop_eq (s t : Bytes) :
    nthLineLoop (s.count (ch '\n')) (s ++ t) =
      (s.length - (sinceBreak s).length, sinceBreak s ++ t) := by
  induction hn : s.count (ch '\n') generalizing s with
  | zero =>
      rw [sinceBreak_of_unbroken (List.count_eq_zero.mp hn), Nat.sub_self]
      rfl
  | succ n ih =>
      have hmem : ch '\n' ∈ s := List.count_pos_iff.mp (by omega)
      obtain ⟨a, b, rfl, ha⟩ := List.eq_append_cons_of_mem hmem
      rw [List.count_append, List.count_cons_self, List.count_eq_zero.mpr ha, Nat.zero_add,
        Nat.add_right_cancel_iff] at hn
      have hdrop : (a ++ ch '\n' :: (b ++ t)).drop (a.length + 1) = b ++ t := by
        rw [← List.singleton_append, ← List.append_assoc]
        exact List.drop_left' (by simp)
      have hle := length_sinceBreak_le b
      rw [List.append_assoc, List.cons_append, nthLineLoop, memchr_append ha]
      simp only [hdrop, ih b hn]
      rw [sinceBreak_break, List.length_append, List.length_cons]
      congr 1
      omega

/-- `text_nth_line` of the number of a line is that line. -/
theorem textNthLine_eq (s t : Bytes) :
    textNthLine (s ++ t) (s.count (ch '\n')) =
      (s.length - (sinceBreak s).length, sinceBreak s ++ t.takeWhile (· ≠ ch '\n')) := by
  obtain ⟨-, -, hnot, -⟩ := sinceBreak_split s
  rw [textNthLine, nthLineLoop_eq]
  by_cases hmem : ch '\n' ∈ t
  · obtain ⟨a, b, rfl, ha⟩ := List.eq_append_cons_of_mem hmem
    have htake : (a ++ ch '\n' :: b).takeWhile (· ≠ ch '\n') = a := by
      rw [List.takeWhile_append_of_pos fun c hc => decide_eq_true (ne_of_mem_of_not_mem hc ha)]
      simp
    rw [htake, ← List.append_assoc, memchr_append (by simp [hnot, ha])]
    simp only
    rw [List.take_left]
  · have hall : t.takeWhile (· ≠ ch '\n') = t :=
      List.takeWhile_eq_self_iff.mpr fun c hc => decide_eq_true (ne_of_mem_of_not_mem hc hmem)
    rw [hall, memchr, if_neg (by simp [hnot, hmem])]

/-- The line that the position of an offset leads to. -/
theorem isLine_textNthLine (s t : Bytes) :
    IsLine (s ++ t) (s.length - (sinceBreak s).length)
      (sinceBreak s ++ t.takeWhile (· ≠ ch '\n')) := by
  obtain ⟨u, hu, hnot, hlast⟩ := sinceBreak_split s
  obtain ⟨a, b, rfl, ha, -, hbreak, hend⟩ := unbroken_split t
  rw [ha]
  generalize sinceBreak s = v at *
  subst hu
  have hstart : (u ++ v).length - v.length = u.length := by simp
  have hdrop : (u ++ v ++ (a ++ b)).drop u.length = v ++ a ++ b := by
    rw [List.append_assoc, List.drop_left, List.append_assoc]
  rw [hstart]
  constructor
  · rw [hdrop]
    exact List.prefix_append _ _
  · intro hmem
    rcases List.mem_append.mp hmem with h | h
    · exact hnot h
    · exact hbreak h
  · rcases hlast with rfl | hlast
    · exact Or.inl rfl
    · right
      have hne : u ≠ [] := by
        rintro rfl
        exact absurd hlast (by simp)
      have hlt : u.length - 1 < u.length := Nat.sub_lt (List.length_pos_of_ne_nil hne) Nat.one_pos
      rw [List.append_assoc, List.getElem?_append_left hlt, ← List.getLast?_eq_getElem?, hlast]
  · have hlen : u.length + (v ++ a).length = (u ++ v ++ a).length := by simp
    rw [hlen, ← List.append_assoc]
    rcases hend with rfl | hend
    · left
      rw [List.append_nil]
    · right
      rw [List.getElem?_append_right (Nat.le_refl _), Nat.sub_self, ← List.head?_eq_getElem?, hend]

/-- A lexeme without line breaks whose position is that of its first byte. -/
theorem truePosition_of_pos {source : Bytes} {l : Lexeme} (hle : l.start ≤ source.length)
    (htext : l.text <+: source.drop l.start) (hbreak : ch '\n' ∉ l.text)
    (hpos : l.pos = positionAfter (source.take l.start)) : TruePosition source l := by
  have hlen : (source.take l.start).length = l.start := List.length_take_of_le hle
  have hsince := length_sinceBreak_le (source.take l.start)
  have hline := isLine_textNthLine (source.take l.start) (source.drop l.start)
  have hnth := textNthLine_eq (source.take l.start) (source.drop l.start)
  rw [List.take_append_drop] at hline hnth
  have hnum : l.pos.line - 1 = (source.take l.start).count (ch '\n') := by
    rw [hpos, positionAfter, Nat.add_sub_cancel_left]
  have hcol : l.pos.column - 1 = (sinceBreak (source.take l.start)).length := by
    rw [hpos, positionAfter, Nat.add_sub_cancel_left]
  have hfits : l.size ≤ ((source.drop l.start).takeWhile (· ≠ ch '\n')).length := by
    obtain ⟨t, ht⟩ := htext
    rw [← ht, List.takeWhile_append_of_pos fun c hc =>
      decide_eq_true (ne_of_mem_of_not_mem hc hbreak), List.length_append]
    exact Nat.le_add_right _ _
  rw [hlen] at hsince hline hnth
  refine ⟨hpos, _, _, hnum ▸ hnth, hline, by omega, ?_⟩
  rw [List.length_append]
  omega

/-! ## Line breaks in strings -/

/-- What the next byte of a source belongs to. -/
inductive Place
  | plain
  | word
  | number (seenDot : Bool)
  | comment
  | string
  | escape
deriving DecidableEq, Repr

namespace Place

/-- The place behind the first byte of a token, none if no token starts with it. -/
def start (c : UInt8) : Option Place :=
  if isDigit c then some (number false)
  else if isIdentStart c then some word
  else if c = ch '"' then some string
  else if c = ch '#' then some comment
  else if c = ch ' ' ∨ c = ch '\t' ∨ c = ch '\n' ∨ operatorsAt c ≠ [] then some plain
  else none

/-- The place behind one more byte, none behind the end of an ill-formed token. -/
def next : Place → UInt8 → Option Place
  | plain, c => start c
  | word, c => if isIdentByte c then some word else start c
  | number seenDot, c =>
      if isDigit c || c = quote then some (number seenDot)
      else if c = ch '.' ∧ seenDot = false then some (number true)
      else start c
  | comment, c => if c = ch '\n' then some plain else some comment
  | string, c =>
      if c = ch '"' then some plain
      else if c = ch '\\' then some escape
      else if c = ch '\n' then none
      else some string
  | escape, _ => some string

end Place

/-- Up to the first ill-formed token, some string has a line break behind a backslash. -/
def escapesBreak : Place → Bytes → Bool
  | _, [] => false
  | p, c :: s =>
      (p = .escape && c = ch '\n') || ((p.next c).elim false fun q => escapesBreak q s)

theorem escapesBreak_next {p q : Place} {c : UInt8} {s : Bytes} (hq : p.next c = some q)
    (hp : p ≠ .escape) : escapesBreak p (c :: s) = escapesBreak q s := by
  simp [escapesBreak, hp, hq]

theorem escapesBreak_none {p : Place} {c : UInt8} {s : Bytes} (hq : p.next c = none)
    (hp : p ≠ .escape) : escapesBreak p (c :: s) = false := by
  simp [escapesBreak, hp, hq]

/-- Where a token ends, the next byte is read as behind a blank. -/
theorem escapesBreak_start {p : Place} {c : UInt8} {s : Bytes} (hq : p.next c = Place.start c)
    (hp : p ≠ .escape) : escapesBreak p (c :: s) = escapesBreak .plain (c :: s) := by
  rw [escapesBreak, escapesBreak, hq]
  simp [hp, Place.next]

theorem escapesBreak_word (s : Bytes) :
    escapesBreak .word s = escapesBreak .plain (s.dropWhile isIdentByte) := by
  induction s with
  | nil => rfl
  | cons c s ih =>
      rw [List.dropWhile_cons]
      split
      · rename_i hc
        have hnext : Place.next .word c = some .word := if_pos hc
        rw [escapesBreak_next hnext (by decide), ih]
      · rename_i hc
        exact escapesBreak_start (if_neg hc) (by decide)

theorem escapesBreak_number (seenDot : Bool) (s : Bytes) :
    escapesBreak (.number seenDot) s = escapesBreak .plain (s.drop (numberLen seenDot s)) := by
  induction s generalizing seenDot with
  | nil => rfl
  | cons c s ih =>
      rw [numberLen]
      split
      · rename_i hc
        rw [Nat.add_comm, List.drop_succ_cons, ← ih]
        exact escapesBreak_next (if_pos hc) (by simp)
      · rename_i hc
        split
        · rename_i hdot
          cases seenDot with
          | true =>
              apply escapesBreak_start _ (by simp)
              rw [Place.next, if_neg hc, if_neg (by simp)]
          | false =>
              rw [if_neg Bool.false_ne_true, Nat.add_comm, List.drop_succ_cons, ← ih]
              apply escapesBreak_next _ (by simp)
              rw [Place.next, if_neg hc, if_pos ⟨hdot, rfl⟩]
        · rename_i hdot
          apply escapesBreak_start _ (by simp)
          rw [Place.next, if_neg hc, if_neg (fun h => hdot h.1)]

theorem escapesBreak_comment (s : Bytes) :
    escapesBreak .comment s = escapesBreak .plain (s.dropWhile (· ≠ ch '\n')) := by
  induction s with
  | nil => rfl
  | cons c s ih =>
      rw [List.dropWhile_cons]
      split
      · rename_i hc
        have hnext : Place.next .comment c = some .comment := if_neg (by simpa using hc)
        rw [escapesBreak_next hnext (by decide), ih]
      · rename_i hc
        have hbreak : c = ch '\n' := by simpa using hc
        have hplain : Place.next .plain (ch '\n') = some .plain := by decide
        have hnext : Place.next .comment (ch '\n') = some .plain := by decide
        rw [hbreak, escapesBreak_next hnext (by decide), escapesBreak_next hplain (by decide)]

/-- What a string contributes: whether it passes a line break, and the text behind it. -/
def StringEnd.escapes (s : Bytes) (e : StringEnd) : Bool :=
  (s.take e.passed).contains (ch '\n') ||
    match e with
    | .closed n => escapesBreak .plain (s.drop n)
    | .atEof _ => false
    | .atEol _ => false

theorem StringEnd.escapes_shift (s t : Bytes) (e : StringEnd) :
    (e.shift s.length).escapes (s ++ t) = (s.contains (ch '\n') || e.escapes t) := by
  cases e <;> simp only [StringEnd.shift, StringEnd.escapes, StringEnd.passed,
    Nat.add_comm _ s.length, List.take_length_add_append, List.drop_length_add_append,
    List.contains_append, Bool.or_assoc]

/-- A string passes a line break only behind a backslash. -/
theorem escapesBreak_string (s : Bytes) :
    escapesBreak .string s = (stringScan s).escapes s := by
  have hquote : Place.next .string (ch '"') = some .plain := by decide
  have hescape : Place.next .string (ch '\\') = some .escape := by decide
  have hbreak : Place.next .string (ch '\n') = none := by decide
  have hother : ∀ {c}, c ≠ ch '"' → c ≠ ch '\\' → c ≠ ch '\n' →
      Place.next .string c = some .string := by
    intro c h1 h2 h3
    rw [Place.next, if_neg h1, if_neg h2, if_neg h3]
  fun_induction stringScan s with
  | case1 => rfl
  | case2 => decide
  | case3 => decide
  | case4 => decide
  | case5 c h1 h2 h3 =>
      rw [escapesBreak_next (hother h1 h2 h3) (by decide)]
      simp [escapesBreak, StringEnd.escapes, StringEnd.passed, Ne.symm h3]
  | case6 c' cs =>
      rw [escapesBreak_next hquote (by decide)]
      have hne : ch '\n' ≠ ch '"' := by decide
      simp [StringEnd.escapes, StringEnd.passed, hne]
  | case7 c' cs h ih =>
      have hshift := StringEnd.escapes_shift [ch '\\', c'] cs (stringScan cs)
      have hne : ch '\n' ≠ ch '\\' := by decide
      rw [escapesBreak_next hescape (by decide), escapesBreak, Place.next, Option.elim_some, ih]
      rw [List.length_cons, List.length_singleton] at hshift
      refine Eq.trans ?_ hshift.symm
      simp [hne, eq_comm]
  | case8 c' cs h1 h2 =>
      rw [escapesBreak_none hbreak (by decide)]
      rfl
  | case9 c c' cs h1 h2 h3 ih =>
      have hshift := StringEnd.escapes_shift [c] (c' :: cs) (stringScan (c' :: cs))
      rw [List.length_singleton] at hshift
      rw [escapesBreak_next (hother h1 h2 h3) (by decide), ih]
      refine Eq.trans ?_ hshift.symm
      simp [Ne.symm h3]

/-! ## The line bookkeeping -/

namespace Lexer

variable {source : Bytes} {x y : Lexer} {c : UInt8} {s : Bytes} {n : Nat}

/-- The line bookkeeping is that of the cursor. -/
structure Aligned (source : Bytes) (x : Lexer) : Prop where
  lineNum : x.lineNum = 1 + (source.take x.cur).count (ch '\n')
  lineStart : x.lineStart + (sinceBreak (source.take x.cur)).length = x.cur

/-- The line number is too small for the cursor. -/
def Behind (source : Bytes) (x : Lexer) : Prop :=
  x.lineNum ≤ (source.take x.cur).count (ch '\n')

theorem aligned_new (source : Bytes) : (lexerNew source).Aligned source := ⟨rfl, rfl⟩

theorem Aligned.congr (h : x.Aligned source) (hxy : x.SamePlace y) : y.Aligned source := by
  constructor
  · rw [hxy.lineNum_eq, hxy.cur_eq, h.lineNum]
  · rw [hxy.lineStart_eq, hxy.cur_eq, h.lineStart]

theorem Reads.take_advance (hx : x.Reads source) (n : Nat) :
    source.take (x.advance n).cur = source.take x.cur ++ x.rest.take n := by
  rw [hx.rest_eq]
  exact List.take_add

/-- Bytes without a line break move the cursor along its line. -/
theorem Aligned.advance (h : x.Aligned source) (hx : x.Reads source) (hn : n ≤ x.rest.length)
    (hbreak : ch '\n' ∉ x.rest.take n) : (x.advance n).Aligned source := by
  have htake := hx.take_advance n
  constructor
  · rw [htake, List.count_append, List.count_eq_zero.mpr hbreak, Nat.add_zero]
    exact h.lineNum
  · rw [htake, sinceBreak_append hbreak, List.length_append, List.length_take_of_le hn,
      ← Nat.add_assoc]
    exact congrArg (· + n) h.lineStart

/-- Bytes with an uncounted line break leave the line number behind. -/
theorem Aligned.behind (h : x.Aligned source) (hx : x.Reads source)
    (hbreak : ch '\n' ∈ x.rest.take n) : (x.advance n).Behind source := by
  have hpos := List.count_pos_iff.mpr hbreak
  have hnum := h.lineNum
  rw [Behind, hx.take_advance n, List.count_append]
  change x.lineNum ≤ _
  omega

theorem Behind.advance (h : x.Behind source) (hx : x.Reads source) (n : Nat) :
    (x.advance n).Behind source := by
  rw [Behind, hx.take_advance n, List.count_append]
  exact Nat.le_trans h (Nat.le_add_right _ _)

theorem Behind.congr (h : x.Behind source) (hxy : x.SamePlace y) : y.Behind source := by
  rw [Behind, hxy.lineNum_eq, hxy.cur_eq]
  exact h

theorem Reads.take_passLine (hx : x.Reads source) (hr : x.rest = ch '\n' :: s) :
    source.take (Calx.passLine x).cur = source.take x.cur ++ [ch '\n'] := by
  have htake := hx.take_advance 1
  rw [hr] at htake
  have hcur : (Calx.passLine x).cur = (x.advance 1).cur := by
    simp [Calx.passLine, Lexer.advance, insertSemicolon_fields]
  rw [hcur, htake]
  rfl

theorem Aligned.passLine (h : x.Aligned source) (hx : x.Reads source)
    (hr : x.rest = ch '\n' :: s) : (Calx.passLine x).Aligned source := by
  have htake := hx.take_passLine hr
  have hcur : (Calx.passLine x).cur = x.cur + 1 := by
    simp [Calx.passLine, Lexer.advance, insertSemicolon_fields]
  constructor
  · have hnum : (Calx.passLine x).lineNum = x.lineNum + 1 := rfl
    rw [htake, List.count_append, List.count_singleton_self, hnum, h.lineNum, Nat.add_assoc]
  · have hstart : (Calx.passLine x).lineStart = x.cur + 1 := rfl
    rw [htake, sinceBreak_break, hcur, hstart]
    rfl

theorem Behind.passLine (h : x.Behind source) (hx : x.Reads source)
    (hr : x.rest = ch '\n' :: s) : (Calx.passLine x).Behind source := by
  have hnum : (Calx.passLine x).lineNum = x.lineNum + 1 := rfl
  rw [Behind, hx.take_passLine hr, List.count_append, List.count_singleton_self, hnum]
  exact Nat.succ_le_succ h

end Lexer

/-! ## Calls -/

variable {source : Bytes} {x : Lexer}

/-- A turn that goes on keeps the line bookkeeping and passes no string. -/
theorem lexerTurn_aligned {y : Lexer} (h : lexerTurn x = .inr y) (hx : x.Reads source)
    (ha : x.Aligned source) :
    y.Aligned source ∧ escapesBreak .plain y.rest = escapesBreak .plain x.rest := by
  have hform := lexerTurn_form x
  rw [h] at hform
  cases hform with
  | @blank c s hr hc =>
      have hne : c ≠ ch '\n' := by
        rintro rfl
        exact absurd hc (by decide)
      have hnext : Place.next .plain c = some .plain := by
        rcases hc with rfl | rfl <;> decide
      constructor
      · apply ha.advance hx (by simp [hr])
        rw [hr]
        simpa using hne.symm
      · rw [Lexer.advance_rest, hr, escapesBreak_next hnext (by decide)]
        rfl
  | @line s hr hi =>
      have hnext : Place.next .plain (ch '\n') = some .plain := by decide
      constructor
      · exact ha.passLine hx hr
      · have hrest : (passLine x).rest = s := by
          simp [passLine, insertSemicolon_fields, hr]
        rw [hrest, hr, escapesBreak_next hnext (by decide)]
  | @comment s hr =>
      have hnext : Place.next .plain (ch '#') = some .comment := by decide
      obtain ⟨a, b, hab, htake, hdrop, hbreak, -⟩ := unbroken_split s
      have hlen : commentLen x.rest = a.length + 1 := by
        rw [hr, commentLen, htake, Nat.add_comm]
      have hrest : x.rest = (ch '#' :: a) ++ b := by rw [hr, hab, List.cons_append]
      constructor
      · apply ha.advance hx
        · rw [hr]
          exact commentLen_le
        · have htake' : x.rest.take (commentLen x.rest) = ch '#' :: a := by
            rw [hlen, hrest]
            exact List.take_left' rfl
          have hne : ch '\n' ≠ ch '#' := by decide
          rw [htake']
          simp [hne, hbreak]
      · have hdrop' : x.rest.drop (commentLen x.rest) = b := by
          rw [hlen, hrest]
          exact List.drop_left' rfl
        rw [Lexer.advance_rest, hdrop', hr, escapesBreak_next hnext (by decide),
          escapesBreak_comment, hdrop]

theorem lexerTurn_behind {y : Lexer} (h : lexerTurn x = .inr y) (hx : x.Reads source)
    (hb : x.Behind source) : y.Behind source := by
  have hform := lexerTurn_form x
  rw [h] at hform
  cases hform with
  | blank hr hc => exact hb.advance hx 1
  | line hr hi => exact hb.passLine hx hr
  | comment hr => exact hb.advance hx _

/-- A lexeme without line breaks has its true position, and the lexer behind it keeps its own. -/
theorem lexeme_aligned {y : Lexer} {kind : LexemeKind} {n : Nat} (hx : x.Reads source)
    (ha : x.Aligned source) (hy : x.SamePlace y) (hn : n ≤ x.rest.length)
    (hbreak : ch '\n' ∉ x.rest.take n) :
    TruePosition source (makeLexemeAdvance y kind n).1 ∧
      (makeLexemeAdvance y kind n).2.Aligned source := by
  have hyr := hx.congr hy.cur_eq hy.rest_eq
  have hya := ha.congr hy
  rw [← hy.rest_eq] at hn hbreak
  refine ⟨?_, hya.advance hyr hn hbreak⟩
  apply truePosition_of_pos hyr.le
  · rw [makeLexemeAdvance, ← hyr.rest_eq]
    exact List.take_prefix n y.rest
  · exact hbreak
  · have hstart := hya.lineStart
    have hcolumn : y.cur - y.lineStart + 1 = 1 + (sinceBreak (source.take y.cur)).length := by
      omega
    rw [makeLexemeAdvance, positionAfter, hya.lineNum, hcolumn]

/-- A lexeme of a lexer that is behind has a wrong line. -/
theorem Lexer.Behind.not_true (h : x.Behind source) (kind : LexemeKind) (n : Nat) :
    ¬ TruePosition source (makeLexemeAdvance x kind n).1 := by
  intro htrue
  have hline := congrArg Position.line htrue.pos
  have hle : x.lineNum ≤ (source.take x.cur).count (ch '\n') := h
  simp only [makeLexemeAdvance, positionAfter] at hline
  omega

theorem TurnSpan.behind {r : Lexeme × Lexer} (h : TurnSpan x r) (hx : x.Reads source)
    (hb : x.Behind source) : ¬ TruePosition source r.1 := by
  cases h with
  | lexeme kind hy hle => exact (hb.congr hy).not_true _ _
  | unterminated hy hle =>
      exact ((hb.congr hy).advance (hx.congr hy.cur_eq hy.rest_eq) _).not_true _ _

/-- What a call of `lexer_next` says about positions, given whether a string ahead passes a
line break. -/
structure CallPositions (source : Bytes) (escapes : Bool) (r : Lexeme × Lexer) : Prop where
  aligned : escapes = false → TruePosition source r.1 ∧
    (r.1.final ∨ r.2.Aligned source ∧ escapesBreak .plain r.2.rest = false)
  behind : escapes = true → ¬ TruePosition source r.1 ∨
    ¬ r.1.final ∧ (r.2.Aligned source ∧ escapesBreak .plain r.2.rest = true ∨ r.2.Behind source)

/-- A call that passes no string with a line break. -/
theorem CallPositions.of_aligned {r : Lexeme × Lexer} {escapes : Bool}
    (htrue : TruePosition source r.1 ∧ r.2.Aligned source) (hfinal : ¬ r.1.final)
    (hescapes : escapesBreak .plain r.2.rest = escapes) : CallPositions source escapes r := by
  constructor
  · intro h
    exact ⟨htrue.1, Or.inr ⟨htrue.2, hescapes.trans h⟩⟩
  · intro h
    exact Or.inr ⟨hfinal, Or.inl ⟨htrue.2, hescapes.trans h⟩⟩

/-- The last call. -/
theorem CallPositions.of_final {r : Lexeme × Lexer} {escapes : Bool}
    (htrue : TruePosition source r.1) (hfinal : r.1.final) (hescapes : escapes = false) :
    CallPositions source escapes r := by
  constructor
  · intro h
    exact ⟨htrue, Or.inl hfinal⟩
  · intro h
    rw [hescapes] at h
    exact absurd h Bool.false_ne_true

theorem operators_plain : ∀ o ∈ operators, ∀ a ∈ o.1,
    Place.next .plain (ch a) = some .plain ∧ ch '\n' ≠ ch a := by
  have hall : (operators.all fun o => o.1.all fun a =>
      decide (Place.next .plain (ch a) = some .plain ∧ ch '\n' ≠ ch a)) = true := by decide
  simpa only [List.all_eq_true, decide_eq_true_eq] using hall

theorem escapesBreak_operator {s : List Char} {t : Bytes}
    (h : ∀ a ∈ s, Place.next .plain (ch a) = some .plain) :
    escapesBreak .plain (s.map ch ++ t) = escapesBreak .plain t := by
  induction s with
  | nil => rfl
  | cons a s ih =>
      rw [List.map_cons, List.cons_append, escapesBreak_next (h a List.mem_cons_self) (by decide)]
      exact ih fun b hb => h b (List.mem_cons_of_mem a hb)

theorem number_unbroken {seenDot : Bool} {s : Bytes} :
    ch '\n' ∉ s.take (numberLen seenDot s) := by
  induction s generalizing seenDot with
  | nil => simp
  | cons c s ih =>
      rw [numberLen]
      split
      · rename_i hc
        have hne : ch '\n' ≠ c := by
          rintro rfl
          exact absurd hc (by decide)
        rw [Nat.add_comm, List.take_succ_cons]
        simp [hne, ih]
      · split
        · rename_i hdot
          have hne : ch '\n' ≠ c := by
            rw [hdot]
            decide
          split
          · simp
          · rw [Nat.add_comm, List.take_succ_cons]
            simp [hne, ih]
        · simp

theorem isIdentStart_not_digit {c : UInt8} (h : isIdentStart c = true) : isDigit c = false := by
  have hdigit : isDigit c = true → ch '0' ≤ c ∧ c ≤ ch '9' := by simp [isDigit]
  by_contra hd
  have hrange := hdigit (by simpa using hd)
  have h9 : (ch '9').toNat = 57 := rfl
  have ha : (ch 'a').toNat = 97 := rfl
  have hA : (ch 'A').toNat = 65 := rfl
  have hu : (ch '_').toNat = 95 := rfl
  simp only [isIdentStart, Bool.or_eq_true, Bool.and_eq_true, decide_eq_true_eq,
    UInt8.le_iff_toNat_le, ← UInt8.toNat_inj] at h hrange
  omega

theorem isIdentByte_unbroken {c : UInt8} (h : isIdentByte c = true) : ch '\n' ≠ c := by
  rintro rfl
  exact absurd h (by decide)

theorem number_text_unbroken {c : UInt8} {s : Bytes} (hc : c ≠ ch '\n') :
    ch '\n' ∉ (c :: s).take (1 + numberLen false s) := by
  rw [Nat.add_comm, List.take_succ_cons, List.mem_cons, not_or]
  exact ⟨hc.symm, number_unbroken⟩

theorem identifier_text_unbroken {c : UInt8} {s : Bytes} (hc : c ≠ ch '\n') :
    ch '\n' ∉ (c :: s).take (identifierLen (c :: s)) := by
  have htake : s.take (s.takeWhile isIdentByte).length = s.takeWhile isIdentByte :=
    (List.prefix_iff_eq_take.mp (List.takeWhile_prefix isIdentByte)).symm
  rw [identifierLen, List.tail_cons, Nat.add_comm, List.take_succ_cons, List.mem_cons, not_or,
    htake]
  exact ⟨hc.symm, fun hmem => isIdentByte_unbroken (List.mem_takeWhile_imp hmem) rfl⟩

theorem Longest.text_unbroken {s : Bytes} {o : List Char × LexemeKind} (h : Longest s o) :
    ch '\n' ∉ s.take o.1.length := by
  obtain ⟨t, ht⟩ := h.starts
  rw [← ht, ← List.length_map ch, List.take_left]
  intro hmem
  obtain ⟨a, hmem, heq⟩ := List.mem_map.mp hmem
  exact (operators_plain o h.mem a hmem).2 heq.symm

/-- An unterminated string is reported behind the line breaks that it has passed. -/
theorem unterminated_positions {n : Nat} (msg : String) (hx : x.Reads source)
    (ha : x.Aligned source) (hn : n ≤ x.rest.length)
    (hescapes : escapesBreak .plain x.rest = (x.rest.take n).contains (ch '\n')) :
    CallPositions source (escapesBreak .plain x.rest) (makeErrorAdvance (x.advance n) msg 0) := by
  have hy := samePlace_errMsg x msg
  have hyr := hx.congr hy.cur_eq hy.rest_eq
  rw [makeErrorAdvance_advance]
  by_cases hbreak : ch '\n' ∈ x.rest.take n
  · constructor
    · intro h
      rw [hescapes, List.contains_iff_mem.mpr hbreak] at h
      exact absurd h (by decide)
    · intro h
      exact Or.inl (((ha.congr hy).behind hyr hbreak).not_true _ _)
  · apply CallPositions.of_final
    · have hadvance := (ha.congr hy).advance hyr hn hbreak
      exact (lexeme_aligned (hyr.advance hn) hadvance (.refl _) (Nat.zero_le _) (by simp)).1
    · exact Or.inr rfl
    · rw [hescapes]
      simpa using hbreak

/-- A string. -/
theorem string_positions {s : Bytes} (hx : x.Reads source) (ha : x.Aligned source)
    (hr : x.rest = ch '"' :: s) :
    CallPositions source (escapesBreak .plain x.rest) (string x) := by
  have hnext : Place.next .plain (ch '"') = some .string := by decide
  have hne : ch '\n' ≠ ch '"' := by decide
  have hle := stringScan_le s
  have hlen : x.rest.length = s.length + 1 := by rw [hr, List.length_cons]
  have hescapes : escapesBreak .plain x.rest = (stringScan s).escapes s := by
    rw [hr, escapesBreak_next hnext (by decide), escapesBreak_string]
  have htake : ∀ n, (x.rest.take (1 + n)).contains (ch '\n') = (s.take n).contains (ch '\n') := by
    intro n
    rw [hr, Nat.add_comm, List.take_succ_cons]
    simp [hne]
  rw [string, hr, List.tail_cons, ← hr]
  cases hs : stringScan s with
  | closed n =>
      rw [hs, StringEnd.passed] at hle
      rw [hs, StringEnd.escapes, StringEnd.passed, ← htake n] at hescapes
      by_cases hbreak : ch '\n' ∈ x.rest.take (1 + n)
      · rw [List.contains_iff_mem.mpr hbreak] at hescapes
        constructor
        · intro h
          rw [hescapes, Bool.true_or] at h
          exact absurd h (by decide)
        · intro h
          right
          refine ⟨by simp [Lexeme.final, makeLexemeAdvance], Or.inr ?_⟩
          exact ha.behind hx hbreak
      · have hcontains : (x.rest.take (1 + n)).contains (ch '\n') = false := by
          simpa using hbreak
        apply CallPositions.of_aligned
        · exact lexeme_aligned hx ha (.refl x) (by omega) hbreak
        · simp [Lexeme.final, makeLexemeAdvance]
        · have hrest : (makeLexemeAdvance x lkString (1 + n)).2.rest = s.drop n := by
            simp [makeLexemeAdvance, hr, Nat.add_comm 1]
          rw [hrest, hescapes, hcontains, Bool.false_or]
  | atEof n =>
      rw [hs, StringEnd.passed] at hle
      rw [hs, StringEnd.escapes, StringEnd.passed, ← htake n, Bool.or_false] at hescapes
      exact unterminated_positions _ hx ha (by omega) hescapes
  | atEol n =>
      rw [hs, StringEnd.passed] at hle
      rw [hs, StringEnd.escapes, StringEnd.passed, ← htake n, Bool.or_false] at hescapes
      exact unterminated_positions _ hx ha (by omega) hescapes

/-- A token at a cursor whose line bookkeeping is right. -/
theorem TokenForm.positions {c : UInt8} {s : Bytes} {r : Lexeme × Lexer} (h : TokenForm x c r)
    (hx : x.Reads source) (ha : x.Aligned source) (hr : x.rest = c :: s)
    (hblank : ¬ (c = ch ' ' ∨ c = ch '\t')) (hline : c ≠ ch '\n') (hcomment : c ≠ ch '#') :
    CallPositions source (escapesBreak .plain x.rest) r := by
  have hspan := h.span hr
  cases h with
  | fake hc hi =>
      have hfields := samePlace_insertSemicolon x
      apply CallPositions.of_aligned
      · exact lexeme_aligned hx ha hfields (Nat.zero_le _) (by simp)
      · simp [Lexeme.final, fakeSemicolon, makeLexemeAdvance]
      · exact congrArg (escapesBreak .plain) hfields.rest_eq
  | number hc =>
      have hnext : Place.next .plain c = some (.number false) := if_pos hc
      have hle := numberLen_le false s
      apply CallPositions.of_aligned
      · apply lexeme_aligned hx ha (.refl x)
        · rw [hr, List.tail_cons, List.length_cons]
          omega
        · rw [hr, List.tail_cons]
          exact number_text_unbroken hline
      · simp [Lexeme.final, Calx.number, makeLexemeAdvance]
      · have hrest : (Calx.number x).2.rest = s.drop (numberLen false s) := by
          simp [Calx.number, makeLexemeAdvance, hr, Nat.add_comm 1]
        rw [hrest, hr, escapesBreak_next hnext (by decide), escapesBreak_number]
  | identifier hc =>
      have hnext : Place.next .plain c = some .word := by
        rw [Place.next, Place.start, if_neg (by simp [isIdentStart_not_digit hc]), if_pos hc]
      rw [identifier_eq x hc]
      apply CallPositions.of_aligned
      · apply lexeme_aligned hx ha (samePlace_tokenState x c _)
        · rw [hr]
          exact identifierLen_le
        · rw [hr]
          exact identifier_text_unbroken hline
      · obtain ⟨-, heof, herr, -⟩ :=
          keywordKind_spec x.levelStack (x.rest.take (identifierLen x.rest))
        exact not_or.mpr ⟨heof, herr⟩
      · rw [makeLexemeAdvance, Lexer.advance_rest, (samePlace_tokenState x c _).rest_eq, hr,
          identifierLen, List.tail_cons, Nat.add_comm, List.drop_succ_cons, Span.drop_takeWhile,
          escapesBreak_next hnext (by decide), escapesBreak_word]
  | string hc => exact string_positions hx ha (hc ▸ hr)
  | @operator o ho =>
      obtain ⟨t, ht⟩ := ho.starts
      have hlen : (o.1.map ch).length = o.1.length := List.length_map ch
      have hplain := operators_plain o ho.mem
      apply CallPositions.of_aligned
      · apply lexeme_aligned hx ha (samePlace_tokenState x c _)
        · rw [← ht, List.length_append, hlen]
          exact Nat.le_add_right _ _
        · exact ho.text_unbroken
      · obtain ⟨heof, herr, -⟩ := operators_spec o ho.mem
        exact not_or.mpr ⟨heof, herr⟩
      · rw [makeLexemeAdvance, Lexer.advance_rest, (samePlace_tokenState x c _).rest_eq, ← ht,
          ← hlen, List.drop_left, escapesBreak_operator fun a ha => (hplain a ha).1]
  | unexpected hd hi hq ho =>
      have hnone : Place.next .plain c = none := by
        rw [not_or] at hblank
        simp [Place.next, Place.start, hd, hi, hq, hcomment, hblank.1, hblank.2, hline, ho]
      apply CallPositions.of_final
      · refine (lexeme_aligned hx ha (samePlace_errMsg x _) ?_ ?_).1
        · simp [hr]
        · rw [hr]
          simpa using hline.symm
      · exact Or.inr rfl
      · rw [hr]
        exact escapesBreak_none hnone (by decide)

/-- A call at a cursor whose line bookkeeping is right. -/
theorem lexerNext_positions (hx : x.Reads source) (ha : x.Aligned source) :
    CallPositions source (escapesBreak .plain x.rest) (lexerNext x) := by
  revert hx ha
  apply lexerNext_rec (P := fun x r => x.Reads source → x.Aligned source →
    CallPositions source (escapesBreak .plain x.rest) r)
  · intro x r h hx ha
    have hform := lexerTurn_form x
    rw [h] at hform
    have hy := samePlace_insertSemicolon x
    have htrue : ∀ kind, TruePosition source (makeLexemeAdvance (insertSemicolon x).2 kind 0).1 ∧
        (makeLexemeAdvance (insertSemicolon x).2 kind 0).2.Aligned source :=
      fun kind => lexeme_aligned hx ha hy (Nat.zero_le _) (by simp)
    cases hform with
    | eof hr hi =>
        apply CallPositions.of_final (htrue lkEof).1
        · exact Or.inl rfl
        · rw [hr]
          rfl
    | fake hr hi =>
        apply CallPositions.of_aligned (htrue lkSemicolon)
        · simp [Lexeme.final, makeLexemeAdvance]
        · exact congrArg (escapesBreak .plain) hy.rest_eq
    | token hr hblank hline hcomment h => exact h.positions hx ha hr hblank hline hcomment
  · intro x y r h ih hx ha
    obtain ⟨hya, hescapes⟩ := lexerTurn_aligned h hx ha
    rw [← hescapes]
    exact ih (lexerTurn_reads h hx) hya

/-- A call of a lexer that is behind. -/
theorem lexerNext_behind (hx : x.Reads source) (hb : x.Behind source) :
    ¬ TruePosition source (lexerNext x).1 := by
  revert hx hb
  apply lexerNext_rec (P := fun x r => x.Reads source → x.Behind source →
    ¬ TruePosition source r.1)
  · intro x r h hx hb
    exact (lexerTurn_span h).behind hx hb
  · intro x y r h ih hx hb
    exact ih (lexerTurn_reads h hx) (lexerTurn_behind h hx hb)

/-! ## Runs -/

theorem lexAll_truePosition (hx : x.Reads source) (ha : x.Aligned source)
    (h : escapesBreak .plain x.rest = false) : ∀ l ∈ lexAll x, TruePosition source l := by
  apply lexAll_forall (I := fun x => x.Reads source ∧ x.Aligned source ∧
    escapesBreak .plain x.rest = false) (P := TruePosition source)
  · intro x hx
    obtain ⟨hreads, ha, h⟩ := hx
    obtain ⟨htrue, hnext⟩ := (lexerNext_positions hreads ha).aligned h
    exact ⟨htrue, hnext.imp_right fun hnext => ⟨lexerNext_reads hreads, hnext⟩⟩
  · exact ⟨hx, ha, h⟩

theorem lexAll_falsePosition (hx : x.Reads source)
    (h : x.Aligned source ∧ escapesBreak .plain x.rest = true ∨ x.Behind source) :
    ∃ l ∈ lexAll x, ¬ TruePosition source l := by
  revert hx h
  apply lexAll_rec (P := fun x ls => x.Reads source →
    (x.Aligned source ∧ escapesBreak .plain x.rest = true ∨ x.Behind source) →
    ∃ l ∈ ls, ¬ TruePosition source l)
  · intro x hf hx h
    refine ⟨_, List.mem_singleton_self _, ?_⟩
    rcases h with ⟨ha, hescapes⟩ | hb
    · exact ((lexerNext_positions hx ha).behind hescapes).resolve_right fun h => h.1 hf
    · exact lexerNext_behind hx hb
  · intro x hf ih hx h
    rcases h with ⟨ha, hescapes⟩ | hb
    · rcases (lexerNext_positions hx ha).behind hescapes with hfalse | ⟨-, hnext⟩
      · exact ⟨_, List.mem_cons_self, hfalse⟩
      · obtain ⟨l, hl, hfalse⟩ := ih (lexerNext_reads hx) hnext
        exact ⟨l, List.mem_cons_of_mem _ hl, hfalse⟩
    · exact ⟨_, List.mem_cons_self, lexerNext_behind hx hb⟩

/-- The lexemes of a source have their true positions exactly if no string of it, up to the first
ill-formed token, has a line break behind a backslash. -/
theorem positions_true_iff (source : Bytes) :
    (∀ l ∈ lexAll (lexerNew source), TruePosition source l) ↔
      escapesBreak .plain source = false := by
  have hx := Lexer.reads_new source
  have ha := Lexer.aligned_new source
  constructor
  · intro h
    by_contra hescapes
    rw [Bool.not_eq_false] at hescapes
    obtain ⟨l, hl, hfalse⟩ := lexAll_falsePosition hx (Or.inl ⟨ha, hescapes⟩)
    exact hfalse (h l hl)
  · exact lexAll_truePosition hx ha

/-- An unterminated string with a line break behind a backslash is reported behind the end of its
first line. -/
theorem unterminated_misplaced :
    lexAll (lexerNew (bytesOf "\"a\\\nb")) = [⟨lkError, 5, [], ⟨1, 6⟩⟩] ∧
      positionAfter ((bytesOf "\"a\\\nb").take 5) = ⟨2, 2⟩ ∧
      textNthLine (bytesOf "\"a\\\nb") 0 = (0, bytesOf "\"a\\") ∧
      ¬ ∀ l ∈ lexAll (lexerNew (bytesOf "\"a\\\nb")),
        TruePosition (bytesOf "\"a\\\nb") l := by
  have hrun : lexAll (lexerNew (bytesOf "\"a\\\nb")) = [⟨lkError, 5, [], ⟨1, 6⟩⟩] := by decide
  refine ⟨hrun, by decide, by decide, ?_⟩
  intro h
  rw [hrun] at h
  have htrue := h _ (List.mem_singleton_self _)
  exact absurd htrue.pos (by decide)

end Calx
