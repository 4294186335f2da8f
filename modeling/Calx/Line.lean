import Calx.Semicolons

/-!
# Programs on one line

What the lexer delivers for a line of lexemes with one blank between any two:
these lexemes, and the semicolons that it inserts in front of the closing braces
of blocks and at the end.

## Implementation notes

The condition that a lexeme is spelled as its kind is stated with the scanners of
the lexer applied to its text alone. What has to be shown is that a scanner stops
at the blank behind the text.
-/

namespace Calx

open LexemeKind

/-! ## Spellings -/

/-- A text is a spelling of a lexeme of a kind. -/
inductive Spells : LexemeKind → Bytes → Prop
  | operator {o : List Char × LexemeKind} (h : o ∈ operators) : Spells o.2 (o.1.map ch)
  | number {c : UInt8} {cs : Bytes} (hc : isDigit c = true)
      (h : numberLen false cs = cs.length) : Spells lkNumber (c :: cs)
  | word {c : UInt8} {cs : Bytes} (hc : isIdentStart c = true)
      (h : ∀ b ∈ cs, isIdentByte b = true) : Spells (keywordKind (c :: cs)).1 (c :: cs)
  | string {cs : Bytes} (h : stringScan cs = .closed cs.length) : Spells lkString (ch '"' :: cs)

/-- Texts with a blank between any two. -/
def spaced : List Bytes → Bytes
  | [] => []
  | [t] => t
  | t :: t' :: ts => t ++ ch ' ' :: spaced (t' :: ts)

/-- What may stand behind a lexeme of a line: a blank, or nothing. -/
def Blank (r : Bytes) : Prop := r = [] ∨ ∃ s, r = ch ' ' :: s

theorem spaced_cons (t : Bytes) (ts : List Bytes) :
    ∃ r, spaced (t :: ts) = t ++ r ∧ Blank r ∧
      (ts = [] → r = []) ∧ (ts ≠ [] → r = ch ' ' :: spaced ts) := by
  cases ts with
  | nil => exact ⟨[], (List.append_nil t).symm, Or.inl rfl, fun _ => rfl, fun h => absurd rfl h⟩
  | cons t' ts =>
      exact ⟨_, rfl, Or.inr ⟨_, rfl⟩, fun h => absurd h (List.cons_ne_nil _ _), fun _ => rfl⟩

/-! ## Scanners stop at blanks -/

theorem numberLen_blank {r : Bytes} (hr : Blank r) {b : Bool} {s : Bytes}
    (h : numberLen b s = s.length) : numberLen b (s ++ r) = s.length := by
  induction s generalizing b with
  | nil =>
      obtain rfl | ⟨t, rfl⟩ := hr
      · rfl
      · have h1 : isDigit (ch ' ') = false := by decide
        have h2 : (decide (ch ' ' = quote)) = false := by decide
        have h3 : ch ' ' ≠ ch '.' := by decide
        simp [numberLen, h1, h2, h3]
  | cons c cs ih =>
      have hle := numberLen_le true cs
      simp only [numberLen, List.cons_append, List.length_cons] at h ⊢
      split_ifs at h ⊢
      · have := ih (b := b) (by omega)
        omega
      · have := ih (b := true) (by omega)
        omega

theorem stringScan_append {s : Bytes} (t : Bytes) {n : Nat} (h : stringScan s = .closed n) :
    stringScan (s ++ t) = .closed n := by
  fun_induction stringScan s generalizing n with
  | case1 => cases h
  | case2 =>
      cases t with
      | nil => simpa [stringScan] using h
      | cons c t => simpa [stringScan] using h
  | case3 => cases h
  | case4 => cases h
  | case5 => cases h
  | case6 c' cs => simpa [stringScan] using h
  | case7 c' cs hc ih =>
      obtain ⟨m, hm, rfl⟩ := StringEnd.shift_eq_closed h
      have hq : ch '\\' ≠ ch '"' := by decide
      simp only [List.cons_append, stringScan, hq, if_false, if_true, ih hm, StringEnd.shift]
  | case8 => cases h
  | case9 c c' cs h1 h2 h3 ih =>
      obtain ⟨m, hm, rfl⟩ := StringEnd.shift_eq_closed h
      have ih' := ih hm
      rw [List.cons_append] at ih'
      simp only [List.cons_append, stringScan, h1, h2, h3, if_false, ih', StringEnd.shift]

theorem takeWhile_blank {r : Bytes} (hr : Blank r) {s : Bytes}
    (h : ∀ b ∈ s, isIdentByte b = true) : (s ++ r).takeWhile isIdentByte = s := by
  rw [List.takeWhile_append_of_pos h]
  obtain rfl | ⟨t, rfl⟩ := hr
  · simp
  · have hb : isIdentByte (ch ' ') = false := by decide
    simp [hb]

/-- The bytes with which operators start are those of no other lexeme, and no blank stands in
an operator. -/
theorem operators_bytes : ∀ o ∈ operators, (∀ c ∈ o.1.head?, isDigit (ch c) = false ∧
    isIdentStart (ch c) = false ∧ ch c ≠ ch '"' ∧ ch c ≠ ch '\t' ∧ ch c ≠ ch '\n' ∧
    ch c ≠ ch '#') ∧ ∀ c ∈ o.1, ch c ≠ ch ' ' := by
  have hfirst : operators.all (fun o => o.1.head?.all fun c => decide (isDigit (ch c) = false ∧
      isIdentStart (ch c) = false ∧ ch c ≠ ch '"' ∧ ch c ≠ ch '\t' ∧ ch c ≠ ch '\n' ∧
      ch c ≠ ch '#')) = true := by decide
  have hblank : operators.all (fun o => o.1.all fun c => decide (ch c ≠ ch ' ')) = true := by decide
  intro o ho
  constructor
  · intro c hc
    have h := List.all_eq_true.mp hfirst o ho
    rw [Option.mem_def.mp hc] at h
    exact of_decide_eq_true h
  · intro c hc
    exact of_decide_eq_true (List.all_eq_true.mp (List.all_eq_true.mp hblank o ho) c hc)

theorem operators_unique : ∀ o ∈ operators, ∀ o' ∈ operators, o.1.map ch = o'.1.map ch →
    o.2 = o'.2 := by decide

/-- The longest operator in front of a blank. -/
theorem Longest.blank {o o' : List Char × LexemeKind} {r : Bytes} (hr : Blank r)
    (ho : o ∈ operators) (h : Longest (o.1.map ch ++ r) o') :
    o'.2 = o.2 ∧ o'.1.length = o.1.length := by
  obtain ⟨hmem, hstarts, hlongest⟩ := h
  have hle := hlongest o ho (List.prefix_append _ _)
  have hge : o'.1.length ≤ o.1.length := by
    by_contra hlt
    obtain rfl | ⟨t, rfl⟩ := hr
    · have := hstarts.length_le
      simp only [List.append_nil, List.length_map] at this
      omega
    · have hblank : ch ' ' ∈ o'.1.map ch := by
        have hget : (o'.1.map ch)[o.1.length]? = some (ch ' ') := by
          rw [List.prefix_iff_eq_take.mp hstarts,
            List.getElem?_take_of_lt (by rw [List.length_map]; omega),
            List.getElem?_append_right (by simp)]
          simp
        exact List.mem_of_getElem? hget
      obtain ⟨c, hc, heq⟩ := List.mem_map.mp hblank
      exact (operators_bytes o' hmem).2 c hc heq
  have hlen := Nat.le_antisymm hge hle
  refine ⟨operators_unique o' hmem o ho ?_, hlen⟩
  have h1 := List.prefix_iff_eq_take.mp hstarts
  rw [h1, List.length_map, hlen, List.take_left' (by simp)]

/-! ## Tokens -/

/-- A spelled text starts with a byte that is neither blank nor the start of a comment. -/
theorem Spells.head {k : LexemeKind} {t : Bytes} (h : Spells k t) :
    ∃ c cs, t = c :: cs ∧ ¬ (c = ch ' ' ∨ c = ch '\t') ∧ c ≠ ch '\n' ∧ c ≠ ch '#' := by
  cases h with
  | @operator o ho =>
      obtain ⟨hb, hnb⟩ := operators_bytes o ho
      obtain ⟨-, -, -, -, hne⟩ := operators_spec o ho
      obtain ⟨c, cs, hcs⟩ := List.exists_cons_of_ne_nil hne
      obtain ⟨-, -, -, h1, h2, h3⟩ := hb c (by simp [hcs])
      refine ⟨ch c, cs.map ch, by simp [hcs], ?_, h2, h3⟩
      rintro (h | h)
      · exact hnb c (by simp [hcs]) h
      · exact h1 h
  | @number c cs hc =>
      refine ⟨c, cs, rfl, ?_, ?_, ?_⟩
      · rintro (rfl | rfl) <;> revert hc <;> decide
      · rintro rfl
        revert hc
        decide
      · rintro rfl
        revert hc
        decide
  | @word c cs hc =>
      refine ⟨c, cs, rfl, ?_, ?_, ?_⟩
      · rintro (rfl | rfl) <;> revert hc <;> decide
      · rintro rfl
        revert hc
        decide
      · rintro rfl
        revert hc
        decide
  | string => exact ⟨_, _, rfl, by decide, by decide, by decide⟩

/-- `token` on a spelled text in front of a blank. -/
theorem token_spelled {x : Lexer} {k : LexemeKind} {t r : Bytes} (h : Spells k t)
    (hx : x.rest = t ++ r) (hr : Blank r) {c : UInt8} {cs : Bytes} (hc : t = c :: cs)
    (hbrace : k = lkRbrace → (insertSemicolon x).1 = false) :
    token x c = makeLexemeAdvance (tokenState x c k) k t.length := by
  cases h with
  | @operator o ho =>
      obtain ⟨hb, -⟩ := operators_bytes o ho
      have hhead : o.1.head?.map ch = some c := by
        rw [← List.head?_map, hc]
        rfl
      obtain ⟨a, ha, rfl⟩ := Option.map_eq_some_iff.mp hhead
      obtain ⟨h1, h2, h3, -⟩ := hb a ha
      have hform := token_form (x := x) (c := ch a) (r := cs ++ r) (by rw [hx, hc]; rfl)
      generalize token x (ch a) = res at hform
      cases hform with
      | fake hc' hi =>
          have hk := (operators_spec o ho).2.2.2.1.mpr (by rw [hhead, hc'])
          rw [hbrace hk] at hi
          cases hi
      | number hc' => rw [h1] at hc'; cases hc'
      | identifier hc' => rw [h2] at hc'; cases hc'
      | string hc' => exact absurd hc' h3
      | operator hlong =>
          rw [hx] at hlong
          obtain ⟨hk, hlen⟩ := hlong.blank hr ho
          rw [hk, hlen, List.length_map]
      | unexpected _ _ _ ho' =>
          have hmem : o ∈ operatorsAt (ch a) := by
            rw [operatorsAt, List.mem_filter]
            exact ⟨ho, by simp [hhead]⟩
          rw [ho'] at hmem
          cases hmem
  | @number d ds hd hlen =>
      obtain ⟨rfl, rfl⟩ := List.cons.inj hc
      have hb : d ≠ ch '}' := by
        rintro rfl
        revert hd
        decide
      rw [token, if_pos hd, number, tokenState_plain x rfl hb, hx, List.cons_append, List.tail_cons,
        numberLen_blank hr hlen, List.length_cons, Nat.add_comm]
  | @word d ds hd hall =>
      obtain ⟨rfl, rfl⟩ := List.cons.inj hc
      have hnd : ¬ isDigit d = true := by
        rw [isIdentStart_not_digit hd]
        decide
      have hlen : identifierLen x.rest = (d :: ds).length := by
        rw [identifierLen, hx, List.cons_append, List.tail_cons, takeWhile_blank hr hall,
          List.length_cons, Nat.add_comm]
      rw [token, if_neg hnd, if_pos hd, identifier_eq x hd, hlen, hx,
        List.take_left' rfl]
  | @string s hs =>
      obtain ⟨rfl, rfl⟩ := List.cons.inj hc
      have h1 : ¬ isDigit (ch '"') = true := by decide
      have h2 : ¬ isIdentStart (ch '"') = true := by decide
      rw [token, if_neg h1, if_neg h2, if_pos rfl, Calx.string, hx, List.cons_append,
        List.tail_cons, stringScan_append r hs, tokenState_plain x rfl (by decide),
        List.length_cons, Nat.add_comm]

/-! ## Lines -/

/-- The lexemes `ls` are those of a line from offset `i` on: each is spelled as its kind and stands
one blank behind the one before. -/
def OnLine : Nat → List Lexeme → Prop
  | _, [] => True
  | i, l :: ls =>
      Spells l.kind l.text ∧ l.start = i ∧ l.pos = ⟨1, i + 1⟩ ∧ OnLine (i + l.size + 1) ls

/-- The line that the lexemes `ls` make up. -/
def lineOf (ls : List Lexeme) : Bytes := spaced (ls.map Lexeme.text)

/-- A semicolon that is inserted in front of a lexeme. -/
def Lexeme.semicolonBefore (l : Lexeme) : Lexeme := ⟨lkSemicolon, l.start, [], l.pos⟩

/-- The end of a line of `n` bytes. -/
def lineEnd (n : Nat) : Lexeme := ⟨lkEof, n, [], ⟨1, n + 1⟩⟩

/-- The lexemes of a line with the semicolons inserted in front of closing braces. -/
def delivered (s : LevelStack) : List Lexeme → List Lexeme
  | [] => []
  | l :: ls =>
      if l.kind = lkRbrace ∧ s.isExprContext = false then
        l.semicolonBefore :: l :: delivered (levelStep s l.kind) ls
      else l :: delivered (levelStep s l.kind) ls

theorem delivered_append (s : LevelStack) (ls ls' : List Lexeme) :
    delivered s (ls ++ ls') = delivered s ls ++ delivered (levelsAfter s ls) ls' := by
  induction ls generalizing s with
  | nil => rfl
  | cons l ls ih =>
      rw [List.cons_append, delivered, delivered, ih]
      split <;> rfl

/-- The lexer stands at the first of the lexemes `ls` of a line of `n` bytes. -/
structure Lexer.AtLine (s : LevelStack) (ls : List Lexeme) (n : Nat) (x : Lexer) : Prop where
  rest : x.rest = lineOf ls
  lexemes : OnLine x.cur ls
  ends : x.cur + x.rest.length = n
  levels : x.levelStack = s
  lineNum : x.lineNum = 1
  lineStart : x.lineStart = 0

theorem lexAll_go {x y : Lexer} (h : lexerTurn x = .inr y) : lexAll x = lexAll y := by
  have hnext : lexerNext x = lexerNext y := by rw [lexerNext_eq, h]
  rw [lexAll_eq, hnext, ← lexAll_eq]

theorem lexAll_stop {x : Lexer} {r : Lexeme × Lexer} (h : lexerTurn x = .inl r) :
    lexAll x = r.1 :: if r.1.final then [] else lexAll r.2 := by
  have hnext : lexerNext x = r := by rw [lexerNext_eq, h]
  rw [lexAll_eq, hnext]

theorem Spells.not_final {k : LexemeKind} {t : Bytes} (h : Spells k t) :
    k ≠ lkEof ∧ k ≠ lkError := by
  cases h with
  | operator ho =>
      obtain ⟨h1, h2, -⟩ := operators_spec _ ho
      exact ⟨h1, h2⟩
  | number => exact ⟨by decide, by decide⟩
  | word =>
      obtain ⟨-, h1, h2, -⟩ := keywordKind_spec levelStackNew _
      exact ⟨h1, h2⟩
  | string => exact ⟨by decide, by decide⟩

/-- Only the text of a closing brace starts with one. -/
theorem Spells.brace_iff {k : LexemeKind} {t : Bytes} (h : Spells k t) {c : UInt8} {cs : Bytes}
    (hc : t = c :: cs) : k = lkRbrace ↔ c = ch '}' := by
  cases h with
  | @operator o ho =>
      have hhead : o.1.head?.map ch = some c := by
        rw [← List.head?_map, hc]
        rfl
      have := (operators_spec o ho).2.2.2.1
      rw [hhead, Option.some.injEq] at this
      exact this
  | @number d ds hd =>
      obtain ⟨rfl, rfl⟩ := List.cons.inj hc
      refine iff_of_false (by decide) ?_
      rintro rfl
      revert hd
      decide
  | @word d ds hd =>
      obtain ⟨rfl, rfl⟩ := List.cons.inj hc
      obtain ⟨-, -, -, -, h4⟩ := keywordKind_spec levelStackNew (d :: ds)
      refine iff_of_false h4 ?_
      rintro rfl
      revert hd
      decide
  | string =>
      obtain ⟨rfl, rfl⟩ := List.cons.inj hc
      decide

/-- The turn at the first byte of a lexeme. -/
theorem lexerTurn_spelled {x : Lexer} {l : Lexeme} {r : Bytes} (h : Spells l.kind l.text)
    (hx : x.rest = l.text ++ r) :
    ∃ c cs, l.text = c :: cs ∧ lexerTurn x = .inl (token x c) := by
  obtain ⟨c, cs, hc, hblank, hline, hcomment⟩ := h.head
  refine ⟨c, cs, hc, ?_⟩
  rw [lexerTurn, hx, hc, List.cons_append]
  simp only [if_neg hblank, if_neg hline, if_neg hcomment]

/-- One lexeme of a line, with no semicolon to be inserted in front of it. -/
theorem Lexer.AtLine.take {s : LevelStack} {l : Lexeme} {ls : List Lexeme} {n : Nat} {x : Lexer}
    (hx : x.AtLine s (l :: ls) n)
    (hflag : x.insertedSemicolonFlag = true ↔ l.kind = lkRbrace ∧ s.isExprContext = false) :
    ∃ y : Lexer, y.AtLine (levelStep s l.kind) ls n ∧ y.insertedSemicolonFlag = false ∧
      lexAll x = l :: lexAll y := by
  obtain ⟨hspell, hstart, hpos, hrest⟩ := hx.lexemes
  obtain ⟨r, hr, hblank, hnil, hcons⟩ := spaced_cons l.text (ls.map Lexeme.text)
  have hxr : x.rest = l.text ++ r := hx.rest.trans hr
  obtain ⟨c, cs, hc, hturn⟩ := lexerTurn_spelled hspell hxr
  have hsemi : l.kind = lkRbrace →
      (insertSemicolon x).1 = false ∧ (insertSemicolon x).2.insertedSemicolonFlag = false := by
    intro hk
    cases hcontext : s.isExprContext with
    | true =>
        have hoff : x.insertedSemicolonFlag = false := by
          rw [hcontext] at hflag
          simpa using hflag
        simp [insertSemicolon, hx.levels, hcontext, hoff]
    | false => simp [insertSemicolon, hx.levels, hcontext, hflag.mpr ⟨hk, hcontext⟩]
  rw [token_spelled hspell hxr hblank hc fun hk => (hsemi hk).1] at hturn
  -- the state behind the lexeme
  have htake : (tokenState x c l.kind).rest.take l.text.length = l.text := by
    rw [(samePlace_tokenState x c _).rest_eq, hxr, List.take_left]
  have hlex : (makeLexemeAdvance (tokenState x c l.kind) l.kind l.text.length).1 = l := by
    simp only [makeLexemeAdvance, htake]
    cases l with
    | mk k st t p =>
        simp only at hstart hpos
        subst hstart hpos
        simp [tokenState, hx.lineNum, hx.lineStart]
  have hfinal : ¬ l.final := fun h => h.elim hspell.not_final.1 hspell.not_final.2
  have hall := lexAll_stop hturn
  rw [hlex, if_neg hfinal] at hall
  generalize hz : (makeLexemeAdvance (tokenState x c l.kind) l.kind l.text.length).2 = z at hall
  have hzrest : z.rest = r := by
    rw [← hz, makeLexemeAdvance, advance_rest, (samePlace_tokenState x c _).rest_eq, hxr,
      List.drop_left]
  have hzcur : z.cur = x.cur + l.size := by
    rw [← hz]
    rfl
  have hzlevels : z.levelStack = levelStep s l.kind := by
    rw [← hz, ← hx.levels]
    rfl
  have hzflag : z.insertedSemicolonFlag = false := by
    rw [← hz]
    simp only [makeLexemeAdvance, tokenState, advance_flag]
    split
    · exact (hsemi ((hspell.brace_iff hc).mpr ‹_›)).2
    · by_contra hon
      have hk := (hflag.mp (by simpa using hon)).1
      exact absurd ((hspell.brace_iff hc).mp hk) ‹_›
  have hzline : z.lineNum = 1 ∧ z.lineStart = 0 := by
    rw [← hz]
    exact ⟨hx.lineNum, hx.lineStart⟩
  have hends := hx.ends
  rw [hxr, List.length_append] at hends
  have hsize : l.size = l.text.length := rfl
  cases ls with
  | nil =>
      obtain rfl := hnil rfl
      refine ⟨z, ⟨hzrest, trivial, ?_, hzlevels, hzline.1, hzline.2⟩, hzflag, hall⟩
      rw [hzcur, hzrest]
      omega
  | cons l' ls =>
      have hr' := hcons (by simp)
      have hgo : lexerTurn z = .inr (z.advance 1) := by
        rw [lexerTurn, hzrest, hr']
        simp
      rw [hr', List.length_cons] at hends
      refine ⟨z.advance 1, ⟨?_, ?_, ?_, hzlevels, hzline.1, hzline.2⟩, hzflag, ?_⟩
      · rw [advance_rest, hzrest, hr', List.drop_one, List.tail_cons]
        rfl
      · have hcur : (z.advance 1).cur = x.cur + l.size + 1 := congrArg (· + 1) hzcur
        rw [hcur]
        exact hrest
      · have hcur : (z.advance 1).cur = x.cur + l.size + 1 := congrArg (· + 1) hzcur
        rw [hcur, advance_rest, hzrest, hr', List.drop_one, List.tail_cons]
        omega
      · rw [hall, lexAll_go hgo]

/-- A semicolon is inserted where none has been. -/
theorem lexAll_inserts {x y : Lexer} (hcontext : x.levelStack.isExprContext = false)
    (hflag : x.insertedSemicolonFlag = false) (hy : y = { x with insertedSemicolonFlag := true })
    (h : lexerTurn x = .inl (fakeSemicolon (insertSemicolon x).2)) :
    lexAll x = ⟨lkSemicolon, x.cur, [], ⟨x.lineNum, x.cur - x.lineStart + 1⟩⟩ :: lexAll y := by
  have hins : (insertSemicolon x).2 = y := by
    simp [insertSemicolon, hcontext, hflag, hy]
  rw [lexAll_stop h, hins]
  subst hy
  rfl

/-- The lexemes of a line. -/
theorem Lexer.AtLine.lexAll_eq {ls : List Lexeme} {n : Nat} {s : LevelStack} {x : Lexer}
    (hx : x.AtLine s ls n) (hflag : x.insertedSemicolonFlag = false)
    (hend : (levelsAfter s ls).isExprContext = false) :
    lexAll x = delivered s ls ++ [(lineEnd n).semicolonBefore, lineEnd n] := by
  induction ls generalizing s x with
  | nil =>
      have hcontext : x.levelStack.isExprContext = false := hx.levels ▸ hend
      have hcur : x.cur = n := by
        have := hx.ends
        rwa [hx.rest, lineOf, List.map_nil, spaced, List.length_nil, Nat.add_zero] at this
      have hrest : x.rest = [] := hx.rest
      have hfake : lexerTurn x = .inl (fakeSemicolon (insertSemicolon x).2) := by
        rw [lexerTurn, hrest]
        simp [insertSemicolon, hcontext, hflag]
      have hlast : lexerTurn { x with insertedSemicolonFlag := true } =
          .inl (makeLexemeAdvance { x with insertedSemicolonFlag := false } lkEof 0) := by
        rw [lexerTurn]
        simp [insertSemicolon, hcontext, hrest]
      rw [lexAll_inserts hcontext hflag rfl hfake, lexAll_stop hlast]
      simp [makeLexemeAdvance, Lexeme.final, lineEnd, Lexeme.semicolonBefore, delivered, hcur,
        hx.lineNum, hx.lineStart]
  | cons l ls ih =>
      rw [delivered]
      split
      · rename_i hfake
        obtain ⟨hk, hs⟩ := hfake
        have hcontext : x.levelStack.isExprContext = false := hx.levels ▸ hs
        obtain ⟨hspell, hstart, hpos, -⟩ := hx.lexemes
        obtain ⟨r, hr, -⟩ := spaced_cons l.text (ls.map Lexeme.text)
        obtain ⟨c, cs, hc, hturn⟩ := lexerTurn_spelled hspell (hx.rest.trans hr)
        obtain rfl := (hspell.brace_iff hc).mp hk
        rw [Lexer.token_brace, if_pos (by simp [insertSemicolon, hcontext, hflag])] at hturn
        have hy : ({ x with insertedSemicolonFlag := true } : Lexer).AtLine s (l :: ls) n :=
          ⟨hx.rest, hx.lexemes, hx.ends, hx.levels, hx.lineNum, hx.lineStart⟩
        obtain ⟨z, hz, hzflag, hall⟩ := hy.take (iff_of_true rfl ⟨hk, hs⟩)
        rw [lexAll_inserts hcontext hflag rfl hturn, hall, ih hz hzflag hend]
        simp [Lexeme.semicolonBefore, hstart, hpos, hx.lineNum, hx.lineStart]
      · rename_i hfake
        obtain ⟨z, hz, hzflag, hall⟩ := hx.take (iff_of_false (by simp [hflag]) hfake)
        rw [hall, ih hz hzflag hend]
        rfl

/-- A lexeme on the first line. -/
def lexemeAt (kind : LexemeKind) (start : Nat) (text : String) : Lexeme :=
  ⟨kind, start, bytesOf text, ⟨1, start + 1⟩⟩

end Calx
