import Calx.Lexemes
import Calx.Lib.Span

/-!
# The lexer over its source

`lexer.c` once more, with the cursor as an offset into the source and every byte
read through a bounds check. A read outside the source yields no result, so the
equality with the lexer on lists says that there is none.

## Implementation notes

The functions have the names of the lexer on lists, in a namespace of their own.
The turns of a loop are bounded by the length of the source.
-/

namespace Calx

open LexemeKind

/-- `Lexeme`: its kind, the offset and the size of its span, and its position. -/
structure Mark where
  kind : LexemeKind
  start : Nat
  size : Nat
  pos : Position
deriving DecidableEq, Repr

/-- `Lexer` without its source. -/
structure Scanner where
  cur : Nat
  lineNum : Nat
  lineStart : Nat
  levelStack : LevelStack
  insertedSemicolonFlag : Bool
  errMsg : String
deriving DecidableEq, Repr

namespace Scanner

/-- `lexer_new`. -/
def lexerNew : Scanner := ⟨0, 1, 0, levelStackNew, false, ""⟩

/-- `make_lexeme`. -/
def makeLexeme (x : Scanner) (kind : LexemeKind) (start : Nat) : Mark × Scanner :=
  (⟨kind, start, x.cur - start, ⟨x.lineNum, start - x.lineStart + 1⟩⟩, x)

/-- `make_lexeme_advance`. -/
def makeLexemeAdvance (x : Scanner) (kind : LexemeKind) (size : Nat) : Mark × Scanner :=
  makeLexeme { x with cur := x.cur + size } kind x.cur

/-- `make_error_advance`. -/
def makeErrorAdvance (x : Scanner) (msg : String) (size : Nat) : Mark × Scanner :=
  makeLexemeAdvance { x with errMsg := msg } lkError size

/-- `fake_semicolon`. -/
def fakeSemicolon (x : Scanner) : Mark × Scanner := makeLexemeAdvance x lkSemicolon 0

/-- `insert_semicolon`. -/
def insertSemicolon (x : Scanner) : Bool × Scanner :=
  if x.levelStack.isExprContext then (false, x)
  else if x.insertedSemicolonFlag then (false, { x with insertedSemicolonFlag := false })
  else (true, { x with insertedSemicolonFlag := true })

section

variable (source : Bytes)

/-- `choice1223`. -/
def choice1223 (x : Scanner) (ifA : LexemeKind) (b : Char) (ifAb : LexemeKind)
    (c : Option (Char × LexemeKind)) (d : Option (Char × LexemeKind)) :
    Option (Mark × Scanner) :=
  if x.cur + 1 = source.length then some (makeLexemeAdvance x ifA 1)
  else do
    let c1 ← source[x.cur + 1]?
    if c1 = ch b then some (makeLexemeAdvance x ifAb 2)
    else match c with
      | none => some (makeLexemeAdvance x ifA 1)
      | some (cc, ifAc) =>
          if c1 = ch cc then
            match d with
            | none => some (makeLexemeAdvance x ifAc 2)
            | some (dd, ifAcd) =>
                if x.cur + 2 = source.length then some (makeLexemeAdvance x ifAc 2)
                else do
                  let c2 ← source[x.cur + 2]?
                  if c2 = ch dd then some (makeLexemeAdvance x ifAcd 3)
                  else some (makeLexemeAdvance x ifAc 2)
          else some (makeLexemeAdvance x ifA 1)

/-- The loop of `number`. -/
def numberLoop : Nat → Nat → Bool → Option Nat
  | 0, _, _ => none
  | turns + 1, cur, seenDot =>
      if cur + 1 = source.length then some (cur + 1)
      else do
        let c ← source[cur + 1]?
        if isDigit c || c = quote then numberLoop turns (cur + 1) seenDot
        else if c = ch '.' then
          if seenDot then some (cur + 1) else numberLoop turns (cur + 1) true
        else some (cur + 1)

/-- `number`. -/
def number (x : Scanner) : Option (Mark × Scanner) := do
  let cur ← numberLoop source source.length x.cur false
  some (makeLexeme { x with cur := cur } lkNumber x.cur)

/-- The loop of `string`, with the cursor at its end. -/
def stringLoop : Nat → Nat → Option StringEnd
  | 0, _ => none
  | turns + 1, cur =>
      if cur + 1 = source.length then some (.atEof (cur + 1))
      else do
        let c ← source[cur + 1]?
        if c = ch '"' then some (.closed (cur + 2))
        else if c = ch '\\' then
          if cur + 2 = source.length then some (.atEof (cur + 2)) else stringLoop turns (cur + 2)
        else if c = ch '\n' then some (.atEol (cur + 1))
        else stringLoop turns (cur + 1)

/-- `string`. -/
def string (x : Scanner) : Option (Mark × Scanner) := do
  match ← stringLoop source source.length x.cur with
  | .closed cur => some (makeLexeme { x with cur := cur } lkString x.cur)
  | .atEof cur =>
      some (makeErrorAdvance { x with cur := cur } "unterminated string (EOF reached)" 0)
  | .atEol cur =>
      some (makeErrorAdvance { x with cur := cur } "unterminated string (EOL reached)" 0)

/-- `identifier`. -/
def identifier (x : Scanner) : Option (Mark × Scanner) := do
  let cur ← Span.skip isIdentByte source source.length (x.cur + 1) source.length
  let (kind, isBlocky) := keywordKind (Span.slice source x.cur cur)
  let x' := if isBlocky then { x with levelStack := levelStackSetBlocky x.levelStack } else x
  some (makeLexeme { x' with cur := cur } kind x.cur)

/-- An opening bracket. -/
def openBracket (x : Scanner) (kind : LexemeKind) : Mark × Scanner :=
  makeLexemeAdvance { x with levelStack := levelStackPush x.levelStack .levelExpr } kind 1

/-- A closing bracket. -/
def closeBracket (x : Scanner) (kind : LexemeKind) : Mark × Scanner :=
  makeLexemeAdvance { x with levelStack := levelStackPop x.levelStack } kind 1

/-- `token` at the byte `c`. -/
def tokenAt (x : Scanner) (c : UInt8) : Option (Mark × Scanner) :=
  if isDigit c then number source x
  else if isIdentStart c then identifier source x
  else if c = ch '"' then string source x
  else if c = ch '!' then choice1223 source x lkBang '=' lkBangEq none none
  else if c = ch '%' then choice1223 source x lkPercent '=' lkPercentEq none none
  else if c = ch '&' then
    choice1223 source x lkAnd '=' lkAndEq (some ('&', lkAndAnd)) (some ('=', lkAndAndEq))
  else if c = ch '|' then
    choice1223 source x lkOr '=' lkOrEq (some ('|', lkOrOr)) (some ('=', lkOrOrEq))
  else if c = ch '(' then some (openBracket x lkLparen)
  else if c = ch ')' then some (closeBracket x lkRparen)
  else if c = ch '*' then
    choice1223 source x lkStar '=' lkStarEq (some ('*', lkStarStar)) (some ('=', lkStarStarEq))
  else if c = ch '+' then choice1223 source x lkPlus '=' lkPlusEq none none
  else if c = ch '-' then
    choice1223 source x lkMinus '=' lkMinusEq (some ('>', lkMinusGreater)) none
  else if c = ch ',' then some (makeLexemeAdvance x lkComma 1)
  else if c = ch '.' then some (makeLexemeAdvance x lkDot 1)
  else if c = ch '@' then some (makeLexemeAdvance x lkAt 1)
  else if c = ch '/' then
    choice1223 source x lkSlash '=' lkSlashEq (some ('/', lkSlashSlash))
      (some ('=', lkSlashSlashEq))
  else if c = ch ':' then choice1223 source x lkColon '=' lkColonEq none none
  else if c = ch ';' then some (makeLexemeAdvance x lkSemicolon 1)
  else if c = ch '<' then
    choice1223 source x lkLess '=' lkLessEq (some ('<', lkLessLess)) (some ('=', lkLessLessEq))
  else if c = ch '=' then choice1223 source x lkEq '=' lkEqEq none none
  else if c = ch '>' then
    choice1223 source x lkGreater '=' lkGreaterEq (some ('>', lkGreaterGreater))
      (some ('=', lkGreaterGreaterEq))
  else if c = ch '[' then some (openBracket x lkLbracket)
  else if c = ch ']' then some (closeBracket x lkRbracket)
  else if c = ch '^' then choice1223 source x lkHat '=' lkHatEq none none
  else if c = ch '{' then
    some (makeLexemeAdvance { x with levelStack := levelStackPushBlocky x.levelStack } lkLbrace 1)
  else if c = ch '~' then choice1223 source x lkTilde '=' lkTildeEq none none
  else if c = ch '}' then
    if (insertSemicolon x).1 then some (fakeSemicolon (insertSemicolon x).2)
    else some (closeBracket (insertSemicolon x).2 lkRbrace)
  else some (makeErrorAdvance x "unexpected symbol" 1)

/-- `token`. -/
def token (x : Scanner) : Option (Mark × Scanner) := do
  let c ← source[x.cur]?
  tokenAt source x c

/-- The loop of `lexer_next`. -/
def lexerLoop : Nat → Scanner → Option (Mark × Scanner)
  | 0, _ => none
  | turns + 1, x =>
      if x.cur = source.length then
        if (insertSemicolon x).1 then some (fakeSemicolon (insertSemicolon x).2)
        else some (makeLexemeAdvance (insertSemicolon x).2 lkEof 0)
      else do
        let c ← source[x.cur]?
        if c = ch ' ' ∨ c = ch '\t' then lexerLoop turns { x with cur := x.cur + 1 }
        else if c = ch '\n' then
          if (insertSemicolon x).1 then some (fakeSemicolon (insertSemicolon x).2)
          else
            let x := (insertSemicolon x).2
            lexerLoop turns
              { x with cur := x.cur + 1, lineNum := x.lineNum + 1, lineStart := x.cur + 1 }
        else if c = ch '#' then do
          let cur ← Span.skip (· ≠ ch '\n') source source.length (x.cur + 1) source.length
          lexerLoop turns { x with cur := cur }
        else token source x

/-- `lexer_next`. -/
def lexerNext (x : Scanner) : Option (Mark × Scanner) :=
  lexerLoop source (source.length + 1) x

/-- The lexemes of at most `n` calls of `lexer_next`, up to the end or an error. -/
def lexN : Nat → Scanner → Option (List Mark)
  | 0, _ => some []
  | n + 1, x => do
      let (l, y) ← lexerNext source x
      if l.kind = lkEof ∨ l.kind = lkError then some [l]
      else do
        let ls ← lexN n y
        some (l :: ls)

end

end Scanner

/-- The lexeme without its bytes. -/
def Lexeme.mark (l : Lexeme) : Mark := ⟨l.kind, l.start, l.size, l.pos⟩

/-- The lexer without its source. -/
def Lexer.scanner (x : Lexer) : Scanner :=
  ⟨x.cur, x.lineNum, x.lineStart, x.levelStack, x.insertedSemicolonFlag, x.errMsg⟩

/-- A lexeme and the lexer behind it, without the source. -/
def outline (r : Lexeme × Lexer) : Mark × Scanner := (r.1.mark, r.2.scanner)

namespace Scanner

variable {source : Bytes} {x : Lexer} {c : UInt8} {s : Bytes}

/-! ## Single lexemes -/

theorem makeLexemeAdvance_eq {n : Nat} (kind : LexemeKind) (hn : n ≤ x.rest.length) :
    makeLexemeAdvance x.scanner kind n = outline (Calx.makeLexemeAdvance x kind n) := by
  simp [makeLexemeAdvance, makeLexeme, outline, Calx.makeLexemeAdvance, Lexeme.mark,
    Lexeme.size, Lexer.scanner, Lexer.advance, List.length_take_of_le hn]

theorem makeErrorAdvance_eq {n : Nat} (msg : String) (hn : n ≤ x.rest.length) :
    makeErrorAdvance x.scanner msg n = outline (Calx.makeErrorAdvance x msg n) :=
  makeLexemeAdvance_eq (x := { x with errMsg := msg }) lkError hn

theorem scanner_advance (x : Lexer) (n : Nat) :
    (x.advance n).scanner = { x.scanner with cur := x.cur + n } := rfl

theorem insertSemicolon_eq (x : Lexer) :
    insertSemicolon x.scanner =
      ((Calx.insertSemicolon x).1, (Calx.insertSemicolon x).2.scanner) := by
  by_cases h1 : x.levelStack.isExprContext <;> by_cases h2 : x.insertedSemicolonFlag <;>
    simp [insertSemicolon, Calx.insertSemicolon, Lexer.scanner, h1, h2]

theorem choice1223_eq (hx : x.Reads source) (hr : x.rest = c :: s) (ifA : LexemeKind) (b : Char)
    (ifAb : LexemeKind) (o d : Option (Char × LexemeKind)) :
    choice1223 source x.scanner ifA b ifAb o d =
      some (outline (Calx.choice1223 x ifA b ifAb o d)) := by
  have hmake : ∀ {n : Nat} (kind : LexemeKind), n ≤ x.rest.length →
      makeLexemeAdvance x.scanner kind n = outline (Calx.makeLexemeAdvance x kind n) :=
    fun kind hn => makeLexemeAdvance_eq kind hn
  obtain ⟨hlt, -, hs⟩ := Span.drop_cons (hx.rest_eq.symm.trans hr)
  have hcur : x.scanner.cur = x.cur := rfl
  unfold choice1223 Calx.choice1223
  rw [hr] at hmake
  rw [hcur, hr, List.tail_cons]
  cases s with
  | nil => rw [if_pos (Span.drop_nil hlt hs), hmake _ (by simp)]
  | cons c1 s =>
      obtain ⟨hlt1, hc1, hs1⟩ := Span.drop_cons hs
      rw [if_neg (Nat.ne_of_lt hlt1), hc1]
      simp only [Option.bind_eq_bind, Option.bind_some]
      split
      · rw [hmake _ (by simp)]
      · cases o with
        | none => simp only [hmake ifA (by simp : 1 ≤ (c :: c1 :: s).length)]
        | some p =>
            simp only
            split
            · cases d with
              | none => simp only [hmake p.2 (by simp : 2 ≤ (c :: c1 :: s).length)]
              | some q =>
                  cases s with
                  | nil =>
                      have hend := Span.drop_nil hlt1 hs1
                      simp only [if_pos hend, hmake p.2 (by simp : 2 ≤ [c, c1].length)]
                  | cons c2 s =>
                      obtain ⟨hlt2, hc2, -⟩ := Span.drop_cons hs1
                      simp only [if_neg (Nat.ne_of_lt hlt2), hc2, Option.bind_some]
                      split
                      · rw [hmake _ (by simp)]
                      · rw [hmake _ (by simp)]
            · rw [hmake _ (by simp)]

theorem numberLoop_eq {turns cur : Nat} (hlt : cur < source.length)
    (hturns : source.length - cur ≤ turns) (seenDot : Bool) :
    numberLoop source turns cur seenDot =
      some (cur + 1 + numberLen seenDot (source.drop (cur + 1))) := by
  induction turns generalizing cur seenDot with
  | zero => omega
  | succ turns ih =>
      rw [numberLoop]
      cases hd : source.drop (cur + 1) with
      | nil =>
          rw [if_pos (Span.drop_nil hlt hd)]
          rfl
      | cons c s =>
          obtain ⟨hlt1, hc, hs⟩ := Span.drop_cons hd
          have hnext : ∀ b, numberLoop source turns (cur + 1) b =
              some (cur + 1 + (1 + numberLen b s)) := by
            intro b
            rw [ih hlt1 (by omega), hs, Nat.add_assoc (cur + 1)]
          rw [if_neg (Nat.ne_of_lt hlt1), hc, numberLen]
          simp only [Option.bind_eq_bind, Option.bind_some, hnext]
          split
          · rfl
          · split
            · split <;> rfl
            · rfl

theorem number_eq (hx : x.Reads source) (hr : x.rest = c :: s) :
    number source x.scanner = some (outline (Calx.number x)) := by
  obtain ⟨hlt, -, hs⟩ := Span.drop_cons (hx.rest_eq.symm.trans hr)
  have hle : 1 + numberLen false s ≤ x.rest.length := by
    rw [hr, List.length_cons, Nat.add_comm]
    exact Nat.succ_le_succ (numberLen_le false s)
  have hcur : x.scanner.cur = x.cur := rfl
  rw [number, hcur, numberLoop_eq hlt (Nat.sub_le _ _), hs]
  simp only [Option.bind_eq_bind, Option.bind_some, Option.some.injEq]
  rw [Calx.number, hr, List.tail_cons, ← makeLexemeAdvance_eq _ hle, makeLexemeAdvance, hcur,
    Nat.add_assoc]

theorem stringLoop_eq {turns cur : Nat} (hlt : cur < source.length)
    (hturns : source.length - cur ≤ turns) :
    stringLoop source turns cur = some ((stringScan (source.drop (cur + 1))).shift (cur + 1)) := by
  induction turns generalizing cur with
  | zero => omega
  | succ turns ih =>
      rw [stringLoop]
      cases hd : source.drop (cur + 1) with
      | nil =>
          rw [if_pos (Span.drop_nil hlt hd)]
          simp [stringScan, StringEnd.shift]
      | cons c s =>
          obtain ⟨hlt1, hc, hs⟩ := Span.drop_cons hd
          rw [if_neg (Nat.ne_of_lt hlt1), hc]
          simp only [Option.bind_eq_bind, Option.bind_some]
          have hnext := ih hlt1 (by omega)
          rw [hs] at hnext
          cases s with
          | nil =>
              have hend := Span.drop_nil hlt1 hs
              have hstop : stringLoop source turns (cur + 1) = some (.atEof (cur + 2)) := by
                rw [hnext]
                simp [stringScan, StringEnd.shift]
              rw [stringScan, if_pos hend, hstop]
              split_ifs <;> simp [StringEnd.shift] <;> omega
          | cons c' s =>
              obtain ⟨hlt2, -, hs2⟩ := Span.drop_cons hs
              have hskip := ih hlt2 (by omega)
              rw [hs2] at hskip
              rw [stringScan, if_neg (Nat.ne_of_lt hlt2), hskip, hnext]
              split_ifs
              · simp [StringEnd.shift]
                omega
              · rw [StringEnd.shift_shift, Nat.add_comm 2]
              · simp [StringEnd.shift]
              · rw [StringEnd.shift_shift, Nat.add_comm 1]

theorem string_eq (hx : x.Reads source) (hr : x.rest = c :: s) :
    string source x.scanner = some (outline (Calx.string x)) := by
  obtain ⟨hlt, -, hs⟩ := Span.drop_cons (hx.rest_eq.symm.trans hr)
  have hle := stringScan_le s
  have hlen : x.rest.length = s.length + 1 := by rw [hr, List.length_cons]
  have hcur : x.scanner.cur = x.cur := rfl
  rw [string, hcur, stringLoop_eq hlt (Nat.sub_le _ _), hs, Calx.string, hr, List.tail_cons]
  simp only [Option.bind_eq_bind, Option.bind_some]
  cases hscan : stringScan s with
  | closed n =>
      rw [hscan, StringEnd.passed] at hle
      simp only [StringEnd.shift, Option.some.injEq]
      rw [← makeLexemeAdvance_eq _ (by omega), makeLexemeAdvance, hcur]
      congr 2
      omega
  | atEof n =>
      simp only [StringEnd.shift, Option.some.injEq]
      rw [← makeErrorAdvance_eq _ (Nat.zero_le _), scanner_advance]
      congr 2
      omega
  | atEol n =>
      simp only [StringEnd.shift, Option.some.injEq]
      rw [← makeErrorAdvance_eq _ (Nat.zero_le _), scanner_advance]
      congr 2
      omega

theorem identifier_eq (hx : x.Reads source) (hr : x.rest = c :: s) :
    identifier source x.scanner = some (outline (Calx.identifier x)) := by
  obtain ⟨hlt, -, hs⟩ := Span.drop_cons (hx.rest_eq.symm.trans hr)
  have hcur : x.scanner.cur = x.cur := rfl
  have hskip : Span.skip isIdentByte source source.length (x.cur + 1) source.length =
      some (x.cur + (1 + (s.takeWhile isIdentByte).length)) := by
    have hi : x.cur + 1 ≤ source.length := hlt
    rw [Span.skip_eq hi (Nat.le_refl _) (by omega), Span.slice_length, hs, Nat.add_assoc]
  have hle : 1 + (s.takeWhile isIdentByte).length ≤ x.rest.length := by
    rw [hr, List.length_cons, Nat.add_comm]
    exact Nat.succ_le_succ (List.takeWhile_sublist isIdentByte).length_le
  have hname : Span.slice source x.cur (x.cur + (1 + (s.takeWhile isIdentByte).length)) =
      x.rest.take (1 + (s.takeWhile isIdentByte).length) := by
    rw [Span.slice, hx.rest_eq, List.take_drop]
  have htail : x.rest.tail = s := by rw [hr, List.tail_cons]
  simp only [identifier, Calx.identifier, hcur, hskip, htail, Option.bind_eq_bind,
    Option.bind_some, hname]
  generalize keywordKind (x.rest.take (1 + (s.takeWhile isIdentByte).length)) = k
  obtain ⟨kind, isBlocky⟩ := k
  cases isBlocky with
  | true =>
      have h := makeLexemeAdvance_eq
        (x := { x with levelStack := levelStackSetBlocky x.levelStack }) kind hle
      exact congrArg some h
  | false => exact congrArg some (makeLexemeAdvance_eq kind hle)

/-! ## Tokens -/

/-- The same choice on both sides. -/
theorem ite_eq {p : Prop} [Decidable p] {a a' : Option (Mark × Scanner)} {b b' : Lexeme × Lexer}
    (h : p → a = some (outline b)) (h' : ¬p → a' = some (outline b')) :
    (if p then a else a') = some (outline (if p then b else b')) := by
  split
  · exact h ‹_›
  · exact h' ‹_›

theorem tokenAt_eq (hx : x.Reads source) (hr : x.rest = c :: s) :
    tokenAt source x.scanner c = some (outline (Calx.token x c)) := by
  have hlen : 1 ≤ x.rest.length := by simp [hr]
  have op : ∀ {q : Prop} {ifA : LexemeKind} {b : Char} {ifAb : LexemeKind}
      {o d : Option (Char × LexemeKind)}, q → choice1223 source x.scanner ifA b ifAb o d =
        some (outline (Calx.choice1223 x ifA b ifAb o d)) :=
    fun _ => choice1223_eq hx hr _ _ _ _ _
  have one : ∀ {q : Prop} {kind : LexemeKind}, q → some (makeLexemeAdvance x.scanner kind 1) =
      some (outline (Calx.makeLexemeAdvance x kind 1)) :=
    fun _ => congrArg some (makeLexemeAdvance_eq _ hlen)
  have level : ∀ {q : Prop} {kind : LexemeKind} {l : LevelStack}, q →
      some (makeLexemeAdvance { x.scanner with levelStack := l } kind 1) =
        some (outline (Calx.makeLexemeAdvance { x with levelStack := l } kind 1)) :=
    fun _ => congrArg some (makeLexemeAdvance_eq (x := { x with levelStack := _ }) _ hlen)
  unfold tokenAt Calx.token
  refine ite_eq (fun _ => number_eq hx hr) fun _ => ite_eq (fun _ => identifier_eq hx hr) fun _ =>
    ite_eq (fun _ => string_eq hx hr) fun _ => ite_eq op fun _ => ite_eq op fun _ =>
    ite_eq op fun _ => ite_eq op fun _ => ite_eq level fun _ => ite_eq level fun _ =>
    ite_eq op fun _ => ite_eq op fun _ => ite_eq op fun _ => ite_eq one fun _ =>
    ite_eq one fun _ => ite_eq one fun _ => ite_eq op fun _ => ite_eq op fun _ =>
    ite_eq one fun _ => ite_eq op fun _ => ite_eq op fun _ => ite_eq op fun _ =>
    ite_eq level fun _ => ite_eq level fun _ => ite_eq op fun _ => ite_eq level fun _ =>
    ite_eq op fun _ => ite_eq (fun _ => ?_) fun _ => ?_
  · rw [insertSemicolon_eq]
    refine ite_eq (fun _ => congrArg some (makeLexemeAdvance_eq _ (Nat.zero_le _))) fun _ => ?_
    apply congrArg some
    apply makeLexemeAdvance_eq (x := { (Calx.insertSemicolon x).2 with levelStack := _ })
    rw [(insertSemicolon_fields x).1]
    exact hlen
  · exact congrArg some (makeErrorAdvance_eq _ hlen)

/-! ## Runs -/

theorem lexerLoop_eq {turns : Nat} (hx : x.Reads source) (hturns : x.rest.length < turns) :
    lexerLoop source turns x.scanner = some (outline (Calx.lexerLoop turns x)) := by
  induction turns generalizing x with
  | zero => omega
  | succ turns ih =>
      have hcur : x.scanner.cur = x.cur := rfl
      have hlen := hx.length_rest
      rw [lexerLoop, Calx.lexerLoop, insertSemicolon_eq, hcur]
      cases hr : x.rest with
      | nil =>
          rw [hr, List.length_nil] at hlen
          rw [if_pos (by omega)]
          refine ite_eq (fun _ => ?_) fun _ => ?_
          · exact congrArg some (makeLexemeAdvance_eq _ (Nat.zero_le _))
          · exact congrArg some (makeLexemeAdvance_eq _ (Nat.zero_le _))
      | cons c s =>
          obtain ⟨hlt, hc, hs⟩ := Span.drop_cons (hx.rest_eq.symm.trans hr)
          rw [hr, List.length_cons] at hlen hturns
          rw [if_neg (Nat.ne_of_lt hlt), hc]
          simp only [Option.bind_eq_bind, Option.bind_some]
          refine ite_eq (fun _ => ?_) fun _ => ite_eq (fun _ => ite_eq (fun _ => ?_) fun _ => ?_)
            fun _ => ite_eq (fun _ => ?_) fun _ => ?_
          · apply ih (hx.advance (by simp [hr]))
            simp only [Lexer.advance_rest, hr, List.length_drop, List.length_cons]
            omega
          · exact congrArg some (makeLexemeAdvance_eq _ (Nat.zero_le _))
          · have hlt : (passLine x).rest.length < turns := by
              simp only [passLine, Lexer.advance_rest, insertSemicolon_fields, hr, List.length_drop,
                List.length_cons]
              omega
            simpa [passLine, Lexer.scanner, Lexer.advance, insertSemicolon_fields] using
              ih (hx.passLine hr) hlt
          · have hcomment : commentLen x.rest = 1 + (s.takeWhile (· ≠ ch '\n')).length := by
              rw [hr, commentLen]
            have hle : commentLen x.rest ≤ x.rest.length := by
              rw [hr]
              exact commentLen_le
            have hi : x.cur + 1 ≤ source.length := hlt
            have hskip : Span.skip (· ≠ ch '\n') source source.length (x.cur + 1) source.length =
                some (x.cur + commentLen x.rest) := by
              rw [Span.skip_eq hi (Nat.le_refl _) (by omega), Span.slice_length, hs, hcomment,
                Nat.add_assoc]
            rw [hskip, ← hr]
            apply ih (hx.advance hle)
            rw [Lexer.advance_rest, List.length_drop, hr, List.length_cons, ← hr, hcomment]
            omega
          · rw [token, hcur, hc]
            exact tokenAt_eq hx hr

/-- A call of `lexer_next` reads the source only, and does what the lexer on lists does. -/
theorem lexerNext_eq (hx : x.Reads source) :
    lexerNext source x.scanner = some (outline (Calx.lexerNext x)) := by
  have hlen := hx.length_rest
  rw [lexerNext, lexerLoop_eq hx (by omega), Calx.lexerNext,
    Calx.lexerLoop_eq_of_le (m := x.rest.length + 1) (by omega) (Nat.lt_succ_self _)]

theorem lexN_eq (hx : x.Reads source) (n : Nat) :
    lexN source n x.scanner = some ((Calx.lexN n x).map Lexeme.mark) := by
  induction n generalizing x with
  | zero => rfl
  | succ n ih =>
      rw [lexN, Calx.lexN, lexerNext_eq hx]
      simp only [Option.bind_eq_bind, Option.bind_some, outline]
      by_cases hf : (Calx.lexerNext x).1.final
      · have hkind : (Calx.lexerNext x).1.mark.kind = lkEof ∨
            (Calx.lexerNext x).1.mark.kind = lkError := hf
        rw [if_pos hkind, if_pos hf]
        rfl
      · have hkind : ¬ ((Calx.lexerNext x).1.mark.kind = lkEof ∨
            (Calx.lexerNext x).1.mark.kind = lkError) := hf
        rw [if_neg hkind, if_neg hf, ih (lexerNext_reads hx)]
        rfl

end Scanner

end Calx
