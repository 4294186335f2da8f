import Calx.Lexer
import Mathlib.Tactic.Common
import Mathlib.Tactic.FinCases

/-!
# The lexemes of a source

The list of lexemes `lexer_next` delivers up to the first end of input or
error, and the measure by which every call makes progress.
-/

namespace Calx

open LexemeKind

/-- A lexeme after which `lexer_next` is not called again. -/
def Lexeme.final (l : Lexeme) : Prop := l.kind = lkEof ∨ l.kind = lkError

instance (l : Lexeme) : Decidable l.final := inferInstanceAs (Decidable (_ ∨ _))

/-- The lexemes of at most `n` calls of `lexer_next`. -/
def lexN : Nat → Lexer → List Lexeme
  | 0, _ => []
  | n + 1, x =>
      let r := lexerNext x
      r.1 :: if r.1.final then [] else lexN n r.2

namespace Lexer

/-- An upper bound for the number of lexemes still to come. -/
def bound (x : Lexer) : Nat := 2 * x.rest.length + 1 + (!x.insertedSemicolonFlag).toNat

theorem bound_pos (x : Lexer) : 0 < x.bound := by
  unfold bound
  omega

@[simp] theorem advance_rest (x : Lexer) (n : Nat) : (x.advance n).rest = x.rest.drop n := rfl

@[simp] theorem advance_flag (x : Lexer) (n : Nat) :
    (x.advance n).insertedSemicolonFlag = x.insertedSemicolonFlag := rfl

@[simp] theorem advance_levelStack (x : Lexer) (n : Nat) :
    (x.advance n).levelStack = x.levelStack := rfl

end Lexer

/-- The lexemes `lexer_next` delivers up to the first one that is final. -/
def lexAll (x : Lexer) : List Lexeme := lexN x.bound x

/-! ## Operators -/

/-- The spellings of the operators and brackets. -/
def operators : List (List Char × LexemeKind) :=
  [(['!'], lkBang), (['!', '='], lkBangEq), (['%'], lkPercent), (['%', '='], lkPercentEq),
   (['&'], lkAnd), (['&', '='], lkAndEq), (['&', '&'], lkAndAnd), (['&', '&', '='], lkAndAndEq),
   (['|'], lkOr), (['|', '='], lkOrEq), (['|', '|'], lkOrOr), (['|', '|', '='], lkOrOrEq),
   (['('], lkLparen), ([')'], lkRparen),
   (['*'], lkStar), (['*', '='], lkStarEq), (['*', '*'], lkStarStar),
   (['*', '*', '='], lkStarStarEq),
   (['+'], lkPlus), (['+', '='], lkPlusEq), (['-'], lkMinus), (['-', '='], lkMinusEq),
   (['-', '>'], lkMinusGreater), ([','], lkComma), (['.'], lkDot), (['@'], lkAt),
   (['/'], lkSlash), (['/', '='], lkSlashEq), (['/', '/'], lkSlashSlash),
   (['/', '/', '='], lkSlashSlashEq),
   ([':'], lkColon), ([':', '='], lkColonEq), ([';'], lkSemicolon),
   (['<'], lkLess), (['<', '='], lkLessEq), (['<', '<'], lkLessLess),
   (['<', '<', '='], lkLessLessEq), (['='], lkEq), (['=', '='], lkEqEq),
   (['>'], lkGreater), (['>', '='], lkGreaterEq), (['>', '>'], lkGreaterGreater),
   (['>', '>', '='], lkGreaterGreaterEq),
   (['['], lkLbracket), ([']'], lkRbracket), (['^'], lkHat), (['^', '='], lkHatEq),
   (['{'], lkLbrace), (['~'], lkTilde), (['~', '='], lkTildeEq), (['}'], lkRbrace)]

theorem operators_spec : ∀ o ∈ operators, o.2 ≠ lkEof ∧ o.2 ≠ lkError ∧
    (o.2 = lkSemicolon → o.1.head?.map ch = some (ch ';')) ∧
    (o.2 = lkRbrace ↔ o.1.head?.map ch = some (ch '}')) ∧ o.1 ≠ [] := by decide

/-- The operators that start with the byte `c`. -/
def operatorsAt (c : UInt8) : List (List Char × LexemeKind) :=
  operators.filter fun o => o.1.head?.map ch = some c

/-- `o` is the longest operator that the bytes `s` start with. -/
structure Longest (s : Bytes) (o : List Char × LexemeKind) : Prop where
  mem : o ∈ operators
  starts : o.1.map ch <+: s
  longest : ∀ o' ∈ operators, o'.1.map ch <+: s → o'.1.length ≤ o.1.length

theorem Longest.of_at {c : UInt8} {s : Bytes} {o : List Char × LexemeKind}
    (hmem : o ∈ operatorsAt c) (hstarts : o.1.map ch <+: c :: s)
    (hlongest : ∀ o' ∈ operatorsAt c, o'.1.map ch <+: c :: s → o'.1.length ≤ o.1.length) :
    Longest (c :: s) o := by
  refine ⟨List.mem_of_mem_filter hmem, hstarts, ?_⟩
  intro o' ho' hpre
  cases hsp : o'.1 with
  | nil => exact Nat.zero_le _
  | cons a t =>
      rw [hsp, List.map_cons, List.cons_prefix_cons] at hpre
      have hat : o' ∈ operatorsAt c := by
        rw [operatorsAt, List.mem_filter]
        exact ⟨ho', by simp [hsp, hpre.1]⟩
      have := hlongest o' hat (by rw [hsp, List.map_cons, List.cons_prefix_cons]; exact hpre)
      rwa [hsp] at this

/-- The operators `choice1223` chooses from when the first byte is `a`. -/
def choices (a : Char) (ifA : LexemeKind) (b : Char) (ifAb : LexemeKind)
    (c d : Option (Char × LexemeKind)) : List (List Char × LexemeKind) :=
  ([a], ifA) :: ([a, b], ifAb) ::
    match c, d with
    | none, _ => []
    | some (c, ifAc), none => [([a, c], ifAc)]
    | some (c, ifAc), some (d, ifAcd) => [([a, c], ifAc), ([a, c, d], ifAcd)]

/-- `choice1223` delivers the longest of its choices. -/
theorem choice1223_choice {x : Lexer} (a : Char) {b : Char} (ifA ifAb : LexemeKind)
    {c : Option (Char × LexemeKind)} (d : Option (Char × LexemeKind)) {r : Bytes}
    (hr : x.rest = ch a :: r)
    (hb : ∀ p ∈ c, ch p.1 ≠ ch b) :
    ∃ o ∈ choices a ifA b ifAb c d, o.1.map ch <+: ch a :: r ∧
      (∀ o' ∈ choices a ifA b ifAb c d, o'.1.map ch <+: ch a :: r → o'.1.length ≤ o.1.length) ∧
      choice1223 x ifA b ifAb c d = makeLexemeAdvance x o.2 o.1.length := by
  unfold choice1223
  rw [hr, List.tail_cons]
  cases r with
  | nil =>
      refine ⟨([a], ifA), ?_⟩
      rcases c with _ | ⟨c, ifAc⟩ <;> rcases d with _ | ⟨d, ifAcd⟩ <;> simp [choices]
  | cons c1 r =>
      by_cases h1 : c1 = ch b
      · refine ⟨([a, b], ifAb), ?_⟩
        rcases c with _ | ⟨c, ifAc⟩ <;> rcases d with _ | ⟨d, ifAcd⟩ <;> simp_all [choices]
      · rcases c with _ | ⟨c, ifAc⟩
        · refine ⟨([a], ifA), ?_⟩
          simp [choices, h1, Ne.symm h1]
        · by_cases h2 : c1 = ch c
          · rcases d with _ | ⟨d, ifAcd⟩
            · refine ⟨([a, c], ifAc), ?_⟩
              simp_all [choices]
            · cases r with
              | nil =>
                  refine ⟨([a, c], ifAc), ?_⟩
                  simp_all [choices]
              | cons c2 r =>
                  by_cases h3 : c2 = ch d
                  · refine ⟨([a, c, d], ifAcd), ?_⟩
                    simp_all [choices]
                  · refine ⟨([a, c], ifAc), ?_⟩
                    simp_all [choices, Ne.symm h3]
          · refine ⟨([a], ifA), ?_⟩
            rcases d with _ | ⟨d, ifAcd⟩ <;> simp [choices, h1, h2, Ne.symm h1, Ne.symm h2]

/-! ## What a token consists of -/

/-- The effect of a delivered lexeme on the level stack. -/
def levelStep (s : LevelStack) : LexemeKind → LevelStack
  | lkLparen | lkLbracket => levelStackPush s .levelExpr
  | lkRparen | lkRbracket | lkRbrace => levelStackPop s
  | lkLbrace => levelStackPushBlocky s
  | lkFun | lkIf | lkElse | lkElif | lkFor | lkWhile => levelStackSetBlocky s
  | _ => s

/-- The kinds of lexemes that leave the level stack alone and are no end, error or `;`. -/
def LexemeKind.isPlain : LexemeKind → Bool
  | lkLparen | lkLbracket | lkRparen | lkRbracket | lkRbrace | lkLbrace | lkFun | lkIf | lkElse
  | lkElif | lkFor | lkWhile | lkEof | lkError | lkSemicolon => false
  | _ => true

theorem LexemeKind.ne_of_isPlain {k k' : LexemeKind} (h : k.isPlain = true)
    (h' : k'.isPlain = false) : k ≠ k' := by
  rintro rfl
  rw [h] at h'
  cases h'

theorem levelStep_plain (s : LevelStack) {k : LexemeKind} (h : k.isPlain = true) :
    levelStep s k = s := by
  cases k <;> first | rfl | cases h

/-- The lexer state from which `token` makes a lexeme of kind `kind` at the byte `c`. -/
def tokenState (x : Lexer) (c : UInt8) (kind : LexemeKind) : Lexer :=
  { x with
    levelStack := levelStep x.levelStack kind
    insertedSemicolonFlag :=
      if c = ch '}' then (insertSemicolon x).2.insertedSemicolonFlag
      else x.insertedSemicolonFlag }

theorem tokenState_plain (x : Lexer) {c : UInt8} {k : LexemeKind} (hk : k.isPlain = true)
    (hc : c ≠ ch '}') : tokenState x c k = x := by
  simp [tokenState, levelStep_plain _ hk, hc]

/-- The lexer state in which `token` delivers a lexeme of kind `kind` at an operator byte. -/
theorem tokenState_of_step {x : Lexer} {c : UInt8} {k : LexemeKind} {s : LevelStack}
    (hs : s = levelStep x.levelStack k) (hc : c ≠ ch '}') :
    { x with levelStack := s } = tokenState x c k := by
  simp [tokenState, hs, hc]

/-- What `token` makes at the byte `c`. -/
inductive TokenForm (x : Lexer) (c : UInt8) : Lexeme × Lexer → Prop
  | fake (hc : c = ch '}') (hi : (insertSemicolon x).1 = true) :
      TokenForm x c (fakeSemicolon (insertSemicolon x).2)
  | number (hc : isDigit c = true) : TokenForm x c (number x)
  | identifier (hc : isIdentStart c = true) : TokenForm x c (identifier x)
  | string (hc : c = ch '"') : TokenForm x c (string x)
  | operator {o : List Char × LexemeKind} (h : Longest x.rest o) :
      TokenForm x c (makeLexemeAdvance (tokenState x c o.2) o.2 o.1.length)
  | unexpected (hd : isDigit c = false) (hi : isIdentStart c = false) (hq : c ≠ ch '"')
      (ho : operatorsAt c = []) : TokenForm x c (makeErrorAdvance x "unexpected symbol" 1)

/-- Any choice between two forms. -/
theorem TokenForm.ite {x : Lexer} {c : UInt8} {p : Prop} [Decidable p] {a b : Lexeme × Lexer}
    (ha : p → TokenForm x c a) (hb : ¬p → TokenForm x c b) : TokenForm x c (if p then a else b) := by
  split
  · exact ha ‹_›
  · exact hb ‹_›

/-- An operator of `choice1223`. -/
theorem TokenForm.choice {x : Lexer} {c : UInt8} {r : Bytes} (hr : x.rest = c :: r) {a b : Char}
    {ifA ifAb : LexemeKind} {o d : Option (Char × LexemeKind)} (ha : c = ch a)
    (hat : operatorsAt (ch a) = choices a ifA b ifAb o d) (hb : ∀ p ∈ o, ch p.1 ≠ ch b)
    (hk : ∀ p ∈ choices a ifA b ifAb o d, p.2.isPlain = true) (hc : ch a ≠ ch '}') :
    TokenForm x c (choice1223 x ifA b ifAb o d) := by
  subst ha
  obtain ⟨p, hmem, hstarts, hlongest, heq⟩ := choice1223_choice a ifA ifAb d hr hb
  have hlong : Longest x.rest p := by
    rw [hr]
    rw [← hat] at hmem hlongest
    exact .of_at hmem hstarts hlongest
  have h := TokenForm.operator (c := ch a) hlong
  rw [tokenState_plain x (hk p hmem) hc] at h
  rwa [heq]

/-- An operator of one byte. -/
theorem TokenForm.single {x : Lexer} {c : UInt8} {r : Bytes} (hr : x.rest = c :: r) {a : Char}
    {kind : LexemeKind} (ha : c = ch a) (hat : operatorsAt (ch a) = [([a], kind)]) :
    TokenForm x c (makeLexemeAdvance (tokenState x c kind) kind 1) := by
  subst ha
  apply TokenForm.operator (o := ([a], kind))
  rw [hr]
  apply Longest.of_at
  · rw [hat]
    exact List.mem_singleton_self _
  · simp
  · intro o' ho' _
    rw [hat, List.mem_singleton] at ho'
    rw [ho']

/-- `token` at the first byte left. -/
theorem token_form {x : Lexer} {c : UInt8} {r : Bytes} (hr : x.rest = c :: r) :
    TokenForm x c (token x c) := by
  have op : ∀ {a b : Char} {ifA ifAb : LexemeKind} {o d : Option (Char × LexemeKind)},
      operatorsAt (ch a) = choices a ifA b ifAb o d → (∀ p ∈ o, ch p.1 ≠ ch b) →
      (∀ p ∈ choices a ifA b ifAb o d, p.2.isPlain = true) → ch a ≠ ch '}' → c = ch a →
      TokenForm x c (choice1223 x ifA b ifAb o d) :=
    fun hat hb hk hc ha => .choice hr ha hat hb hk hc
  have one : ∀ {a : Char} {kind : LexemeKind} {s : LevelStack},
      operatorsAt (ch a) = [([a], kind)] → s = levelStep x.levelStack kind → ch a ≠ ch '}' →
      c = ch a → TokenForm x c (makeLexemeAdvance { x with levelStack := s } kind 1) := by
    intro a kind s hat hs hc ha
    rw [tokenState_of_step hs (ha ▸ hc)]
    exact .single hr ha hat
  unfold token
  refine .ite .number fun hd => .ite .identifier fun hi => .ite .string fun hq =>
    .ite (op (by decide) (by decide) (by decide) (by decide)) fun h1 =>
    .ite (op (by decide) (by decide) (by decide) (by decide)) fun h2 =>
    .ite (op (by decide) (by decide) (by decide) (by decide)) fun h3 =>
    .ite (op (by decide) (by decide) (by decide) (by decide)) fun h4 =>
    .ite (one (by decide) rfl (by decide)) fun h5 =>
    .ite (one (by decide) rfl (by decide)) fun h6 =>
    .ite (op (by decide) (by decide) (by decide) (by decide)) fun h7 =>
    .ite (op (by decide) (by decide) (by decide) (by decide)) fun h8 =>
    .ite (op (by decide) (by decide) (by decide) (by decide)) fun h9 =>
    .ite (one (by decide) rfl (by decide)) fun h10 =>
    .ite (one (by decide) rfl (by decide)) fun h11 =>
    .ite (one (by decide) rfl (by decide)) fun h12 =>
    .ite (op (by decide) (by decide) (by decide) (by decide)) fun h13 =>
    .ite (op (by decide) (by decide) (by decide) (by decide)) fun h14 =>
    .ite (one (by decide) rfl (by decide)) fun h15 =>
    .ite (op (by decide) (by decide) (by decide) (by decide)) fun h16 =>
    .ite (op (by decide) (by decide) (by decide) (by decide)) fun h17 =>
    .ite (op (by decide) (by decide) (by decide) (by decide)) fun h18 =>
    .ite (one (by decide) rfl (by decide)) fun h19 =>
    .ite (one (by decide) rfl (by decide)) fun h20 =>
    .ite (op (by decide) (by decide) (by decide) (by decide)) fun h21 =>
    .ite (one (by decide) rfl (by decide)) fun h22 =>
    .ite (op (by decide) (by decide) (by decide) (by decide)) fun h23 =>
    .ite (fun h => .ite (fun hf => .fake h hf) fun _ => ?_) fun h24 => ?_
  · -- a closing brace with no semicolon before it
    have hx : { (insertSemicolon x).2 with
        levelStack := levelStackPop (insertSemicolon x).2.levelStack } =
        tokenState x c lkRbrace := by
      simp only [tokenState, h, if_true, levelStep, insertSemicolon]
      split_ifs <;> rfl
    unfold closeBracket
    rw [hx]
    exact .single hr h (by decide)
  · refine .unexpected (Bool.eq_false_iff.mpr hd) (Bool.eq_false_iff.mpr hi) hq ?_
    simp [operatorsAt, operators, eq_comm, *]

/-- The three things `token` can do at the byte `c`. -/
inductive TokenCase (x : Lexer) (c : UInt8) : Lexeme × Lexer → Prop
  | fake (hc : c = ch '}') (hi : (insertSemicolon x).1 = true) :
      TokenCase x c (fakeSemicolon (insertSemicolon x).2)
  | error (msg : String) (skip size : Nat) :
      TokenCase x c (makeErrorAdvance (x.advance skip) msg size)
  | token {kind : LexemeKind} {size : Nat} (heof : kind ≠ lkEof) (herr : kind ≠ lkError)
      (hpos : 1 ≤ size) (hle : size ≤ x.rest.length)
      (hsemi : kind = lkSemicolon → c = ch ';') (hrb : kind = lkRbrace ↔ c = ch '}') :
      TokenCase x c (makeLexemeAdvance (tokenState x c kind) kind size)

/-- A lexeme of a plain kind at a byte that is no closing brace. -/
theorem TokenCase.plain {x : Lexer} {c : UInt8} {kind : LexemeKind} {size : Nat}
    (hk : kind.isPlain = true) (hc : c ≠ ch '}') (hpos : 1 ≤ size) (hle : size ≤ x.rest.length) :
    TokenCase x c (makeLexemeAdvance x kind size) := by
  have h : TokenCase x c (makeLexemeAdvance (tokenState x c kind) kind size) := by
    apply TokenCase.token (LexemeKind.ne_of_isPlain hk rfl) (LexemeKind.ne_of_isPlain hk rfl) hpos hle
    · intro hsemi
      exact absurd hsemi (LexemeKind.ne_of_isPlain hk rfl)
    · exact iff_of_false (LexemeKind.ne_of_isPlain hk rfl) hc
  rwa [tokenState_plain x hk hc] at h

theorem numberLen_le (b : Bool) (s : Bytes) : numberLen b s ≤ s.length := by
  induction s generalizing b with
  | nil => simp [numberLen]
  | cons c cs ih =>
      have h1 := ih b
      have h2 := ih true
      simp only [numberLen, List.length_cons]
      split_ifs <;> omega

theorem StringEnd.shift_eq_closed {k n : Nat} {e : StringEnd} (h : e.shift k = .closed n) :
    ∃ m, e = .closed m ∧ n = m + k := by
  cases e with
  | closed m => exact ⟨m, rfl, by simpa [StringEnd.shift, eq_comm] using h⟩
  | atEof m => simp [StringEnd.shift] at h
  | atEol m => simp [StringEnd.shift] at h

/-- The bytes passed. -/
def StringEnd.passed : StringEnd → Nat
  | closed n => n
  | atEof n => n
  | atEol n => n

theorem StringEnd.passed_shift (k : Nat) (e : StringEnd) : (e.shift k).passed = e.passed + k := by
  cases e <;> rfl

theorem StringEnd.shift_shift (k m : Nat) (e : StringEnd) :
    (e.shift k).shift m = e.shift (k + m) := by
  cases e <;> simp [StringEnd.shift, Nat.add_assoc]

theorem stringScan_le (s : Bytes) : (stringScan s).passed ≤ s.length := by
  fun_induction stringScan s with
  | case7 c' cs hc ih =>
      rw [StringEnd.passed_shift]
      exact Nat.add_le_add_right ih 2
  | case9 c c' cs h1 h2 h3 ih =>
      rw [StringEnd.passed_shift]
      exact Nat.add_le_add_right ih 1
  | _ => simp [StringEnd.passed]

theorem stringScan_closed (s : Bytes) {n : Nat} (h : stringScan s = .closed n) :
    1 ≤ n ∧ n ≤ s.length := by
  fun_induction stringScan s generalizing n with
  | case7 c' cs hc ih =>
      obtain ⟨m, hm, rfl⟩ := StringEnd.shift_eq_closed h
      have := ih hm
      simp only [List.length_cons]
      omega
  | case9 c c' cs h1 h2 h3 ih =>
      obtain ⟨m, hm, rfl⟩ := StringEnd.shift_eq_closed h
      have := ih hm
      simp only [List.length_cons] at this ⊢
      omega
  | _ => simp_all

theorem keywordKind_cases (name : Bytes) :
    keywordKind name = (lkIdent, false) ∨
      ∃ k ∈ keywords, keywordKind name = k.2 := by
  unfold keywordKind
  cases h : keywords.find? (fun k => bytesOf k.1 = name) with
  | none => exact Or.inl rfl
  | some k => exact Or.inr ⟨k, List.mem_of_find?_eq_some h, rfl⟩

/-- A keyword's kind is that of no bracket, and it is blocky iff it touches the level stack. -/
theorem keywordKind_spec (s : LevelStack) (name : Bytes) :
    let r := keywordKind name
    (levelStep s r.1 = if r.2 then levelStackSetBlocky s else s) ∧
      r.1 ≠ lkEof ∧ r.1 ≠ lkError ∧ r.1 ≠ lkSemicolon ∧ r.1 ≠ lkRbrace := by
  rcases keywordKind_cases name with h | ⟨k, hk, h⟩
  · simp [h, levelStep]
  · rw [h]
    fin_cases hk <;> simp [levelStep]

/-- The size of an identifier or keyword. -/
def identifierLen (s : Bytes) : Nat := 1 + (s.tail.takeWhile isIdentByte).length

theorem identifierLen_le {c : UInt8} {s : Bytes} : identifierLen (c :: s) ≤ (c :: s).length := by
  rw [identifierLen, List.tail_cons, List.length_cons, Nat.add_comm]
  exact Nat.succ_le_succ (List.takeWhile_sublist isIdentByte).length_le

theorem identifier_eq (x : Lexer) {c : UInt8} (hc : isIdentStart c = true) :
    identifier x = makeLexemeAdvance
      (tokenState x c (keywordKind (x.rest.take (identifierLen x.rest))).1)
      (keywordKind (x.rest.take (identifierLen x.rest))).1 (identifierLen x.rest) := by
  have hb : c ≠ ch '}' := by rintro rfl; revert hc; decide
  have hlev := (keywordKind_spec x.levelStack (x.rest.take (identifierLen x.rest))).1
  simp only [tokenState, hlev, hb, if_false]
  rw [Calx.identifier, ← identifierLen]
  generalize keywordKind (x.rest.take (identifierLen x.rest)) = k
  obtain ⟨kind, isBlocky⟩ := k
  cases isBlocky <;> rfl

/-- An identifier or keyword. -/
theorem TokenCase.identifier {x : Lexer} {c : UInt8} {cs : Bytes} (hr : x.rest = c :: cs)
    (hc : isIdentStart c = true) : TokenCase x c (identifier x) := by
  have hb : c ≠ ch '}' := by rintro rfl; revert hc; decide
  obtain ⟨-, h1, h2, h3, h4⟩ :=
    keywordKind_spec x.levelStack (x.rest.take (identifierLen x.rest))
  rw [identifier_eq x hc]
  apply TokenCase.token h1 h2
  · exact Nat.le_add_right 1 _
  · rw [hr]
    exact identifierLen_le
  · exact fun h => absurd h h3
  · exact ⟨fun h => absurd h h4, fun h => absurd h hb⟩

/-- An operator or bracket. -/
theorem TokenCase.operator {x : Lexer} {c : UInt8} {r : Bytes} {o : List Char × LexemeKind}
    (hr : x.rest = c :: r) (h : Longest x.rest o) :
    TokenCase x c (makeLexemeAdvance (tokenState x c o.2) o.2 o.1.length) := by
  obtain ⟨hmem, hstarts, -⟩ := h
  obtain ⟨heof, herr, hsemi, hrb, hne⟩ := operators_spec o hmem
  obtain ⟨a, t, hat⟩ := List.exists_cons_of_ne_nil hne
  rw [hr, hat, List.map_cons, List.cons_prefix_cons] at hstarts
  rw [hat, List.head?_cons, Option.map_some, Option.some.injEq, hstarts.1] at hsemi hrb
  apply TokenCase.token heof herr
  · simp [hat]
  · have hle := hstarts.2.length_le
    rw [List.length_map] at hle
    rw [hr, hat, List.length_cons, List.length_cons]
    exact Nat.succ_le_succ hle
  · exact hsemi
  · exact hrb

theorem TokenForm.case {x : Lexer} {c : UInt8} {cs : Bytes} {r : Lexeme × Lexer}
    (hr : x.rest = c :: cs) (h : TokenForm x c r) : TokenCase x c r := by
  cases h with
  | fake hc hi => exact .fake hc hi
  | number h =>
      have hb : c ≠ ch '}' := by rintro rfl; revert h; decide
      refine .plain rfl hb (by omega) ?_
      have := numberLen_le false cs
      simp only [hr, List.tail_cons, List.length_cons]
      omega
  | identifier h => exact .identifier hr h
  | string h =>
      unfold Calx.string
      cases hs : stringScan x.rest.tail with
      | closed n =>
          have := stringScan_closed _ hs
          simp only [hr, List.tail_cons] at this
          refine .plain rfl (by subst h; decide) (by omega) ?_
          simp only [hr, List.length_cons]
          omega
      | atEof n => exact .error _ (1 + n) 0
      | atEol n => exact .error _ (1 + n) 0
  | operator h => exact .operator hr h
  | unexpected => exact .error "unexpected symbol" 0 1

/-! ## Turns of `lexer_next` -/

/-- The state after a line break has been passed. -/
def passLine (x : Lexer) : Lexer :=
  { (insertSemicolon x).2.advance 1 with
    lineNum := x.lineNum + 1
    lineStart := x.cur + 1 }

/-- One turn of the loop of `lexer_next`: it returns a lexeme, or goes on. -/
def lexerTurn (x : Lexer) : (Lexeme × Lexer) ⊕ Lexer :=
  match x.rest with
  | [] =>
      if (insertSemicolon x).1 then .inl (fakeSemicolon (insertSemicolon x).2)
      else .inl (makeLexemeAdvance (insertSemicolon x).2 lkEof 0)
  | c :: _ =>
      if c = ch ' ' ∨ c = ch '\t' then .inr (x.advance 1)
      else if c = ch '\n' then
        if (insertSemicolon x).1 then .inl (fakeSemicolon (insertSemicolon x).2)
        else .inr (passLine x)
      else if c = ch '#' then .inr (x.advance (commentLen x.rest))
      else .inl (token x c)

/-- What one turn of `lexer_next` does. -/
inductive TurnForm (x : Lexer) : (Lexeme × Lexer) ⊕ Lexer → Prop
  | eof (hr : x.rest = []) (hi : (insertSemicolon x).1 = false) :
      TurnForm x (.inl (makeLexemeAdvance (insertSemicolon x).2 lkEof 0))
  | fake (hr : x.rest = [] ∨ ∃ cs, x.rest = ch '\n' :: cs) (hi : (insertSemicolon x).1 = true) :
      TurnForm x (.inl (fakeSemicolon (insertSemicolon x).2))
  | blank {c : UInt8} {cs : Bytes} (hr : x.rest = c :: cs) (hc : c = ch ' ' ∨ c = ch '\t') :
      TurnForm x (.inr (x.advance 1))
  | line {cs : Bytes} (hr : x.rest = ch '\n' :: cs) (hi : (insertSemicolon x).1 = false) :
      TurnForm x (.inr (passLine x))
  | comment {cs : Bytes} (hr : x.rest = ch '#' :: cs) :
      TurnForm x (.inr (x.advance (commentLen x.rest)))
  | token {c : UInt8} {cs : Bytes} {r : Lexeme × Lexer} (hr : x.rest = c :: cs)
      (hblank : ¬ (c = ch ' ' ∨ c = ch '\t')) (hline : c ≠ ch '\n') (hcomment : c ≠ ch '#')
      (h : TokenForm x c r) : TurnForm x (.inl r)

theorem lexerTurn_form (x : Lexer) : TurnForm x (lexerTurn x) := by
  unfold lexerTurn
  cases hr : x.rest with
  | nil =>
      simp only
      split
      · rename_i hi
        exact .fake (.inl hr) hi
      · rename_i hi
        exact .eof hr (Bool.eq_false_iff.mpr hi)
  | cons c cs =>
      simp only
      split
      · rename_i hc
        exact .blank hr hc
      · rename_i hblank
        split
        · rename_i hline
          rw [hline] at hr
          split
          · rename_i hi
            exact .fake (.inr ⟨cs, hr⟩) hi
          · rename_i hi
            exact .line hr (Bool.eq_false_iff.mpr hi)
        · rename_i hline
          split
          · rename_i hcomment
            rw [hcomment] at hr ⊢
            rw [← hr]
            exact .comment hr
          · rename_i hcomment
            exact .token hr hblank hline hcomment (token_form hr)

theorem insertSemicolon_fields (x : Lexer) :
    (insertSemicolon x).2.rest = x.rest ∧ (insertSemicolon x).2.cur = x.cur ∧
      (insertSemicolon x).2.lineNum = x.lineNum ∧ (insertSemicolon x).2.lineStart = x.lineStart ∧
      (insertSemicolon x).2.levelStack = x.levelStack := by
  unfold insertSemicolon
  split_ifs <;> simp

theorem lexerLoop_succ (n : Nat) (x : Lexer) :
    lexerLoop (n + 1) x = match lexerTurn x with
      | .inl r => r
      | .inr y => lexerLoop n y := by
  rw [lexerLoop]
  unfold lexerTurn
  cases hr : x.rest with
  | nil => simp only; split_ifs <;> rfl
  | cons c cs =>
      simp only
      split_ifs with h1 h2 h3 h4
      · rfl
      · rfl
      · simp [passLine, Lexer.advance, insertSemicolon_fields]
      · rfl
      · rfl

theorem commentLen_pos {s : Bytes} (h : s ≠ []) : 1 ≤ commentLen s := by
  cases s with
  | nil => exact absurd rfl h
  | cons c cs => simp [commentLen]

/-- A turn that goes on passes at least one byte and does not raise the bound. -/
theorem lexerTurn_go {x y : Lexer} (h : lexerTurn x = .inr y) :
    y.rest.length < x.rest.length ∧ y.bound ≤ x.bound := by
  have hform := lexerTurn_form x
  rw [h] at hform
  cases hform with
  | blank hr hc =>
      simp only [Lexer.bound, Lexer.advance_rest, Lexer.advance_flag, hr, List.length_cons,
        List.length_drop]
      omega
  | line hr hi =>
      simp only [Lexer.bound, passLine, Lexer.advance_rest, insertSemicolon_fields, hr,
        List.length_cons, List.length_drop, Lexer.advance_flag]
      have := Bool.toNat_le (!(insertSemicolon x).2.insertedSemicolonFlag)
      omega
  | @comment cs hr =>
      have := commentLen_pos (s := x.rest) (by simp [hr])
      simp only [Lexer.bound, Lexer.advance_rest, Lexer.advance_flag, hr, List.length_cons,
        List.length_drop] at this ⊢
      omega

theorem lexerLoop_eq_of_le {n m : Nat} {x : Lexer} (hn : x.rest.length < n)
    (hm : x.rest.length < m) : lexerLoop n x = lexerLoop m x := by
  induction n generalizing m x with
  | zero => omega
  | succ n ih =>
      obtain ⟨m, rfl⟩ : ∃ k, m = k + 1 := ⟨m - 1, by omega⟩
      rw [lexerLoop_succ, lexerLoop_succ]
      cases h : lexerTurn x with
      | inl r => rfl
      | inr y =>
          have := (lexerTurn_go h).1
          exact ih (by omega) (by omega)

/-- `lexer_next` returns what its first turn returns, or goes on after that turn. -/
theorem lexerNext_eq (x : Lexer) :
    lexerNext x = match lexerTurn x with
      | .inl r => r
      | .inr y => lexerNext y := by
  conv_lhs => unfold lexerNext
  rw [lexerLoop_succ]
  cases h : lexerTurn x with
  | inl r => rfl
  | inr y => exact lexerLoop_eq_of_le (lexerTurn_go h).1 (Nat.lt_succ_self _)

/-- Induction over the turns of one call of `lexer_next`. -/
theorem lexerNext_rec {P : Lexer → Lexeme × Lexer → Prop}
    (stop : ∀ x r, lexerTurn x = .inl r → P x r)
    (go : ∀ x y r, lexerTurn x = .inr y → P y r → P x r) (x : Lexer) : P x (lexerNext x) := by
  induction hn : x.rest.length using Nat.strong_induction_on generalizing x with
  | _ n ih =>
      rw [lexerNext_eq]
      cases h : lexerTurn x with
      | inl r => exact stop x r h
      | inr y => exact go x y _ h (ih _ (hn ▸ (lexerTurn_go h).1) y rfl)

/-- What a turn that returns a lexeme can return. -/
inductive StopCase (x : Lexer) : Lexeme × Lexer → Prop
  | eof (hr : x.rest = []) (hi : (insertSemicolon x).1 = false) :
      StopCase x (makeLexemeAdvance (insertSemicolon x).2 lkEof 0)
  | fake (hr : x.rest = [] ∨ ∃ cs, x.rest = ch '\n' :: cs) (hi : (insertSemicolon x).1 = true) :
      StopCase x (fakeSemicolon (insertSemicolon x).2)
  | token {c : UInt8} {cs : Bytes} {r : Lexeme × Lexer} (hr : x.rest = c :: cs)
      (hc : c ≠ ch '\n') (h : TokenCase x c r) : StopCase x r

theorem lexerTurn_stop {x : Lexer} {r : Lexeme × Lexer} (h : lexerTurn x = .inl r) :
    StopCase x r := by
  have hform := lexerTurn_form x
  rw [h] at hform
  cases hform with
  | eof hr hi => exact .eof hr hi
  | fake hr hi => exact .fake hr hi
  | token hr hblank hline hcomment h => exact .token hr hline (h.case hr)

/-! ## Progress -/

theorem bound_fake {x : Lexer} (hi : (insertSemicolon x).1 = true) :
    (fakeSemicolon (insertSemicolon x).2).2.bound < x.bound := by
  revert hi
  unfold insertSemicolon
  split_ifs <;> simp_all [fakeSemicolon, makeLexemeAdvance, Lexer.bound]

theorem StopCase.progress {x : Lexer} {r : Lexeme × Lexer} (h : StopCase x r) :
    r.1.final ∨ r.2.bound < x.bound := by
  cases h with
  | eof hr hi => exact .inl (.inl rfl)
  | fake hr hi => exact .inr (bound_fake hi)
  | @token c _ _ hr hc h =>
      cases h with
      | fake _ hi => exact .inr (bound_fake hi)
      | error => exact .inl (.inr rfl)
      | @token kind size heof herr hpos hle hsemi hrb =>
          right
          simp only [makeLexemeAdvance, tokenState, Lexer.bound, Lexer.advance_rest,
            Lexer.advance_flag, List.length_drop]
          have := Bool.toNat_le (!(tokenState x c kind).insertedSemicolonFlag)
          simp only [tokenState] at this
          omega

/-- Every lexeme that is not the last one brings the end closer. -/
theorem lexerNext_progress (x : Lexer) :
    (lexerNext x).1.final ∨ (lexerNext x).2.bound < x.bound := by
  apply lexerNext_rec (P := fun x r => r.1.final ∨ r.2.bound < x.bound)
  · exact fun x r h => (lexerTurn_stop h).progress
  · exact fun x y r h ih => ih.imp id fun hb => hb.trans_le (lexerTurn_go h).2

theorem lexN_eq_of_le {n m : Nat} {x : Lexer} (hn : x.bound ≤ n) (hm : x.bound ≤ m) :
    lexN n x = lexN m x := by
  induction n generalizing m x with
  | zero => have := x.bound_pos; omega
  | succ n ih =>
      have hp := x.bound_pos
      obtain ⟨m, rfl⟩ : ∃ k, m = k + 1 := ⟨m - 1, by omega⟩
      simp only [lexN]
      by_cases hf : (lexerNext x).1.final
      · simp [hf]
      · have hb := (lexerNext_progress x).resolve_left hf
        simp only [if_neg hf]
        rw [ih (m := m) (by omega) (by omega)]

/-- The list of lexemes starts with the next one. -/
theorem lexAll_eq (x : Lexer) :
    lexAll x = (lexerNext x).1 :: if (lexerNext x).1.final then [] else lexAll (lexerNext x).2 := by
  have hp := x.bound_pos
  obtain ⟨n, hn⟩ : ∃ k, x.bound = k + 1 := ⟨x.bound - 1, by omega⟩
  conv_lhs => rw [lexAll, hn, lexN]
  by_cases hf : (lexerNext x).1.final
  · simp [hf]
  · have hb := (lexerNext_progress x).resolve_left hf
    simp only [if_neg hf, lexAll]
    rw [lexN_eq_of_le (by omega) le_rfl]

theorem lexAll_length_le (x : Lexer) : (lexAll x).length ≤ x.bound := by
  have h : ∀ n x, (lexN n x).length ≤ n := by
    intro n
    induction n with
    | zero => simp [lexN]
    | succ n ih =>
        intro x
        simp only [lexN, List.length_cons]
        split
        · simp
        · exact Nat.succ_le_succ (ih _)
  exact h _ x

/-! ## The cursor -/

namespace Lexer

/-- The cursor stands in the source. -/
structure Reads (source : Bytes) (x : Lexer) : Prop where
  le : x.cur ≤ source.length
  rest_eq : x.rest = source.drop x.cur

variable {source : Bytes} {x : Lexer} {c : UInt8} {s : Bytes} {n : Nat}

theorem reads_new (source : Bytes) : (lexerNew source).Reads source := ⟨Nat.zero_le _, rfl⟩

theorem Reads.length_rest (h : x.Reads source) : x.cur + x.rest.length = source.length := by
  rw [h.rest_eq, List.length_drop, Nat.add_sub_cancel' h.le]

theorem Reads.advance (h : x.Reads source) (hn : n ≤ x.rest.length) :
    (x.advance n).Reads source := by
  constructor
  · have := h.length_rest
    simp only [Lexer.advance]
    omega
  · simp only [Lexer.advance, h.rest_eq, List.drop_drop]

/-- Only the place of the cursor matters. -/
theorem Reads.congr {y : Lexer} (h : x.Reads source) (hcur : y.cur = x.cur)
    (hrest : y.rest = x.rest) : y.Reads source := by
  constructor
  · rw [hcur]
    exact h.le
  · rw [hrest, hcur, h.rest_eq]

theorem Reads.insertSemicolon (h : x.Reads source) : (insertSemicolon x).2.Reads source :=
  h.congr (insertSemicolon_fields x).2.1 (insertSemicolon_fields x).1

theorem Reads.passLine (h : x.Reads source) (hr : x.rest = c :: s) :
    (passLine x).Reads source := by
  apply (h.advance (n := 1) (by simp [hr])).congr
  · simp [Calx.passLine, Lexer.advance, insertSemicolon_fields]
  · simp [Calx.passLine, Lexer.advance, insertSemicolon_fields]

end Lexer

/-- The places of the cursor and of the line are the same. -/
structure Lexer.SamePlace (x y : Lexer) : Prop where
  rest_eq : y.rest = x.rest
  cur_eq : y.cur = x.cur
  lineNum_eq : y.lineNum = x.lineNum
  lineStart_eq : y.lineStart = x.lineStart

theorem samePlace_insertSemicolon (x : Lexer) : x.SamePlace (insertSemicolon x).2 := by
  obtain ⟨h1, h2, h3, h4, -⟩ := insertSemicolon_fields x
  exact ⟨h1, h2, h3, h4⟩

theorem Lexer.SamePlace.refl (x : Lexer) : x.SamePlace x := ⟨rfl, rfl, rfl, rfl⟩

theorem samePlace_tokenState (x : Lexer) (c : UInt8) (kind : LexemeKind) :
    x.SamePlace (tokenState x c kind) := ⟨rfl, rfl, rfl, rfl⟩

theorem samePlace_errMsg (x : Lexer) (msg : String) : x.SamePlace { x with errMsg := msg } :=
  ⟨rfl, rfl, rfl, rfl⟩

theorem makeErrorAdvance_advance (x : Lexer) (msg : String) (n : Nat) :
    makeErrorAdvance (x.advance n) msg 0 =
      makeLexemeAdvance ({ x with errMsg := msg }.advance n) lkError 0 := rfl

/-- Which bytes a turn that returns a lexeme passes. -/
inductive TurnSpan (x : Lexer) : Lexeme × Lexer → Prop
  | lexeme {y : Lexer} (kind : LexemeKind) {size : Nat} (hy : x.SamePlace y)
      (hle : size ≤ x.rest.length) : TurnSpan x (makeLexemeAdvance y kind size)
  | unterminated {y : Lexer} {passed : Nat} (hy : x.SamePlace y) (hle : passed ≤ x.rest.length) :
      TurnSpan x (makeLexemeAdvance (y.advance passed) lkError 0)

theorem TokenForm.span {x : Lexer} {c : UInt8} {cs : Bytes} {r : Lexeme × Lexer}
    (hr : x.rest = c :: cs) (h : TokenForm x c r) : TurnSpan x r := by
  have hlen : x.rest.length = cs.length + 1 := by rw [hr, List.length_cons]
  cases h with
  | fake hc hi => exact .lexeme lkSemicolon (samePlace_insertSemicolon x) (Nat.zero_le _)
  | number hc =>
      apply TurnSpan.lexeme lkNumber (.refl x)
      rw [hr, List.tail_cons, List.length_cons, Nat.add_comm]
      exact Nat.succ_le_succ (numberLen_le false cs)
  | identifier hc =>
      rw [identifier_eq x hc]
      apply TurnSpan.lexeme _ (samePlace_tokenState x c _)
      rw [hr]
      exact identifierLen_le
  | string hc =>
      have hle : 1 + (stringScan x.rest.tail).passed ≤ x.rest.length := by
        rw [hr, List.tail_cons, List.length_cons, Nat.add_comm]
        exact Nat.succ_le_succ (stringScan_le cs)
      unfold Calx.string
      split
      · rename_i n hn
        rw [hn] at hle
        exact .lexeme lkString (.refl x) hle
      · rename_i n hn
        rw [hn] at hle
        rw [makeErrorAdvance_advance]
        exact .unterminated (samePlace_errMsg x _) hle
      · rename_i n hn
        rw [hn] at hle
        rw [makeErrorAdvance_advance]
        exact .unterminated (samePlace_errMsg x _) hle
  | @operator o ho =>
      apply TurnSpan.lexeme _ (samePlace_tokenState x c _)
      have hle := ho.starts.length_le
      rwa [List.length_map] at hle
  | unexpected =>
      apply TurnSpan.lexeme lkError (samePlace_errMsg x _)
      omega

theorem lexerTurn_span {x : Lexer} {r : Lexeme × Lexer} (h : lexerTurn x = .inl r) :
    TurnSpan x r := by
  have hform := lexerTurn_form x
  rw [h] at hform
  cases hform with
  | eof hr hi => exact .lexeme lkEof (samePlace_insertSemicolon x) (Nat.zero_le _)
  | fake hr hi => exact .lexeme lkSemicolon (samePlace_insertSemicolon x) (Nat.zero_le _)
  | token hr hblank hline hcomment h => exact h.span hr

theorem TurnSpan.reads {source : Bytes} {x : Lexer} {r : Lexeme × Lexer} (h : TurnSpan x r)
    (hx : x.Reads source) : r.2.Reads source := by
  cases h with
  | lexeme kind hy hle =>
      apply (hx.congr hy.cur_eq hy.rest_eq).advance
      rwa [hy.rest_eq]
  | unterminated hy hle =>
      apply ((hx.congr hy.cur_eq hy.rest_eq).advance _).advance (Nat.zero_le _)
      rwa [hy.rest_eq]

theorem commentLen_le {c : UInt8} {s : Bytes} : commentLen (c :: s) ≤ (c :: s).length := by
  rw [commentLen, List.length_cons, Nat.add_comm]
  exact Nat.succ_le_succ (List.takeWhile_sublist _).length_le

theorem lexerTurn_reads {source : Bytes} {x y : Lexer} (h : lexerTurn x = .inr y)
    (hx : x.Reads source) : y.Reads source := by
  have hform := lexerTurn_form x
  rw [h] at hform
  cases hform with
  | blank hr hc => exact hx.advance (by simp [hr])
  | line hr hi => exact hx.passLine hr
  | comment hr =>
      apply hx.advance
      rw [hr]
      exact commentLen_le

/-- `lexer_next` leaves the cursor in the source. -/
theorem lexerNext_reads {source : Bytes} {x : Lexer} (hx : x.Reads source) :
    (lexerNext x).2.Reads source := by
  revert hx
  apply lexerNext_rec (P := fun x r => x.Reads source → r.2.Reads source)
  · intro x r h hx
    exact (lexerTurn_span h).reads hx
  · intro x y r h ih hx
    exact ih (lexerTurn_reads h hx)

end Calx
