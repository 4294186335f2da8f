import Calx.Number.Basic

/-!
# The lexer

`lexer.c`: the bracket level stack that decides where semicolons are inserted,
the scanners of the single lexeme kinds and `lexer_next`.

## Implementation notes

The cursor is the pair of the bytes still to be read and the offset of the
first of them, so that "never read past `end`" is built in. A lexeme carries
the bytes it spans; its size is their number. The keyword table is a list,
the level stack a list with its top first.
-/

namespace Calx

/-- `LexemeKind`. -/
inductive LexemeKind
  | lkAnd | lkAndAnd | lkAndAndEq | lkAndEq | lkAt | lkBang | lkBangEq | lkBreak | lkComma
  | lkContinue | lkDot | lkElif | lkElse | lkEof | lkColon | lkColonEq | lkEq | lkEqEq | lkError
  | lkFalse | lkFor | lkFun | lkGreater | lkGreaterEq | lkGreaterGreater | lkGreaterGreaterEq
  | lkHat | lkHatEq | lkIdent | lkIf | lkLbrace | lkLbracket | lkLess | lkLessEq | lkLessLess
  | lkLessLessEq | lkLparen | lkMinus | lkMinusEq | lkMinusGreater | lkNil | lkNumber | lkOr
  | lkOrEq | lkOrOr | lkOrOrEq | lkPercent | lkPercentEq | lkPlus | lkPlusEq | lkRbrace
  | lkRbracket | lkReturn | lkRparen | lkSemicolon | lkSlash | lkSlashEq | lkSlashSlash
  | lkSlashSlashEq | lkStar | lkStarEq | lkStarStar | lkStarStarEq | lkString | lkTilde
  | lkTildeEq | lkTrue | lkWhile
deriving DecidableEq, Repr

open LexemeKind

/-- `Position`. -/
structure Position where
  line : Nat
  column : Nat
deriving DecidableEq, Repr

/-- `Lexeme`: its kind, the offset and the bytes of its span, and its position. -/
structure Lexeme where
  kind : LexemeKind
  start : Nat
  text : Bytes
  pos : Position
deriving DecidableEq, Repr

namespace Lexeme

/-- `size`. -/
def size (l : Lexeme) : Nat := l.text.length

end Lexeme

/-! ## The level stack -/

/-- `LEVEL_EXPR` and `LEVEL_STMT`. -/
inductive Level
  | levelExpr
  | levelStmt
deriving DecidableEq, Repr

/-- `LevelStack`; `blockyLevel` is `-1` when no block keyword is waiting for its brace. -/
structure LevelStack where
  data : List Level
  blockyLevel : Int
  isExprContext : Bool
deriving DecidableEq, Repr

/-- `level_stack_new`. -/
def levelStackNew : LevelStack := ⟨[], -1, false⟩

/-- `level_stack_push`. -/
def levelStackPush (s : LevelStack) (level : Level) : LevelStack :=
  { s with data := level :: s.data, isExprContext := level = .levelExpr }

/-- `level_stack_set_blocky`. -/
def levelStackSetBlocky (s : LevelStack) : LevelStack :=
  { s with blockyLevel := s.data.length }

/-- `level_stack_push_blocky`. -/
def levelStackPushBlocky (s : LevelStack) : LevelStack :=
  if s.blockyLevel = s.data.length then
    levelStackPush { s with blockyLevel := -1 } .levelStmt
  else
    levelStackPush s .levelExpr

/-- `level_stack_pop`. -/
def levelStackPop (s : LevelStack) : LevelStack :=
  match s.data with
  | [] => s
  | _ :: rest => { s with data := rest, isExprContext := rest.head? = some .levelExpr }

/-! ## Lexer state -/

/-- `Lexer`: the unread bytes, the offset of the cursor, the line bookkeeping,
the level stack, the one-bit flag of `insert_semicolon` and the last error. -/
structure Lexer where
  rest : Bytes
  cur : Nat
  lineNum : Nat
  lineStart : Nat
  levelStack : LevelStack
  insertedSemicolonFlag : Bool
  errMsg : String
deriving DecidableEq, Repr

/-- `lexer_new`. -/
def lexerNew (source : Bytes) : Lexer :=
  ⟨source, 0, 1, 0, levelStackNew, false, ""⟩

/-- The keyword table of `make_keywords_ht`, with the `is_blocky` mark. -/
def keywords : List (String × LexemeKind × Bool) :=
  [("fun", lkFun, true), ("if", lkIf, true), ("else", lkElse, true), ("elif", lkElif, true),
   ("for", lkFor, true), ("while", lkWhile, true), ("break", lkBreak, false),
   ("continue", lkContinue, false), ("return", lkReturn, false), ("true", lkTrue, false),
   ("false", lkFalse, false), ("nil", lkNil, false)]

/-- The bytes of an ASCII string. -/
def bytesOf (s : String) : Bytes := s.toList.map ch

/-- `xht_get_int` on the keyword table: `LK_IDENT`, not blocky, for any other name. -/
def keywordKind (name : Bytes) : LexemeKind × Bool :=
  match keywords.find? (fun k => bytesOf k.1 = name) with
  | some k => k.2
  | none => (lkIdent, false)

namespace Lexer

/-- `x->cur += n`. -/
def advance (x : Lexer) (n : Nat) : Lexer :=
  { x with rest := x.rest.drop n, cur := x.cur + n }

end Lexer

/-- `make_lexeme` after the cursor has moved over `size` bytes. -/
def makeLexemeAdvance (x : Lexer) (kind : LexemeKind) (size : Nat) : Lexeme × Lexer :=
  (⟨kind, x.cur, x.rest.take size, ⟨x.lineNum, x.cur - x.lineStart + 1⟩⟩, x.advance size)

/-- `make_error_advance`. -/
def makeErrorAdvance (x : Lexer) (msg : String) (size : Nat) : Lexeme × Lexer :=
  makeLexemeAdvance { x with errMsg := msg } lkError size

/-! ## Scanners -/

def isDigit (c : UInt8) : Bool := ch '0' ≤ c && c ≤ ch '9'

def isIdentStart (c : UInt8) : Bool :=
  (ch 'a' ≤ c && c ≤ ch 'z') || (ch 'A' ≤ c && c ≤ ch 'Z') || c = ch '_'

def isIdentByte (c : UInt8) : Bool := isDigit c || isIdentStart c

/-- `choice1223` with the optional second and third choices. -/
def choice1223 (x : Lexer) (ifA : LexemeKind) (b : Char) (ifAb : LexemeKind)
    (c : Option (Char × LexemeKind)) (d : Option (Char × LexemeKind)) : Lexeme × Lexer :=
  match x.rest.tail with
  | [] => makeLexemeAdvance x ifA 1
  | c1 :: rest2 =>
      if c1 = ch b then makeLexemeAdvance x ifAb 2
      else match c with
        | none => makeLexemeAdvance x ifA 1
        | some (cc, ifAc) =>
            if c1 = ch cc then
              match d, rest2 with
              | some (dd, ifAcd), c2 :: _ =>
                  if c2 = ch dd then makeLexemeAdvance x ifAcd 3 else makeLexemeAdvance x ifAc 2
              | _, _ => makeLexemeAdvance x ifAc 2
            else makeLexemeAdvance x ifA 1

/-- The number of bytes the loop of `number` passes after the first digit. -/
def numberLen : Bool → Bytes → Nat
  | _, [] => 0
  | seenDot, c :: cs =>
      if isDigit c || c = quote then 1 + numberLen seenDot cs
      else if c = ch '.' then
        if seenDot then 0 else 1 + numberLen true cs
      else 0

/-- `number`. -/
def number (x : Lexer) : Lexeme × Lexer :=
  makeLexemeAdvance x lkNumber (1 + numberLen false x.rest.tail)

/-- How the loop of `string` ends, with the bytes passed after the opening quote. -/
inductive StringEnd
  | closed (n : Nat)
  | atEof (n : Nat)
  | atEol (n : Nat)
deriving DecidableEq, Repr

/-- One more run of bytes passed before the end is met. -/
def StringEnd.shift (k : Nat) : StringEnd → StringEnd
  | closed n => closed (n + k)
  | atEof n => atEof (n + k)
  | atEol n => atEol (n + k)

/-- The loop of `string` after the opening quote. -/
def stringScan : Bytes → StringEnd
  | [] => .atEof 0
  | [c] =>
      if c = ch '"' then .closed 1
      else if c = ch '\\' then .atEof 1
      else if c = ch '\n' then .atEol 0
      else .atEof 1
  | c :: c' :: cs =>
      if c = ch '"' then .closed 1
      else if c = ch '\\' then (stringScan cs).shift 2
      else if c = ch '\n' then .atEol 0
      else (stringScan (c' :: cs)).shift 1

/-- `string`. -/
def string (x : Lexer) : Lexeme × Lexer :=
  match stringScan x.rest.tail with
  | .closed n => makeLexemeAdvance x lkString (1 + n)
  | .atEof n => makeErrorAdvance (x.advance (1 + n)) "unterminated string (EOF reached)" 0
  | .atEol n => makeErrorAdvance (x.advance (1 + n)) "unterminated string (EOL reached)" 0

/-- `identifier`. -/
def identifier (x : Lexer) : Lexeme × Lexer :=
  let size := 1 + (x.rest.tail.takeWhile isIdentByte).length
  let (kind, isBlocky) := keywordKind (x.rest.take size)
  let x := if isBlocky then { x with levelStack := levelStackSetBlocky x.levelStack } else x
  makeLexemeAdvance x kind size

/-- `fake_semicolon`. -/
def fakeSemicolon (x : Lexer) : Lexeme × Lexer :=
  makeLexemeAdvance x lkSemicolon 0

/-- `insert_semicolon`: whether to insert, and the state with the flag updated. -/
def insertSemicolon (x : Lexer) : Bool × Lexer :=
  if x.levelStack.isExprContext then (false, x)
  else if x.insertedSemicolonFlag then (false, { x with insertedSemicolonFlag := false })
  else (true, { x with insertedSemicolonFlag := true })

/-- An opening bracket: push the level, then make the lexeme. -/
def openBracket (x : Lexer) (kind : LexemeKind) : Lexeme × Lexer :=
  makeLexemeAdvance { x with levelStack := levelStackPush x.levelStack .levelExpr } kind 1

/-- A closing bracket: pop the level, then make the lexeme. -/
def closeBracket (x : Lexer) (kind : LexemeKind) : Lexeme × Lexer :=
  makeLexemeAdvance { x with levelStack := levelStackPop x.levelStack } kind 1

/-- `token` at the byte `c`. -/
def token (x : Lexer) (c : UInt8) : Lexeme × Lexer :=
  if isDigit c then number x
  else if isIdentStart c then identifier x
  else if c = ch '"' then string x
  else if c = ch '!' then choice1223 x lkBang '=' lkBangEq none none
  else if c = ch '%' then choice1223 x lkPercent '=' lkPercentEq none none
  else if c = ch '&' then
    choice1223 x lkAnd '=' lkAndEq (some ('&', lkAndAnd)) (some ('=', lkAndAndEq))
  else if c = ch '|' then
    choice1223 x lkOr '=' lkOrEq (some ('|', lkOrOr)) (some ('=', lkOrOrEq))
  else if c = ch '(' then openBracket x lkLparen
  else if c = ch ')' then closeBracket x lkRparen
  else if c = ch '*' then
    choice1223 x lkStar '=' lkStarEq (some ('*', lkStarStar)) (some ('=', lkStarStarEq))
  else if c = ch '+' then choice1223 x lkPlus '=' lkPlusEq none none
  else if c = ch '-' then choice1223 x lkMinus '=' lkMinusEq (some ('>', lkMinusGreater)) none
  else if c = ch ',' then makeLexemeAdvance x lkComma 1
  else if c = ch '.' then makeLexemeAdvance x lkDot 1
  else if c = ch '@' then makeLexemeAdvance x lkAt 1
  else if c = ch '/' then
    choice1223 x lkSlash '=' lkSlashEq (some ('/', lkSlashSlash)) (some ('=', lkSlashSlashEq))
  else if c = ch ':' then choice1223 x lkColon '=' lkColonEq none none
  else if c = ch ';' then makeLexemeAdvance x lkSemicolon 1
  else if c = ch '<' then
    choice1223 x lkLess '=' lkLessEq (some ('<', lkLessLess)) (some ('=', lkLessLessEq))
  else if c = ch '=' then choice1223 x lkEq '=' lkEqEq none none
  else if c = ch '>' then
    choice1223 x lkGreater '=' lkGreaterEq (some ('>', lkGreaterGreater))
      (some ('=', lkGreaterGreaterEq))
  else if c = ch '[' then openBracket x lkLbracket
  else if c = ch ']' then closeBracket x lkRbracket
  else if c = ch '^' then choice1223 x lkHat '=' lkHatEq none none
  else if c = ch '{' then
    makeLexemeAdvance { x with levelStack := levelStackPushBlocky x.levelStack } lkLbrace 1
  else if c = ch '~' then choice1223 x lkTilde '=' lkTildeEq none none
  else if c = ch '}' then
    if (insertSemicolon x).1 then fakeSemicolon (insertSemicolon x).2
    else closeBracket (insertSemicolon x).2 lkRbrace
  else makeErrorAdvance x "unexpected symbol" 1

/-- The number of bytes from a `#` up to the end of its line. -/
def commentLen : Bytes → Nat
  | [] => 0
  | _ :: cs => 1 + (cs.takeWhile (· ≠ ch '\n')).length

/-- The loop of `lexer_next`. Every turn but the last passes at least one byte. -/
def lexerLoop : Nat → Lexer → Lexeme × Lexer
  | 0, x => makeLexemeAdvance x lkEof 0
  | fuel + 1, x =>
      match x.rest with
      | [] =>
          if (insertSemicolon x).1 then fakeSemicolon (insertSemicolon x).2
          else makeLexemeAdvance (insertSemicolon x).2 lkEof 0
      | c :: _ =>
          if c = ch ' ' ∨ c = ch '\t' then lexerLoop fuel (x.advance 1)
          else if c = ch '\n' then
            if (insertSemicolon x).1 then fakeSemicolon (insertSemicolon x).2
            else
              let x := (insertSemicolon x).2.advance 1
              lexerLoop fuel { x with lineNum := x.lineNum + 1, lineStart := x.cur }
          else if c = ch '#' then lexerLoop fuel (x.advance (commentLen x.rest))
          else token x c

/-- `lexer_next`. -/
def lexerNext (x : Lexer) : Lexeme × Lexer := lexerLoop (x.rest.length + 1) x

end Calx
