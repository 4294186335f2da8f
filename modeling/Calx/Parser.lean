import Calx.Lexer
import Calx.Instr

/-!
# The one-pass compiler

`parse.c`: a recursive-descent parser that emits code while it reads lexemes,
patches jumps backwards, rotates the code of `for` loops and resolves the
identifiers of a function when its scope is closed.

## Implementation notes

A parse error leaves through `Except`, as the source leaves through `longjmp`.
A forward-declared function is a parameter of the functions that call it, and
each loop that is not bounded by a list has a fuel argument; running out of
fuel is a result of its own.

`xHt` tables of names are lists of names in the order of their indices: a name's
index is its position. Stacks have their top first; the sentinels `-1` and `-2`
of the jump stacks are kept. The assertions of the source are left out.

Two fields of the parser are only written: `braces` records for each `{` whether
it was consumed as the start of a block, and `closes` records what `close_scope`
walked over at the end of each function.
-/

namespace Calx

open LexemeKind Instr Aop

/-- `ParseError`; a missing size stands for `(size_t) -1`. -/
structure ParseError where
  pos : Position
  size : Option Nat
  msg : String
  needMore : Bool
deriving DecidableEq, Repr

/-- Why a parse stops without a result. -/
inductive Stop
  | parseError (e : ParseError)
  | outOfFuel
deriving DecidableEq, Repr

/-- The result of a parsing step. -/
abbrev Res := Except Stop

/-- `Range`; `end_` is `none` while the range is open. -/
structure Range where
  scopeIndex : Nat
  begin_ : Nat
  end_ : Option Nat
deriving DecidableEq, Repr

/-- What `close_scope` saw when the function that starts at `beginPos` ended at `pos`:
the positions it walked over, in order, and the code and shapes it found. -/
structure Closed where
  beginPos : Nat
  pos : Nat
  walked : List Nat
  prog : List TaggedInstr
  shapes : List Shape
deriving DecidableEq, Repr

/-- `Parser`. The globals table of the VM state is the field `globals`. -/
structure Parser where
  lexer : Lexer
  cur : Lexeme
  globals : List Bytes
  prog : List TaggedInstr
  consts : List Const
  shapes : List Shape
  scopes : List (List Bytes)
  ranges : List Range
  idents : List Bytes
  stackIf : List Int
  stackBreak : List Int
  stackContinue : List Int
  braces : List (Nat × Bool)
  closes : List Closed
deriving DecidableEq, Repr

/-- The lexeme `parser_new` leaves in `cur` until the first `advance`. -/
def noLexeme : Lexeme := ⟨lkEof, 0, [], ⟨0, 0⟩⟩

/-- `parser_new`. -/
def parserNew (source : Bytes) (globals : List Bytes) : Parser :=
  ⟨lexerNew source, noLexeme, globals, [], [], [], [], [], [], [], [], [], [], []⟩

/-! ## Errors and emission -/

/-- `throw_error`. -/
def throwErr {α : Type} (msg : String) : Res α :=
  .error (.parseError ⟨⟨0, 0⟩, none, msg, false⟩)

/-- `throw_error_at`. -/
def throwErrAt {α : Type} (msg : String) (l : Lexeme) : Res α :=
  .error (.parseError ⟨l.pos, some l.size, msg, l.kind = lkEof⟩)

/-- `throw_error_precise`. -/
def throwErrPrecise {α : Type} (msg : String) (pos : Position) (size : Nat) : Res α :=
  .error (.parseError ⟨pos, some size, msg, false⟩)

/-- `add_shape`. -/
def addShape (p : Parser) : Res (Nat × Parser) :=
  if p.shapes.length = uint32Max then throwErr "too many functions"
  else .ok (p.shapes.length, { p with shapes := p.shapes ++ [⟨0, 0, 0, 0⟩] })

/-- `add_const_steal`. -/
def addConstSteal (p : Parser) (v : Const) : Res (Nat × Parser) :=
  if p.consts.length = uint32Max then throwErr "too many constants"
  else .ok (p.consts.length, { p with consts := p.consts ++ [v] })

/-- `emit_at_line`. -/
def emitAtLine (p : Parser) (instr : Instr) (line : Option Nat) : Parser :=
  { p with prog := p.prog ++ [⟨instr, line⟩] }

/-- `emit`. -/
def emit (p : Parser) (instr : Instr) : Parser := emitAtLine p instr none

/-- `emit_at`. -/
def emitAt (p : Parser) (instr : Instr) (l : Lexeme) : Parser :=
  emitAtLine p instr (some l.pos.line)

/-- `unemit`. The code is never empty where the source calls it. -/
def unemit (p : Parser) : Instr × Parser :=
  (((p.prog.getLast?).map (·.instr)).getD opPrint, { p with prog := p.prog.dropLast })

/-- `advance`. -/
def advance (p : Parser) : Res Parser :=
  let r := lexerNext p.lexer
  if r.1.kind = lkError then throwErrAt r.2.errMsg r.1
  else .ok { p with cur := r.1, lexer := r.2 }

/-- `slurp`. -/
def slurp (p : Parser) (k : LexemeKind) (errMsg : String) : Res Parser :=
  if p.cur.kind = k then advance p else throwErrAt errMsg p.cur

/-- `here`. -/
def here (p : Parser) : Nat := p.prog.length

/-- `fixup_last_range_end`. -/
def fixupLastRangeEnd (p : Parser) (newEnd : Nat) : Parser :=
  { p with ranges := match p.ranges with
      | [] => []
      | r :: rs => { r with end_ := some newEnd } :: rs }

/-- `load`. -/
def load (p : Parser) (ident : Lexeme) : Res (Instr × Parser) :=
  if p.idents.length = uint32Max then throwErr "too many identifiers"
  else .ok (opLoadSymbolic p.idents.length, { p with idents := p.idents ++ [ident.text] })

/-- `xht_put_int` with the table's size as the new value: the index of a name. -/
def putName (names : List Bytes) (name : Bytes) : Nat × List Bytes :=
  if name ∈ names then (names.idxOf name, names) else (names.length, names ++ [name])

/-- The names of the innermost scope. -/
def locals (p : Parser) : List Bytes := p.scopes.headD []

/-- Replace the innermost scope. -/
def setLocals (p : Parser) (names : List Bytes) : Parser :=
  { p with scopes := names :: p.scopes.tail }

/-- `load_to_store`. -/
def loadToStore (p : Parser) (instr : Instr) (isLocal : Bool) (scapegoat : Lexeme) :
    Res (Instr × Parser) :=
  match instr with
  | opLoadSymbolic c =>
      if isLocal then
        let r := putName (locals p) (p.idents.getD c [])
        .ok (opStoreLocal r.1, setLocals p r.2)
      else .ok (opStoreSymbolic c, p)
  | opLoadAt =>
      if isLocal then throwErrAt "invalid assignment" scapegoat else .ok (opStoreAt, p)
  | _ => throwErrAt "invalid assignment" scapegoat

/-- `load_to_modify`. -/
def loadToModify (instr : Instr) (aop : Aop) (scapegoat : Lexeme) : Res Instr :=
  match instr with
  | opLoadSymbolic c => .ok (opModifySymbolic aop c)
  | opLoadAt => .ok (opModifyAt aop)
  | _ => throwErrAt "invalid compound assignment" scapegoat

/-! ## Scopes -/

/-- `open_scope`. -/
def openScope (p : Parser) : Parser :=
  let pos := here p
  let p := fixupLastRangeEnd p pos
  { p with
    ranges := ⟨p.scopes.length, pos, none⟩ :: p.ranges
    scopes := [] :: p.scopes }

/-- The operands of an opcode taken off the stack (`.1`) and put on it (`.2`), as the
table `actions` and the `switch` of `close_scope` count them together. -/
def stackEffect : Instr → Int
  | opLoadConst _ | opLoadLocal _ | opLoadGlobal _ | opFunction _ | opLoadSymbolic _ => 1
  | opLoadAt | opModifyLocal .. | opModifyGlobal .. | opStoreLocal _ | opStoreGlobal _
  | opPrint | opReturn | opJumpUnless _ | opAop _ | opCmp2way _ | opCmp3way _
  | opModifySymbolic .. | opStoreSymbolic _ => -1
  | opModifyAt _ | opStoreAt => -3
  | opJump _ | opNeg | opNot | opLen => 0
  | opCall _ c => 0 - (c : Int)
  | opList c => 1 - (c : Int)
  | opDict c => 1 - 2 * (c : Int)

/-- `state_intern_global`. -/
def stateInternGlobal (globals : List Bytes) (name : Bytes) : Nat × List Bytes :=
  putName globals name

/-- The local index of a name, `xht_get_int` on the table of the scope. -/
def localIdx? (names : List Bytes) (name : Bytes) : Option Nat :=
  if name ∈ names then some (names.idxOf name) else none

/-- `resolve_symbolic` at the symbolic opcodes; any other instruction is kept. -/
def resolveSymbolic (idents names globals : List Bytes) (instr : Instr) : Instr × List Bytes :=
  match instr with
  | opLoadSymbolic c =>
      match localIdx? names (idents.getD c []) with
      | some i => (opLoadLocal i, globals)
      | none =>
          let r := stateInternGlobal globals (idents.getD c [])
          (opLoadGlobal r.1, r.2)
  | opStoreSymbolic c =>
      match localIdx? names (idents.getD c []) with
      | some i => (opStoreLocal i, globals)
      | none =>
          let r := stateInternGlobal globals (idents.getD c [])
          (opStoreGlobal r.1, r.2)
  | opModifySymbolic a c =>
      match localIdx? names (idents.getD c []) with
      | some i => (opModifyLocal a i, globals)
      | none =>
          let r := stateInternGlobal globals (idents.getD c [])
          (opModifyGlobal a r.1, r.2)
  | i => (i, globals)

/-- The variables of the loop of `close_scope`. -/
structure Walk where
  code : List TaggedInstr
  globals : List Bytes
  curstack : Nat
  maxstack : Nat
deriving DecidableEq, Repr

/-- `SIZE_MAX + 1`. -/
def sizeMod : Nat := 18446744073709551616

/-- `curstack` after one more instruction, in `size_t` arithmetic. -/
def addStack (curstack : Nat) (effect : Int) : Nat := ((curstack + effect) % sizeMod).toNat

/-- One turn of the inner loop of `close_scope`, at the position `j`. -/
def walkStep (idents names : List Bytes) (w : Walk) (j : Nat) : Walk :=
  match w.code[j]? with
  | none => w
  | some ti =>
      let curstack := addStack w.curstack (stackEffect ti.instr)
      let r := resolveSymbolic idents names w.globals ti.instr
      ⟨w.code.set j { ti with instr := r.1 }, r.2, curstack, max w.maxstack curstack⟩

/-- The positions of a range, in the order of the inner loop. -/
def Range.positions (r : Range) : List Nat :=
  List.range' r.begin_ (r.end_.getD r.begin_ - r.begin_)

/-- The ranges of the scope with index `scopeIdx`, oldest first. -/
def ourRanges (ranges : List Range) (scopeIdx : Nat) : List Range :=
  (ranges.takeWhile (fun r => r.scopeIndex = scopeIdx)).reverse

/-- The positions `close_scope` walks over, in order. -/
def walkedPositions (ranges : List Range) (scopeIdx : Nat) : List Nat :=
  (ourRanges ranges scopeIdx).flatMap Range.positions

/-- `close_scope`: the maximal stack, the number of locals and the state after it. -/
def closeScope (p : Parser) : Res (Nat × Nat × Parser) :=
  let pos := here p
  let p := fixupLastRangeEnd p pos
  let scopeIdx := p.scopes.length - 1
  let walked := walkedPositions p.ranges scopeIdx
  let w := walked.foldl (walkStep p.idents (locals p)) ⟨p.prog, p.globals, 0, 0⟩
  let nlocals := (locals p).length
  if w.maxstack > (sizeMod - 1) / 2 then throwErr "program is too big"
  else if nlocals > uint32Max / 2 then throwErr "too many locals"
  else
    let ranges := p.ranges.dropWhile (fun r => r.scopeIndex = scopeIdx)
    let scopes := p.scopes.tail
    .ok (w.maxstack, nlocals, { p with
      prog := w.code
      globals := w.globals
      scopes := scopes
      ranges := if scopes = [] then ranges else ⟨scopes.length - 1, pos, none⟩ :: ranges })

/-! ## Functions -/

/-- The index of the shape of the function that starts at `beginPos`. -/
def funShapeIdx (p : Parser) (beginPos : Nat) : Nat :=
  match (p.prog[beginPos]?).map (·.instr) with
  | some (opFunction c) => c
  | _ => 0

/-- Update the shape behind `fun_shape_ptr`. -/
def updateShape (p : Parser) (beginPos : Nat) (f : Shape → Shape) : Parser :=
  { p with shapes := p.shapes.modify (funShapeIdx p beginPos) f }

/-- `fun_begin`. -/
def funBegin (p : Parser) : Res (Nat × Parser) := do
  let pos := here p
  let (shapeIdx, p) ← addShape p
  let p := openScope (emit p (opFunction shapeIdx))
  .ok (pos, { p with
    stackIf := -1 :: p.stackIf
    stackBreak := -1 :: p.stackBreak
    stackContinue := -1 :: p.stackContinue })

/-- `~x` on 32 bits. -/
def complement32 (x : Nat) : Nat := uint32Max - x

/-- `fun_param`. -/
def funParam (p : Parser) (beginPos : Nat) (name : Lexeme) (gather : Bool) : Res Parser :=
  if name.text ∈ locals p then throwErrAt "duplicate parameter" name
  else
    let p := setLocals p (locals p ++ [name.text])
    .ok (updateShape p beginPos fun s =>
      { s with nargsEncoded :=
          if gather then complement32 s.nargsEncoded else s.nargsEncoded + 1 })

/-- Record what `close_scope` is about to walk over. -/
def recordClosed (p : Parser) (beginPos : Nat) : Parser :=
  let walked := walkedPositions (fixupLastRangeEnd p (here p)).ranges (p.scopes.length - 1)
  { p with closes := p.closes ++ [⟨beginPos, here p, walked, p.prog, p.shapes⟩] }

/-- Remove the sentinels of a function from the jump stacks. -/
def popSentinels (p : Parser) : Parser :=
  { p with
    stackIf := p.stackIf.tail
    stackBreak := p.stackBreak.tail
    stackContinue := p.stackContinue.tail }

/-- `fun_end`. -/
def funEnd (p : Parser) (beginPos : Nat) : Res Parser := do
  let (c, p) ← addConstSteal p .nil
  let p := emit (emit p (opLoadConst c)) opReturn
  let (maxstack, nlocals, p) ← closeScope (recordClosed p beginPos)
  let p := updateShape p beginPos fun s => { s with maxstack := maxstack, nlocals := nlocals }
  let offset := here p - beginPos
  if offset > uint32Max / 2 then throwErr "function body is too long"
  else .ok (popSentinels (updateShape p beginPos fun s => { s with offset := offset }))

/-! ## Expressions -/

/-- `this_is_expr`. -/
def thisIsExpr (p : Parser) (expectExpr : Bool) : Res Unit :=
  if expectExpr then .ok () else throwErrAt "unexpected expression" p.cur

/-- `after_expr`. -/
def afterExpr (p : Parser) (expectExpr : Bool) : Res Unit :=
  if expectExpr then throwErrAt "expected expression" p.cur else .ok ()

/-- The table of `unary_operator`. -/
def unaryProps : LexemeKind → Option (Instr × Int)
  | lkMinus => some (opNeg, 50)
  | lkBang => some (opNot, 50)
  | lkAt => some (opLen, 60)
  | _ => none

/-- `unary_operator`. -/
def unaryOperator (expr : Int → Parser → Res Parser) (p : Parser) : Res Parser :=
  let cur := p.cur
  match unaryProps cur.kind with
  | none => throwErrAt "syntax error" cur
  | some (op, priority) => do
      let p ← advance p
      let p ← expr priority p
      .ok (emitAt p op cur)

/-- The table of `binary_operator`: the instruction, the priority and `is_left_assoc`. -/
def binaryProps : LexemeKind → Option (Instr × Int × Int)
  | lkTilde => some (opAop aopConcat, 10, 1)
  | lkOrOr => some (opAop aopOr, 11, 1)
  | lkAndAnd => some (opAop aopAnd, 12, 1)
  | lkOr => some (opAop aopBitOr, 13, 1)
  | lkHat => some (opAop aopBitXor, 14, 1)
  | lkAnd => some (opAop aopBitAnd, 15, 1)
  | lkBangEq => some (opCmp2way 0, 16, 1)
  | lkEqEq => some (opCmp2way compareEq, 16, 1)
  | lkGreaterEq => some (opCmp3way (compareGreater ||| compareEq), 17, 1)
  | lkGreater => some (opCmp3way compareGreater, 17, 1)
  | lkLessEq => some (opCmp3way (compareLess ||| compareEq), 17, 1)
  | lkLess => some (opCmp3way compareLess, 17, 1)
  | lkGreaterGreater => some (opAop aopRshift, 18, 1)
  | lkLessLess => some (opAop aopLshift, 18, 1)
  | lkMinus => some (opAop aopSub, 19, 1)
  | lkPlus => some (opAop aopAdd, 19, 1)
  | lkPercent => some (opAop aopMod, 20, 1)
  | lkSlash => some (opAop aopDiv, 20, 1)
  | lkSlashSlash => some (opAop aopIdiv, 20, 1)
  | lkStar => some (opAop aopMul, 20, 1)
  | lkStarStar => some (opAop aopPow, 21, 0)
  | _ => none

/-- `binary_operator`. -/
def binaryOperator (expr : Int → Parser → Res Parser) (p : Parser) (minPriority : Int) :
    Res (Bool × Parser) :=
  let cur := p.cur
  match binaryProps cur.kind with
  | none => throwErrAt "syntax error" cur
  | some (op, priority, isLeftAssoc) =>
      if priority < minPriority then .ok (false, p)
      else do
        let p ← advance p
        let p ← expr (priority + isLeftAssoc) p
        .ok (true, emitAt p op cur)

/-- The optional `*` before an argument in the loop of `funcall`. -/
def scatterStar (p : Parser) (isScatter : Bool) : Res (Bool × Parser) :=
  if p.cur.kind = lkStar then do
    let p ← advance p
    .ok (true, p)
  else .ok (isScatter, p)

/-- The loop of `funcall`. -/
def funcallLoop (expr : Int → Parser → Res Parser) :
    Nat → Nat → Bool → Parser → Res (Nat × Bool × Parser)
  | 0, _, _, _ => .error .outOfFuel
  | fuel + 1, nargs, isScatter, p => do
      let (isScatter, p) ← scatterStar p isScatter
      let p ← expr (-1) p
      match p.cur.kind with
      | lkRparen => do
          let p ← advance p
          .ok (nargs, isScatter, p)
      | lkComma => do
          let p ← advance p
          if isScatter then throwErrAt "scatter argument is not the last one" p.cur
          else if nargs = uint32Max then throwErrAt "too many arguments" p.cur
          else funcallLoop expr fuel (nargs + 1) isScatter p
      | _ => throwErrAt "expected ',' or ')'" p.cur

/-- `funcall`. -/
def funcall (expr : Int → Parser → Res Parser) (fuel : Nat) (p : Parser) :
    Res (Nat × Bool × Parser) := do
  let p ← advance p
  if p.cur.kind = lkRparen then do
    let p ← advance p
    .ok (0, false, p)
  else funcallLoop expr fuel 1 false p

/-- The loop of `newlist`. -/
def newlistLoop (expr : Int → Parser → Res Parser) : Nat → Nat → Parser → Res (Nat × Parser)
  | 0, _, _ => .error .outOfFuel
  | fuel + 1, nelems, p => do
      let p ← expr (-1) p
      match p.cur.kind with
      | lkRbracket => do
          let p ← advance p
          .ok (nelems, p)
      | lkComma => do
          let p ← advance p
          if nelems = uint32Max then throwErrAt "too many list elements" p.cur
          else newlistLoop expr fuel (nelems + 1) p
      | _ => throwErrAt "expected ',' or ']'" p.cur

/-- `newlist`. -/
def newlist (expr : Int → Parser → Res Parser) (fuel : Nat) (p : Parser) : Res (Nat × Parser) := do
  let p ← advance p
  if p.cur.kind = lkRbracket then do
    let p ← advance p
    .ok (0, p)
  else newlistLoop expr fuel 1 p

/-- The loop of `newdict`. -/
def newdictLoop (expr : Int → Parser → Res Parser) : Nat → Nat → Parser → Res (Nat × Parser)
  | 0, _, _ => .error .outOfFuel
  | fuel + 1, nelems, p => do
      let p ← expr (-1) p
      let p ← slurp p lkColon "expected ':'"
      let p ← expr (-1) p
      match p.cur.kind with
      | lkRbrace => do
          let p ← advance p
          .ok (nelems, p)
      | lkComma => do
          let p ← advance p
          if nelems = uint32Max then throwErrAt "too many dict entries" p.cur
          else newdictLoop expr fuel (nelems + 1) p
      | _ => throwErrAt "expected ',' or '\x7d'" p.cur

/-- `newdict`. -/
def newdict (expr : Int → Parser → Res Parser) (fuel : Nat) (p : Parser) : Res (Nat × Parser) := do
  let p := { p with braces := p.braces ++ [(p.cur.start, false)] }
  let p ← advance p
  if p.cur.kind = lkRbrace then do
    let p ← advance p
    .ok (0, p)
  else newdictLoop expr fuel 1 p

/-- `add_number_const`. -/
def addNumberConst [DeciBase] (p : Parser) (token : Lexeme) : Res (Nat × Parser) :=
  addConstSteal p (.num (numberParse token.text))

/-- `decode_hex`. -/
def decodeHex (c : UInt8) : Option Nat :=
  if isDigit c then some (c.toNat - (ch '0').toNat)
  else if ch 'a' ≤ c && c ≤ ch 'f' then some (c.toNat - (ch 'a').toNat + 10)
  else if ch 'A' ≤ c && c ≤ ch 'F' then some (c.toNat - (ch 'A').toNat + 10)
  else none

/-- The one-letter escapes of `unescape`. -/
def escapeByte (c : UInt8) : Option UInt8 :=
  if c = ch '\\' then some (ch '\\')
  else if c = ch 'a' then some 7
  else if c = ch 'b' then some 8
  else if c = ch 'e' then some 27
  else if c = ch 'f' then some 12
  else if c = ch 'n' then some 10
  else if c = ch 'r' then some 13
  else if c = ch 't' then some 9
  else if c = ch 'v' then some 11
  else if c = ch '"' then some (ch '"')
  else if c = ch '0' then some 0
  else none

/-- `unescape` on the bytes after a backslash: the byte it stands for and the bytes read, or
the number of bytes read when the escape is invalid. The byte after the string's content is
its closing quote, which ends every unfinished escape. -/
def unescape : Bytes → Except Nat (UInt8 × Nat)
  | [] => .error 1
  | c :: s =>
      if c = ch 'x' then
        match s with
        | [] => .error 2
        | h :: s =>
            match decodeHex h with
            | none => .error 2
            | some hi =>
                match s with
                | [] => .error 3
                | l :: _ =>
                    match decodeHex l with
                    | none => .error 3
                    | some lo => .ok ((hi * 16 + lo).toUInt8, 3)
      else
        match escapeByte c with
        | some v => .ok (v, 1)
        | none => .error 1

/-- The loop of `add_string_const` over the content of a string: its bytes, or the offset of
the byte after which an invalid escape was noticed. -/
def stringContent : Nat → Bytes → Except Nat Bytes
  | 0, _ => .ok []
  | fuel + 1, s =>
      let plain := s.takeWhile (· ≠ ch '\\')
      match s.drop plain.length with
      | [] => .ok plain
      | _ :: esc =>
          match unescape esc with
          | .error k => .error (plain.length + k)
          | .ok (v, k) =>
              match stringContent fuel (esc.drop k) with
              | .error e => .error (plain.length + 1 + k + e)
              | .ok t => .ok (plain ++ v :: t)

/-- `add_string_const`. -/
def addStringConst (p : Parser) (token : Lexeme) : Res (Nat × Parser) :=
  let content := token.text.tail.dropLast
  match stringContent (content.length + 1) content with
  | .error k =>
      throwErrPrecise "invalid escape" ⟨token.pos.line, token.pos.column + (k + 1)⟩ 1
  | .ok s => addConstSteal p (.str s)

/-- The lexemes at which `expr` stops. -/
def exprEnd : LexemeKind → Bool
  | lkAndAndEq | lkAndEq | lkComma | lkEof | lkEq | lkColon | lkHatEq | lkMinusEq | lkOrEq
  | lkOrOrEq | lkPercentEq | lkPlusEq | lkSemicolon | lkSlashEq | lkSlashSlashEq | lkStarEq
  | lkStarStarEq | lkTildeEq | lkColonEq | lkRparen | lkRbracket | lkRbrace
  | lkGreaterGreaterEq | lkLessLessEq => true
  | _ => false

/-- The constant a literal lexeme adds, and its index. -/
def addConst [DeciBase] (p : Parser) (token : Lexeme) : Res (Nat × Parser) :=
  match token.kind with
  | lkNumber => addNumberConst p token
  | lkTrue => addConstSteal p (.flag true)
  | lkFalse => addConstSteal p (.flag false)
  | lkNil => addConstSteal p .nil
  | _ => addStringConst p token

/-- The cases of the `switch` in `expr`. -/
inductive ExprCase
  | literal | ident | lbracket | lbrace | lparen | dot | stop | operator
deriving DecidableEq, Repr

/-- The case of the `switch` a lexeme selects. -/
def exprCase : LexemeKind → ExprCase
  | lkNumber | lkTrue | lkFalse | lkNil | lkString => .literal
  | lkIdent => .ident
  | lkLbracket => .lbracket
  | lkLbrace => .lbrace
  | lkLparen => .lparen
  | lkDot => .dot
  | k => if exprEnd k then .stop else .operator

/-- The loop of `expr`. -/
def exprLoop [DeciBase] (expr : Int → Parser → Res Parser) :
    Nat → Int → Bool → Parser → Res Parser
  | 0, _, _, _ => .error .outOfFuel
  | fuel + 1, minPriority, expectExpr, p =>
      let cur := p.cur
      match exprCase cur.kind with
      | .literal => do
          thisIsExpr p expectExpr
          let (c, p) ← addConst p cur
          let p ← advance (emitAt p (opLoadConst c) cur)
          exprLoop expr fuel minPriority false p
      | .ident => do
          thisIsExpr p expectExpr
          let (instr, p) ← load p cur
          let p ← advance (emitAt p instr cur)
          exprLoop expr fuel minPriority false p
      | .lbracket =>
          if expectExpr then do
            let (nelems, p) ← newlist expr fuel p
            exprLoop expr fuel minPriority false (emitAt p (opList nelems) cur)
          else do
            let p ← advance p
            let p ← expr (-1) p
            let p ← slurp p lkRbracket "expected ']'"
            exprLoop expr fuel minPriority expectExpr (emitAt p opLoadAt cur)
      | .lbrace => do
          thisIsExpr p expectExpr
          let (nentries, p) ← newdict expr fuel p
          exprLoop expr fuel minPriority false (emitAt p (opDict nentries) cur)
      | .lparen =>
          if expectExpr then do
            let p ← advance p
            let p ← expr (-1) p
            let p ← slurp p lkRparen "expected ')'"
            exprLoop expr fuel minPriority false p
          else do
            let (nargs, isScatter, p) ← funcall expr fuel p
            exprLoop expr fuel minPriority expectExpr (emitAt p (opCall isScatter nargs) cur)
      | .dot => do
          afterExpr p expectExpr
          let p ← advance p
          let field := p.cur
          if field.kind = lkIdent then do
            let (c, p) ← addConstSteal p (.str field.text)
            let p := emitAt (emitAt p (opLoadConst c) field) opLoadAt field
            let p ← advance p
            exprLoop expr fuel minPriority expectExpr p
          else throwErrAt "expected identifier (field name)" field
      | .stop => do
          afterExpr p expectExpr
          .ok p
      | .operator =>
          if expectExpr then do
            let p ← unaryOperator expr p
            exprLoop expr fuel minPriority false p
          else do
            let (again, p) ← binaryOperator expr p minPriority
            if again then exprLoop expr fuel minPriority expectExpr p else .ok p

/-- `expr`. -/
def expr [DeciBase] : Nat → Int → Parser → Res Parser
  | 0, _, _ => .error .outOfFuel
  | fuel + 1, minPriority, p => exprLoop (expr fuel) fuel minPriority true p

/-! ## Jumps -/

/-- `p->prog.data[from].instr.c = c` at a jump. -/
def setJump (c : Nat) : Instr → Instr
  | opJump _ => opJump c
  | opJumpUnless _ => opJumpUnless c
  | i => i

/-- `fixup_jump`. -/
def fixupJump (p : Parser) (src dst : Nat) : Parser :=
  { p with prog := p.prog.modify src fun ti =>
      { ti with instr := setJump (toUint32 ((dst : Int) - src)) ti.instr } }

/-- `postpone_jump`. -/
def postponeJump (p : Parser) : Nat × Parser := (here p, emit p (opJump 0))

/-- `postpone_jump_unless`. -/
def postponeJumpUnless (p : Parser) : Nat × Parser := (here p, emit p (opJumpUnless 0))

/-- `emit_jump_to`. -/
def emitJumpTo (p : Parser) (dst : Nat) : Parser :=
  let (src, p) := postponeJump p
  fixupJump p src dst

/-- The fixups of `stack_segment_end_fixup` down to the segment's sentinel, and what is left
of the stack. -/
def segmentEndFixup (p : Parser) (dst : Nat) : List Int → Parser × List Int
  | [] => (p, [])
  | pos :: rest =>
      if pos = -2 then (p, rest) else segmentEndFixup (fixupJump p pos.toNat dst) dst rest

/-! ## Statements -/

/-- The table of `expr_or_assignment`. -/
def opAssignProps : LexemeKind → Option Aop
  | lkAndAndEq => some aopAnd
  | lkAndEq => some aopBitAnd
  | lkHatEq => some aopBitXor
  | lkGreaterGreaterEq => some aopRshift
  | lkLessLessEq => some aopLshift
  | lkMinusEq => some aopSub
  | lkOrOrEq => some aopOr
  | lkOrEq => some aopBitOr
  | lkPercentEq => some aopMod
  | lkPlusEq => some aopAdd
  | lkSlashEq => some aopDiv
  | lkSlashSlashEq => some aopIdiv
  | lkStarEq => some aopMul
  | lkStarStarEq => some aopPow
  | lkTildeEq => some aopConcat
  | _ => none

/-- `expr_or_assignment`. -/
def exprOrAssignment (expr : Int → Parser → Res Parser) (p : Parser) : Res Parser := do
  let p ← expr (-1) p
  let barrier := p.cur
  if barrier.kind = lkEq ∨ barrier.kind = lkColonEq then do
    let (loadInstr, p) := unemit p
    let p ← advance p
    let p ← expr (-1) p
    let (storeInstr, p) ← loadToStore p loadInstr (barrier.kind = lkColonEq) barrier
    .ok (emitAt p storeInstr barrier)
  else if barrier.kind = lkSemicolon then .ok (emitAt p opPrint barrier)
  else
    match opAssignProps barrier.kind with
    | none => throwErrAt "expected ';' or assignment" barrier
    | some aop => do
        let (loadInstr, p) := unemit p
        let p ← advance p
        let p ← expr (-1) p
        let modifyInstr ← loadToModify loadInstr aop barrier
        .ok (emitAt p modifyInstr barrier)

/-- `ti_reverse`. -/
def tiReverse (mem : List TaggedInstr) : List TaggedInstr := mem.reverse

/-- `ti_rotate_left`, by three reversals. -/
def tiRotateLeft (mem : List TaggedInstr) (nrotate : Nat) : List TaggedInstr :=
  let d := mem.length - nrotate
  let mem := tiReverse mem
  tiReverse (mem.take d) ++ tiReverse (mem.drop d)

/-- The loop of `block` after its brace. -/
def blockLoop (stmt : Parser → Res Parser) : Nat → Parser → Res Parser
  | 0, _ => .error .outOfFuel
  | fuel + 1, p => do
      let p ← stmt p
      match p.cur.kind with
      | lkEof => throwErrAt "expected '\x7d'" p.cur
      | lkRbrace => advance p
      | _ => blockLoop stmt fuel p

/-- `block`. -/
def block (stmt : Parser → Res Parser) (fuel : Nat) (p : Parser) : Res Parser := do
  let start := p.cur.start
  let p ← slurp p lkLbrace "expected '\x7b'"
  blockLoop stmt fuel { p with braces := p.braces ++ [(start, true)] }

/-- `if_or_elif_clause`. -/
def ifOrElifClause (expr : Int → Parser → Res Parser) (stmt : Parser → Res Parser) (fuel : Nat)
    (p : Parser) : Res (Nat × Parser) := do
  let p ← advance p
  let p ← slurp p lkLparen "expected '('"
  let p ← expr (-1) p
  let (jumpPos, p) := postponeJumpUnless p
  let p ← slurp p lkRparen "expected ')'"
  let p ← block stmt fuel p
  .ok (jumpPos, p)

/-- `else_clause`. -/
def elseClause (stmt : Parser → Res Parser) (fuel : Nat) (p : Parser) : Res Parser := do
  let p ← advance p
  block stmt fuel p

/-- The jump over the next clause and the fixup of the last clause's condition. -/
def nextClause (p : Parser) (prevJumpUnless : Nat) : Parser :=
  let (pos, p) := postponeJump p
  let p := { p with stackIf := (pos : Int) :: p.stackIf }
  fixupJump p prevJumpUnless (here p)

/-- The loop of `if_stmt` over the `elif` clauses. -/
def elifLoop (expr : Int → Parser → Res Parser) (stmt : Parser → Res Parser) :
    Nat → Nat → Parser → Res (Nat × Parser)
  | 0, _, _ => .error .outOfFuel
  | fuel + 1, prevJumpUnless, p =>
      if p.cur.kind = lkElif then do
        let (prevJumpUnless, p) ← ifOrElifClause expr stmt fuel (nextClause p prevJumpUnless)
        elifLoop expr stmt fuel prevJumpUnless p
      else .ok (prevJumpUnless, p)

/-- The `else` clause of `if_stmt`, or its absence. -/
def ifEnd (stmt : Parser → Res Parser) (fuel : Nat) (prevJumpUnless : Nat) (p : Parser) :
    Res Parser :=
  if p.cur.kind = lkElse then elseClause stmt fuel (nextClause p prevJumpUnless)
  else .ok (fixupJump p prevJumpUnless (here p))

/-- `stack_segment_begin` on the stack of `if_stmt`. -/
def ifSegmentBegin (p : Parser) : Parser := { p with stackIf := -2 :: p.stackIf }

/-- `stack_segment_end_fixup` on the stack of `if_stmt`. -/
def ifSegmentEnd (p : Parser) (dst : Nat) : Parser :=
  let (p, stackIf) := segmentEndFixup p dst p.stackIf
  { p with stackIf := stackIf }

/-- `if_stmt`. -/
def ifStmt (expr : Int → Parser → Res Parser) (stmt : Parser → Res Parser) (fuel : Nat)
    (p : Parser) : Res Parser := do
  let (prevJumpUnless, p) ← ifOrElifClause expr stmt fuel (ifSegmentBegin p)
  let (prevJumpUnless, p) ← elifLoop expr stmt fuel prevJumpUnless p
  let p ← ifEnd stmt fuel prevJumpUnless p
  .ok (ifSegmentEnd p (here p))

/-- `stack_segment_begin` on the stacks of the two loop statements. -/
def loopSegmentBegin (p : Parser) : Parser :=
  { p with stackBreak := -2 :: p.stackBreak, stackContinue := -2 :: p.stackContinue }

/-- `stack_segment_end_fixup` on the stacks of the two loop statements. -/
def loopSegmentEnd (p : Parser) (breakTo continueTo : Nat) : Parser :=
  let (p, stackBreak) := segmentEndFixup p breakTo p.stackBreak
  let (p, stackContinue) := segmentEndFixup p continueTo p.stackContinue
  { p with stackBreak := stackBreak, stackContinue := stackContinue }

/-- `while_stmt`. -/
def whileStmt (expr : Int → Parser → Res Parser) (stmt : Parser → Res Parser) (fuel : Nat)
    (p : Parser) : Res Parser := do
  let p ← advance (loopSegmentBegin p)
  let p ← slurp p lkLparen "expected '('"
  let beginPos := here p
  let p ← expr (-1) p
  let (jumpPos, p) := postponeJumpUnless p
  let p ← slurp p lkRparen "expected ')'"
  let p ← block stmt fuel p
  let p := emitJumpTo p beginPos
  let p := fixupJump p jumpPos (here p)
  .ok (loopSegmentEnd p (here p) beginPos)

/-- The loop of `fun_stmt` over the parameters, up to the closing parenthesis. -/
def funParams (funPos : Nat) : Nat → Parser → Res Parser
  | 0, _ => .error .outOfFuel
  | fuel + 1, p =>
      let lxm := p.cur
      if lxm.kind = lkStar then do
        let p ← advance p
        let lxm := p.cur
        if lxm.kind = lkIdent then do
          let p ← funParam p funPos lxm true
          let p ← advance p
          if p.cur.kind = lkRparen then .ok p
          else throwErrAt "expected ')' after gather parameter" lxm
        else throwErrAt "expected gather parameter name" lxm
      else if lxm.kind = lkIdent then do
        let p ← funParam p funPos lxm false
        let p ← advance p
        if p.cur.kind = lkRparen then .ok p
        else do
          let p ← slurp p lkComma "expected ',' or ')'"
          funParams funPos fuel p
      else throwErrAt "expected parameter name" lxm

/-- The parameters of `fun_stmt`, up to the closing parenthesis. -/
def funParamList (funPos fuel : Nat) (p : Parser) : Res Parser :=
  if p.cur.kind = lkRparen then .ok p else funParams funPos fuel p

/-- `fun_stmt`. -/
def funStmt (stmt : Parser → Res Parser) (fuel : Nat) (p : Parser) : Res Parser := do
  let p ← advance p
  let name := p.cur
  if name.kind = lkIdent then do
    let p ← advance p
    let p ← slurp p lkLparen "expected '('"
    let (funPos, p) ← funBegin p
    let p ← funParamList funPos fuel p
    let p ← advance p
    let p ← block stmt fuel p
    let p ← funEnd p funPos
    let (loadInstr, p) ← load p name
    let (storeInstr, p) ← loadToStore p loadInstr false name
    .ok (emit p storeInstr)
  else throwErrAt "expected function name" name

/-- The first and the third clause of `for_stmt`, which may be empty before `next`. -/
def forClause (expr : Int → Parser → Res Parser) (next : LexemeKind) (p : Parser) : Res Parser :=
  if p.cur.kind = next then .ok p else exprOrAssignment expr p

/-- The second clause of `for_stmt` and the jump out of the loop, if it is not empty. -/
def forCond (expr : Int → Parser → Res Parser) (p : Parser) : Res (Option Nat × Parser) :=
  if p.cur.kind = lkSemicolon then .ok (none, p)
  else do
    let p ← expr (-1) p
    let (jumpPos, p) := postponeJumpUnless p
    .ok (some jumpPos, p)

/-- The fixup of the jump out of a `for` loop, if there is one. -/
def fixupCondJump (p : Parser) (jumpPos : Option Nat) (dst : Nat) : Parser :=
  match jumpPos with
  | some src => fixupJump p src dst
  | none => p

/-- `for_stmt`. -/
def forStmt (expr : Int → Parser → Res Parser) (stmt : Parser → Res Parser) (fuel : Nat)
    (p : Parser) : Res Parser := do
  let p ← advance (loopSegmentBegin p)
  let p ← slurp p lkLparen "expected '('"
  let p ← forClause expr lkSemicolon p
  let p ← slurp p lkSemicolon "expected ';'"
  let beginPos := here p
  let (jumpPos, p) ← forCond expr p
  let p ← slurp p lkSemicolon "expected ';'"
  let i1 := here p
  let p ← forClause expr lkRparen p
  let p ← slurp p lkRparen "expected ')'"
  let i2 := here p
  let p ← block stmt fuel p
  let i3 := here p
  let nrotate := i2 - i1
  let ctnuePos := i3 - nrotate
  let p := emitJumpTo p beginPos
  let endPos := here p
  let p := fixupCondJump p jumpPos endPos
  let p := loopSegmentEnd p (endPos + nrotate) (ctnuePos + nrotate)
  .ok { p with prog :=
    p.prog.take i1 ++ tiRotateLeft ((p.prog.drop i1).take (i3 - i1)) nrotate ++ p.prog.drop i3 }

/-- The `return` case of `stmt`. -/
def returnStmt (expr : Int → Parser → Res Parser) (p : Parser) : Res Parser := do
  let p ← advance p
  if p.cur.kind = lkSemicolon then do
    let p ← advance p
    let (c, p) ← addConstSteal p .nil
    .ok (emit (emit p (opLoadConst c)) opReturn)
  else do
    let p ← expr (-1) p
    let p ← slurp p lkSemicolon "expected ';'"
    .ok (emit p opReturn)

/-- The `break` case of `stmt`. -/
def breakStmt (p : Parser) : Res Parser :=
  if p.stackBreak.headD (-1) = -1 then throwErrAt "'break' outside of a loop" p.cur
  else do
    let (pos, p) := postponeJump p
    let p ← advance { p with stackBreak := (pos : Int) :: p.stackBreak }
    slurp p lkSemicolon "expected ';'"

/-- The `continue` case of `stmt`. -/
def continueStmt (p : Parser) : Res Parser :=
  if p.stackContinue.headD (-1) = -1 then throwErrAt "'continue' outside of a loop" p.cur
  else do
    let (pos, p) := postponeJump p
    let p ← advance { p with stackContinue := (pos : Int) :: p.stackContinue }
    slurp p lkSemicolon "expected ';'"

/-- `stmt`. -/
def stmt [DeciBase] : Nat → Parser → Res Parser
  | 0, _ => .error .outOfFuel
  | fuel + 1, p =>
      match p.cur.kind with
      | lkIf => ifStmt (expr fuel) (stmt fuel) fuel p
      | lkWhile => whileStmt (expr fuel) (stmt fuel) fuel p
      | lkFor => forStmt (expr fuel) (stmt fuel) fuel p
      | lkFun => funStmt (stmt fuel) fuel p
      | lkSemicolon => advance p
      | lkReturn => returnStmt (expr fuel) p
      | lkBreak => breakStmt p
      | lkContinue => continueStmt p
      | lkEof | lkRbrace => .ok p
      | _ => do
          let p ← exprOrAssignment (expr fuel) p
          slurp p lkSemicolon "expected ';'"

/-! ## Chunks -/

/-- The loop of `to_chunk` that collects the quarks. -/
def toQuarks : Nat → Option Nat → List TaggedInstr → List Quark
  | _, _, [] => []
  | i, curLine, ti :: prog =>
      match ti.line with
      | none => toQuarks (i + 1) curLine prog
      | some line =>
          if curLine = some line then toQuarks (i + 1) curLine prog
          else ⟨i, line⟩ :: toQuarks (i + 1) (some line) prog

/-- `to_chunk`. -/
def toChunk (p : Parser) (source : Bytes) (origin : String) : Chunk :=
  ⟨p.prog.map (·.instr), p.consts, toQuarks 0 none p.prog, p.shapes, origin, source⟩

/-- The loop of `parse` over the statements of the source. -/
def parseLoop (stmt : Parser → Res Parser) : Nat → Parser → Res Parser
  | 0, _ => .error .outOfFuel
  | fuel + 1, p => do
      let p ← stmt p
      match p.cur.kind with
      | lkRbrace => throwErrAt "extra '\x7d'" p.cur
      | lkEof => .ok p
      | _ => parseLoop stmt fuel p

/-- The parser state at the end of `parse`, before `to_chunk`. -/
def parseState [DeciBase] (fuel : Nat) (globals : List Bytes) (source : Bytes) : Res Parser := do
  let (funPos, p) ← funBegin (parserNew source globals)
  let p ← advance p
  let p ← parseLoop (stmt fuel) fuel p
  funEnd p funPos

/-- A fuel that no parse of a source of this length exhausts. -/
def parseFuel (source : Bytes) : Nat := 2 * source.length + 4

/-- `parse`: the chunk whose first instruction is the compiled function, and the globals
table. -/
def parse [DeciBase] (globals : List Bytes) (source : Bytes) (origin : String) :
    Res (Chunk × List Bytes) := do
  let p ← parseState (parseFuel source) globals source
  .ok (toChunk p source origin, p.globals)

end Calx
