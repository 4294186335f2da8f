import Calx.Syntax

/-!
# The code of a tree

A compositional description of the instructions the one-pass parser emits:
the code of a construct is built from the code of its parts, with the jumps it
closes already aimed and the code of a `for` loop already in its final order.

## Implementation notes

An item speaks of constants, names and function shapes themselves where an
instruction holds indices into tables, so that the code of a tree does not
depend on what was compiled before it. A `break` or `continue` whose loop is
not closed yet is an item of its own, aimed by `patch`; so is the jump over the
further clauses of an `if` statement while it is being read.

Each item knows whether it belongs to the function at hand or to a function
nested in it. When a function is closed its identifiers are resolved by
`resolve`. The source resolves only the positions its recorded ranges cover,
and where these are wrong (`postedFun`) nothing more than the class of the
instruction is claimed, by `blur`.
-/

namespace Calx

open LexemeKind Instr Aop

/-- The shape of a function as far as the tree determines it. -/
structure FunInfo where
  nargsEncoded : Nat
  nlocals : Nat
  offset : Nat
  maxstack : Option Nat
deriving DecidableEq, Repr

/-- Instructions with table entries in place of table indices. -/
inductive AInstr
  | plain (i : Instr)
  | const (v : Const)
  | load (x : Bytes)
  | store (x : Bytes)
  | modify (a : Aop) (x : Bytes)
  | storeNew (x : Bytes)
  | loadGlobal (x : Bytes)
  | storeGlobal (x : Bytes)
  | modifyGlobal (a : Aop) (x : Bytes)
  | someLoad
  | someStore
  | someModify (a : Aop)
  | jump (off : Int)
  | jumpUnless (off : Int)
  | breakTo
  | continueTo
  | ifTo
  | function (f : FunInfo)
deriving DecidableEq, Repr

/-- One instruction of a tree's code: its line, and whether the function at hand owns it. -/
structure Item where
  instr : AInstr
  line : Option Nat
  own : Bool
deriving DecidableEq, Repr

/-- An item of the function at hand. -/
def Item.mine (i : AInstr) (line : Option Nat) : Item := ⟨i, line, true⟩

/-- The line of a lexeme as an instruction's tag. -/
def Lexeme.tag (l : Lexeme) : Option Nat := some l.pos.line

/-! ## Expressions -/

/-- The constant of a literal lexeme, if its escapes are valid. -/
def litConst [DeciBase] (tok : Lexeme) : Option Const :=
  match tok.kind with
  | lkNumber => some (.num (numberParse tok.text))
  | lkTrue => some (.flag true)
  | lkFalse => some (.flag false)
  | lkNil => some .nil
  | _ =>
      let content := tok.text.tail.dropLast
      match stringContent (content.length + 1) content with
      | .ok s => some (.str s)
      | .error _ => none

/-- The instruction of a prefix operator. -/
def unaryInstr (k : LexemeKind) : Instr := ((unaryProps k).map (·.1)).getD opNeg

/-- The instruction of an infix operator. -/
def binaryInstr (k : LexemeKind) : Instr := ((binaryProps k).map (·.1)).getD opNeg

/-- The number of expressions in a list. -/
def Elems.count : Elems → Nat
  | .last _ => 1
  | .more _ _ es => es.count + 1

/-- The number of entries in a list. -/
def Entries.count : Entries → Nat
  | .last .. => 1
  | .more _ _ _ _ kvs => kvs.count + 1

mutual

/-- The code of an expression. -/
def Expr.code [DeciBase] : Expr → List Item
  | .literal t => [.mine (.const ((litConst t).getD .nil)) t.tag]
  | .ident t => [.mine (.load t.text) t.tag]
  | .list0 lb _ => [.mine (.plain (opList 0)) lb.tag]
  | .list lb es _ => es.code ++ [.mine (.plain (opList es.count)) lb.tag]
  | .dict0 lb _ => [.mine (.plain (opDict 0)) lb.tag]
  | .dict lb kvs _ => kvs.code ++ [.mine (.plain (opDict kvs.count)) lb.tag]
  | .paren _ e _ => e.code
  | .unary op e => e.code ++ [.mine (.plain (unaryInstr op.kind)) op.tag]
  | .binary l op r => l.code ++ (r.code ++ [.mine (.plain (binaryInstr op.kind)) op.tag])
  | .index e lb i _ => e.code ++ (i.code ++ [.mine (.plain opLoadAt) lb.tag])
  | .field e _ name =>
      e.code ++ [.mine (.const (.str name.text)) name.tag, .mine (.plain opLoadAt) name.tag]
  | .call0 f lp _ => f.code ++ [.mine (.plain (opCall false 0)) lp.tag]
  | .call f lp args star _ =>
      f.code ++ (args.code ++ [.mine (.plain (opCall star.isSome args.count)) lp.tag])

/-- The code of a list of expressions. -/
def Elems.code [DeciBase] : Elems → List Item
  | .last e => e.code
  | .more e _ es => e.code ++ es.code

/-- The code of a list of dict entries. -/
def Entries.code [DeciBase] : Entries → List Item
  | .last k _ v => k.code ++ v.code
  | .more k _ v _ kvs => k.code ++ (v.code ++ kvs.code)

end

/-! ## Simple statements -/

/-- The store or modification an assignment makes of the last load of its left-hand side. -/
def assignInstr (op : LexemeKind) (target : AInstr) : Option AInstr :=
  match target with
  | .load x =>
      if op = lkEq then some (.store x)
      else if op = lkColonEq then some (.storeNew x)
      else (opAssignProps op).map (.modify · x)
  | .plain opLoadAt =>
      if op = lkEq then some (.plain opStoreAt)
      else if op = lkColonEq then none
      else (opAssignProps op).map fun a => .plain (opModifyAt a)
  | _ => none

/-- The last instruction of an expression. -/
def Expr.lastInstr [DeciBase] (e : Expr) : AInstr :=
  ((e.code.getLast?).map (·.instr)).getD (.plain opPrint)

/-- The code of an expression or assignment that ends before the lexeme `next`. -/
def Simple.code [DeciBase] (next : Lexeme) : Simple → List Item
  | .expr e => e.code ++ [.mine (.plain opPrint) next.tag]
  | .assign lhs op rhs =>
      lhs.code.dropLast ++ (rhs.code ++
        [.mine ((assignInstr op.kind lhs.lastInstr).getD (.plain opPrint)) op.tag])

/-! ## Jumps -/

/-- Aim the open jumps `a` of a piece of code whose first item has the index `i`. -/
def aimFrom (a : AInstr) (dst : Int) : Nat → List Item → List Item
  | _, [] => []
  | i, r :: rs =>
      (if r.instr = a then { r with instr := .jump (dst - i) } else r) :: aimFrom a dst (i + 1) rs

/-- Aim the open `break` and `continue` items of a piece of code. The targets are positions
relative to its first item. -/
def patch (brk cnt : Int) (code : List Item) : List Item :=
  aimFrom .continueTo cnt 0 (aimFrom .breakTo brk 0 code)

/-- A clause of an `if` statement, followed by `rest`: the other clauses with the jump over
them, or nothing. -/
def clauseCode (cond body rest : List Item) : List Item :=
  cond ++ (.mine (.jumpUnless (1 + body.length + if rest = [] then 0 else 1)) none ::
    (body ++ rest))

/-- The jump over the clauses `rest`, and these. -/
def overCode (rest : List Item) : List Item :=
  .mine (.jump (1 + rest.length)) none :: rest

/-- A `while` loop. -/
def whileCode (cond body : List Item) : List Item :=
  cond ++ (.mine (.jumpUnless (body.length + 2)) none ::
    (patch (body.length + 1) (-(cond.length + 1)) body ++
      [.mine (.jump (-(cond.length + 1 + body.length : Nat))) none]))

/-- The condition of a `for` loop and the jump out of it over `rest` more items. -/
def forCondCode (rest : Nat) : Option (List Item) → List Item
  | none => []
  | some cond => cond ++ [.mine (.jumpUnless (rest + 1)) none]

/-- A `for` loop in its final order: the body stands before the third clause. -/
def forCode (pre : List Item) (cond : Option (List Item)) (post body : List Item) : List Item :=
  let cond := forCondCode (body.length + post.length + 1) cond
  pre ++ (cond ++ (patch (body.length + post.length + 1) body.length body ++ (post ++
    [.mine (.jump (-(cond.length + body.length + post.length : Nat))) none])))

/-! ## Functions -/

/-- `xht_put` of several names in turn. -/
def putNames (names : List Bytes) (xs : List Bytes) : List Bytes :=
  xs.foldl (fun ns x => (putName ns x).2) names

/-- An identifier access of a function with the given locals. -/
def resolve (names : List Bytes) : AInstr → AInstr
  | .load x => if x ∈ names then .plain (opLoadLocal (names.idxOf x)) else .loadGlobal x
  | .store x => if x ∈ names then .plain (opStoreLocal (names.idxOf x)) else .storeGlobal x
  | .modify a x =>
      if x ∈ names then .plain (opModifyLocal a (names.idxOf x)) else .modifyGlobal a x
  | .storeNew x => .plain (opStoreLocal (names.idxOf x))
  | i => i

/-- The class of an identifier access. -/
def blur (names : List Bytes) : AInstr → AInstr
  | .load _ => .someLoad
  | .store _ => .someStore
  | .modify a _ => .someModify a
  | .storeNew x => .plain (opStoreLocal (names.idxOf x))
  | i => i

/-- The code of a function after its scope has been closed. -/
def closeItems (posted : Bool) (names : List Bytes) (code : List Item) : List Item :=
  code.map fun r =>
    if r.own then { r with instr := if posted then blur names r.instr else resolve names r.instr }
    else r

/-- The stack effect of an item. -/
def AInstr.effect : AInstr → Int
  | .plain i => stackEffect i
  | .const _ | .load _ | .loadGlobal _ | .someLoad | .function _ => 1
  | .store _ | .modify .. | .storeNew _ | .storeGlobal _ | .modifyGlobal .. | .someStore
  | .someModify _ | .jumpUnless _ => -1
  | .jump _ | .breakTo | .continueTo | .ifTo => 0

/-- `curstack` and `maxstack` after a piece of code, as `close_scope` computes them. -/
def stackWalk (cm : Nat × Nat) (code : List Item) : Nat × Nat :=
  code.foldl (fun cm r =>
    let c := addStack cm.1 r.instr.effect
    (c, max cm.2 c)) cm

/-- The implicit `return nil` at the end of every function. -/
def returnNil : List Item := [.mine (.const .nil) none, .mine (.plain opReturn) none]

/-- The encoding of a parameter list in `nargs_encoded`. -/
def nargsEncoded : Option Params → Nat
  | none => 0
  | some ps =>
      if ps.gathers then complement32 (ps.names.length - 1) else ps.names.length

/-- The parameters' names. -/
def paramNames (ps : Option Params) : List Bytes := (ps.map Params.names).getD []

/-- The shape of a function with the given body code. -/
def funInfo (ps : Option Params) (names : List Bytes) (posted : Bool) (body : List Item) :
    FunInfo :=
  ⟨nargsEncoded ps, names.length, body.length + 1,
    if posted then none else some (stackWalk (0, 0) (body.filter (·.own))).2⟩

/-- The `OP_FUNCTION` item and the closed body of a function. -/
def funCode (ps : Option Params) (names : List Bytes) (posted : Bool) (body : List Item) :
    List Item :=
  .mine (.function (funInfo ps names posted body)) none :: closeItems posted names body

/-- The items of a nested function, seen from the function around it. -/
def nest (code : List Item) : List Item := code.map fun r => { r with own := false }

/-! ## Statements -/

mutual

/-- The code of a statement. -/
def Stmt.code [DeciBase] : Stmt → List Item
  | .empty _ => []
  | .simple s semi => s.code semi
  | .ifStmt _ _ c _ _ body _ rest => clauseCode c.code body.code rest.code
  | .whileStmt _ _ c _ _ body _ => whileCode c.code body.code
  | .forStmt _ _ pre semi1 cond _ post rp _ body _ =>
      forCode ((pre.map (Simple.code semi1)).getD []) (cond.map Expr.code)
        ((post.map (Simple.code rp)).getD []) body.code
  | .funStmt _ name _ ps _ _ body _ =>
      let code := funCode ps (putNames (paramNames ps) body.decls) body.postedFun
        (body.code ++ returnNil)
      code.take 1 ++ (nest code.tail ++ [.mine (.store name.text) none])
  | .returnStmt _ none _ => returnNil
  | .returnStmt _ (some e) _ => e.code ++ [.mine (.plain opReturn) none]
  | .breakStmt .. => [.mine .breakTo none]
  | .continueStmt .. => [.mine .continueTo none]

/-- The code of a statement sequence. -/
def Stmts.code [DeciBase] : Stmts → List Item
  | .nil => []
  | .cons s ss => s.code ++ ss.code

/-- The code of the clauses after the first one, with the jump over them. -/
def Else.code [DeciBase] : Else → List Item
  | .none => []
  | .elifClause _ _ c _ _ body _ rest => overCode (clauseCode c.code body.code rest.code)
  | .elseClause _ _ body _ => overCode body.code

end

/-- The locals of a function. -/
def funLocals (ps : Option Params) (body : Stmts) : List Bytes :=
  putNames (paramNames ps) body.decls

/-- The code of a whole function. -/
def Stmts.funCode [DeciBase] (ps : Option Params) (body : Stmts) : List Item :=
  Calx.funCode ps (funLocals ps body) body.postedFun (body.code ++ returnNil)

end Calx
