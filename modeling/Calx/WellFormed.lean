import Calx.Code

/-!
# Well-formed trees

Which lexemes may stand at which place of a tree, together with the checks the
parser makes while it reads: valid escapes, assignable targets, distinct
parameters, and `break` and `continue` only inside a loop of the same function.
-/

namespace Calx

open LexemeKind Instr

/-- The kinds of literal lexemes. -/
def LexemeKind.isLiteral (k : LexemeKind) : Bool := exprCase k = .literal

mutual

/-- Well-formed expressions. -/
def Expr.Wf [DeciBase] : Expr → Prop
  | .literal t => t.kind.isLiteral = true ∧ (litConst t).isSome = true
  | .ident t => t.kind = lkIdent
  | .list0 lb rb => lb.kind = lkLbracket ∧ rb.kind = lkRbracket
  | .list lb es rb => lb.kind = lkLbracket ∧ es.Wf ∧ rb.kind = lkRbracket
  | .dict0 lb rb => lb.kind = lkLbrace ∧ rb.kind = lkRbrace
  | .dict lb kvs rb => lb.kind = lkLbrace ∧ kvs.Wf ∧ rb.kind = lkRbrace
  | .paren lp e rp => lp.kind = lkLparen ∧ e.Wf ∧ rp.kind = lkRparen
  | .unary op e => (unaryProps op.kind).isSome = true ∧ e.Wf
  | .binary l op r => l.Wf ∧ (binaryProps op.kind).isSome = true ∧ r.Wf
  | .index e lb i rb => e.Wf ∧ lb.kind = lkLbracket ∧ i.Wf ∧ rb.kind = lkRbracket
  | .field e dot name => e.Wf ∧ dot.kind = lkDot ∧ name.kind = lkIdent
  | .call0 f lp rp => f.Wf ∧ lp.kind = lkLparen ∧ rp.kind = lkRparen
  | .call f lp args star rp =>
      f.Wf ∧ lp.kind = lkLparen ∧ args.Wf ∧ (∀ s ∈ star, s.kind = lkStar) ∧ rp.kind = lkRparen

/-- Well-formed lists of expressions. -/
def Elems.Wf [DeciBase] : Elems → Prop
  | .last e => e.Wf
  | .more e comma es => e.Wf ∧ comma.kind = lkComma ∧ es.Wf

/-- Well-formed lists of dict entries. -/
def Entries.Wf [DeciBase] : Entries → Prop
  | .last k colon v => k.Wf ∧ colon.kind = lkColon ∧ v.Wf
  | .more k colon v comma kvs =>
      k.Wf ∧ colon.kind = lkColon ∧ v.Wf ∧ comma.kind = lkComma ∧ kvs.Wf

end

/-- The kinds of the assignment lexemes. -/
def LexemeKind.isAssign (k : LexemeKind) : Bool :=
  k = lkEq || k = lkColonEq || (opAssignProps k).isSome

/-- Well-formed expressions and assignments: the target of an assignment is assignable. -/
def Simple.Wf [DeciBase] : Simple → Prop
  | .expr e => e.Wf
  | .assign lhs op rhs =>
      lhs.Wf ∧ op.kind.isAssign = true ∧ rhs.Wf ∧
        (assignInstr op.kind lhs.lastInstr).isSome = true

/-- Well-formed parameter lists. -/
def Params.Wf : Params → Prop
  | .last name => name.kind = lkIdent
  | .gather star name => star.kind = lkStar ∧ name.kind = lkIdent
  | .more name comma ps => name.kind = lkIdent ∧ comma.kind = lkComma ∧ ps.Wf

/-- Assignments: what the third clause of a `for` header may be. -/
def Simple.isAssign : Simple → Bool
  | .expr _ => false
  | .assign .. => true

mutual

/-- Well-formed statements; `inLoop` tells whether a loop of the same function is around. -/
def Stmt.Wf [DeciBase] (inLoop : Bool) : Stmt → Prop
  | .empty semi => semi.kind = lkSemicolon
  | .simple s semi => s.Wf ∧ semi.kind = lkSemicolon
  | .ifStmt kw lp c rp lb body rb rest =>
      kw.kind = lkIf ∧ lp.kind = lkLparen ∧ c.Wf ∧ rp.kind = lkRparen ∧ lb.kind = lkLbrace ∧
        body.Wf inLoop ∧ rb.kind = lkRbrace ∧ rest.Wf inLoop
  | .whileStmt kw lp c rp lb body rb =>
      kw.kind = lkWhile ∧ lp.kind = lkLparen ∧ c.Wf ∧ rp.kind = lkRparen ∧ lb.kind = lkLbrace ∧
        body.Wf true ∧ rb.kind = lkRbrace
  | .forStmt kw lp pre semi1 cond semi2 post rp lb body rb =>
      kw.kind = lkFor ∧ lp.kind = lkLparen ∧ (∀ s ∈ pre, s.Wf) ∧ semi1.kind = lkSemicolon ∧
        (∀ c ∈ cond, c.Wf) ∧ semi2.kind = lkSemicolon ∧ (∀ s ∈ post, s.Wf ∧ s.isAssign = true) ∧
        rp.kind = lkRparen ∧ lb.kind = lkLbrace ∧ body.Wf true ∧ rb.kind = lkRbrace
  | .funStmt kw name lp ps rp lb body rb =>
      kw.kind = lkFun ∧ name.kind = lkIdent ∧ lp.kind = lkLparen ∧
        (∀ q ∈ ps, q.Wf ∧ q.names.Nodup) ∧ rp.kind = lkRparen ∧ lb.kind = lkLbrace ∧
        body.Wf false ∧ rb.kind = lkRbrace
  | .returnStmt kw e semi => kw.kind = lkReturn ∧ (∀ x ∈ e, x.Wf) ∧ semi.kind = lkSemicolon
  | .breakStmt kw semi => inLoop = true ∧ kw.kind = lkBreak ∧ semi.kind = lkSemicolon
  | .continueStmt kw semi => inLoop = true ∧ kw.kind = lkContinue ∧ semi.kind = lkSemicolon

/-- Well-formed statement sequences. -/
def Stmts.Wf [DeciBase] (inLoop : Bool) : Stmts → Prop
  | .nil => True
  | .cons s ss => s.Wf inLoop ∧ ss.Wf inLoop

/-- Well-formed further clauses. -/
def Else.Wf [DeciBase] (inLoop : Bool) : Else → Prop
  | .none => True
  | .elifClause kw lp c rp lb body rb rest =>
      kw.kind = lkElif ∧ lp.kind = lkLparen ∧ c.Wf ∧ rp.kind = lkRparen ∧ lb.kind = lkLbrace ∧
        body.Wf inLoop ∧ rb.kind = lkRbrace ∧ rest.Wf inLoop
  | .elseClause kw lb body rb =>
      kw.kind = lkElse ∧ lb.kind = lkLbrace ∧ body.Wf inLoop ∧ rb.kind = lkRbrace

end

end Calx
