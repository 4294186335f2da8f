import Calx.Parser

/-!
# Syntax trees

The programs `parse.c` recognises, as trees whose leaves are the lexemes they
consist of, and the reading of a tree back into its lexemes.

## Implementation notes

The trees are not part of the source. They are the abstract description of
what the one-pass parser has consumed: every accepting run is shown elsewhere
to follow exactly one of them.
-/

namespace Calx

open LexemeKind Instr

mutual

/-- Expressions. Parentheses are kept, so that a tree spells out its lexemes. -/
inductive Expr
  | literal (tok : Lexeme)
  | ident (tok : Lexeme)
  | list0 (lb rb : Lexeme)
  | list (lb : Lexeme) (es : Elems) (rb : Lexeme)
  | dict0 (lb rb : Lexeme)
  | dict (lb : Lexeme) (kvs : Entries) (rb : Lexeme)
  | paren (lp : Lexeme) (e : Expr) (rp : Lexeme)
  | unary (op : Lexeme) (e : Expr)
  | binary (l : Expr) (op : Lexeme) (r : Expr)
  | index (e : Expr) (lb : Lexeme) (i : Expr) (rb : Lexeme)
  | field (e : Expr) (dot name : Lexeme)
  | call0 (f : Expr) (lp rp : Lexeme)
  | call (f : Expr) (lp : Lexeme) (args : Elems) (star : Option Lexeme) (rp : Lexeme)

/-- Non-empty comma-separated expressions. -/
inductive Elems
  | last (e : Expr)
  | more (e : Expr) (comma : Lexeme) (es : Elems)

/-- Non-empty comma-separated dict entries. -/
inductive Entries
  | last (k : Expr) (colon : Lexeme) (v : Expr)
  | more (k : Expr) (colon : Lexeme) (v : Expr) (comma : Lexeme) (kvs : Entries)

end

/-- An expression or an assignment, as they stand before `;` and in a `for` header. -/
inductive Simple
  | expr (e : Expr)
  | assign (lhs : Expr) (op : Lexeme) (rhs : Expr)

/-- Non-empty parameter lists. -/
inductive Params
  | last (name : Lexeme)
  | gather (star name : Lexeme)
  | more (name comma : Lexeme) (ps : Params)

mutual

/-- Statements. -/
inductive Stmt
  | empty (semi : Lexeme)
  | simple (s : Simple) (semi : Lexeme)
  | ifStmt (kw lp : Lexeme) (c : Expr) (rp lb : Lexeme) (body : Stmts) (rb : Lexeme) (rest : Else)
  | whileStmt (kw lp : Lexeme) (c : Expr) (rp lb : Lexeme) (body : Stmts) (rb : Lexeme)
  | forStmt (kw lp : Lexeme) (pre : Option Simple) (semi1 : Lexeme) (cond : Option Expr)
      (semi2 : Lexeme) (post : Option Simple) (rp lb : Lexeme) (body : Stmts) (rb : Lexeme)
  | funStmt (kw name lp : Lexeme) (ps : Option Params) (rp lb : Lexeme) (body : Stmts)
      (rb : Lexeme)
  | returnStmt (kw : Lexeme) (e : Option Expr) (semi : Lexeme)
  | breakStmt (kw semi : Lexeme)
  | continueStmt (kw semi : Lexeme)

/-- Statement sequences. -/
inductive Stmts
  | nil
  | cons (s : Stmt) (ss : Stmts)

/-- What may follow the first clause of an `if` statement. -/
inductive Else
  | none
  | elifClause (kw lp : Lexeme) (c : Expr) (rp lb : Lexeme) (body : Stmts) (rb : Lexeme)
      (rest : Else)
  | elseClause (kw lb : Lexeme) (body : Stmts) (rb : Lexeme)

end

/-! ## Lexemes of a tree -/

mutual

/-- The lexemes an expression consists of. -/
def Expr.toks : Expr → List Lexeme
  | .literal t | .ident t => [t]
  | .list0 lb rb | .dict0 lb rb => [lb, rb]
  | .list lb es rb => lb :: (es.toks [] ++ [rb])
  | .dict lb kvs rb => lb :: (kvs.toks ++ [rb])
  | .paren lp e rp => lp :: (e.toks ++ [rp])
  | .unary op e => op :: e.toks
  | .binary l op r => l.toks ++ op :: r.toks
  | .index e lb i rb => e.toks ++ lb :: (i.toks ++ [rb])
  | .field e dot name => e.toks ++ [dot, name]
  | .call0 f lp rp => f.toks ++ [lp, rp]
  | .call f lp args star rp => f.toks ++ lp :: (args.toks star.toList ++ [rp])

/-- The lexemes of a list of expressions, with `star` before the last one. -/
def Elems.toks (star : List Lexeme) : Elems → List Lexeme
  | .last e => star ++ e.toks
  | .more e comma es => e.toks ++ comma :: es.toks star

/-- The lexemes of a list of dict entries. -/
def Entries.toks : Entries → List Lexeme
  | .last k colon v => k.toks ++ colon :: v.toks
  | .more k colon v comma kvs => k.toks ++ colon :: (v.toks ++ comma :: kvs.toks)

end

/-- The lexemes of an expression or assignment. -/
def Simple.toks : Simple → List Lexeme
  | .expr e => e.toks
  | .assign lhs op rhs => lhs.toks ++ op :: rhs.toks

/-- The lexemes of a parameter list. -/
def Params.toks : Params → List Lexeme
  | .last name => [name]
  | .gather star name => [star, name]
  | .more name comma ps => name :: comma :: ps.toks

mutual

/-- The lexemes of a statement. -/
def Stmt.toks : Stmt → List Lexeme
  | .empty semi => [semi]
  | .simple s semi => s.toks ++ [semi]
  | .ifStmt kw lp c rp lb body rb rest =>
      kw :: lp :: (c.toks ++ rp :: lb :: (body.toks ++ rb :: rest.toks))
  | .whileStmt kw lp c rp lb body rb =>
      kw :: lp :: (c.toks ++ rp :: lb :: (body.toks ++ [rb]))
  | .forStmt kw lp pre semi1 cond semi2 post rp lb body rb =>
      kw :: lp :: ((pre.map Simple.toks).getD [] ++ semi1 ::
        ((cond.map Expr.toks).getD [] ++ semi2 ::
          ((post.map Simple.toks).getD [] ++ rp :: lb :: (body.toks ++ [rb]))))
  | .funStmt kw name lp ps rp lb body rb =>
      kw :: name :: lp :: ((ps.map Params.toks).getD [] ++ rp :: lb :: (body.toks ++ [rb]))
  | .returnStmt kw e semi => kw :: ((e.map Expr.toks).getD [] ++ [semi])
  | .breakStmt kw semi | .continueStmt kw semi => [kw, semi]

/-- The lexemes of a statement sequence. -/
def Stmts.toks : Stmts → List Lexeme
  | .nil => []
  | .cons s ss => s.toks ++ ss.toks

/-- The lexemes of the clauses after the first one. -/
def Else.toks : Else → List Lexeme
  | .none => []
  | .elifClause kw lp c rp lb body rb rest =>
      kw :: lp :: (c.toks ++ rp :: lb :: (body.toks ++ rb :: rest.toks))
  | .elseClause kw lb body rb => kw :: lb :: (body.toks ++ [rb])

end

/-! ## Braces -/

mutual

/-- The dict braces of an expression, in order; `false` marks a brace that is no block. -/
def Expr.braces : Expr → List (Nat × Bool)
  | .literal _ | .ident _ | .list0 .. => []
  | .list _ es _ => es.braces
  | .dict0 lb _ => [(lb.start, false)]
  | .dict lb kvs _ => (lb.start, false) :: kvs.braces
  | .paren _ e _ => e.braces
  | .unary _ e => e.braces
  | .binary l _ r => l.braces ++ r.braces
  | .index e _ i _ => e.braces ++ i.braces
  | .field e _ _ => e.braces
  | .call0 f _ _ => f.braces
  | .call f _ args _ _ => f.braces ++ args.braces

/-- The dict braces of a list of expressions. -/
def Elems.braces : Elems → List (Nat × Bool)
  | .last e => e.braces
  | .more e _ es => e.braces ++ es.braces

/-- The dict braces of a list of dict entries. -/
def Entries.braces : Entries → List (Nat × Bool)
  | .last k _ v => k.braces ++ v.braces
  | .more k _ v _ kvs => k.braces ++ (v.braces ++ kvs.braces)

end

/-- The dict braces of an expression or assignment. -/
def Simple.braces : Simple → List (Nat × Bool)
  | .expr e => e.braces
  | .assign lhs _ rhs => lhs.braces ++ rhs.braces

mutual

/-- The braces of a statement, in order, with the role each plays. -/
def Stmt.braces : Stmt → List (Nat × Bool)
  | .empty _ | .breakStmt .. | .continueStmt .. => []
  | .simple s _ => s.braces
  | .ifStmt _ _ c _ lb body _ rest =>
      c.braces ++ (lb.start, true) :: (body.braces ++ rest.braces)
  | .whileStmt _ _ c _ lb body _ => c.braces ++ (lb.start, true) :: body.braces
  | .forStmt _ _ pre _ cond _ post _ lb body _ =>
      (pre.map Simple.braces).getD [] ++ ((cond.map Expr.braces).getD [] ++
        ((post.map Simple.braces).getD [] ++ (lb.start, true) :: body.braces))
  | .funStmt _ _ _ _ _ lb body _ => (lb.start, true) :: body.braces
  | .returnStmt _ e _ => (e.map Expr.braces).getD []

/-- The braces of a statement sequence. -/
def Stmts.braces : Stmts → List (Nat × Bool)
  | .nil => []
  | .cons s ss => s.braces ++ ss.braces

/-- The braces of the clauses after the first one. -/
def Else.braces : Else → List (Nat × Bool)
  | .none => []
  | .elifClause _ _ c _ lb body _ rest =>
      c.braces ++ (lb.start, true) :: (body.braces ++ rest.braces)
  | .elseClause _ lb body _ => (lb.start, true) :: body.braces

end

/-! ## Names and functions of a tree -/

/-- The name of an expression that is an identifier, in parentheses or not. -/
def Expr.name? : Expr → Option Bytes
  | .ident t => some t.text
  | .paren _ e _ => e.name?
  | _ => none

/-- The `:=` target of an expression or assignment. -/
def Simple.decls : Simple → List Bytes
  | .assign lhs op _ => if op.kind = lkColonEq then lhs.name?.toList else []
  | .expr _ => []

/-- The names of a parameter list, and whether the last one gathers. -/
def Params.names : Params → List Bytes
  | .last name | .gather _ name => [name.text]
  | .more name _ ps => name.text :: ps.names

/-- Whether the last parameter gathers. -/
def Params.gathers : Params → Bool
  | .last _ => false
  | .gather _ _ => true
  | .more _ _ ps => ps.gathers

mutual

/-- The `:=` targets of a statement in the order of the source, nested functions left out. -/
def Stmt.decls : Stmt → List Bytes
  | .empty _ | .breakStmt .. | .continueStmt .. | .returnStmt .. | .funStmt .. => []
  | .simple s _ => s.decls
  | .ifStmt _ _ _ _ _ body _ rest => body.decls ++ rest.decls
  | .whileStmt _ _ _ _ _ body _ => body.decls
  | .forStmt _ _ pre _ _ _ post _ _ body _ =>
      (pre.map Simple.decls).getD [] ++ ((post.map Simple.decls).getD [] ++ body.decls)

/-- The `:=` targets of a statement sequence. -/
def Stmts.decls : Stmts → List Bytes
  | .nil => []
  | .cons s ss => s.decls ++ ss.decls

/-- The `:=` targets of the clauses after the first one. -/
def Else.decls : Else → List Bytes
  | .none => []
  | .elifClause _ _ _ _ _ body _ rest => body.decls ++ rest.decls
  | .elseClause _ _ body _ => body.decls

end

mutual

/-- Whether a statement defines a function at the level of the function it belongs to. -/
def Stmt.hasFun : Stmt → Bool
  | .funStmt .. => true
  | .ifStmt _ _ _ _ _ body _ rest => body.hasFun || rest.hasFun
  | .whileStmt _ _ _ _ _ body _ => body.hasFun
  | .forStmt _ _ _ _ _ _ _ _ _ body _ => body.hasFun
  | _ => false

/-- Whether some statement of a sequence defines a function. -/
def Stmts.hasFun : Stmts → Bool
  | .nil => false
  | .cons s ss => s.hasFun || ss.hasFun

/-- Whether some clause after the first one defines a function. -/
def Else.hasFun : Else → Bool
  | .none => false
  | .elifClause _ _ _ _ _ body _ rest => body.hasFun || rest.hasFun
  | .elseClause _ _ body _ => body.hasFun

end

mutual

/-- Whether a function is defined inside the body of a `for` loop with a non-empty third
clause, both at the level of the function the statement belongs to. -/
def Stmt.postedFun : Stmt → Bool
  | .ifStmt _ _ _ _ _ body _ rest => body.postedFun || rest.postedFun
  | .whileStmt _ _ _ _ _ body _ => body.postedFun
  | .forStmt _ _ _ _ _ _ post _ _ body _ => (post.isSome && body.hasFun) || body.postedFun
  | _ => false

/-- `postedFun` for a statement sequence. -/
def Stmts.postedFun : Stmts → Bool
  | .nil => false
  | .cons s ss => s.postedFun || ss.postedFun

/-- `postedFun` for the clauses after the first one. -/
def Else.postedFun : Else → Bool
  | .none => false
  | .elifClause _ _ _ _ _ body _ rest => body.postedFun || rest.postedFun
  | .elseClause _ _ body _ => body.postedFun

end

end Calx
