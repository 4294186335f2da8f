import Calx.WellFormed

/-!
# Grouping of operators

Where the operands of an expression stand in parentheses, given a table of
priorities, and what this says about the infix operators on its edges: which of
them the loop of `expr` takes in and where it stops.

## Implementation notes

A table gives the priority of an infix operator, with one if it groups from left
to right and zero if from right to left. What starts with a prefix operator needs
no parentheses below an infix operator, and does need them below a postfix one.
-/

namespace Calx

open LexemeKind Instr

/-! ## Tables -/

/-- A table of infix operators. -/
abbrev Priorities := LexemeKind → Option (Int × Int)

/-- The table of `binary_operator`. -/
def codePriorities : Priorities := fun k => (binaryProps k).map (·.2)

/-- The table of the documentation. -/
def documentedPriorities : Priorities
  | lkPlus | lkMinus => some (19, 1)
  | lkStar | lkSlash | lkSlashSlash | lkPercent => some (20, 1)
  | lkStarStar => some (21, 0)
  | lkOr => some (13, 1)
  | lkAnd => some (14, 1)
  | lkHat => some (15, 1)
  | lkLessLess | lkGreaterGreater => some (18, 1)
  | lkLess | lkLessEq | lkGreater | lkGreaterEq => some (17, 1)
  | lkTilde => some (10, 1)
  | lkOrOr => some (11, 1)
  | lkAndAnd => some (12, 1)
  | lkEqEq | lkBangEq => some (16, 1)
  | _ => none

theorem codePriorities_range {k : LexemeKind} {q : Int × Int} (h : codePriorities k = some q) :
    10 ≤ q.1 ∧ q.1 ≤ 21 ∧ (q.1 = 21 ↔ q.2 = 0) ∧ (q.2 = 0 ∨ q.2 = 1) := by
  cases k <;> simp only [codePriorities, binaryProps, Option.map_none, Option.map_some,
    Option.some.injEq, reduceCtorEq] at h <;> subst h <;> decide

theorem codePriorities_isSome (k : LexemeKind) :
    (codePriorities k).isSome = (binaryProps k).isSome := Option.isSome_map

theorem unaryProps_range {k : LexemeKind} {q : Instr × Int} (h : unaryProps k = some q) :
    50 ≤ q.2 := by
  cases k <;> simp only [unaryProps, Option.some.injEq, reduceCtorEq] at h <;> subst h <;> decide

/-! ## Groupings -/

/-- How tight the outermost operator of an expression binds. -/
def Expr.rank (tbl : Priorities) : Expr → Int
  | .binary _ op _ => ((tbl op.kind).map (·.1)).getD 0
  | .unary .. => 50
  | _ => 100

mutual

/-- An operand that binds less tightly than its operator wants stands in parentheses. -/
def Expr.Grouped (tbl : Priorities) : Expr → Prop
  | .literal _ | .ident _ | .list0 .. | .dict0 .. => True
  | .list _ es _ => es.Grouped tbl
  | .dict _ kvs _ => kvs.Grouped tbl
  | .paren _ e _ => e.Grouped tbl
  | .unary _ e => e.Grouped tbl ∧ 50 ≤ e.rank tbl
  | .binary l op r =>
      l.Grouped tbl ∧ r.Grouped tbl ∧
        ∀ q ∈ tbl op.kind, q.1 + 1 - q.2 ≤ l.rank tbl ∧ q.1 + q.2 ≤ r.rank tbl
  | .index e _ i _ => e.Grouped tbl ∧ 100 ≤ e.rank tbl ∧ i.Grouped tbl
  | .field e _ _ | .call0 e _ _ => e.Grouped tbl ∧ 100 ≤ e.rank tbl
  | .call f _ args _ _ => f.Grouped tbl ∧ 100 ≤ f.rank tbl ∧ args.Grouped tbl

/-- `Expr.Grouped` for every expression of a list. -/
def Elems.Grouped (tbl : Priorities) : Elems → Prop
  | .last e => e.Grouped tbl
  | .more e _ es => e.Grouped tbl ∧ es.Grouped tbl

/-- `Expr.Grouped` for every expression of some dict entries. -/
def Entries.Grouped (tbl : Priorities) : Entries → Prop
  | .last k _ v => k.Grouped tbl ∧ v.Grouped tbl
  | .more k _ v _ kvs => k.Grouped tbl ∧ v.Grouped tbl ∧ kvs.Grouped tbl

end

/-! ## Where an expression ends -/

/-- The loop of `expr` called with `min` stops at a lexeme of kind `k`. -/
def EndsAt (min : Int) (k : LexemeKind) : Prop :=
  exprEnd k = true ∨ ∃ q, codePriorities k = some q ∧ q.1 < min

theorem EndsAt.mono {min min' : Int} {k : LexemeKind} (h : EndsAt min k) (hle : min ≤ min') :
    EndsAt min' k := by
  obtain hk | ⟨q, hq, hlt⟩ := h
  · exact Or.inl hk
  · exact Or.inr ⟨q, hq, by omega⟩

/-- The infix operators on the left edge of an expression have at least the priority `min`. -/
def Expr.Above (min : Int) : Expr → Prop
  | .binary l op _ => (∀ q ∈ codePriorities op.kind, min ≤ q.1) ∧ l.Above min
  | _ => True

/-- No operator on the right edge of an expression takes in a lexeme of kind `k` behind it. -/
def Expr.EndsBefore (k : LexemeKind) : Expr → Prop
  | .binary _ op r => (∀ q ∈ codePriorities op.kind, EndsAt (q.1 + q.2) k) ∧ r.EndsBefore k
  | .unary op e => (∀ q ∈ unaryProps op.kind, EndsAt q.2 k) ∧ e.EndsBefore k
  | _ => True

theorem Expr.above_low : ∀ e : Expr, e.Above (-1)
  | .binary l op _ => by
      constructor
      · intro q hq
        have := codePriorities_range hq
        omega
      · exact l.above_low
  | .literal _ | .ident _ | .list0 .. | .list .. | .dict0 .. | .dict .. | .paren .. | .unary ..
  | .index .. | .field .. | .call0 .. | .call .. => trivial

theorem Expr.endsBefore_stop {k : LexemeKind} (hk : exprEnd k = true) : ∀ e : Expr, e.EndsBefore k
  | .binary _ _ r => ⟨fun _ _ => Or.inl hk, r.endsBefore_stop hk⟩
  | .unary _ e => ⟨fun _ _ => Or.inl hk, e.endsBefore_stop hk⟩
  | .literal _ | .ident _ | .list0 .. | .list .. | .dict0 .. | .dict .. | .paren ..
  | .index .. | .field .. | .call0 .. | .call .. => trivial

theorem Expr.rank_binary {tbl : Priorities} {l r : Expr} {op : Lexeme} {q : Int × Int}
    (h : tbl op.kind = some q) : (Expr.binary l op r).rank tbl = q.1 := by
  simp [Expr.rank, h]

section

variable [DeciBase]

/-- An operand that binds tightly enough has no loose operator on its left edge. -/
theorem Expr.above_of_rank {min : Int} : ∀ {e : Expr}, e.Wf → e.Grouped codePriorities →
    min ≤ e.rank codePriorities → e.Above min
  | .binary l op _, ⟨hwf, hop, _⟩, ⟨hl, _, hg⟩, hmin => by
      obtain ⟨q, hq⟩ := Option.isSome_iff_exists.mp ((codePriorities_isSome op.kind).trans hop)
      rw [Expr.rank_binary hq] at hmin
      constructor
      · intro q' hq'
        obtain rfl := Option.some.inj (hq.symm.trans hq')
        exact hmin
      · have h1 := (hg q hq).1
        have h2 := codePriorities_range hq
        exact Expr.above_of_rank hwf hl (by omega)
  | .literal _, _, _, _ | .ident _, _, _, _ | .list0 .., _, _, _ | .list .., _, _, _
  | .dict0 .., _, _, _ | .dict .., _, _, _ | .paren .., _, _, _ | .unary .., _, _, _
  | .index .., _, _, _ | .field .., _, _, _ | .call0 .., _, _, _ | .call .., _, _, _ => trivial

/-- A left operand that binds tightly enough ends before its operator. -/
theorem Expr.endsBefore_of_rank {k : LexemeKind} {q : Int × Int} (hk : codePriorities k = some q) :
    ∀ {e : Expr}, e.Wf → e.Grouped codePriorities → q.1 + 1 - q.2 ≤ e.rank codePriorities →
      e.EndsBefore k
  | .binary _ op r, ⟨_, hop, hwf⟩, ⟨_, hr, hg⟩, hmin => by
      obtain ⟨q', hq'⟩ := Option.isSome_iff_exists.mp ((codePriorities_isSome op.kind).trans hop)
      rw [Expr.rank_binary hq'] at hmin
      have h1 := (hg q' hq').2
      have h2 := codePriorities_range hk
      have h3 := codePriorities_range hq'
      constructor
      · intro q'' hq''
        obtain rfl := Option.some.inj (hq'.symm.trans hq'')
        exact Or.inr ⟨q, hk, by omega⟩
      · exact Expr.endsBefore_of_rank hk hwf hr (by omega)
  | .unary op e, ⟨_, hwf⟩, ⟨he, hrank⟩, _ => by
      have h2 := codePriorities_range hk
      constructor
      · intro q' hq'
        have := unaryProps_range hq'
        exact Or.inr ⟨q, hk, by omega⟩
      · exact Expr.endsBefore_of_rank hk hwf he (by omega)
  | .literal _, _, _, _ | .ident _, _, _, _ | .list0 .., _, _, _ | .list .., _, _, _
  | .dict0 .., _, _, _ | .dict .., _, _, _ | .paren .., _, _, _
  | .index .., _, _, _ | .field .., _, _, _ | .call0 .., _, _, _ | .call .., _, _, _ => trivial

end

/-- What binds as tightly as a prefix operator is no infix operation. -/
theorem Expr.above_of_prefix {e : Expr} (h : 50 ≤ e.rank codePriorities) (min : Int) :
    e.Above min := by
  cases e with
  | binary l op r =>
      cases hq : codePriorities op.kind with
      | none => simp [Expr.rank, hq] at h
      | some q =>
          rw [Expr.rank_binary hq] at h
          have := codePriorities_range hq
          omega
  | _ => trivial

/-- What a postfix operator may stand behind has no operator on its right edge. -/
theorem Expr.endsBefore_of_postfix {e : Expr} (h : 100 ≤ e.rank codePriorities)
    (k : LexemeKind) : e.EndsBefore k := by
  cases e with
  | binary l op r =>
      cases hq : codePriorities op.kind with
      | none => simp [Expr.rank, hq] at h
      | some q =>
          rw [Expr.rank_binary hq] at h
          have := codePriorities_range hq
          omega
  | unary op e => simp [Expr.rank] at h
  | _ => trivial

/-! ## Programs -/

section

variable [DeciBase]

/-- Well-formed expressions that are grouped as a table says. -/
def Expr.Proper (tbl : Priorities) (e : Expr) : Prop := e.Wf ∧ e.Grouped tbl

/-- The two sides of an assignment are grouped each on its own. -/
def Simple.Grouped (tbl : Priorities) : Simple → Prop
  | .expr e => e.Grouped tbl
  | .assign lhs _ rhs => lhs.Grouped tbl ∧ rhs.Grouped tbl

/-- Well-formed expressions and assignments that are grouped as a table says. -/
def Simple.Proper (tbl : Priorities) (s : Simple) : Prop := s.Wf ∧ s.Grouped tbl

mutual

/-- The statements of the documentation: as well-formed statements, except that the third clause
of a `for` header may be any expression or assignment. -/
def Stmt.Proper (tbl : Priorities) (inLoop : Bool) : Stmt → Prop
  | .empty semi => semi.kind = lkSemicolon
  | .simple s semi => s.Proper tbl ∧ semi.kind = lkSemicolon
  | .ifStmt kw lp c rp lb body rb rest =>
      kw.kind = lkIf ∧ lp.kind = lkLparen ∧ c.Proper tbl ∧ rp.kind = lkRparen ∧
        lb.kind = lkLbrace ∧ body.Proper tbl inLoop ∧ rb.kind = lkRbrace ∧ rest.Proper tbl inLoop
  | .whileStmt kw lp c rp lb body rb =>
      kw.kind = lkWhile ∧ lp.kind = lkLparen ∧ c.Proper tbl ∧ rp.kind = lkRparen ∧
        lb.kind = lkLbrace ∧ body.Proper tbl true ∧ rb.kind = lkRbrace
  | .forStmt kw lp pre semi1 cond semi2 post rp lb body rb =>
      kw.kind = lkFor ∧ lp.kind = lkLparen ∧ (∀ s ∈ pre, s.Proper tbl) ∧
        semi1.kind = lkSemicolon ∧ (∀ c ∈ cond, c.Proper tbl) ∧ semi2.kind = lkSemicolon ∧
        (∀ s ∈ post, s.Proper tbl) ∧ rp.kind = lkRparen ∧ lb.kind = lkLbrace ∧
        body.Proper tbl true ∧ rb.kind = lkRbrace
  | .funStmt kw name lp ps rp lb body rb =>
      kw.kind = lkFun ∧ name.kind = lkIdent ∧ lp.kind = lkLparen ∧
        (∀ q ∈ ps, q.Wf ∧ q.names.Nodup) ∧ rp.kind = lkRparen ∧ lb.kind = lkLbrace ∧
        body.Proper tbl false ∧ rb.kind = lkRbrace
  | .returnStmt kw e semi =>
      kw.kind = lkReturn ∧ (∀ x ∈ e, x.Proper tbl) ∧ semi.kind = lkSemicolon
  | .breakStmt kw semi => inLoop = true ∧ kw.kind = lkBreak ∧ semi.kind = lkSemicolon
  | .continueStmt kw semi => inLoop = true ∧ kw.kind = lkContinue ∧ semi.kind = lkSemicolon

/-- The statement sequences of the documentation. -/
def Stmts.Proper (tbl : Priorities) (inLoop : Bool) : Stmts → Prop
  | .nil => True
  | .cons s ss => s.Proper tbl inLoop ∧ ss.Proper tbl inLoop

/-- The further clauses of the documentation. -/
def Else.Proper (tbl : Priorities) (inLoop : Bool) : Else → Prop
  | .none => True
  | .elifClause kw lp c rp lb body rb rest =>
      kw.kind = lkElif ∧ lp.kind = lkLparen ∧ c.Proper tbl ∧ rp.kind = lkRparen ∧
        lb.kind = lkLbrace ∧ body.Proper tbl inLoop ∧ rb.kind = lkRbrace ∧ rest.Proper tbl inLoop
  | .elseClause kw lb body rb =>
      kw.kind = lkElse ∧ lb.kind = lkLbrace ∧ body.Proper tbl inLoop ∧ rb.kind = lkRbrace

end

end

end Calx
