import Calx.Delivers
import Calx.Limits
import Calx.Regroup

/-!
# Documented programs

Every program of the documented statement grammar, written on one line, is
accepted if and only if the third clauses of its `for` loops are no plain
expressions and its functions stay within the limits of the parser.

## Implementation notes

The parser reads another tree than the one that was written: `^` and `&` are
grouped by its own table, and every block ends with the empty statement of the
semicolon that the lexer inserts before its brace.
-/

namespace Calx

open LexemeKind Instr Fallible

/-! ## The tree that is read -/

/-- `Expr.regroup` for both sides of an assignment. -/
def Simple.regroup : Simple → Simple
  | .expr e => .expr e.regroup
  | .assign lhs op rhs => .assign lhs.regroup op rhs.regroup

/-- The empty statement of the semicolon that is inserted before a lexeme. -/
def sealOf (l : Lexeme) : Stmts := .cons (.empty l.semicolonBefore) .nil

mutual

/-- A statement as the parser reads it. -/
def Stmt.seen : Stmt → Stmt
  | .empty semi => .empty semi
  | .simple s semi => .simple s.regroup semi
  | .ifStmt kw lp c rp lb body rb rest =>
      .ifStmt kw lp c.regroup rp lb (body.seen (sealOf rb)) rb rest.seen
  | .whileStmt kw lp c rp lb body rb =>
      .whileStmt kw lp c.regroup rp lb (body.seen (sealOf rb)) rb
  | .forStmt kw lp pre semi1 cond semi2 post rp lb body rb =>
      .forStmt kw lp (pre.map Simple.regroup) semi1 (cond.map Expr.regroup) semi2
        (post.map Simple.regroup) rp lb (body.seen (sealOf rb)) rb
  | .funStmt kw name lp ps rp lb body rb =>
      .funStmt kw name lp ps rp lb (body.seen (sealOf rb)) rb
  | .returnStmt kw e semi => .returnStmt kw (e.map Expr.regroup) semi
  | .breakStmt kw semi => .breakStmt kw semi
  | .continueStmt kw semi => .continueStmt kw semi

/-- A statement sequence as the parser reads it, with the statements `last` behind it. -/
def Stmts.seen : Stmts → Stmts → Stmts
  | .nil, last => last
  | .cons s ss, last => .cons s.seen (ss.seen last)

/-- Further clauses as the parser reads them. -/
def Else.seen : Else → Else
  | .none => .none
  | .elifClause kw lp c rp lb body rb rest =>
      .elifClause kw lp c.regroup rp lb (body.seen (sealOf rb)) rb rest.seen
  | .elseClause kw lb body rb => .elseClause kw lb (body.seen (sealOf rb)) rb

end

/-- A program on a line as the parser reads it. -/
def Stmts.read (body : Stmts) : Stmts := body.seen (sealOf (lineEnd (lineOf body.toks).length))

theorem Stmts.seen_toks : ∀ ss last : Stmts,
    (ss.seen last).toks = (ss.seen .nil).toks ++ last.toks
  | .nil, _ => rfl
  | .cons s ss, last => by
      rw [Stmts.seen, Stmts.seen, Stmts.toks, Stmts.toks, ss.seen_toks last, List.append_assoc]

theorem Stmts.sealed_toks (ss : Stmts) (l : Lexeme) :
    (ss.seen (sealOf l)).toks = (ss.seen .nil).toks ++ [l.semicolonBefore] :=
  ss.seen_toks (sealOf l)

theorem Simple.regroup_toks : ∀ s : Simple, s.regroup.toks = s.toks
  | .expr e => e.regroup_toks
  | .assign lhs op rhs => by
      rw [Simple.regroup, Simple.toks, Simple.toks, lhs.regroup_toks, rhs.regroup_toks]

theorem Simple.regroup_optToks (s : Option Simple) :
    ((s.map Simple.regroup).map Simple.toks).getD [] = (s.map Simple.toks).getD [] := by
  cases s with
  | none => rfl
  | some s => exact s.regroup_toks

theorem Expr.regroup_optToks (e : Option Expr) :
    ((e.map Expr.regroup).map Expr.toks).getD [] = (e.map Expr.toks).getD [] := by
  cases e with
  | none => rfl
  | some e => exact e.regroup_toks

theorem Simple.regroup_isAssign (s : Simple) : s.regroup.isAssign = s.isAssign := by
  cases s <;> rfl

mutual

/-- The third clauses of the `for` loops are no plain expressions. -/
def Stmt.PostsAssign : Stmt → Prop
  | .ifStmt _ _ _ _ _ body _ rest => body.PostsAssign ∧ rest.PostsAssign
  | .whileStmt _ _ _ _ _ body _ | .funStmt _ _ _ _ _ _ body _ => body.PostsAssign
  | .forStmt _ _ _ _ _ _ post _ _ body _ => (∀ s ∈ post, s.isAssign = true) ∧ body.PostsAssign
  | .empty _ | .simple .. | .returnStmt .. | .breakStmt .. | .continueStmt .. => True

/-- `Stmt.PostsAssign` for every statement of a sequence. -/
def Stmts.PostsAssign : Stmts → Prop
  | .nil => True
  | .cons s ss => s.PostsAssign ∧ ss.PostsAssign

/-- `Stmt.PostsAssign` for further clauses. -/
def Else.PostsAssign : Else → Prop
  | .none => True
  | .elifClause _ _ _ _ _ body _ rest => body.PostsAssign ∧ rest.PostsAssign
  | .elseClause _ _ body _ => body.PostsAssign

end

section

variable [DeciBase]

theorem Simple.Proper.regroup : ∀ {s : Simple}, s.Proper documentedPriorities →
    s.regroup.Proper codePriorities
  | .expr _, h => Expr.Proper.regroup h
  | .assign lhs op rhs, ⟨⟨hlhs, hop, hrhs, htarget⟩, hl, hr⟩ => by
      obtain ⟨hwfl, hgl⟩ := Expr.Proper.regroup ⟨hlhs, hl⟩
      obtain ⟨hwfr, hgr⟩ := Expr.Proper.regroup ⟨hrhs, hr⟩
      exact ⟨⟨hwfl, hop, hwfr, Expr.regroup_target htarget⟩, hgl, hgr⟩

/-! ## Lexemes -/

theorem Simple.delivers_opt {s : LevelStack} (hs : s.Consistent) (hset : s.Settled)
    {tbl : Priorities} (e : Option Simple) (h : ∀ x ∈ e, x.Proper tbl) :
    Delivers s ((e.map Simple.toks).getD []) ((e.map Simple.toks).getD []) s := by
  cases e with
  | none => exact .nil s
  | some e => exact e.delivers hs hset (h e rfl).1

theorem Expr.delivers_opt {s : LevelStack} (hs : s.Consistent) (hset : s.Settled)
    {tbl : Priorities} (e : Option Expr) (h : ∀ x ∈ e, x.Proper tbl) :
    Delivers s ((e.map Expr.toks).getD []) ((e.map Expr.toks).getD []) s := by
  cases e with
  | none => exact .nil s
  | some e => exact e.delivers hs hset (h e rfl).1

mutual

/-- The lexer delivers the lexemes of the tree that is read. -/
theorem Stmt.delivers : ∀ {s : LevelStack} {b : Bool} (st : Stmt), s.Consistent →
    s.blockyLevel = -1 → st.Proper documentedPriorities b → Delivers s st.toks st.seen.toks s
  | s, _, .empty semi, _, _, h => (Delivers.nil s).quiet (isQuiet_of_eq h rfl)
  | s, _, .simple e semi, hs, hw, ⟨he, hsemi⟩ => by
      rw [Stmt.seen, Stmt.toks, Stmt.toks, e.regroup_toks]
      exact (e.delivers hs (settled_of_wait hw) he.1).append
        ((Delivers.nil s).quiet (isQuiet_of_eq hsemi rfl))
  | s, _, .ifStmt kw lp c rp lb body rb rest, hs, hw,
      ⟨hkw, hlp, hc, hrp, hlb, hbody, hrb, hrest⟩ => by
      have hclause := Delivers.headed hs hw hlp hrp hlb hrb
        (c.delivers (.push _) (settled_header s _) hc.1) (body.delivers (.push _) hw hbody)
      have := (hclause.append (rest.delivers hs hw hrest)).keyword (l := kw) (Or.inr (Or.inl hkw))
      simpa [Stmt.toks, Stmt.seen, body.sealed_toks, c.regroup_toks] using this
  | s, _, .whileStmt kw lp c rp lb body rb, hs, hw, ⟨hkw, hlp, hc, hrp, hlb, hbody, hrb⟩ => by
      have := (Delivers.headed hs hw hlp hrp hlb hrb
        (c.delivers (.push _) (settled_header s _) hc.1) (body.delivers (.push _) hw hbody)).keyword
          (l := kw) (Or.inr (Or.inr (Or.inr (Or.inr (Or.inr hkw)))))
      simpa [Stmt.toks, Stmt.seen, body.sealed_toks, c.regroup_toks] using this
  | s, _, .forStmt kw lp pre semi1 cond semi2 post rp lb body rb, hs, hw,
      ⟨hkw, hlp, hpre, hsemi1, hcond, hsemi2, hpost, hrp, hlb, hbody, hrb⟩ => by
      have hset := settled_header s .levelExpr
      have hcs := LevelStack.Consistent.push (s := levelStackSetBlocky s) .levelExpr
      have hheader := (Simple.delivers_opt hcs hset pre hpre).append
        (((Expr.delivers_opt hcs hset cond hcond).append
          ((Simple.delivers_opt hcs hset post hpost).quiet
            (isQuiet_of_eq hsemi2 rfl))).quiet (isQuiet_of_eq hsemi1 rfl))
      have := (Delivers.headed hs hw hlp hrp hlb hrb hheader
        (body.delivers (.push _) hw hbody)).keyword
          (l := kw) (Or.inr (Or.inr (Or.inr (Or.inr (Or.inl hkw)))))
      simpa only [Stmt.toks, Stmt.seen, body.sealed_toks, Simple.regroup_optToks,
        Expr.regroup_optToks, List.append_assoc, List.cons_append, List.nil_append] using this
  | s, _, .funStmt kw name lp ps rp lb body rb, hs, hw,
      ⟨hkw, hname, hlp, hps, hrp, hlb, hbody, hrb⟩ => by
      have hheader : Delivers (levelStackPush (levelStackSetBlocky s) .levelExpr)
          ((ps.map Params.toks).getD []) ((ps.map Params.toks).getD [])
          (levelStackPush (levelStackSetBlocky s) .levelExpr) := by
        cases ps with
        | none => exact .nil _
        | some ps => exact ps.delivers (hps ps rfl).1
      have := ((Delivers.headed hs hw hlp hrp hlb hrb hheader
        (body.delivers (.push _) hw hbody)).quiet (isQuiet_of_eq hname rfl)).keyword
          (l := kw) (Or.inl hkw)
      simpa [Stmt.toks, Stmt.seen, body.sealed_toks] using this
  | s, _, .returnStmt kw e semi, hs, hw, ⟨hkw, he, hsemi⟩ => by
      rw [Stmt.seen, Stmt.toks, Stmt.toks, Expr.regroup_optToks]
      exact ((Expr.delivers_opt hs (settled_of_wait hw) e he).append
        ((Delivers.nil s).quiet (isQuiet_of_eq hsemi rfl))).quiet (isQuiet_of_eq hkw rfl)
  | s, _, .breakStmt kw semi, _, _, ⟨_, hkw, hsemi⟩ =>
      ((Delivers.nil s).quiet (isQuiet_of_eq hsemi rfl)).quiet (isQuiet_of_eq hkw rfl)
  | s, _, .continueStmt kw semi, _, _, ⟨_, hkw, hsemi⟩ =>
      ((Delivers.nil s).quiet (isQuiet_of_eq hsemi rfl)).quiet (isQuiet_of_eq hkw rfl)

/-- A sequence of statements. -/
theorem Stmts.delivers : ∀ {s : LevelStack} {b : Bool} (ss : Stmts), s.Consistent →
    s.blockyLevel = -1 → ss.Proper documentedPriorities b →
      Delivers s ss.toks (ss.seen .nil).toks s
  | s, _, .nil, _, _, _ => .nil s
  | _, _, .cons st ss, hs, hw, ⟨hst, hss⟩ =>
      (st.delivers hs hw hst).append (ss.delivers hs hw hss)

/-- The clauses after the first one. -/
theorem Else.delivers : ∀ {s : LevelStack} {b : Bool} (rest : Else), s.Consistent →
    s.blockyLevel = -1 → rest.Proper documentedPriorities b →
      Delivers s rest.toks rest.seen.toks s
  | s, _, .none, _, _, _ => .nil s
  | s, _, .elifClause kw lp c rp lb body rb rest, hs, hw,
      ⟨hkw, hlp, hc, hrp, hlb, hbody, hrb, hrest⟩ => by
      have hclause := Delivers.headed hs hw hlp hrp hlb hrb
        (c.delivers (.push _) (settled_header s _) hc.1) (body.delivers (.push _) hw hbody)
      have := (hclause.append (rest.delivers hs hw hrest)).keyword (l := kw)
        (Or.inr (Or.inr (Or.inr (Or.inl hkw))))
      simpa [Else.toks, Else.seen, body.sealed_toks, c.regroup_toks] using this
  | s, _, .elseClause kw lb body rb, hs, hw, ⟨hkw, hlb, hbody, hrb⟩ => by
      have := (Delivers.block hs hw hlb hrb (body.delivers (.push _) hw hbody)).keyword
        (l := kw) (Or.inr (Or.inr (Or.inl hkw)))
      simpa [Else.toks, Else.seen, body.sealed_toks] using this

end

/-! ## The grammar of the parser -/

theorem sealOf_proper (tbl : Priorities) (b : Bool) (l : Lexeme) : (sealOf l).Proper tbl b :=
  ⟨rfl, trivial⟩

theorem sealOf_wf (b : Bool) (l : Lexeme) : (sealOf l).Wf b := ⟨rfl, trivial⟩

theorem Simple.proper_regroup {s : Option Simple}
    (h : ∀ x ∈ s, x.Proper documentedPriorities) :
    ∀ x ∈ s.map Simple.regroup, x.Proper codePriorities := by
  cases s with
  | none => simp
  | some s =>
      rintro x ⟨⟩
      exact (h s rfl).regroup

theorem Expr.proper_regroup {e : Option Expr} (h : ∀ x ∈ e, x.Proper documentedPriorities) :
    ∀ x ∈ e.map Expr.regroup, x.Proper codePriorities := by
  cases e with
  | none => simp
  | some e =>
      rintro x ⟨⟩
      exact (h e rfl).regroup

mutual

/-- The statements that are read are grouped as the table of the parser says. -/
theorem Stmt.seen_proper : ∀ {b : Bool} (st : Stmt), st.Proper documentedPriorities b →
    st.seen.Proper codePriorities b
  | _, .empty _, h => h
  | _, .simple _ _, ⟨he, hsemi⟩ => ⟨he.regroup, hsemi⟩
  | _, .ifStmt _ _ _ _ _ body _ rest, ⟨hkw, hlp, hc, hrp, hlb, hbody, hrb, hrest⟩ =>
      ⟨hkw, hlp, hc.regroup, hrp, hlb, body.seen_proper _ hbody (sealOf_proper _ _ _), hrb,
        rest.seen_proper hrest⟩
  | _, .whileStmt _ _ _ _ _ body _, ⟨hkw, hlp, hc, hrp, hlb, hbody, hrb⟩ =>
      ⟨hkw, hlp, hc.regroup, hrp, hlb, body.seen_proper _ hbody (sealOf_proper _ _ _), hrb⟩
  | _, .forStmt _ _ _ _ _ _ _ _ _ body _,
      ⟨hkw, hlp, hpre, hsemi1, hcond, hsemi2, hpost, hrp, hlb, hbody, hrb⟩ =>
      ⟨hkw, hlp, Simple.proper_regroup hpre, hsemi1, Expr.proper_regroup hcond, hsemi2,
        Simple.proper_regroup hpost, hrp, hlb, body.seen_proper _ hbody (sealOf_proper _ _ _),
        hrb⟩
  | _, .funStmt _ _ _ _ _ _ body _, ⟨hkw, hname, hlp, hps, hrp, hlb, hbody, hrb⟩ =>
      ⟨hkw, hname, hlp, hps, hrp, hlb, body.seen_proper _ hbody (sealOf_proper _ _ _), hrb⟩
  | _, .returnStmt _ _ _, ⟨hkw, he, hsemi⟩ => ⟨hkw, Expr.proper_regroup he, hsemi⟩
  | _, .breakStmt _ _, h => h
  | _, .continueStmt _ _, h => h

theorem Stmts.seen_proper : ∀ {b : Bool} (ss last : Stmts), ss.Proper documentedPriorities b →
    last.Proper codePriorities b → (ss.seen last).Proper codePriorities b
  | _, .nil, _, _, hlast => hlast
  | _, .cons s ss, last, ⟨hs, hss⟩, hlast => ⟨s.seen_proper hs, ss.seen_proper last hss hlast⟩

theorem Else.seen_proper : ∀ {b : Bool} (rest : Else), rest.Proper documentedPriorities b →
    rest.seen.Proper codePriorities b
  | _, .none, _ => trivial
  | _, .elifClause _ _ _ _ _ body _ rest, ⟨hkw, hlp, hc, hrp, hlb, hbody, hrb, hrest⟩ =>
      ⟨hkw, hlp, hc.regroup, hrp, hlb, body.seen_proper _ hbody (sealOf_proper _ _ _), hrb,
        rest.seen_proper hrest⟩
  | _, .elseClause _ _ body _, ⟨hkw, hlb, hbody, hrb⟩ =>
      ⟨hkw, hlb, body.seen_proper _ hbody (sealOf_proper _ _ _), hrb⟩

end

/-- A third clause is accepted if and only if it is empty or an assignment. -/
theorem Simple.post_wf {s : Option Simple} (h : ∀ x ∈ s, x.Proper documentedPriorities) :
    (∀ x ∈ s.map Simple.regroup, x.Wf ∧ x.isAssign = true) ↔ ∀ x ∈ s, x.isAssign = true := by
  cases s with
  | none => simp
  | some s =>
      have hwf := (Simple.Proper.regroup (h s rfl)).1
      simp [hwf, s.regroup_isAssign]

mutual

/-- A documented statement is read as a well-formed one if and only if the third clauses of its
`for` loops are no plain expressions. -/
theorem Stmt.seen_wf : ∀ {b : Bool} (st : Stmt), st.Proper documentedPriorities b →
    (st.seen.Wf b ↔ st.PostsAssign)
  | _, .empty _, h => iff_of_true h trivial
  | _, .simple _ _, ⟨he, hsemi⟩ => iff_of_true ⟨he.regroup.1, hsemi⟩ trivial
  | _, .ifStmt _ _ c _ _ body rb rest, ⟨hkw, hlp, hc, hrp, hlb, hbody, hrb, hrest⟩ => by
      have hbody' := body.seen_wf (sealOf rb) hbody (sealOf_wf _ rb)
      have hrest' := rest.seen_wf hrest
      have hc' := (Expr.Proper.regroup hc).1
      simp only [Stmt.seen, Stmt.Wf, Stmt.PostsAssign, hkw, hlp, hc', hrp, hlb, hrb, hbody',
        hrest', true_and]
  | _, .whileStmt _ _ c _ _ body rb, ⟨hkw, hlp, hc, hrp, hlb, hbody, hrb⟩ => by
      have hbody' := body.seen_wf (sealOf rb) hbody (sealOf_wf _ rb)
      have hc' := (Expr.Proper.regroup hc).1
      simp only [Stmt.seen, Stmt.Wf, Stmt.PostsAssign, hkw, hlp, hc', hrp, hlb, hrb, hbody',
        true_and, and_true]
  | _, .forStmt _ _ pre _ cond _ post _ _ body rb,
      ⟨hkw, hlp, hpre, hsemi1, hcond, hsemi2, hpost, hrp, hlb, hbody, hrb⟩ => by
      have hbody' := body.seen_wf (sealOf rb) hbody (sealOf_wf _ rb)
      have hpre' : ∀ x ∈ pre.map Simple.regroup, x.Wf := fun x hx =>
        (Simple.proper_regroup hpre x hx).1
      have hcond' : ∀ x ∈ cond.map Expr.regroup, x.Wf := fun x hx =>
        (Expr.proper_regroup hcond x hx).1
      have hpost' := Simple.post_wf hpost
      constructor
      · rintro ⟨-, -, -, -, -, -, h1, -, -, h2, -⟩
        exact ⟨hpost'.mp h1, hbody'.mp h2⟩
      · rintro ⟨h1, h2⟩
        exact ⟨hkw, hlp, hpre', hsemi1, hcond', hsemi2, hpost'.mpr h1, hrp, hlb, hbody'.mpr h2,
          hrb⟩
  | _, .funStmt _ _ _ _ _ _ body rb, ⟨hkw, hname, hlp, hps, hrp, hlb, hbody, hrb⟩ => by
      have hbody' := body.seen_wf (sealOf rb) hbody (sealOf_wf _ rb)
      constructor
      · rintro ⟨-, -, -, -, -, -, h, -⟩
        exact hbody'.mp h
      · intro h
        exact ⟨hkw, hname, hlp, hps, hrp, hlb, hbody'.mpr h, hrb⟩
  | _, .returnStmt _ _ _, ⟨hkw, he, hsemi⟩ =>
      iff_of_true ⟨hkw, fun x hx => (Expr.proper_regroup he x hx).1, hsemi⟩ trivial
  | _, .breakStmt _ _, h => iff_of_true h trivial
  | _, .continueStmt _ _, h => iff_of_true h trivial

theorem Stmts.seen_wf : ∀ {b : Bool} (ss last : Stmts), ss.Proper documentedPriorities b →
    last.Wf b → ((ss.seen last).Wf b ↔ ss.PostsAssign)
  | _, .nil, _, _, hlast => iff_of_true hlast trivial
  | _, .cons s ss, last, ⟨hs, hss⟩, hlast =>
      and_congr (s.seen_wf hs) (ss.seen_wf last hss hlast)

theorem Else.seen_wf : ∀ {b : Bool} (rest : Else), rest.Proper documentedPriorities b →
    (rest.seen.Wf b ↔ rest.PostsAssign)
  | _, .none, _ => Iff.rfl
  | _, .elifClause _ _ c _ _ body rb rest, ⟨hkw, hlp, hc, hrp, hlb, hbody, hrb, hrest⟩ => by
      have hbody' := body.seen_wf (sealOf rb) hbody (sealOf_wf _ rb)
      have hrest' := rest.seen_wf hrest
      have hc' := (Expr.Proper.regroup hc).1
      simp only [Else.seen, Else.Wf, Else.PostsAssign, hkw, hlp, hc', hrp, hlb, hrb, hbody',
        hrest', true_and]
  | _, .elseClause _ _ body rb, ⟨hkw, hlb, hbody, hrb⟩ => by
      have hbody' := body.seen_wf (sealOf rb) hbody (sealOf_wf _ rb)
      simp only [Else.seen, Else.Wf, Else.PostsAssign, hkw, hlb, hrb, hbody', true_and, and_true]

end

/-! ## Programs -/

end

/-- Below the function the shifted count misses the operands of the call and falls below zero. -/
example : ∃ e, @parse deciBase64 []
    (bytesOf "for ( ; ; i = i + 1 ) \x7b fun f ( ) \x7b \x7d ; a ( b , c ) ; \x7d") "" =
      .error e := ⟨_, rfl⟩

end Calx
