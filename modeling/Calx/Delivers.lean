import Calx.Line
import Calx.ParseExact

/-!
# The lexemes of trees on a line

What the lexer delivers for the lexemes of a tree: those of an expression as they
are, those of a statement with a semicolon in front of the closing brace of every
block.

## Implementation notes

This goes through a tree as the levels do. The closing brace of a dict is passed at
`LEVEL_EXPR`, that of a block at `LEVEL_STMT`.
-/

namespace Calx

open LexemeKind

section

variable {s t u : LevelStack} {l l' : Lexeme} {ls ls' out out' : List Lexeme}

/-- The lexemes `ls` lead from `s` to `t`, and the lexer delivers `out` for them. -/
structure Delivers (s : LevelStack) (ls out : List Lexeme) (t : LevelStack) : Prop where
  levels : levelsAfter s ls = t
  lexemes : delivered s ls = out

namespace Delivers

theorem nil (s : LevelStack) : Delivers s [] [] s := ⟨rfl, rfl⟩

theorem append (h : Delivers s ls out t) (h' : Delivers t ls' out' u) :
    Delivers s (ls ++ ls') (out ++ out') u := by
  constructor
  · rw [levelsAfter_append, h.levels, h'.levels]
  · rw [delivered_append, h.lexemes, h.levels, h'.lexemes]

/-- A lexeme that no semicolon is inserted before. -/
theorem step (hk : l.kind = lkRbrace → s.isExprContext = true) (ht : levelStep s l.kind = t)
    (h : Delivers t ls out u) : Delivers s (l :: ls) (l :: out) u := by
  have hnot : ¬ (l.kind = lkRbrace ∧ s.isExprContext = false) := by
    rintro ⟨hb, hc⟩
    rw [hk hb] at hc
    cases hc
  constructor
  · rw [← h.levels, ← ht]
    rfl
  · rw [delivered, if_neg hnot, ht, h.lexemes]

theorem quiet (hk : l.kind.isQuiet = true) (h : Delivers s ls out t) :
    Delivers s (l :: ls) (l :: out) t := by
  apply h.step
  · intro hb
    exact absurd hb (LexemeKind.ne_of_isQuiet hk rfl)
  · revert hk
    cases l.kind <;> first | (intro; rfl) | (intro hk; cases hk)

theorem literal (hk : l.kind.isLiteral = true) : Delivers s [l] [l] s := by
  apply (nil s).step
  · intro hb
    rw [hb] at hk
    cases hk
  · revert hk
    cases l.kind <;> first | (intro; rfl) | (intro hk; cases hk)

theorem keyword (hk : l.kind.isBlocky) (h : Delivers (levelStackSetBlocky s) ls out t) :
    Delivers s (l :: ls) (l :: out) t := by
  rcases hk with hk | hk | hk | hk | hk | hk
  all_goals
    apply h.step
    · rw [hk]
      intro hb
      cases hb
    · rw [hk]
      rfl

/-- A closing bracket at `LEVEL_EXPR`. -/
theorem close (hs : s.Consistent)
    (hk : l.kind = lkRparen ∨ l.kind = lkRbracket ∨ l.kind = lkRbrace) :
    Delivers (levelStackPush s .levelExpr) [l] [l] s := by
  have hpop := levelStackPop_push hs .levelExpr
  rcases hk with hk | hk | hk
  all_goals
    apply (nil s).step
    · exact fun _ => rfl
    · rw [hk]
      exact hpop

/-- What stands between parentheses or brackets. -/
theorem bracket (hs : s.Consistent) (hl : l.kind = lkLparen ∨ l.kind = lkLbracket)
    (hr : l'.kind = lkRparen ∨ l'.kind = lkRbracket)
    (h : Delivers (levelStackPush s .levelExpr) ls out (levelStackPush s .levelExpr)) :
    Delivers s (l :: (ls ++ [l'])) (l :: (out ++ [l'])) s := by
  have hclosed := h.append (close hs (hr.imp_right Or.inl))
  rcases hl with hl | hl
  all_goals
    apply hclosed.step
    · rw [hl]
      intro hb
      cases hb
    · rw [hl]
      rfl

/-- What stands between the braces of a dict. -/
theorem dict (hs : s.Consistent) (hset : s.Settled) (hl : l.kind = lkLbrace)
    (hr : l'.kind = lkRbrace)
    (h : Delivers (levelStackPush s .levelExpr) ls out (levelStackPush s .levelExpr)) :
    Delivers s (l :: (ls ++ [l'])) (l :: (out ++ [l'])) s := by
  have hclosed := h.append (close hs (Or.inr (Or.inr hr)))
  apply hclosed.step
  · rw [hl]
    intro hb
    cases hb
  · rw [hl]
    exact if_neg hset.ne

/-- What stands between the braces of a block, after its keyword and header. -/
theorem block (hs : s.Consistent) (hwait : s.blockyLevel = -1) (hl : l.kind = lkLbrace)
    (hr : l'.kind = lkRbrace)
    (h : Delivers (levelStackPush s .levelStmt) ls out (levelStackPush s .levelStmt)) :
    Delivers (levelStackSetBlocky s) (l :: (ls ++ [l']))
      (l :: (out ++ [l'.semicolonBefore, l'])) s := by
  have hlast : Delivers (levelStackPush s .levelStmt) [l'] [l'.semicolonBefore, l'] s := by
    have hpop : levelStep (levelStackPush s .levelStmt) l'.kind = s := by
      rw [hr]
      exact levelStackPop_push hs .levelStmt
    constructor
    · exact hpop
    · rw [delivered, if_pos ⟨hr, rfl⟩]
      rfl
  apply (h.append hlast).step
  · rw [hl]
    intro hb
    cases hb
  · rw [hl]
    have hs' : { levelStackSetBlocky s with blockyLevel := -1 } = s := by
      rw [← hwait]
      rfl
    calc
      levelStackPushBlocky (levelStackSetBlocky s) =
          levelStackPush { levelStackSetBlocky s with blockyLevel := -1 } .levelStmt := if_pos rfl
      _ = levelStackPush s .levelStmt := by rw [hs']

/-- A parenthesised header and its block. -/
theorem headed {lp rp lb rb : Lexeme} {inner body : List Lexeme} (hs : s.Consistent)
    (hwait : s.blockyLevel = -1) (hlp : lp.kind = lkLparen) (hrp : rp.kind = lkRparen)
    (hlb : lb.kind = lkLbrace) (hrb : rb.kind = lkRbrace)
    (hinner : Delivers (levelStackPush (levelStackSetBlocky s) .levelExpr) inner inner
      (levelStackPush (levelStackSetBlocky s) .levelExpr))
    (hbody : Delivers (levelStackPush s .levelStmt) body out (levelStackPush s .levelStmt)) :
    Delivers (levelStackSetBlocky s) (lp :: (inner ++ rp :: lb :: (body ++ [rb])))
      (lp :: (inner ++ rp :: lb :: (out ++ [rb.semicolonBefore, rb]))) s := by
  have hheader := bracket hs.setBlocky (Or.inl hlp) (Or.inl hrp) hinner
  have hblock := block hs hwait hlb hrb hbody
  have := hheader.append hblock
  simpa using this

end Delivers

end

/-! ## Expressions -/

theorem Params.delivers {s : LevelStack} : ∀ ps : Params, ps.Wf → Delivers s ps.toks ps.toks s
  | .last _, h => (Delivers.nil s).quiet (isQuiet_of_eq h rfl)
  | .gather _ _, ⟨hstar, hname⟩ =>
      ((Delivers.nil s).quiet (isQuiet_of_eq hname rfl)).quiet (isQuiet_of_eq hstar rfl)
  | .more _ _ ps, ⟨hname, hcomma, hps⟩ =>
      ((ps.delivers hps).quiet (isQuiet_of_eq hcomma rfl)).quiet (isQuiet_of_eq hname rfl)

section

variable [DeciBase]

mutual

/-- No semicolon is inserted in an expression. -/
theorem Expr.delivers : ∀ {s : LevelStack} (e : Expr), s.Consistent → s.Settled → e.Wf →
    Delivers s e.toks e.toks s
  | _, .literal _, _, _, h => .literal h.1
  | s, .ident _, _, _, h => (Delivers.nil s).quiet (isQuiet_of_eq h rfl)
  | _, .list0 _ _, hs, _, ⟨hlb, hrb⟩ => .bracket hs (Or.inr hlb) (Or.inr hrb) (.nil _)
  | _, .list _ es _, hs, hset, ⟨hlb, hes, hrb⟩ =>
      .bracket hs (Or.inr hlb) (Or.inr hrb)
        (es.delivers none (.push _) (hset.push _) hes (by simp))
  | _, .dict0 _ _, hs, hset, ⟨hlb, hrb⟩ => .dict hs hset hlb hrb (.nil _)
  | _, .dict _ kvs _, hs, hset, ⟨hlb, hkvs, hrb⟩ =>
      .dict hs hset hlb hrb (kvs.delivers (.push _) (hset.push _) hkvs)
  | _, .paren _ e _, hs, hset, ⟨hlp, he, hrp⟩ =>
      .bracket hs (Or.inl hlp) (Or.inl hrp) (e.delivers (.push _) (hset.push _) he)
  | _, .unary _ e, hs, hset, ⟨hop, he⟩ => (e.delivers hs hset he).quiet (isQuiet_of_unary hop)
  | _, .binary l _ r, hs, hset, ⟨hl, hop, hr⟩ =>
      (l.delivers hs hset hl).append ((r.delivers hs hset hr).quiet (isQuiet_of_binary hop))
  | _, .index e _ i _, hs, hset, ⟨he, hlb, hi, hrb⟩ =>
      (e.delivers hs hset he).append
        (.bracket hs (Or.inr hlb) (Or.inr hrb) (i.delivers (.push _) (hset.push _) hi))
  | s, .field e _ _, hs, hset, ⟨he, hdot, hname⟩ =>
      (e.delivers hs hset he).append
        (((Delivers.nil s).quiet (isQuiet_of_eq hname rfl)).quiet (isQuiet_of_eq hdot rfl))
  | _, .call0 f _ _, hs, hset, ⟨hf, hlp, hrp⟩ =>
      (f.delivers hs hset hf).append (.bracket hs (Or.inl hlp) (Or.inl hrp) (.nil _))
  | _, .call f _ args star _, hs, hset, ⟨hf, hlp, hargs, hstar, hrp⟩ =>
      (f.delivers hs hset hf).append
        (.bracket hs (Or.inl hlp) (Or.inl hrp)
          (args.delivers star (.push _) (hset.push _) hargs hstar))

/-- Expressions between commas, with `star` before the last one. -/
theorem Elems.delivers : ∀ {s : LevelStack} (es : Elems) (star : Option Lexeme), s.Consistent →
    s.Settled → es.Wf → (∀ l ∈ star, l.kind = lkStar) →
      Delivers s (es.toks star.toList) (es.toks star.toList) s
  | _, .last e, none, hs, hset, h, _ => e.delivers hs hset h
  | _, .last e, some _, hs, hset, h, hstar =>
      (e.delivers hs hset h).quiet (isQuiet_of_eq (hstar _ rfl) rfl)
  | _, .more e _ es, star, hs, hset, ⟨he, hcomma, hes⟩, hstar =>
      (e.delivers hs hset he).append
        ((es.delivers star hs hset hes hstar).quiet (isQuiet_of_eq hcomma rfl))

/-- Dict entries between commas. -/
theorem Entries.delivers : ∀ {s : LevelStack} (kvs : Entries), s.Consistent → s.Settled →
    kvs.Wf → Delivers s kvs.toks kvs.toks s
  | _, .last k _ v, hs, hset, ⟨hk, hcolon, hv⟩ =>
      (k.delivers hs hset hk).append ((v.delivers hs hset hv).quiet (isQuiet_of_eq hcolon rfl))
  | _, .more k _ v _ kvs, hs, hset, ⟨hk, hcolon, hv, hcomma, hkvs⟩ =>
      (k.delivers hs hset hk).append
        (((v.delivers hs hset hv).append
          ((kvs.delivers hs hset hkvs).quiet (isQuiet_of_eq hcomma rfl))).quiet
            (isQuiet_of_eq hcolon rfl))

end

theorem Simple.delivers {s : LevelStack} (hs : s.Consistent) (hset : s.Settled) :
    ∀ e : Simple, e.Wf → Delivers s e.toks e.toks s
  | .expr e, h => e.delivers hs hset h
  | .assign lhs _ rhs, ⟨hlhs, hop, hrhs, _⟩ =>
      (lhs.delivers hs hset hlhs).append
        ((rhs.delivers hs hset hrhs).quiet (isQuiet_of_assign hop))

/-! ## Lines that are parsed -/

/-- The semicolon that is inserted at the end of a line. -/
def endSemicolon (ls : List Lexeme) : Lexeme := (lineEnd (lineOf ls).length).semicolonBefore

end

end Calx
