import Calx.Lexemes
import Calx.WellFormed

/-!
# The levels of a tree

What the lexemes of a well-formed tree do to the level stack: they leave it as
it was, and every brace is pushed at the level of the role it has in the tree.

## Implementation notes

An expression never meets a waiting block keyword at its own depth, because
the parenthesis after the keyword is one level deeper.
-/

namespace Calx

open LexemeKind

/-! ## The level stack along lexemes -/

/-- `is_expr_context` says what the top of the stack is. -/
def LevelStack.Consistent (s : LevelStack) : Prop :=
  s.isExprContext = decide (s.data.head? = some .levelExpr)

/-- No block keyword is waiting at this depth. -/
def LevelStack.Settled (s : LevelStack) : Prop := s.blockyLevel < s.data.length

theorem consistent_new : levelStackNew.Consistent := rfl

theorem LevelStack.Consistent.push {s : LevelStack} (level : Level) :
    (levelStackPush s level).Consistent := by
  simp [levelStackPush, Consistent]

theorem LevelStack.Consistent.setBlocky {s : LevelStack} (h : s.Consistent) :
    (levelStackSetBlocky s).Consistent := h

theorem LevelStack.Consistent.pop {s : LevelStack} (h : s.Consistent) :
    (levelStackPop s).Consistent := by
  unfold levelStackPop
  split
  · exact h
  · rfl

theorem LevelStack.Consistent.step {s : LevelStack} (h : s.Consistent) (k : LexemeKind) :
    (levelStep s k).Consistent := by
  unfold levelStep
  split
  · exact .push _
  · exact .push _
  · exact h.pop
  · exact h.pop
  · exact h.pop
  · unfold levelStackPushBlocky
    split <;> exact .push _
  all_goals exact h

/-- A level that was pushed can be taken off. -/
theorem levelStackPop_push {s : LevelStack} (h : s.Consistent) (level : Level) :
    levelStackPop (levelStackPush s level) = s := by
  cases s
  simpa [levelStackPop, levelStackPush, LevelStack.Consistent, eq_comm] using h

/-- The level stack after the lexemes `ls`. -/
def levelsAfter (s : LevelStack) (ls : List Lexeme) : LevelStack :=
  ls.foldl (fun s l => levelStep s l.kind) s

/-- The braces among the lexemes `ls`, with whether they are pushed as blocks. -/
def braceLevels (s : LevelStack) : List Lexeme → List (Nat × Bool)
  | [] => []
  | l :: ls =>
      let t := levelStep s l.kind
      if l.kind = lkLbrace then (l.start, t.data.head? = some .levelStmt) :: braceLevels t ls
      else braceLevels t ls

theorem levelsAfter_append (s : LevelStack) (ls ls' : List Lexeme) :
    levelsAfter s (ls ++ ls') = levelsAfter (levelsAfter s ls) ls' :=
  List.foldl_append

theorem braceLevels_append (s : LevelStack) (ls ls' : List Lexeme) :
    braceLevels s (ls ++ ls') = braceLevels s ls ++ braceLevels (levelsAfter s ls) ls' := by
  induction ls generalizing s with
  | nil => rfl
  | cons l ls ih =>
      rw [List.cons_append, braceLevels, braceLevels]
      by_cases hk : l.kind = lkLbrace
      · simp only [hk, if_true, ih, levelsAfter, List.foldl_cons, List.cons_append]
      · simp only [hk, if_false, ih, levelsAfter, List.foldl_cons]

theorem levelsAfter_consistent {s : LevelStack} (h : s.Consistent) (ls : List Lexeme) :
    (levelsAfter s ls).Consistent := by
  induction ls generalizing s with
  | nil => exact h
  | cons l ls ih => exact ih (h.step l.kind)

theorem LevelStack.Settled.push {s : LevelStack} (h : s.Settled) (level : Level) :
    (levelStackPush s level).Settled := by
  simp only [LevelStack.Settled, levelStackPush, List.length_cons] at h ⊢
  omega

theorem settled_header (s : LevelStack) (level : Level) :
    (levelStackPush (levelStackSetBlocky s) level).Settled := by
  simp only [LevelStack.Settled, levelStackPush, levelStackSetBlocky, List.length_cons]
  omega

theorem settled_of_wait {s : LevelStack} (h : s.blockyLevel = -1) : s.Settled := by
  simp only [LevelStack.Settled, h]
  omega

/-! ## Lexemes of one kind -/

/-- The kinds of lexemes, strings apart, that leave the level stack alone. -/
def LexemeKind.isQuiet (k : LexemeKind) : Bool := k = lkSemicolon || (k.isPlain && k ≠ lkString)

theorem LexemeKind.ne_of_isQuiet {k k' : LexemeKind} (h : k.isQuiet = true)
    (h' : k'.isQuiet = false) : k ≠ k' := by
  rintro rfl
  rw [h] at h'
  cases h'

theorem isQuiet_of_unary {k : LexemeKind} (h : (unaryProps k).isSome = true) :
    k.isQuiet = true := by
  cases k <;> first | rfl | cases h

theorem isQuiet_of_binary {k : LexemeKind} (h : (binaryProps k).isSome = true) :
    k.isQuiet = true := by
  cases k <;> first | rfl | cases h

theorem isQuiet_of_assign {k : LexemeKind} (h : k.isAssign = true) : k.isQuiet = true := by
  cases k <;> first | rfl | cases h

theorem isQuiet_of_eq {k k' : LexemeKind} (h : k = k') (h' : k'.isQuiet = true) :
    k.isQuiet = true := h ▸ h'

/-! ## Pieces of a tree -/

section

variable [DeciBase]

/-- The lexemes `ls` lead from `s` to `t`, push their braces with the roles `bs` and hold no
string that has no value. -/
structure Leads (s : LevelStack) (ls : List Lexeme) (bs : List (Nat × Bool)) (t : LevelStack) :
    Prop where
  levels : levelsAfter s ls = t
  braces : braceLevels s ls = bs
  strings : ∀ l ∈ ls, l.kind = lkString → (litConst l).isSome = true

namespace Leads

variable {s t u : LevelStack} {l l' : Lexeme} {ls ls' : List Lexeme} {bs bs' : List (Nat × Bool)}

theorem nil (s : LevelStack) : Leads s [] [] s := ⟨rfl, rfl, by simp⟩

theorem append (h : Leads s ls bs t) (h' : Leads t ls' bs' u) :
    Leads s (ls ++ ls') (bs ++ bs') u := by
  constructor
  · rw [levelsAfter_append, h.levels, h'.levels]
  · rw [braceLevels_append, h.levels, h.braces, h'.braces]
  · exact List.forall_mem_append.mpr ⟨h.strings, h'.strings⟩

/-- A lexeme that is no opening brace. -/
theorem step (hk : l.kind ≠ lkLbrace) (ht : levelStep s l.kind = t)
    (hl : l.kind = lkString → (litConst l).isSome = true) (h : Leads t ls bs u) :
    Leads s (l :: ls) bs u := by
  constructor
  · rw [← h.levels, ← ht]
    rfl
  · rw [braceLevels, if_neg hk, ht, h.braces]
  · exact List.forall_mem_cons.mpr ⟨hl, h.strings⟩

theorem quiet (hk : l.kind.isQuiet = true) (h : Leads s ls bs t) : Leads s (l :: ls) bs t := by
  apply h.step
  · exact LexemeKind.ne_of_isQuiet hk rfl
  · revert hk
    cases l.kind <;> first | (intro; rfl) | (intro hk; cases hk)
  · intro hs
    exact absurd hs (LexemeKind.ne_of_isQuiet hk rfl)

theorem literal (hk : l.kind.isLiteral = true) (hl : (litConst l).isSome = true) :
    Leads s [l] [] s := by
  apply (nil s).step
  · intro hb
    rw [hb] at hk
    cases hk
  · revert hk
    cases l.kind <;> first | (intro; rfl) | (intro hk; cases hk)
  · exact fun _ => hl

/-- An opening brace. -/
theorem brace (hk : l.kind = lkLbrace) (block : Bool)
    (ht : levelStackPushBlocky s = levelStackPush t (if block then .levelStmt else .levelExpr))
    (h : Leads (levelStackPush t (if block then .levelStmt else .levelExpr)) ls bs u) :
    Leads s (l :: ls) ((l.start, block) :: bs) u := by
  have hs : levelStep s l.kind = levelStackPush t (if block then .levelStmt else .levelExpr) := by
    rw [hk, ← ht]
    rfl
  constructor
  · rw [← h.levels, ← hs]
    rfl
  · rw [braceLevels, if_pos hk, hs, h.braces]
    cases block <;> rfl
  · refine List.forall_mem_cons.mpr ⟨fun hl => ?_, h.strings⟩
    exact absurd (hk.symm.trans hl) (by decide)

/-- A closing bracket of any kind. -/
theorem close (hs : s.Consistent) {level : Level}
    (hk : l.kind = lkRparen ∨ l.kind = lkRbracket ∨ l.kind = lkRbrace) :
    Leads (levelStackPush s level) [l] [] s := by
  have hpop := levelStackPop_push hs level
  rcases hk with hk | hk | hk
  all_goals
    apply (nil s).step
    · rw [hk]
      decide
    · rw [hk]
      exact hpop
    · simp [hk]

/-- What stands between parentheses or brackets. -/
theorem bracket (hs : s.Consistent) (hl : l.kind = lkLparen ∨ l.kind = lkLbracket)
    (hr : l'.kind = lkRparen ∨ l'.kind = lkRbracket)
    (h : Leads (levelStackPush s .levelExpr) ls bs (levelStackPush s .levelExpr)) :
    Leads s (l :: (ls ++ [l'])) bs s := by
  have hclosed : Leads (levelStackPush s .levelExpr) (ls ++ [l']) bs s := by
    have := h.append (close hs (hr.imp_right Or.inl))
    rwa [List.append_nil] at this
  rcases hl with hl | hl
  all_goals
    apply hclosed.step
    · rw [hl]
      decide
    · rw [hl]
      rfl
    · simp [hl]

/-- What stands between the braces of a dict. -/
theorem dict (hs : s.Consistent) (hset : s.Settled) (hl : l.kind = lkLbrace)
    (hr : l'.kind = lkRbrace)
    (h : Leads (levelStackPush s .levelExpr) ls bs (levelStackPush s .levelExpr)) :
    Leads s (l :: (ls ++ [l'])) ((l.start, false) :: bs) s := by
  have hclosed := h.append (close hs (Or.inr (Or.inr hr)))
  rw [List.append_nil] at hclosed
  apply brace hl false _ hclosed
  exact if_neg hset.ne

/-- What stands between the braces of a block, after its keyword and header. -/
theorem block (hs : s.Consistent) (hwait : s.blockyLevel = -1) (hl : l.kind = lkLbrace)
    (hr : l'.kind = lkRbrace)
    (h : Leads (levelStackPush s .levelStmt) ls bs (levelStackPush s .levelStmt)) :
    Leads (levelStackSetBlocky s) (l :: (ls ++ [l'])) ((l.start, true) :: bs) s := by
  have hclosed := h.append (close hs (Or.inr (Or.inr hr)))
  rw [List.append_nil] at hclosed
  apply brace hl true _ hclosed
  have hs' : { levelStackSetBlocky s with blockyLevel := -1 } = s := by
    rw [← hwait]
    rfl
  calc
    levelStackPushBlocky (levelStackSetBlocky s) =
        levelStackPush { levelStackSetBlocky s with blockyLevel := -1 } .levelStmt := if_pos rfl
    _ = levelStackPush s .levelStmt := by rw [hs']

end Leads

/-- The kinds of the keywords before a block. -/
def LexemeKind.isBlocky (k : LexemeKind) : Prop :=
  k = lkFun ∨ k = lkIf ∨ k = lkElse ∨ k = lkElif ∨ k = lkFor ∨ k = lkWhile

theorem Leads.keyword {s t : LevelStack} {l : Lexeme} {ls : List Lexeme} {bs : List (Nat × Bool)}
    (hk : l.kind.isBlocky) (h : Leads (levelStackSetBlocky s) ls bs t) :
    Leads s (l :: ls) bs t := by
  rcases hk with hk | hk | hk | hk | hk | hk
  all_goals
    apply h.step
    · rw [hk]
      decide
    · rw [hk]
      rfl
    · simp [hk]

/-- A parenthesised header and its block. -/
theorem Leads.headed {s : LevelStack} {lp rp lb rb : Lexeme} {inner body : List Lexeme}
    {bs bs' : List (Nat × Bool)} (hs : s.Consistent) (hwait : s.blockyLevel = -1)
    (hlp : lp.kind = lkLparen) (hrp : rp.kind = lkRparen) (hlb : lb.kind = lkLbrace)
    (hrb : rb.kind = lkRbrace)
    (hinner : Leads (levelStackPush (levelStackSetBlocky s) .levelExpr) inner bs
      (levelStackPush (levelStackSetBlocky s) .levelExpr))
    (hbody : Leads (levelStackPush s .levelStmt) body bs' (levelStackPush s .levelStmt)) :
    Leads (levelStackSetBlocky s) (lp :: (inner ++ rp :: lb :: (body ++ [rb])))
      (bs ++ (lb.start, true) :: bs') s := by
  have hheader := Leads.bracket hs.setBlocky (Or.inl hlp) (Or.inl hrp) hinner
  have hblock := Leads.block hs hwait hlb hrb hbody
  have := hheader.append hblock
  rwa [List.cons_append, List.append_assoc, List.singleton_append] at this

/-! ## Trees -/

theorem Params.leads {s : LevelStack} : ∀ ps : Params, ps.Wf → Leads s ps.toks [] s
  | .last _, h => (Leads.nil s).quiet (isQuiet_of_eq h rfl)
  | .gather _ _, ⟨hstar, hname⟩ =>
      ((Leads.nil s).quiet (isQuiet_of_eq hname rfl)).quiet (isQuiet_of_eq hstar rfl)
  | .more _ _ ps, ⟨hname, hcomma, hps⟩ =>
      ((ps.leads hps).quiet (isQuiet_of_eq hcomma rfl)).quiet (isQuiet_of_eq hname rfl)

mutual

/-- An expression leaves the level stack alone, and its braces are those of dicts. -/
theorem Expr.leads : ∀ {s : LevelStack} (e : Expr), s.Consistent → s.Settled → e.Wf →
    Leads s e.toks e.braces s
  | s, .literal t, _, _, h => .literal h.1 h.2
  | s, .ident t, _, _, h => (Leads.nil s).quiet (isQuiet_of_eq h rfl)
  | _, .list0 lb rb, hs, _, ⟨hlb, hrb⟩ => .bracket hs (Or.inr hlb) (Or.inr hrb) (.nil _)
  | _, .list lb es rb, hs, hset, ⟨hlb, hes, hrb⟩ =>
      .bracket hs (Or.inr hlb) (Or.inr hrb) (es.leads none (.push _) (hset.push _) hes (by simp))
  | _, .dict0 lb rb, hs, hset, ⟨hlb, hrb⟩ => .dict hs hset hlb hrb (.nil _)
  | _, .dict lb kvs rb, hs, hset, ⟨hlb, hkvs, hrb⟩ =>
      .dict hs hset hlb hrb (kvs.leads (.push _) (hset.push _) hkvs)
  | _, .paren lp e rp, hs, hset, ⟨hlp, he, hrp⟩ =>
      .bracket hs (Or.inl hlp) (Or.inl hrp) (e.leads (.push _) (hset.push _) he)
  | _, .unary op e, hs, hset, ⟨hop, he⟩ =>
      (e.leads hs hset he).quiet (isQuiet_of_unary hop)
  | _, .binary l op r, hs, hset, ⟨hl, hop, hr⟩ =>
      (l.leads hs hset hl).append ((r.leads hs hset hr).quiet (isQuiet_of_binary hop))
  | _, .index e lb i rb, hs, hset, ⟨he, hlb, hi, hrb⟩ =>
      (e.leads hs hset he).append
        (.bracket hs (Or.inr hlb) (Or.inr hrb) (i.leads (.push _) (hset.push _) hi))
  | s, .field e dot name, hs, hset, ⟨he, hdot, hname⟩ => by
      have hrest := ((Leads.nil s).quiet (isQuiet_of_eq hname rfl)).quiet (isQuiet_of_eq hdot rfl)
      have := (e.leads hs hset he).append hrest
      rwa [List.append_nil] at this
  | s, .call0 f lp rp, hs, hset, ⟨hf, hlp, hrp⟩ => by
      have hargs : Leads s [lp, rp] [] s := .bracket hs (Or.inl hlp) (Or.inl hrp) (.nil _)
      have := (f.leads hs hset hf).append hargs
      rwa [List.append_nil] at this
  | _, .call f lp args star rp, hs, hset, ⟨hf, hlp, hargs, hstar, hrp⟩ =>
      (f.leads hs hset hf).append
        (.bracket hs (Or.inl hlp) (Or.inl hrp)
          (args.leads star (.push _) (hset.push _) hargs hstar))

/-- Expressions between commas, with `star` before the last one. -/
theorem Elems.leads : ∀ {s : LevelStack} (es : Elems) (star : Option Lexeme), s.Consistent →
    s.Settled → es.Wf → (∀ l ∈ star, l.kind = lkStar) → Leads s (es.toks star.toList) es.braces s
  | _, .last e, none, hs, hset, h, _ => e.leads hs hset h
  | _, .last e, some _, hs, hset, h, hstar =>
      (e.leads hs hset h).quiet (isQuiet_of_eq (hstar _ rfl) rfl)
  | _, .more e _ es, star, hs, hset, ⟨he, hcomma, hes⟩, hstar =>
      (e.leads hs hset he).append
        ((es.leads star hs hset hes hstar).quiet (isQuiet_of_eq hcomma rfl))

/-- Dict entries between commas. -/
theorem Entries.leads : ∀ {s : LevelStack} (kvs : Entries), s.Consistent → s.Settled → kvs.Wf →
    Leads s kvs.toks kvs.braces s
  | _, .last k _ v, hs, hset, ⟨hk, hcolon, hv⟩ =>
      (k.leads hs hset hk).append ((v.leads hs hset hv).quiet (isQuiet_of_eq hcolon rfl))
  | _, .more k _ v _ kvs, hs, hset, ⟨hk, hcolon, hv, hcomma, hkvs⟩ =>
      (k.leads hs hset hk).append
        (((v.leads hs hset hv).append
          ((kvs.leads hs hset hkvs).quiet (isQuiet_of_eq hcomma rfl))).quiet
            (isQuiet_of_eq hcolon rfl))

end

theorem Simple.leads {s : LevelStack} (hs : s.Consistent) (hset : s.Settled) :
    ∀ e : Simple, e.Wf → Leads s e.toks e.braces s
  | .expr e, h => e.leads hs hset h
  | .assign lhs _ rhs, ⟨hlhs, hop, hrhs, _⟩ =>
      (lhs.leads hs hset hlhs).append
        ((rhs.leads hs hset hrhs).quiet (isQuiet_of_assign hop))

theorem Simple.leads_opt {s : LevelStack} (hs : s.Consistent) (hset : s.Settled)
    (e : Option Simple) (h : ∀ x ∈ e, x.Wf) :
    Leads s ((e.map Simple.toks).getD []) ((e.map Simple.braces).getD []) s := by
  cases e with
  | none => exact .nil s
  | some e => exact e.leads hs hset (h e rfl)

theorem Expr.leads_opt {s : LevelStack} (hs : s.Consistent) (hset : s.Settled)
    (e : Option Expr) (h : ∀ x ∈ e, x.Wf) :
    Leads s ((e.map Expr.toks).getD []) ((e.map Expr.braces).getD []) s := by
  cases e with
  | none => exact .nil s
  | some e => exact e.leads hs hset (h e rfl)

mutual

/-- A statement leaves the level stack alone, and its braces have the roles of the tree. -/
theorem Stmt.leads : ∀ {s : LevelStack} {inLoop : Bool} (st : Stmt), s.Consistent →
    s.blockyLevel = -1 → st.Wf inLoop → Leads s st.toks st.braces s
  | s, _, .empty semi, _, _, h => (Leads.nil s).quiet (isQuiet_of_eq h rfl)
  | s, _, .simple e semi, hs, hw, ⟨he, hsemi⟩ => by
      have := (e.leads hs (settled_of_wait hw) he).append ((Leads.nil s).quiet (isQuiet_of_eq hsemi rfl))
      rwa [List.append_nil] at this
  | s, _, .ifStmt kw lp c rp lb body rb rest, hs, hw, ⟨hkw, hlp, hc, hrp, hlb, hbody, hrb, hrest⟩ => by
      have hclause := Leads.headed hs hw hlp hrp hlb hrb
        (c.leads (.push _) (settled_header s _) hc) (body.leads (.push _) hw hbody)
      have := (hclause.append (rest.leads hs hw hrest)).keyword (l := kw) (Or.inr (Or.inl hkw))
      simpa [Stmt.toks, Stmt.braces] using this
  | s, _, .whileStmt kw lp c rp lb body rb, hs, hw, ⟨hkw, hlp, hc, hrp, hlb, hbody, hrb⟩ =>
      (Leads.headed hs hw hlp hrp hlb hrb (c.leads (.push _) (settled_header s _) hc)
        (body.leads (.push _) hw hbody)).keyword
          (Or.inr (Or.inr (Or.inr (Or.inr (Or.inr hkw)))))
  | s, _, .forStmt kw lp pre semi1 cond semi2 post rp lb body rb, hs, hw,
      ⟨hkw, hlp, hpre, hsemi1, hcond, hsemi2, hpost, hrp, hlb, hbody, hrb⟩ => by
      have hset := settled_header s .levelExpr
      have hcs := LevelStack.Consistent.push (s := levelStackSetBlocky s) .levelExpr
      have hheader := (Simple.leads_opt hcs hset pre hpre).append
        (((Expr.leads_opt hcs hset cond hcond).append
          ((Simple.leads_opt hcs hset post fun x hx => (hpost x hx).1).quiet
            (isQuiet_of_eq hsemi2 rfl))).quiet (isQuiet_of_eq hsemi1 rfl))
      have := (Leads.headed hs hw hlp hrp hlb hrb hheader (body.leads (.push _) hw hbody)).keyword
        (l := kw) (Or.inr (Or.inr (Or.inr (Or.inr (Or.inl hkw)))))
      simpa [Stmt.toks, Stmt.braces] using this
  | s, _, .funStmt kw name lp ps rp lb body rb, hs, hw,
      ⟨hkw, hname, hlp, hps, hrp, hlb, hbody, hrb⟩ => by
      have hheader : Leads (levelStackPush (levelStackSetBlocky s) .levelExpr)
          ((ps.map Params.toks).getD []) []
          (levelStackPush (levelStackSetBlocky s) .levelExpr) := by
        cases ps with
        | none => exact .nil _
        | some ps => exact ps.leads (hps ps rfl).1
      exact ((Leads.headed hs hw hlp hrp hlb hrb hheader (body.leads (.push _) hw hbody)).quiet
        (isQuiet_of_eq hname rfl)).keyword (Or.inl hkw)
  | s, _, .returnStmt kw e semi, hs, hw, ⟨hkw, he, hsemi⟩ => by
      have := ((Expr.leads_opt hs (settled_of_wait hw) e he).append
        ((Leads.nil s).quiet (isQuiet_of_eq hsemi rfl))).quiet (isQuiet_of_eq hkw rfl)
      rwa [List.append_nil] at this
  | s, _, .breakStmt kw semi, _, _, ⟨_, hkw, hsemi⟩ =>
      ((Leads.nil s).quiet (isQuiet_of_eq hsemi rfl)).quiet (isQuiet_of_eq hkw rfl)
  | s, _, .continueStmt kw semi, _, _, ⟨_, hkw, hsemi⟩ =>
      ((Leads.nil s).quiet (isQuiet_of_eq hsemi rfl)).quiet (isQuiet_of_eq hkw rfl)

/-- A sequence of statements. -/
theorem Stmts.leads : ∀ {s : LevelStack} {inLoop : Bool} (ss : Stmts), s.Consistent →
    s.blockyLevel = -1 → ss.Wf inLoop → Leads s ss.toks ss.braces s
  | s, _, .nil, _, _, _ => .nil s
  | _, _, .cons st ss, hs, hw, ⟨hst, hss⟩ => (st.leads hs hw hst).append (ss.leads hs hw hss)

/-- The clauses after the first one. -/
theorem Else.leads : ∀ {s : LevelStack} {inLoop : Bool} (rest : Else), s.Consistent →
    s.blockyLevel = -1 → rest.Wf inLoop → Leads s rest.toks rest.braces s
  | s, _, .none, _, _, _ => .nil s
  | s, _, .elifClause kw lp c rp lb body rb rest, hs, hw,
      ⟨hkw, hlp, hc, hrp, hlb, hbody, hrb, hrest⟩ => by
      have hclause := Leads.headed hs hw hlp hrp hlb hrb
        (c.leads (.push _) (settled_header s _) hc) (body.leads (.push _) hw hbody)
      have := (hclause.append (rest.leads hs hw hrest)).keyword (l := kw)
        (Or.inr (Or.inr (Or.inr (Or.inl hkw))))
      simpa [Else.toks, Else.braces] using this
  | _, _, .elseClause kw lb body rb, hs, hw, ⟨hkw, hlb, hbody, hrb⟩ =>
      (Leads.block hs hw hlb hrb (body.leads (.push _) hw hbody)).keyword
        (Or.inr (Or.inr (Or.inl hkw)))

end

end

end Calx
