import Calx.ExprSound
import Calx.Compiles

/-!
# Expression statements and assignments

`expr_or_assignment` takes back the load that its left-hand side ends with and
emits the store or the modification of the same target after the right-hand
side.
-/

namespace Calx

open LexemeKind Instr

section

variable [DeciBase]

theorem Expr.code_ne_nil : ∀ e : Expr, e.code ≠ []
  | .paren _ e _ => e.code_ne_nil
  | .literal _ | .ident _ | .list0 .. | .list .. | .dict0 .. | .dict .. | .unary .. | .binary ..
  | .index .. | .field .. | .call0 .. | .call .. => by simp [Expr.code]

/-- An expression ends with the load of a name iff it is that name. -/
theorem Expr.lastInstr_eq_load {x : Bytes} : ∀ e : Expr, e.lastInstr = .load x ↔ e.name? = some x
  | .paren _ e _ => e.lastInstr_eq_load
  | .ident _ => by simp [Expr.lastInstr, Expr.code, Expr.name?]
  | .literal _ | .list0 .. | .list .. | .dict0 .. | .dict .. | .unary .. | .binary ..
  | .index .. | .field .. | .call0 .. | .call .. => by
      simp [Expr.lastInstr, Expr.code, Expr.name?]

theorem Expr.code_eq_dropLast_append (e : Expr) :
    ∃ r, e.code = e.code.dropLast ++ [r] ∧ r.instr = e.lastInstr ∧ r.own = true ∧
      r.instr.isStraight = true := by
  have hne := e.code_ne_nil
  have hs := e.code_straight _ (List.getLast_mem hne)
  refine ⟨e.code.getLast hne, (List.dropLast_append_getLast hne).symm, ?_, hs.1, hs.2⟩
  simp [Expr.lastInstr, List.getLast?_eq_getLast_of_ne_nil hne]

end

theorem unemit_ok {p q : Parser} {ts : List Lexeme} {items : List Item} {r : Item}
    {br : List (Nat × Bool)} (h : Emits p ts (items ++ [r]) br q) :
    DenI q.tables (unemit q).1 r.instr ∧ Emits p ts items br (unemit q).2 := by
  obtain ⟨new, hn, hd⟩ := h.prog
  obtain ⟨new, l, rfl, hd', hl⟩ := forall₂_append_right hd
  obtain ⟨ti, l', hti, hl', rfl⟩ := List.forall₂_cons_right_iff.mp hl
  obtain rfl := List.forall₂_nil_right_iff.mp hl'
  have hu : unemit q = (ti.instr, { q with prog := p.prog ++ new }) := by
    simp [unemit, hn, ← List.append_assoc]
  rw [hu]
  exact ⟨hti.instr, h.toks, ⟨new, rfl, hd'⟩, h.consts, h.idents, h.braces, h.frame⟩

/-- The load a symbolic instruction stands for. -/
theorem DenI.load_inv {T : Tables} {c : Nat} {a : AInstr} (h : DenI T (opLoadSymbolic c) a)
    (ha : a.isStraight = true) : ∃ x, a = .load x ∧ T.idents[c]? = some x := by
  cases h with
  | plain h => simp [Instr.isPlain] at h
  | load h => exact ⟨_, rfl, h⟩
  | loadSome => simp [AInstr.isStraight] at ha

theorem DenI.loadAt_inv {T : Tables} {a : AInstr} (h : DenI T opLoadAt a) :
    a = .plain opLoadAt := by
  cases h
  rfl

section

variable [DeciBase] {expr : Int → Parser → Res Parser}

/-- A `:=` store makes its target a local. -/
theorem storeNew_compiles (p : Parser) (x : Bytes) (l : Lexeme) :
    Compiles p ⟨[], [.mine (.storeNew x) l.tag], [true], [], [x], []⟩
      (emitAt (setLocals p (putName (locals p) x).2) (opStoreLocal (putName (locals p) x).1) l) where
  toks := rfl
  prog := ⟨[⟨opStoreLocal (putName (locals p) x).1, l.tag⟩], rfl,
    .cons ⟨rfl, .storeNew (putName_getElem? _ _)⟩ .nil⟩
  consts := List.prefix_rfl
  idents := List.prefix_rfl
  globals := List.prefix_rfl
  shapes := List.prefix_rfl
  scopes ns sc hp := by simp [emitAt, emitAtLine, setLocals, locals, hp, putNames]
  ranges := covers_same (n := 1) rfl (by simp [here, emitAt, emitAtLine, setLocals])
  mask := rfl
  stackIf := rfl
  stackBreak := rfl
  stackContinue := rfl
  braces := (List.append_nil _).symm
  closes := ⟨[], (List.append_nil _).symm, .nil⟩

/-- The piece of an expression or assignment before the lexeme `next`. -/
def Simple.piece (next : Lexeme) (s : Simple) : Piece :=
  ⟨s.toks, s.code next, flags (s.code next), s.braces, s.decls, []⟩

/-- An assignment with `=` or `:=`. -/
theorem assign_ok {p q q' : Parser} {e r : Expr} {op : Lexeme} {i i' : Instr}
    (hk : op.kind = lkEq ∨ op.kind = lkColonEq) (he : e.Wf) (hr : r.Wf)
    (hE : Emits p (e.toks ++ op :: r.toks) (e.code.dropLast ++ r.code) (e.braces ++ r.braces) q)
    (hi : DenI q.tables i e.lastInstr) (hst : e.lastInstr.isStraight = true)
    (h : loadToStore q i (op.kind = lkColonEq) op = .ok (i', q')) (next : Lexeme) :
    (Simple.assign e op r).Wf ∧
      Compiles p ((Simple.assign e op r).piece next) (emitAt q' i' op) := by
  have hop : op.kind.isAssign = true := by
    rcases hk with hk | hk <;> simp [LexemeKind.isAssign, hk]
  have hstr : Straight (e.code.dropLast ++ r.code) := by
    simp [e.code_straight.dropLast, r.code_straight]
  unfold loadToStore at h
  split at h
  · rename_i c
    obtain ⟨x, hx, hc⟩ := hi.load_inv hst
    have hget : q.idents.getD c [] = x := by
      have : q.idents[c]? = some x := hc
      simp [List.getD, this]
    simp only [hget] at h
    split at h
    · rename_i hce
      simp only [decide_eq_true_eq] at hce
      simp only [Except.ok.injEq, Prod.mk.injEq] at h
      obtain ⟨rfl, rfl⟩ := h
      refine ⟨⟨he, hop, hr, by simp [hx, assignInstr, hce]⟩, ?_⟩
      have hn : e.name? = some x := e.lastInstr_eq_load.mp hx
      have := (hE.compiles hstr.unopened).trans (storeNew_compiles q x op)
      simpa [Piece.append, Piece.emitted, Simple.piece, Simple.toks, Simple.code, Simple.braces,
        Simple.decls, hx, assignInstr, hce, hn] using this
    · rename_i hce
      simp only [decide_eq_true_eq] at hce
      have heq := hk.resolve_right hce
      simp only [Except.ok.injEq, Prod.mk.injEq] at h
      obtain ⟨rfl, rfl⟩ := h
      refine ⟨⟨he, hop, hr, by simp [hx, assignInstr, heq]⟩, ?_⟩
      have := (hE.trans (emitAt_emits q op (.store hc))).compiles
        (hstr.snoc rfl).unopened
      simpa [Piece.emitted, Simple.piece, Simple.toks, Simple.code, Simple.braces, Simple.decls, hx,
        assignInstr, heq] using this
  · have hx := hi.loadAt_inv
    split at h
    · simp [throwErrAt] at h
    · rename_i hce
      simp only [decide_eq_true_eq] at hce
      have heq := hk.resolve_right hce
      simp only [Except.ok.injEq, Prod.mk.injEq] at h
      obtain ⟨rfl, rfl⟩ := h
      refine ⟨⟨he, hop, hr, by simp [hx, assignInstr, heq]⟩, ?_⟩
      have := (hE.trans (emitAt_emits q (i := opStoreAt) op (.plain rfl))).compiles
        (hstr.snoc rfl).unopened
      simpa [Piece.emitted, Simple.piece, Simple.toks, Simple.code, Simple.braces, Simple.decls, hx,
        assignInstr, heq] using this
  · simp [throwErrAt] at h

/-- A compound assignment. -/
theorem modify_ok {p q : Parser} {e r : Expr} {op : Lexeme} {i i' : Instr} {aop : Aop}
    (hk : opAssignProps op.kind = some aop) (he : e.Wf) (hr : r.Wf)
    (hE : Emits p (e.toks ++ op :: r.toks) (e.code.dropLast ++ r.code) (e.braces ++ r.braces) q)
    (hi : DenI q.tables i e.lastInstr) (hst : e.lastInstr.isStraight = true)
    (h : loadToModify i aop op = .ok i') (next : Lexeme) :
    (Simple.assign e op r).Wf ∧ Compiles p ((Simple.assign e op r).piece next) (emitAt q i' op) := by
  have hop : op.kind.isAssign = true := by simp [LexemeKind.isAssign, hk]
  have heq : op.kind ≠ lkEq := by
    rintro heq
    simp [heq, opAssignProps] at hk
  have hce : op.kind ≠ lkColonEq := by
    rintro heq
    simp [heq, opAssignProps] at hk
  have hstr : Straight (e.code.dropLast ++ r.code) := by
    simp [e.code_straight.dropLast, r.code_straight]
  unfold loadToModify at h
  split at h
  · obtain ⟨x, hx, hc⟩ := hi.load_inv hst
    obtain rfl := Except.ok.inj h
    refine ⟨⟨he, hop, hr, by simp [hx, assignInstr, heq, hce, hk]⟩, ?_⟩
    have := (hE.trans (emitAt_emits q op (.modify (a := aop) hc))).compiles
      (hstr.snoc rfl).unopened
    simpa [Piece.emitted, Simple.piece, Simple.toks, Simple.code, Simple.braces, Simple.decls, hx,
      assignInstr, heq, hce, hk] using this
  · have hx := hi.loadAt_inv
    obtain rfl := Except.ok.inj h
    refine ⟨⟨he, hop, hr, by simp [hx, assignInstr, heq, hce, hk]⟩, ?_⟩
    have := (hE.trans (emitAt_emits q (i := opModifyAt aop) op (.plain rfl))).compiles
      (hstr.snoc rfl).unopened
    simpa [Piece.emitted, Simple.piece, Simple.toks, Simple.code, Simple.braces, Simple.decls, hx,
      assignInstr, heq, hce, hk] using this
  · simp [throwErrAt] at h

/-- The right-hand side of an assignment, after the load of its target has been taken back. -/
theorem rhs_built {p q q₁ q₂ : Parser} {e r : Expr} {op : Lexeme} (he : Built p e q)
    (ha : Emits (unemit q).2 [op] [] [] q₁) (hr : Built q₁ r q₂) :
    DenI q₂.tables (unemit q).1 e.lastInstr ∧ e.lastInstr.isStraight = true ∧
      Emits p (e.toks ++ op :: r.toks) (e.code.dropLast ++ r.code) (e.braces ++ r.braces) q₂ := by
  obtain ⟨l, hl, hli, -, hls⟩ := e.code_eq_dropLast_append
  have hem := he.emits
  rw [hl] at hem
  obtain ⟨hi, hu⟩ := unemit_ok hem
  have ha := ha.trans hr.emits
  refine ⟨hli ▸ hi.mono ha.tables_le, hli ▸ hls, ?_⟩
  simpa using hu.trans ha

theorem rhs_ok (hx : ExprSound expr) {p q q₁ q₂ : Parser} {e : Expr} (he : Built p e q)
    (hne : q.cur.kind ≠ lkEof) (h₁ : advance (unemit q).2 = .ok q₁) (h₂ : expr (-1) q₁ = .ok q₂) :
    ∃ r : Expr, r.Wf ∧ DenI q₂.tables (unemit q).1 e.lastInstr ∧
      e.lastInstr.isStraight = true ∧ Emits p (e.toks ++ q.cur :: r.toks)
        (e.code.dropLast ++ r.code) (e.braces ++ r.braces) q₂ := by
  obtain ⟨r, hr⟩ := hx h₂
  exact ⟨r, hr.wf, rhs_built he (advance_ok h₁ hne) hr⟩

/-- An expression statement. -/
theorem print_compiles {p q : Parser} {e : Expr} (he : Built p e q) :
    Compiles p ((Simple.expr e).piece q.cur) (emitAt q opPrint q.cur) := by
  have := (he.emits.trans (emitAt_emits q (i := opPrint) q.cur (.plain rfl))).compiles
    (e.code_straight.snoc rfl).unopened
  simpa [Piece.emitted, Simple.piece, Simple.toks, Simple.code, Simple.braces, Simple.decls] using
    this

/-- Every success of `expr_or_assignment` follows an expression, which then stands before a `;`,
or an assignment. -/
theorem exprOrAssignment_ok (hx : ExprSound expr) {p p' : Parser}
    (h : exprOrAssignment expr p = .ok p') :
    ∃ s : Simple, s.Wf ∧ (s.isAssign = false → p'.cur.kind = lkSemicolon) ∧
      Compiles p (s.piece p'.cur) p' := by
  unfold exprOrAssignment at h
  obtain ⟨q, hq, h⟩ := bind_ok h
  obtain ⟨e, he⟩ := hx hq
  simp only at h
  split at h
  · rename_i hk
    obtain ⟨q₁, hq₁, h⟩ := bind_ok h
    obtain ⟨q₂, hq₂, h⟩ := bind_ok h
    obtain ⟨⟨i, q₃⟩, hq₃, h⟩ := bind_ok h
    obtain rfl := Except.ok.inj h
    obtain ⟨r, hr, hi, hst, hE⟩ := rhs_ok hx he (by rcases hk with hk | hk <;> simp [hk]) hq₁ hq₂
    exact ⟨.assign e q.cur r, (assign_ok hk he.wf hr hE hi hst hq₃ q.cur).1, by simp [Simple.isAssign],
      (assign_ok hk he.wf hr hE hi hst hq₃ _).2⟩
  · split at h
    · rename_i hk
      obtain rfl := Except.ok.inj h
      exact ⟨.expr e, he.wf, fun _ => hk, print_compiles he⟩
    · split at h
      · simp [throwErrAt] at h
      · rename_i aop hk
        obtain ⟨q₁, hq₁, h⟩ := bind_ok h
        obtain ⟨q₂, hq₂, h⟩ := bind_ok h
        obtain ⟨i, hi', h⟩ := bind_ok h
        obtain rfl := Except.ok.inj h
        obtain ⟨r, hr, hi, hst, hE⟩ := rhs_ok hx he (by rintro h; simp [h, opAssignProps] at hk) hq₁ hq₂
        exact ⟨.assign e q.cur r, (modify_ok hk he.wf hr hE hi hst hi' q.cur).1,
          by simp [Simple.isAssign], (modify_ok hk he.wf hr hE hi hst hi' _).2⟩

end

end Calx
