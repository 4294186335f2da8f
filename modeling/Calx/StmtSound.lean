import Calx.AssignSound
import Calx.FunSound

/-!
# Statements

Whenever `stmt` succeeds it has consumed the lexemes of well-formed statements
and emitted their code, and a successful `parse` follows the syntax tree of its
source.

## Implementation notes

At the end of its input and before a closing brace `stmt` consumes nothing, so
its trees are statement sequences. As for expressions, the recursive call is a
variable, and the induction over the fuel at the end closes the recursion.
-/

namespace Calx

open LexemeKind Instr

/-- A function is open, and its code is being recorded. -/
def Active (p : Parser) : Prop :=
  p.scopes ≠ [] ∧ ∃ b rs, p.ranges = ⟨p.scopes.length - 1, b, none⟩ :: rs ∧ b ≤ here p

/-- Unless `inLoop`, the innermost segments of the loop stacks are those of a function. -/
def InLoop (inLoop : Bool) (p : Parser) : Prop :=
  inLoop = false → p.stackBreak.headD (-1) = -1 ∧ p.stackContinue.headD (-1) = -1

theorem Enters.active {p s : Parser} {ts : List Lexeme} {nargs : Nat} {names : List Bytes}
    (h : Enters p ts nargs names s) : Active s :=
  ⟨by simp [h.scopes], here p + 1, (fixupLastRangeEnd p (here p + 1)).ranges,
    by simp [h.scopes, h.ranges], by simp [here, h.prog]⟩

theorem Enters.inLoop {p s : Parser} {ts : List Lexeme} {nargs : Nat} {names : List Bytes}
    (h : Enters p ts nargs names s) : InLoop false s :=
  fun _ => by simp [h.stackBreak, h.stackContinue]

theorem Active.head_ne {p : Parser} (h : Active p) :
    ∀ r ∈ p.ranges.head?, r.scopeIndex ≠ p.scopes.length := by
  obtain ⟨hne, b, rs, hr, -⟩ := h
  have := List.length_pos_iff.mpr hne
  rw [hr]
  rintro r ⟨⟩
  exact Nat.ne_of_lt (Nat.sub_lt this Nat.one_pos)

theorem postponeJumpUnless_emits (p : Parser) :
    Emits p [] [.mine (.jumpUnless 0) none] [] (postponeJumpUnless p).2 :=
  emit_emits p (.jumpUnless 0)

/-- A jump to the end of the `if` statement, postponed. -/
def pushIf (p : Parser) : Parser :=
  { (postponeJump p).2 with stackIf := (here p : Int) :: p.stackIf }

theorem nextClause_eq (p : Parser) (prev : Nat) :
    nextClause p prev = fixupJump (pushIf p) prev (here (pushIf p)) := rfl

theorem emitJumpTo_eq (p : Parser) (dst : Nat) :
    emitJumpTo p dst = emit p (opJump (toUint32 ((dst : Int) - here p))) := by
  simp only [emitJumpTo, postponeJump, fixupJump, emit, emitAtLine, here, modify_append_cons]
  rfl

theorem emitJumpTo_emits (p : Parser) (dst : Nat) :
    Emits p [] [.mine (.jump ((dst : Int) - here p)) none] [] (emitJumpTo p dst) := by
  rw [emitJumpTo_eq]
  exact emit_emits p (.jump _)

theorem here_fixupJump (p : Parser) (src dst : Nat) : here (fixupJump p src dst) = here p := by
  simp [here, fixupJump]

section

variable [DeciBase] {expr : Int → Parser → Res Parser} {stmt : Parser → Res Parser}

namespace Compiles

variable {p p' : Parser} {x : Piece}

theorem active (h : Compiles p x p') (hp : Active p) : Active p' := by
  obtain ⟨hne, b, rs, hr, hle⟩ := hp
  obtain ⟨b', cl, hr', -, hle', -⟩ := h.ranges b rs hr hle hne
  refine ⟨h.scopes_ne hne, b', cl ++ rs, ?_, hle'⟩
  rw [h.scopes_length hne]
  exact hr'

theorem inLoop (h : Compiles p x p') {b : Bool} (hl : Layout b x.items) (hp : InLoop b p) :
    InLoop b p' := by
  intro hb
  rw [h.stackBreak, h.stackContinue, opens_eq_nil.mpr fun r hr => (hl.noLoop hb r hr).1,
    opens_eq_nil.mpr fun r hr => (hl.noLoop hb r hr).2]
  exact hp hb

/-- Rewrite the piece. -/
theorem cast {y : Piece} (h : Compiles p x p') (hxy : x = y) : Compiles p y p' := hxy ▸ h

end Compiles

/-- Lexemes that are consumed without emitting code. -/
theorem Emits.skip {p p' : Parser} {ts : List Lexeme} {br : List (Nat × Bool)}
    (h : Emits p ts [] br p') : Compiles p (.emitted ts [] br) p' :=
  h.compiles straight_nil.unopened

/-- Every success of `stmt` follows a statement sequence. -/
def StmtSound (stmt : Parser → Res Parser) : Prop :=
  ∀ {b : Bool} {p p' : Parser}, Active p → InLoop b p → stmt p = .ok p' →
    ∃ ss : Stmts, ss.Wf b ∧ Compiles p ss.piece p'

/-! ## Sequences and blocks -/

/-- Two statement sequences in turn. -/
def Stmts.append : Stmts → Stmts → Stmts
  | .nil, ts => ts
  | .cons s ss, ts => .cons s (ss.append ts)

theorem Stmts.append_piece : ∀ ss ts : Stmts, (ss.append ts).piece = ss.piece.append ts.piece
  | .nil, ts => rfl
  | .cons s ss, ts => by
      have ih := ss.append_piece ts
      simp only [Stmts.piece, Piece.append, Piece.mk.injEq] at ih ⊢
      obtain ⟨h1, h2, h3, h4, h5, h6⟩ := ih
      simp [Stmts.append, Stmts.toks, Stmts.code, Stmts.mask, Stmts.braces, Stmts.decls, Stmts.funs,
        h1, h2, h3, h4, h5, h6]

theorem Stmts.append_wf {b : Bool} : ∀ {ss ts : Stmts}, ss.Wf b → ts.Wf b → (ss.append ts).Wf b
  | .nil, _, _, h => h
  | .cons _ _, _, h, h' => ⟨h.1, Stmts.append_wf h.2 h'⟩

/-- A block without its opening brace. -/
def Stmts.blockPiece (body : Stmts) (rb : Lexeme) : Piece :=
  body.piece.append (.emitted [rb] [] [])

theorem blockLoop_ok (hx : StmtSound stmt) {fuel : Nat} {b : Bool} {p p' : Parser} (ha : Active p)
    (hl : InLoop b p) (h : blockLoop stmt fuel p = .ok p') :
    ∃ (body : Stmts) (rb : Lexeme), body.Wf b ∧ rb.kind = lkRbrace ∧
      Compiles p (body.blockPiece rb) p' := by
  induction fuel generalizing p with
  | zero => simp [blockLoop] at h
  | succ fuel ih =>
      rw [blockLoop] at h
      obtain ⟨q, hq, h⟩ := bind_ok h
      obtain ⟨ss, hwf, hc⟩ := hx ha hl hq
      split at h
      · simp [throwErrAt] at h
      · rename_i hk
        exact ⟨ss, q.cur, hwf, hk, hc.trans (advance_ok h (by simp [hk])).skip⟩
      · obtain ⟨body, rb, hwf', hrb, hc'⟩ := ih (hc.active ha) (hc.inLoop (ss.code_layout b hwf) hl) h
        refine ⟨ss.append body, rb, Stmts.append_wf hwf hwf', hrb, (hc.trans hc').cast ?_⟩
        simp [Stmts.blockPiece, Stmts.append_piece, Piece.append]

/-- A block, its braces included. -/
def Stmts.bracedPiece (lb : Lexeme) (body : Stmts) (rb : Lexeme) : Piece :=
  ⟨lb :: (body.toks ++ [rb]), body.code, body.mask, (lb.start, true) :: body.braces, body.decls,
    body.funs⟩

theorem block_ok (hx : StmtSound stmt) {fuel : Nat} {b : Bool} {p p' : Parser} (ha : Active p)
    (hl : InLoop b p) (h : block stmt fuel p = .ok p') :
    ∃ (lb : Lexeme) (body : Stmts) (rb : Lexeme), lb.kind = lkLbrace ∧ body.Wf b ∧
      rb.kind = lkRbrace ∧ Compiles p (body.bracedPiece lb rb) p' := by
  unfold block at h
  obtain ⟨q, hq, h⟩ := bind_ok h
  obtain ⟨hk, hE⟩ := slurp_ok hq (by simp)
  have hc := (hE.trans (Emits.brace q (p.cur.start, true))).skip
  obtain ⟨body, rb, hwf, hrb, hc'⟩ :=
    blockLoop_ok hx (hc.active ha) (hc.inLoop .nil hl) h
  exact ⟨p.cur, body, rb, hk, hwf, hrb, (hc.trans hc').cast
    (by simp [Stmts.bracedPiece, Stmts.blockPiece, Stmts.piece, Piece.append, Piece.emitted])⟩

/-! ## `if` -/

/-- The code of further clauses while their jumps to the end are still open. -/
def Else.openCode : Else → List Item
  | .none => []
  | .elifClause _ _ c _ _ body _ rest =>
      .mine .ifTo Option.none :: clauseCode c.code body.code rest.openCode
  | .elseClause _ _ body _ => .mine .ifTo Option.none :: body.code

-- What a piece records of a tree is computed from the parts of the tree.
attribute [local simp] Stmt.piece Stmt.toks Stmt.code Stmt.mask Stmt.braces Stmt.decls Stmt.funs
  Else.toks Else.openCode Else.mask Else.braces Else.decls Else.funs

theorem Else.openCode_length : ∀ e : Else, e.openCode.length = e.code.length
  | .none => rfl
  | .elifClause _ _ _ _ _ _ _ rest => by
      simp [Else.openCode, Else.code, overCode, clauseCode, rest.openCode_length]
  | .elseClause .. => rfl

theorem Else.openCode_eq_nil (e : Else) : e.openCode = [] ↔ e.code = [] := by
  rw [← List.length_eq_zero_iff, ← List.length_eq_zero_iff, e.openCode_length]

/-- Aiming the open jumps of the clauses at the end. -/
theorem Else.aim_openCode {b : Bool} : ∀ {e : Else} (i total : Nat), e.Wf b →
    i + e.openCode.length = total → aimFrom .ifTo total i e.openCode = e.code
  | .none, _, _, _, _ => rfl
  | .elifClause _ _ c _ _ body _ rest, i, total, hwf, h => by
      have hc : ∀ r ∈ c.code, r.instr ≠ .ifTo := c.code_straight.ne_open rfl
      have hb := (body.code_layout b hwf.2.2.2.2.2.1).noIf
      have hr := Else.aim_openCode (i + 1 + c.code.length + 1 + body.code.length) total
        hwf.2.2.2.2.2.2.2 (by
          simp only [Else.openCode, clauseCode, List.length_cons, List.length_append] at h
          omega)
      have hlen : (total : Int) - i = 1 + (clauseCode c.code body.code rest.code).length := by
        simp only [Else.openCode, clauseCode, List.length_cons, List.length_append,
          rest.openCode_length] at h ⊢
        omega
      simp only [Else.openCode, Else.code, overCode, aimFrom, Item.mine_instr, if_true, hlen]
      simp only [clauseCode, aimFrom_append, aimFrom_eq_self hc, aimFrom_eq_self hb,
        aimFrom_cons_ne (a := .ifTo) (r := .mine (.jumpUnless _) Option.none) (by simp), hr,
        rest.openCode_eq_nil]
      rfl
  | .elseClause _ _ body _, i, total, hwf, h => by
      have hb := (body.code_layout b hwf.2.2.1).noIf
      have hlen : (total : Int) - i = 1 + body.code.length := by
        simp only [Else.openCode, List.length_cons] at h
        omega
      simp only [Else.openCode, Else.code, overCode, aimFrom, Item.mine_instr, if_true, hlen,
        aimFrom_eq_self hb]
      rfl

theorem aim_clauseCode {b : Bool} {c : Expr} {body : Stmts} {rest : Else} (hb : body.Wf b)
    (hr : rest.Wf b) :
    aimFrom .ifTo (clauseCode c.code body.code rest.openCode).length 0
      (clauseCode c.code body.code rest.openCode) = clauseCode c.code body.code rest.code := by
  have hc' : ∀ r ∈ c.code, r.instr ≠ .ifTo := c.code_straight.ne_open rfl
  have hb' := (body.code_layout b hb).noIf
  have hr' := Else.aim_openCode (0 + c.code.length + 1 + body.code.length)
    (clauseCode c.code body.code rest.openCode).length hr (by
      simp only [clauseCode, List.length_cons, List.length_append]
      omega)
  generalize (clauseCode c.code body.code rest.openCode).length = total at hr' ⊢
  simp only [clauseCode, aimFrom_append, aimFrom_eq_self hc', aimFrom_eq_self hb',
    aimFrom_cons_ne (a := .ifTo) (r := .mine (.jumpUnless _) none) (by simp), hr',
    rest.openCode_eq_nil]

/-- A keyword and the condition behind it. -/
def headerPiece (kw lp : Lexeme) (c : Expr) (rp : Lexeme) : Piece :=
  ⟨kw :: lp :: (c.toks ++ [rp]), c.code ++ [.mine (.jumpUnless 0) none], flags c.code ++ [true],
    c.braces, [], []⟩

theorem headerPiece_layout (b : Bool) (kw lp : Lexeme) (c : Expr) (rp : Lexeme) :
    Layout b (headerPiece kw lp c rp).items :=
  (Layout.straight c.code_straight).append (.cons rfl (by simp) .nil)

/-- The condition of a clause or of a loop, with the jump that depends on it. -/
theorem header_compiles {p q₁ q₂ q₃ : Parser} {kw lp rp : Lexeme} {c : Expr}
    (hE : Emits p [kw, lp] [] [] q₁) (hc : Built q₁ c q₂)
    (hE₃ : Emits (postponeJumpUnless q₂).2 [rp] [] [] q₃) :
    Compiles p (headerPiece kw lp c rp) q₃ ∧
      (postponeJumpUnless q₂).1 = here p + c.code.length := by
  have hEc := hE.trans hc.emits
  constructor
  · refine (((hEc.compiles (by simpa using c.code_straight.unopened)).trans
      ((postponeJumpUnless_emits q₂).compiles (.mine rfl))).trans hE₃.skip).cast ?_
    simp [headerPiece, Piece.append, Piece.emitted]
  · have := hEc.here_eq
    simpa [postponeJumpUnless] using this

/-- The condition and the block of a clause. -/
def clausePiece (kw lp : Lexeme) (c : Expr) (rp lb : Lexeme) (body : Stmts) (rb : Lexeme) : Piece :=
  ⟨kw :: lp :: (c.toks ++ rp :: lb :: (body.toks ++ [rb])),
    c.code ++ .mine (.jumpUnless 0) none :: body.code, flags c.code ++ true :: body.mask,
    c.braces ++ (lb.start, true) :: body.braces, body.decls, body.funs⟩

theorem clausePiece_layout {b : Bool} {body : Stmts} (hwf : body.Wf b) (kw lp : Lexeme) (c : Expr)
    (rp lb rb : Lexeme) : Layout b (clausePiece kw lp c rp lb body rb).items :=
  (Layout.straight c.code_straight).append (.cons rfl (by simp) (body.code_layout b hwf))

theorem headerPiece_append (kw lp : Lexeme) (c : Expr) (rp lb : Lexeme) (body : Stmts)
    (rb : Lexeme) :
    (headerPiece kw lp c rp).append (body.bracedPiece lb rb) = clausePiece kw lp c rp lb body rb := by
  simp [headerPiece, clausePiece, Stmts.bracedPiece, Piece.append]

theorem ifOrElifClause_ok (he : ExprSound expr) (hx : StmtSound stmt) {fuel : Nat} {b : Bool}
    {p p' : Parser} {pos : Nat} (hk : p.cur.kind ≠ lkEof) (ha : Active p) (hl : InLoop b p)
    (h : ifOrElifClause expr stmt fuel p = .ok (pos, p')) :
    ∃ lp c rp lb body rb, lp.kind = lkLparen ∧ c.Wf ∧ rp.kind = lkRparen ∧ lb.kind = lkLbrace ∧
      body.Wf b ∧ rb.kind = lkRbrace ∧ pos = here p + c.code.length ∧
      Compiles p (clausePiece p.cur lp c rp lb body rb) p' := by
  unfold ifOrElifClause at h
  obtain ⟨q, hq, h⟩ := bind_ok h
  obtain ⟨q₁, hq₁, h⟩ := bind_ok h
  obtain ⟨hlp, hE₁⟩ := slurp_ok hq₁ (by simp)
  obtain ⟨q₂, hq₂, h⟩ := bind_ok h
  obtain ⟨c, hc⟩ := he hq₂
  simp only at h
  obtain ⟨q₃, hq₃, h⟩ := bind_ok h
  obtain ⟨hrp, hE₃⟩ := slurp_ok hq₃ (by simp)
  obtain ⟨q₄, hq₄, h⟩ := bind_ok h
  simp only [Except.ok.injEq, Prod.mk.injEq] at h
  obtain ⟨rfl, rfl⟩ := h
  obtain ⟨hcomp, hpos⟩ := header_compiles ((advance_ok hq hk).trans hE₁) hc hE₃
  obtain ⟨lb, body, rb, hlb, hwf, hrb, hb⟩ := block_ok hx (hcomp.active ha)
    (hcomp.inLoop (headerPiece_layout b _ _ _ _) hl) hq₄
  exact ⟨q.cur, c, (postponeJumpUnless q₂).2.cur, lb, body, rb, hlp, hc.wf, hrp, hlb, hwf, hrb, hpos,
    (hcomp.trans hb).cast (headerPiece_append _ _ _ _ _ _ _)⟩

/-- An open jump, recorded on the stack of its kind. -/
theorem postponed_compiles (p : Parser) {a : AInstr} (ha : ∀ T : Tables, DenI T (opJump 0) a) :
    Compiles p ⟨[], [.mine a none], [true], [], [], []⟩
      { (postponeJump p).2 with
        stackIf := (opens .ifTo (here p) [.mine a none]).reverse ++ p.stackIf
        stackBreak := (opens .breakTo (here p) [.mine a none]).reverse ++ p.stackBreak
        stackContinue :=
          (opens .continueTo (here p) [.mine a none]).reverse ++ p.stackContinue } where
  toks := rfl
  prog := ⟨[⟨opJump 0, none⟩], rfl, .cons ⟨rfl, ha _⟩ .nil⟩
  consts := List.prefix_rfl
  idents := List.prefix_rfl
  globals := List.prefix_rfl
  shapes := List.prefix_rfl
  scopes _ _ hp := hp
  ranges := covers_same (n := 1) rfl (by simp [here, postponeJump, emit, emitAtLine])
  mask := rfl
  stackIf := rfl
  stackBreak := rfl
  stackContinue := rfl
  braces := (List.append_nil _).symm
  closes := ⟨[], (List.append_nil _).symm, .nil⟩

theorem pushIf_compiles (p : Parser) :
    Compiles p ⟨[], [.mine .ifTo none], [true], [], [], []⟩ (pushIf p) :=
  postponed_compiles p fun _ => .ifTo

theorem Active.nextClause {p : Parser} (h : Active p) (prev : Nat) :
    Active (nextClause p prev) := by
  obtain ⟨hne, b, rs, hr, hle⟩ := (pushIf_compiles p).active h
  refine ⟨hne, b, rs, hr, hle.trans (le_of_eq ?_)⟩
  simp [nextClause_eq, here, fixupJump]

/-- The jump over the next clause. `A` and `B` are the code before and after the conditional jump
of the clause before it. -/
theorem nextClause_compiles {p₀ p : Parser} {ts : List Lexeme} {A B : List Item} {m : List Bool}
    {br : List (Nat × Bool)} {dc : List Bytes} {fs : List (Option Params × Stmts)} {prev : Nat}
    (hc : Compiles p₀ ⟨ts, A ++ .mine (.jumpUnless 0) none :: B, m, br, dc, fs⟩ p)
    (hprev : prev = here p₀ + A.length) :
    Compiles p₀ ⟨ts, A ++ .mine (.jumpUnless (1 + B.length + 1)) none ::
      (B ++ [.mine .ifTo none]), m ++ [true], br, dc, fs⟩ (nextClause p prev) := by
  have hpush := (hc.trans (pushIf_compiles p)).cast
    (y := ⟨ts, A ++ .mine (.jumpUnless 0) none :: (B ++ [.mine .ifTo none]), m ++ [true], br, dc,
      fs⟩) (by simp [Piece.append])
  have hoff : (here (pushIf p) : Int) - prev = 1 + B.length + 1 := by
    have := hpush.here_eq
    simp only [List.length_append, List.length_cons, List.length_nil] at this
    omega
  have hnext := hpush.fixup rfl hprev (here (pushIf p))
  rwa [hoff] at hnext

/-- The last clause has nothing to jump over. -/
theorem lastClause_compiles {p₀ p : Parser} {ts : List Lexeme} {A B : List Item} {m : List Bool}
    {br : List (Nat × Bool)} {dc : List Bytes} {fs : List (Option Params × Stmts)} {prev : Nat}
    (hc : Compiles p₀ ⟨ts, A ++ .mine (.jumpUnless 0) none :: B, m, br, dc, fs⟩ p)
    (hprev : prev = here p₀ + A.length) :
    Compiles p₀ ⟨ts, A ++ .mine (.jumpUnless (1 + B.length + 0)) none :: B, m, br, dc, fs⟩
      (fixupJump p prev (here p)) := by
  have hoff : (here p : Int) - prev = 1 + B.length + 0 := by
    have := hc.here_eq
    simp only [List.length_append, List.length_cons] at this
    omega
  have hend := hc.fixup rfl hprev (here p)
  rwa [hoff] at hend

/-- One more `elif` clause. -/
theorem elifClause_compiles {p₀ p p' : Parser} {ts : List Lexeme} {A B : List Item}
    {m : List Bool} {br : List (Nat × Bool)} {dc : List Bytes}
    {fs : List (Option Params × Stmts)} {prev pos : Nat}
    (hc : Compiles p₀ ⟨ts, A ++ .mine (.jumpUnless 0) none :: B, m, br, dc, fs⟩ p)
    (hprev : prev = here p₀ + A.length) {kw lp rp lb rb : Lexeme} {c : Expr} {body : Stmts}
    (hcl : Compiles (nextClause p prev) (clausePiece kw lp c rp lb body rb) p')
    (hpos : pos = here (nextClause p prev) + c.code.length) :
    Compiles p₀ ⟨ts ++ (clausePiece kw lp c rp lb body rb).toks,
      (A ++ .mine (.jumpUnless (1 + B.length + 1)) none :: (B ++ .mine .ifTo none :: c.code)) ++
        .mine (.jumpUnless 0) none :: body.code,
      m ++ [true] ++ (clausePiece kw lp c rp lb body rb).mask,
      br ++ (clausePiece kw lp c rp lb body rb).braces, dc ++ body.decls, fs ++ body.funs⟩ p' ∧
    pos = here p₀ + (A ++ .mine (.jumpUnless (1 + B.length + 1)) none ::
      (B ++ .mine .ifTo none :: c.code)).length := by
  have hnext := nextClause_compiles hc hprev
  constructor
  · refine (hnext.trans hcl).cast ?_
    simp only [Piece.append, clausePiece, List.append_assoc, List.cons_append]
    rfl
  · rw [hpos, hnext.here_eq]
    simp only [List.length_append, List.length_cons, List.length_nil]
    omega

/-- An `else` clause. -/
theorem elseClause_compiles {p₀ p q p' : Parser} {ts : List Lexeme} {A B : List Item}
    {m : List Bool} {br : List (Nat × Bool)} {dc : List Bytes}
    {fs : List (Option Params × Stmts)} {prev : Nat}
    (hc : Compiles p₀ ⟨ts, A ++ .mine (.jumpUnless 0) none :: B, m, br, dc, fs⟩ p)
    (hprev : prev = here p₀ + A.length) {kw lb rb : Lexeme} {body : Stmts}
    (hkw : Emits (nextClause p prev) [kw] [] [] q) (hb : Compiles q (body.bracedPiece lb rb) p') :
    Compiles p₀ ⟨ts ++ (Else.elseClause kw lb body rb).toks, A ++ .mine (.jumpUnless
      (1 + B.length + 1)) none :: (B ++ (Else.elseClause kw lb body rb).openCode),
      m ++ (Else.elseClause kw lb body rb).mask, br ++ (Else.elseClause kw lb body rb).braces,
      dc ++ body.decls, fs ++ body.funs⟩ p' := by
  refine (((nextClause_compiles hc hprev).trans hkw.skip).trans hb).cast ?_
  simp [Piece.append, Piece.emitted, Stmts.bracedPiece]

/-- The clauses of an `if` statement after the first one. `A` and `B` are the code before and
after the conditional jump of the clause before them. -/
theorem clauses_ok (he : ExprSound expr) (hx : StmtSound stmt) (fuel fuel' : Nat) {b : Bool}
    {p₀ p p' : Parser} {ts : List Lexeme} {A B : List Item} {m : List Bool}
    {br : List (Nat × Bool)} {dc : List Bytes} {fs : List (Option Params × Stmts)} {prev : Nat}
    (hc : Compiles p₀ ⟨ts, A ++ .mine (.jumpUnless 0) none :: B, m, br, dc, fs⟩ p)
    (hprev : prev = here p₀ + A.length) (ha : Active p) (hl : InLoop b p)
    (h : (do
      let (prev, p) ← elifLoop expr stmt fuel prev p
      ifEnd stmt fuel' prev p) = .ok p') :
    ∃ rest : Else, rest.Wf b ∧
      Compiles p₀ ⟨ts ++ rest.toks, A ++ .mine (.jumpUnless
        (1 + B.length + if rest.openCode = [] then 0 else 1)) none :: (B ++ rest.openCode),
        m ++ rest.mask, br ++ rest.braces, dc ++ rest.decls, fs ++ rest.funs⟩ p' := by
  induction fuel generalizing p ts A B m br dc fs prev with
  | zero => simp [elifLoop, bind, Except.bind] at h
  | succ fuel ih =>
      have ha' := ha.nextClause prev
      have hl' : InLoop b (nextClause p prev) := hl
      rw [elifLoop] at h
      by_cases hk : p.cur.kind = lkElif
      · simp only [hk, if_true] at h
        obtain ⟨⟨prev', q'⟩, hq', h⟩ := bind_ok h
        obtain ⟨⟨prev₁, q⟩, hq, hloop⟩ := bind_ok hq'
        obtain ⟨lp, c, rp, lb, body, rb, hlp, hcw, hrp, hlb, hbw, hrb, hpos, hcl⟩ :=
          ifOrElifClause_ok (p := nextClause p prev) he hx (by
            change p.cur.kind ≠ lkEof
            simp [hk]) ha' hl' hq
        obtain ⟨hall, hprev₁⟩ := elifClause_compiles hc hprev hcl hpos
        obtain ⟨rest, hrw, hr⟩ := ih hall hprev₁ (hcl.active ha')
          (hcl.inLoop (clausePiece_layout hbw _ _ _ _ _ _) hl') (by rw [hloop]; exact h)
        refine ⟨.elifClause p.cur lp c rp lb body rb rest, ⟨hk, hlp, hcw, hrp, hlb, hbw, hrb, hrw⟩,
          hr.cast ?_⟩
        simp [clausePiece, clauseCode]
        rfl
      · simp only [hk, if_false] at h
        change ifEnd stmt fuel' prev p = .ok p' at h
        unfold ifEnd at h
        split at h
        · rename_i hk
          unfold elseClause at h
          obtain ⟨q, hq, h⟩ := bind_ok h
          have hkw := advance_ok hq (by
            change p.cur.kind ≠ lkEof
            simp [hk])
          obtain ⟨lb, body, rb, hlb, hbw, hrb, hb⟩ :=
            block_ok hx (hkw.skip.active ha') (hkw.skip.inLoop .nil hl') h
          exact ⟨.elseClause p.cur lb body rb, ⟨hk, hlb, hbw, hrb⟩,
            elseClause_compiles hc hprev hkw hb⟩
        · obtain rfl := Except.ok.inj h
          refine ⟨.none, trivial, (lastClause_compiles hc hprev).cast ?_⟩
          simp

/-- The clauses of an `if` statement, with its segment ended. -/
theorem if_compiles {b : Bool} {p p' : Parser} {kw lp rp lb rb : Lexeme} {c : Expr}
    {body : Stmts} {rest : Else} (hbw : body.Wf b) (hrw : rest.Wf b)
    (h : Compiles (ifSegmentBegin p) ⟨(clausePiece kw lp c rp lb body rb).toks ++ rest.toks,
      c.code ++ .mine (.jumpUnless (1 + body.code.length + if rest.openCode = [] then 0 else 1))
        none :: (body.code ++ rest.openCode), (clausePiece kw lp c rp lb body rb).mask ++ rest.mask,
      (clausePiece kw lp c rp lb body rb).braces ++ rest.braces, body.decls ++ rest.decls,
      body.funs ++ rest.funs⟩ p') :
    Compiles p (Stmt.ifStmt kw lp c rp lb body rb rest).piece (ifSegmentEnd p' (here p')) := by
  refine h.ifSegmentEnd.cast ?_
  have haim := aim_clauseCode (c := c) hbw hrw
  simp only [clauseCode] at haim
  simp [clauseCode, clausePiece, ← haim]

theorem ifStmt_ok (he : ExprSound expr) (hx : StmtSound stmt) {fuel : Nat} {b : Bool}
    {p p' : Parser} (hk : p.cur.kind = lkIf) (ha : Active p) (hl : InLoop b p)
    (h : ifStmt expr stmt fuel p = .ok p') : ∃ s : Stmt, s.Wf b ∧ Compiles p s.piece p' := by
  unfold ifStmt at h
  obtain ⟨⟨pos, q⟩, hq, h⟩ := bind_ok h
  have ha' : Active (ifSegmentBegin p) := ha
  have hl' : InLoop b (ifSegmentBegin p) := hl
  obtain ⟨lp, c, rp, lb, body, rb, hlp, hcw, hrp, hlb, hbw, hrb, hpos, hcl⟩ :=
    ifOrElifClause_ok he hx (by
      change p.cur.kind ≠ lkEof
      simp [hk]) ha' hl' hq
  obtain ⟨⟨pos', q'⟩, hq', h⟩ := bind_ok h
  obtain ⟨q'', hq'', h⟩ := bind_ok h
  obtain rfl := Except.ok.inj h
  obtain ⟨rest, hrw, hr⟩ := clauses_ok he hx fuel fuel hcl hpos
    (hcl.active ha') (hcl.inLoop (clausePiece_layout hbw _ _ _ _ _ _) hl') (by
      change (elifLoop expr stmt fuel pos q >>= fun r => ifEnd stmt fuel r.1 r.2) = .ok q''
      rw [show elifLoop expr stmt fuel pos q = .ok (pos', q') from hq']
      exact hq'')
  exact ⟨.ifStmt p.cur lp c rp lb body rb rest, ⟨hk, hlp, hcw, hrp, hlb, hbw, hrb, hrw⟩,
    if_compiles hbw hrw hr⟩

/-! ## Loops -/

/-- A `while` loop, given its header and its block. -/
theorem while_compiles {p q₃ q₄ : Parser} {kw lp rp lb rb : Lexeme} {c : Expr} {body : Stmts}
    (hh : Compiles (loopSegmentBegin p) (headerPiece kw lp c rp) q₃)
    (hb : Compiles q₃ (body.bracedPiece lb rb) q₄) {beginPos jumpPos : Nat}
    (hbegin : beginPos = here p) (hjump : jumpPos = here p + c.code.length) :
    Compiles p (Stmt.whileStmt kw lp c rp lb body rb).piece
      (loopSegmentEnd (fixupJump (emitJumpTo q₄ beginPos) jumpPos (here (emitJumpTo q₄ beginPos)))
        (here (fixupJump (emitJumpTo q₄ beginPos) jumpPos (here (emitJumpTo q₄ beginPos))))
        beginPos) := by
  subst hbegin
  have hall := (hh.trans hb).trans ((emitJumpTo_emits q₄ (here p)).compiles (.mine rfl))
  have hlen : here q₄ = here p + (c.code.length + 1 + body.code.length) := by
    have := (hh.trans hb).here_eq
    simp only [Piece.append, headerPiece, Stmts.bracedPiece, List.length_append,
      List.length_cons, List.length_nil] at this
    rw [this]
    simp only [here, loopSegmentBegin]
  have hall' : Compiles (loopSegmentBegin p) ⟨kw :: lp :: (c.toks ++ rp :: lb ::
      (body.toks ++ [rb])), c.code ++ .mine (.jumpUnless 0) none :: (body.code ++
        [.mine (.jump (-(c.code.length + 1 + body.code.length : Nat))) none]),
      flags c.code ++ true :: (body.mask ++ [true]), c.braces ++ (lb.start, true) :: body.braces,
      body.decls, body.funs⟩ (emitJumpTo q₄ (here p)) := by
    refine hall.cast ?_
    rw [show (here p : Int) - here q₄ = -(c.code.length + 1 + body.code.length : Nat) by omega]
    simp [Piece.append, Piece.emitted, headerPiece, Stmts.bracedPiece]
  have hend : here (emitJumpTo q₄ (here p)) =
      here p + (c.code.length + 1 + body.code.length + 1) := by
    rw [(emitJumpTo_emits q₄ _).here_eq, hlen]
    rfl
  have hfix := hall'.fixup rfl hjump (here (emitJumpTo q₄ (here p)))
  rw [show (here (emitJumpTo q₄ (here p)) : Int) - jumpPos = body.code.length + 2 by
    rw [hend]; omega] at hfix
  have hfin := hfix.loopSegmentEnd (c.code.length + 1 + body.code.length + 1) 0
  rw [here_fixupJump, hend]
  rw [hend] at hfin
  refine hfin.cast ?_
  have hpatch := patch_append (A := c.code ++ [.mine (.jumpUnless (body.code.length + 2)) none])
    (C := [.mine (.jump (-(c.code.length + 1 + body.code.length : Nat))) none])
    (c.code_straight.noLoop.append (.mine rfl _)) (.mine rfl _) body.code
    (c.code.length + 1 + body.code.length + 1 : Nat) (0 : Nat)
    (body.code.length + 1) (-(c.code.length + 1))
    (by simp only [List.length_append, List.length_singleton]; omega)
    (by simp only [List.length_append, List.length_singleton]; omega)
  simp only [List.append_assoc, List.singleton_append] at hpatch
  simp only [hpatch]
  simp [whileCode]

theorem whileStmt_ok (he : ExprSound expr) (hx : StmtSound stmt) {fuel : Nat} {b : Bool}
    {p p' : Parser} (hk : p.cur.kind = lkWhile) (ha : Active p)
    (h : whileStmt expr stmt fuel p = .ok p') : ∃ s : Stmt, s.Wf b ∧ Compiles p s.piece p' := by
  unfold whileStmt at h
  obtain ⟨q, hq, h⟩ := bind_ok h
  obtain ⟨q₁, hq₁, h⟩ := bind_ok h
  have hE₀ := advance_ok hq (by
    change p.cur.kind ≠ lkEof
    simp [hk])
  obtain ⟨hlp, hE₁⟩ := slurp_ok hq₁ (by simp)
  simp only at h
  obtain ⟨q₂, hq₂, h⟩ := bind_ok h
  obtain ⟨c, hc⟩ := he hq₂
  obtain ⟨q₃, hq₃, h⟩ := bind_ok h
  obtain ⟨hrp, hE₃⟩ := slurp_ok hq₃ (by simp)
  obtain ⟨q₄, hq₄, h⟩ := bind_ok h
  obtain rfl := Except.ok.inj h
  obtain ⟨hh, hpos⟩ := header_compiles (hE₀.trans hE₁) hc hE₃
  obtain ⟨lb, body, rb, hlb, hwf, hrb, hb⟩ := block_ok (b := true) hx
    (hh.active (show Active (loopSegmentBegin p) from ha)) (by simp [InLoop]) hq₄
  exact ⟨.whileStmt p.cur q.cur c (postponeJumpUnless q₂).2.cur lb body rb,
    ⟨hk, hlp, hc.wf, hrp, hlb, hwf, hrb⟩, while_compiles hh hb (hE₀.trans hE₁).here_eq hpos⟩

/-- The piece of a clause of a `for` header that may be empty. -/
def Simple.optPiece (next : Lexeme) (s : Option Simple) : Piece :=
  ⟨(s.map Simple.toks).getD [], (s.map (Simple.code next)).getD [],
    flags ((s.map (Simple.code next)).getD []), (s.map Simple.braces).getD [],
    (s.map Simple.decls).getD [], []⟩

theorem forClause_ok (he : ExprSound expr) {k : LexemeKind} {p p' : Parser}
    (h : forClause expr k p = .ok p') :
    ∃ s : Option Simple, (∀ t ∈ s, t.Wf ∧ (t.isAssign = false → p'.cur.kind = lkSemicolon)) ∧
      Compiles p (Simple.optPiece p'.cur s) p' := by
  unfold forClause at h
  split at h
  · obtain rfl := Except.ok.inj h
    exact ⟨none, by simp, .refl p⟩
  · obtain ⟨s, hwf, hk, hc⟩ := exprOrAssignment_ok he h
    refine ⟨some s, ?_, hc⟩
    rintro t ⟨⟩
    exact ⟨hwf, hk⟩

/-- The code of the second clause of a `for` header while its jump is still open. -/
def condOpen (c : Option Expr) : List Item :=
  (c.map fun c => c.code ++ [.mine (.jumpUnless 0) none]).getD []

theorem condOpen_length (c : Option Expr) (n : Nat) :
    (condOpen c).length = (forCondCode n (c.map Expr.code)).length := by
  cases c <;> simp [condOpen, forCondCode]

/-- The second clause of a `for` header, as it is recorded. -/
def condPiece (c : Option Expr) : Piece :=
  ⟨(c.map Expr.toks).getD [], condOpen c, flags (condOpen c), (c.map Expr.braces).getD [], [], []⟩

theorem cond_compiles {p q : Parser} {c : Expr} (hc : Built p c q) :
    Compiles p (condPiece (some c)) (postponeJumpUnless q).2 := by
  refine ((hc.emits.compiles c.code_straight.unopened).trans
    ((postponeJumpUnless_emits q).compiles (.mine rfl))).cast ?_
  simp [Piece.append, Piece.emitted, condPiece, condOpen]

theorem forCond_ok (he : ExprSound expr) {p p' : Parser} {j : Option Nat}
    (h : forCond expr p = .ok (j, p')) :
    ∃ c : Option Expr, (∀ e ∈ c, e.Wf) ∧ j = c.map (fun e => here p + e.code.length) ∧
      Compiles p (condPiece c) p' := by
  unfold forCond at h
  split at h
  · simp only [Except.ok.injEq, Prod.mk.injEq] at h
    obtain ⟨rfl, rfl⟩ := h
    exact ⟨none, by simp, rfl, .refl p⟩
  · obtain ⟨q, hq, h⟩ := bind_ok h
    obtain ⟨c, hc⟩ := he hq
    simp only [Except.ok.injEq, Prod.mk.injEq] at h
    obtain ⟨rfl, rfl⟩ := h
    refine ⟨some c, ?_, ?_, ?_⟩
    · rintro e ⟨⟩
      exact hc.wf
    · simp [postponeJumpUnless, hc.emits.here_eq]
    · exact cond_compiles hc

/-- Aiming the jump out of a `for` loop, if it has a second clause. -/
theorem Compiles.fixupCond {p e : Parser} {ts : List Lexeme} {P R : List Item} {m : List Bool}
    {br : List (Nat × Bool)} {dc : List Bytes} {fs : List (Option Params × Stmts)}
    {c : Option Expr} (h : Compiles p ⟨ts, P ++ (condOpen c ++ R), m, br, dc, fs⟩ e)
    {j : Option Nat} (hj : j = c.map (fun c => here p + P.length + c.code.length)) (dst n : Nat)
    (hd : dst = here p + P.length + (condOpen c).length + n) :
    Compiles p ⟨ts, P ++ (forCondCode n (c.map Expr.code) ++ R), m, br, dc, fs⟩
      (fixupCondJump e j dst) := by
  cases c with
  | none => subst hj; exact h
  | some c =>
      subst hj
      have h' := h.cast (y := ⟨ts, (P ++ c.code) ++ .mine (.jumpUnless 0) none :: R, m, br, dc, fs⟩)
        (by simp [condOpen])
      have hsrc : here p + P.length + c.code.length = here p + (P ++ c.code).length := by
        rw [List.length_append, Nat.add_assoc]
      have hfix := h'.fixup rfl hsrc dst
      refine hfix.cast ?_
      rw [show (dst : Int) - (here p + P.length + c.code.length : Nat) = n + 1 by
        simp only [condOpen, Option.map_some, Option.getD_some, List.length_append,
          List.length_singleton] at hd
        omega]
      simp [forCondCode]

/-- A `for` loop, given the clauses of its header and its block. -/
theorem for_compiles {p q₁ q₂ q₃ q₄ q₅ q₆ q₇ q₈ : Parser}
    {kw lp semi₁ semi₂ rp lb rb : Lexeme} {pre post : Option Simple} {cond : Option Expr}
    {body : Stmts} (hwf : body.Wf true) (hE₁ : Emits (loopSegmentBegin p) [kw, lp] [] [] q₁)
    (hpre : Compiles q₁ (Simple.optPiece semi₁ pre) q₂) (hE₃ : Emits q₂ [semi₁] [] [] q₃)
    (hcond : Compiles q₃ (condPiece cond) q₄) {j : Option Nat}
    (hj : j = cond.map (fun e => here q₃ + e.code.length)) (hE₅ : Emits q₄ [semi₂] [] [] q₅)
    (hpost : Compiles q₅ (Simple.optPiece rp post) q₆) (hE₇ : Emits q₆ [rp] [] [] q₇)
    (hb : Compiles q₇ (body.bracedPiece lb rb) q₈) {e : Parser}
    (he : e = loopSegmentEnd (fixupCondJump (emitJumpTo q₈ (here q₃)) j
      (here (emitJumpTo q₈ (here q₃))))
        (here (emitJumpTo q₈ (here q₃)) + (here q₇ - here q₅))
        (here q₈ - (here q₇ - here q₅) + (here q₇ - here q₅))) :
    Compiles p (Stmt.forStmt kw lp pre semi₁ cond semi₂ post rp lb body rb).piece
      { e with prog := e.prog.take (here q₅) ++
        tiRotateLeft ((e.prog.drop (here q₅)).take (here q₈ - here q₅)) (here q₇ - here q₅) ++
        e.prog.drop (here q₈) } := by
  have h₃ := (hE₁.skip.trans hpre).trans hE₃.skip
  have h₅ := (h₃.trans hcond).trans hE₅.skip
  have h₇ := (h₅.trans hpost).trans hE₇.skip
  -- the code and the positions before the jumps are aimed
  set P := (pre.map (Simple.code semi₁)).getD [] with hP
  set Q := (post.map (Simple.code rp)).getD [] with hQ
  have hh : here (loopSegmentBegin p) = here p := rfl
  have e₃ : here q₃ = here p + P.length := by
    have := h₃.here_eq
    simpa [Piece.append, Piece.emitted, Simple.optPiece, hh] using this
  have e₅ : here q₅ = here p + P.length + (condOpen cond).length := by
    have := h₅.here_eq
    simpa [Piece.append, Piece.emitted, Simple.optPiece, condPiece, hh, Nat.add_assoc] using this
  have e₇ : here q₇ = here q₅ + Q.length := by
    have := (hpost.trans hE₇.skip).here_eq
    simpa [Piece.append, Piece.emitted, Simple.optPiece] using this
  have e₈ : here q₈ = here q₇ + body.code.length := hb.here_eq
  have hjump : (here q₃ : Int) - here q₈ =
      -((condOpen cond).length + body.code.length + Q.length : Nat) := by omega
  have hall : Compiles (loopSegmentBegin p) ⟨kw :: lp :: ((pre.map Simple.toks).getD [] ++
      semi₁ :: ((cond.map Expr.toks).getD [] ++ semi₂ :: ((post.map Simple.toks).getD [] ++
        rp :: lb :: (body.toks ++ [rb])))),
      P ++ (condOpen cond ++ (Q ++ (body.code ++
        [.mine (.jump (-((condOpen cond).length + body.code.length + Q.length : Nat))) none]))),
      flags P ++ (flags (condOpen cond) ++ (flags Q ++ (body.mask ++ [true]))),
      (pre.map Simple.braces).getD [] ++ ((cond.map Expr.braces).getD [] ++
        ((post.map Simple.braces).getD [] ++ (lb.start, true) :: body.braces)),
      (pre.map Simple.decls).getD [] ++ ((post.map Simple.decls).getD [] ++ body.decls),
      body.funs⟩ (emitJumpTo q₈ (here q₃)) := by
    refine ((h₇.trans hb).trans ((emitJumpTo_emits q₈ (here q₃)).compiles (.mine rfl))).cast ?_
    rw [hjump]
    simp [Piece.append, Piece.emitted, Stmts.bracedPiece, Simple.optPiece, condPiece]
    exact ⟨rfl, rfl⟩
  -- the jump out of the loop, the segments, and the rotation
  have hend : here (emitJumpTo q₈ (here q₃)) = here q₈ + 1 :=
    (emitJumpTo_emits q₈ (here q₃)).here_eq
  have hj' : j = cond.map fun c => here (loopSegmentBegin p) + P.length + c.code.length := by
    rw [hj, e₃, hh]
  have hcnd := hall.fixupCond hj' (here (emitJumpTo q₈ (here q₃)))
    (body.code.length + Q.length + 1) (by rw [hh]; omega)
  have hseg := hcnd.loopSegmentEnd
    (P.length + (condOpen cond).length + Q.length + body.code.length + 1 + Q.length)
    (P.length + (condOpen cond).length + Q.length + body.code.length)
  have hlc := condOpen_length cond (body.code.length + Q.length + 1)
  have hstr : Straight Q := Simple.optCode_straight _ post
  have hpatch := patch_append (A := P ++ (forCondCode (body.code.length + Q.length + 1)
      (cond.map Expr.code) ++ Q))
    (C := [.mine (.jump (-((condOpen cond).length + body.code.length + Q.length : Nat))) none])
    ((Simple.optCode_straight _ pre : Straight P).noLoop.append
      (NoLoop.append (fun r hr => (Layout.forCondCode (b := false) (Expr.optCode_straight cond)
        _).noLoop rfl r hr) hstr.noLoop)) (.mine rfl _) body.code
    (P.length + (condOpen cond).length + Q.length + body.code.length + 1 + Q.length : Nat)
    (P.length + (condOpen cond).length + Q.length + body.code.length : Nat)
    (body.code.length + Q.length + 1) body.code.length
    (by simp only [List.length_append, ← hlc]; omega)
    (by simp only [List.length_append, ← hlc]; omega)
  simp only [List.append_assoc] at hpatch
  simp only [hpatch] at hseg
  have hclosed : ∀ a : AInstr, a.isOpen = true → ∀ r ∈ patch (body.code.length + Q.length + 1)
      body.code.length body.code, r.instr ≠ a := by
    have hlay := (body.code_layout true hwf).patch (b := false) (body.code.length + Q.length + 1)
      body.code.length
    intro a ha r hr
    cases a <;> simp [AInstr.isOpen] at ha
    · exact (hlay.noLoop rfl r hr).1
    · exact (hlay.noLoop rfl r hr).2
    · exact hlay.noIf r hr
  rw [← List.append_assoc] at hseg
  have hrot := hseg.rotate rfl (fun a ha => hstr.ne_open ha) hclosed (i := here q₅) (j := here q₈)
    (by rw [List.length_append, ← hlc]; omega) (by simp only [patch_length]; omega)
  have hn : here q₇ - here q₅ = Q.length := by omega
  have hb' : here (emitJumpTo q₈ (here q₃)) + Q.length = here p +
      (P.length + (condOpen cond).length + Q.length + body.code.length + 1 + Q.length) := by omega
  have hc' : here q₈ - Q.length + Q.length =
      here p + (P.length + (condOpen cond).length + Q.length + body.code.length) := by omega
  subst he
  rw [hn, hb', hc']
  refine hrot.cast ?_
  have hfl : flags (condOpen cond) = flags (forCondCode 0 (cond.map Expr.code)) := by
    cases cond <;> simp [condOpen, forCondCode]
  simp [forCode, hfl, hlc]
  exact ⟨rfl, rfl⟩

theorem forStmt_ok (he : ExprSound expr) (hx : StmtSound stmt) {fuel : Nat} {b : Bool}
    {p p' : Parser} (hk : p.cur.kind = lkFor) (ha : Active p)
    (h : forStmt expr stmt fuel p = .ok p') : ∃ s : Stmt, s.Wf b ∧ Compiles p s.piece p' := by
  unfold forStmt at h
  obtain ⟨q, hq, h⟩ := bind_ok h
  obtain ⟨q₁, hq₁, h⟩ := bind_ok h
  obtain ⟨q₂, hq₂, h⟩ := bind_ok h
  obtain ⟨q₃, hq₃, h⟩ := bind_ok h
  obtain ⟨⟨j, q₄⟩, hq₄, h⟩ := bind_ok h
  obtain ⟨q₅, hq₅, h⟩ := bind_ok h
  obtain ⟨q₆, hq₆, h⟩ := bind_ok h
  obtain ⟨q₇, hq₇, h⟩ := bind_ok h
  obtain ⟨q₈, hq₈, h⟩ := bind_ok h
  have hE₀ := advance_ok hq (by
    change p.cur.kind ≠ lkEof
    simp [hk])
  obtain ⟨hlp, hE₁⟩ := slurp_ok hq₁ (by simp)
  obtain ⟨pre, hprew, hpre⟩ := forClause_ok he hq₂
  obtain ⟨hs₁, hE₃⟩ := slurp_ok hq₃ (by simp)
  obtain ⟨cond, hcondw, hj, hcond⟩ := forCond_ok he hq₄
  obtain ⟨hs₂, hE₅⟩ := slurp_ok hq₅ (by simp)
  obtain ⟨post, hpostw, hpost⟩ := forClause_ok he hq₆
  obtain ⟨hrp, hE₇⟩ := slurp_ok hq₇ (by simp)
  have h₃ := ((hE₀.trans hE₁).skip.trans hpre).trans hE₃.skip
  have h₅ := (h₃.trans hcond).trans hE₅.skip
  have h₇ := (h₅.trans hpost).trans hE₇.skip
  obtain ⟨lb, body, rb, hlb, hwf, hrb, hb⟩ := block_ok (b := true) hx
    (h₇.active (show Active (loopSegmentBegin p) from ha)) (by simp [InLoop]) hq₈
  have hc := for_compiles hwf (hE₀.trans hE₁) hpre hE₃ hcond hj hE₅ hpost hE₇ hb rfl
  obtain rfl := Except.ok.inj h
  refine ⟨.forStmt p.cur q.cur pre q₂.cur cond q₄.cur post q₆.cur lb body rb,
    ⟨hk, hlp, fun s hs => (hprew s hs).1, hs₁, hcondw, hs₂, fun s hs => ⟨(hpostw s hs).1, ?_⟩, hrp,
      hlb, hwf, hrb⟩, hc⟩
  by_contra hna
  simp [(hpostw s hs).2 (by simpa using hna)] at hrp

/-! ## Functions -/

/-- The store of a function under its name. -/
theorem storeName_compiles (p : Parser) (name : Lexeme) :
    Compiles p (.emitted [] [.mine (.store name.text) none] [])
      (emit { p with idents := p.idents ++ [name.text] } (opStoreSymbolic p.idents.length)) := by
  have hl : Emits p [] [] [] { p with idents := p.idents ++ [name.text] } :=
    ⟨rfl, ⟨[], by simp, .nil⟩, List.prefix_rfl, by simp, by simp, rfl⟩
  exact (hl.trans (emit_emits _ (.store (by simp [Parser.tables])))).compiles (.mine rfl)

/-- A function, given its name and the function between its parentheses and its last brace. -/
theorem fun_compiles {p q q' : Parser} {kw name lp rp lb rb : Lexeme} {ps : Option Params}
    {body : Stmts} (hE : Emits p [kw, name, lp] [] [] q)
    (hf : Compiles q (funPiece ((ps.map Params.toks).getD [] ++ [rp] ++
      (body.bracedPiece lb rb).toks) ps body (body.bracedPiece lb rb).braces) q') :
    Compiles p (Stmt.funStmt kw name lp ps rp lb body rb).piece
      (emit { q' with idents := q'.idents ++ [name.text] } (opStoreSymbolic q'.idents.length)) := by
  refine ((hE.skip.trans hf).trans (storeName_compiles q' name)).cast ?_
  simp [Piece.append, Piece.emitted, funPiece, nestedCode, funCode, funLocals, Stmts.bracedPiece]

theorem funStmt_ok (hx : StmtSound stmt) {fuel : Nat} {b : Bool} {p p' : Parser}
    (hk : p.cur.kind = lkFun) (ha : Active p) (h : funStmt stmt fuel p = .ok p') :
    ∃ s : Stmt, s.Wf b ∧ Compiles p s.piece p' := by
  unfold funStmt at h
  obtain ⟨q, hq, h⟩ := bind_ok h
  simp only at h
  split at h
  · rename_i hid
    obtain ⟨q₁, hq₁, h⟩ := bind_ok h
    obtain ⟨q₂, hq₂, h⟩ := bind_ok h
    obtain ⟨⟨pos, q₃⟩, hq₃, h⟩ := bind_ok h
    obtain ⟨q₄, hq₄, h⟩ := bind_ok h
    obtain ⟨q₅, hq₅, h⟩ := bind_ok h
    obtain ⟨q₆, hq₆, h⟩ := bind_ok h
    obtain ⟨q₇, hq₇, h⟩ := bind_ok h
    obtain ⟨⟨i, q₈⟩, hq₈, h⟩ := bind_ok h
    obtain ⟨⟨i', q₉⟩, hq₉, h⟩ := bind_ok h
    obtain rfl := Except.ok.inj h
    obtain ⟨hlp, hE₂⟩ := slurp_ok hq₂ (by simp)
    have h₂ := ((advance_ok hq (by simp [hk])).trans (advance_ok hq₁ (by simp [hid]))).trans hE₂
    have ha₂ := h₂.skip.active ha
    obtain ⟨rfl, hs₃⟩ := funBegin_ok hq₃
    obtain ⟨ps, hps, hrp, hs₄⟩ := funParamList_ok hs₃ hq₄
    have hs₅ := hs₄.advance hq₅ (by simp [hrp])
    obtain ⟨lb, body, rb, hlb, hwf, hrb, hb⟩ := block_ok hx hs₅.active hs₅.inLoop hq₆
    have hf := funEnd_ok hs₅ ha₂.head_ne (by
      cases ps with
      | none => exact List.nodup_nil
      | some ps => exact (hps ps rfl).2) hwf hb rfl rfl rfl rfl hq₇
    refine ⟨.funStmt p.cur q.cur q₁.cur ps q₄.cur lb body rb,
      ⟨hk, hid, hlp, hps, hrp, hlb, hwf, hrb⟩, ?_⟩
    -- the name is stored as it would be loaded
    unfold load at hq₈
    split_ifs at hq₈
    · simp [throwErr] at hq₈
    · simp only [Except.ok.injEq, Prod.mk.injEq] at hq₈
      obtain ⟨rfl, rfl⟩ := hq₈
      simp only [loadToStore, Bool.false_eq_true, if_false, Except.ok.injEq, Prod.mk.injEq] at hq₉
      obtain ⟨rfl, rfl⟩ := hq₉
      exact fun_compiles h₂ (hf.cast (by simp))
  · simp [throwErrAt] at h

/-! ## Jumps and expression statements -/

theorem return_compiles {p q q' : Parser} {kw semi : Lexeme} {c : Nat}
    (hE : Emits p [kw, semi] [] [] q) (hc : addConstSteal q .nil = .ok (c, q')) :
    Compiles p (Stmt.returnStmt kw none semi).piece
      (emit (emit q' (opLoadConst c)) opReturn) := by
  obtain ⟨hE', hc⟩ := addConstSteal_ok hc
  have hR := (hE'.trans (emit_emits q' (.const hc))).trans
    (emit_emits _ (i := opReturn) (.plain rfl))
  exact (hE.trans hR).compiles returnNil_straight.unopened

theorem returnExpr_compiles {p q q₁ q₂ : Parser} {kw semi : Lexeme} {e : Expr}
    (hE : Emits p [kw] [] [] q) (he : Built q e q₁) (hE₂ : Emits q₁ [semi] [] [] q₂) :
    Compiles p (Stmt.returnStmt kw (some e) semi).piece (emit q₂ opReturn) := by
  have := (((hE.trans he.emits).trans hE₂).trans
    (emit_emits q₂ (i := opReturn) (.plain rfl))).compiles
      (by simpa using (e.code_straight.snoc rfl).unopened)
  refine this.cast ?_
  simp [Piece.emitted]

theorem returnStmt_ok (he : ExprSound expr) {b : Bool} {p p' : Parser} (hk : p.cur.kind = lkReturn)
    (h : returnStmt expr p = .ok p') : ∃ s : Stmt, s.Wf b ∧ Compiles p s.piece p' := by
  unfold returnStmt at h
  obtain ⟨q, hq, h⟩ := bind_ok h
  have hE := advance_ok hq (by simp [hk])
  split at h
  · rename_i hs
    obtain ⟨q₁, hq₁, h⟩ := bind_ok h
    obtain ⟨⟨c, q₂⟩, hq₂, h⟩ := bind_ok h
    obtain rfl := Except.ok.inj h
    exact ⟨.returnStmt p.cur none q.cur, ⟨hk, by simp, hs⟩,
      return_compiles (hE.trans (advance_ok hq₁ (by simp [hs]))) hq₂⟩
  · obtain ⟨q₁, hq₁, h⟩ := bind_ok h
    obtain ⟨q₂, hq₂, h⟩ := bind_ok h
    obtain rfl := Except.ok.inj h
    obtain ⟨e, hbe⟩ := he hq₁
    obtain ⟨hs, hE₂⟩ := slurp_ok hq₂ (by simp)
    exact ⟨.returnStmt p.cur (some e) q₁.cur, ⟨hk, by simpa using hbe.wf, hs⟩,
      returnExpr_compiles hE hbe hE₂⟩

/-- A `break`, recorded on the stack of its loop. -/
def pushBreak (p : Parser) : Parser :=
  { (postponeJump p).2 with stackBreak := (here p : Int) :: p.stackBreak }

/-- A `continue`, recorded on the stack of its loop. -/
def pushContinue (p : Parser) : Parser :=
  { (postponeJump p).2 with stackContinue := (here p : Int) :: p.stackContinue }

theorem break_compiles {p p' : Parser} {kw semi : Lexeme}
    (hE : Emits (pushBreak p) [kw, semi] [] [] p') :
    Compiles p (Stmt.breakStmt kw semi).piece p' :=
  (postponed_compiles p (a := .breakTo) fun _ => .breakTo).trans hE.skip

theorem continue_compiles {p p' : Parser} {kw semi : Lexeme}
    (hE : Emits (pushContinue p) [kw, semi] [] [] p') :
    Compiles p (Stmt.continueStmt kw semi).piece p' :=
  (postponed_compiles p (a := .continueTo) fun _ => .continueTo).trans hE.skip

theorem breakStmt_ok {b : Bool} {p p' : Parser} (hk : p.cur.kind = lkBreak) (hl : InLoop b p)
    (h : breakStmt p = .ok p') : ∃ s : Stmt, s.Wf b ∧ Compiles p s.piece p' := by
  unfold breakStmt at h
  split at h
  · simp [throwErrAt] at h
  · rename_i hne
    have hb : b = true := by
      by_contra hb
      exact hne (hl (by simpa using hb)).1
    obtain ⟨q, hq, h⟩ := bind_ok h
    obtain ⟨hs, hE⟩ := slurp_ok h (by simp)
    exact ⟨.breakStmt p.cur q.cur, ⟨hb, hk, hs⟩, break_compiles ((advance_ok hq (by
      change p.cur.kind ≠ lkEof
      simp [hk])).trans hE)⟩

theorem continueStmt_ok {b : Bool} {p p' : Parser} (hk : p.cur.kind = lkContinue) (hl : InLoop b p)
    (h : continueStmt p = .ok p') : ∃ s : Stmt, s.Wf b ∧ Compiles p s.piece p' := by
  unfold continueStmt at h
  split at h
  · simp [throwErrAt] at h
  · rename_i hne
    have hb : b = true := by
      by_contra hb
      exact hne (hl (by simpa using hb)).2
    obtain ⟨q, hq, h⟩ := bind_ok h
    obtain ⟨hs, hE⟩ := slurp_ok h (by simp)
    exact ⟨.continueStmt p.cur q.cur, ⟨hb, hk, hs⟩, continue_compiles ((advance_ok hq (by
      change p.cur.kind ≠ lkEof
      simp [hk])).trans hE)⟩

/-- An expression or assignment with its `;`. -/
theorem simple_compiles {p q p' : Parser} {s : Simple} {semi : Lexeme}
    (hc : Compiles p (s.piece semi) q) (hE : Emits q [semi] [] [] p') :
    Compiles p (Stmt.simple s semi).piece p' := by
  refine (hc.trans hE.skip).cast ?_
  simp [Piece.append, Piece.emitted, Simple.piece]

/-- One statement as a sequence. -/
theorem Compiles.single {s : Stmt} {p p' : Parser} (h : Compiles p s.piece p') :
    Compiles p (Stmts.cons s .nil).piece p' :=
  h.cast (by simp [Stmts.piece, Stmts.toks, Stmts.code, Stmts.mask, Stmts.braces, Stmts.decls,
    Stmts.funs])

/-- Every success of `stmt` follows at most one statement. -/
theorem stmt_sound (fuel : Nat) : StmtSound (Calx.stmt fuel) := by
  induction fuel with
  | zero => intro _ _ _ _ _ h; simp [Calx.stmt] at h
  | succ fuel ih =>
      intro b p p' ha hl h
      have he : ExprSound (Calx.expr fuel) := expr_sound fuel
      have one : (∃ s : Stmt, s.Wf b ∧ Compiles p s.piece p') →
          ∃ ss : Stmts, ss.Wf b ∧ Compiles p ss.piece p' := by
        rintro ⟨s, hs, hc⟩
        exact ⟨.cons s .nil, ⟨hs, trivial⟩, hc.single⟩
      rw [Calx.stmt] at h
      split at h
      · exact one (ifStmt_ok he ih ‹_› ha hl h)
      · exact one (whileStmt_ok he ih ‹_› ha h)
      · exact one (forStmt_ok he ih ‹_› ha h)
      · exact one (funStmt_ok ih ‹_› ha h)
      · rename_i hk
        exact one ⟨.empty p.cur, hk, (advance_ok h (by simp [hk])).skip⟩
      · exact one (returnStmt_ok he ‹_› h)
      · exact one (breakStmt_ok ‹_› hl h)
      · exact one (continueStmt_ok ‹_› hl h)
      · obtain rfl := Except.ok.inj h
        exact ⟨.nil, trivial, .refl p⟩
      · obtain rfl := Except.ok.inj h
        exact ⟨.nil, trivial, .refl p⟩
      · obtain ⟨q, hq, h⟩ := bind_ok h
        obtain ⟨s, hs, -, hc⟩ := exprOrAssignment_ok he hq
        obtain ⟨hk, hE⟩ := slurp_ok h (by simp)
        exact one ⟨.simple s q.cur, ⟨hs, hk⟩, simple_compiles hc hE⟩

/-! ## Programs -/

theorem parseLoop_ok (hx : StmtSound stmt) {fuel : Nat} {p p' : Parser} (ha : Active p)
    (hl : InLoop false p) (h : parseLoop stmt fuel p = .ok p') :
    ∃ body : Stmts, body.Wf false ∧ p'.cur.kind = lkEof ∧ Compiles p body.piece p' := by
  induction fuel generalizing p with
  | zero => simp [parseLoop] at h
  | succ fuel ih =>
      rw [parseLoop] at h
      obtain ⟨q, hq, h⟩ := bind_ok h
      obtain ⟨ss, hwf, hc⟩ := hx ha hl hq
      split at h
      · simp [throwErrAt] at h
      · rename_i hk
        obtain rfl := Except.ok.inj h
        exact ⟨ss, hwf, hk, hc⟩
      · obtain ⟨body, hwf', hk, hc'⟩ :=
          ih (hc.active ha) (hc.inLoop (ss.code_layout false hwf) hl) h
        exact ⟨ss.append body, Stmts.append_wf hwf hwf', hk,
          (hc.trans hc').cast (ss.append_piece body).symm⟩

end

end Calx
