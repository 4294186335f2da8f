import Calx.StmtSound
import Calx.FunExact

/-!
# Statements, exactly

Where the lexemes ahead are those of a statement of the documentation, `stmt` can
return only if the third clauses of its `for` loops are assignments and its
functions stay within their limits, and then it has read this statement and
emitted its code; under these conditions it does return where there is room.

## Implementation notes

Whether a third clause is an assignment is part of well-formedness. As in the
proof of soundness the recursive call is a variable.
-/

namespace Calx

open LexemeKind Instr Fallible

/-! ## What a statement is read as -/

section

variable [DeciBase]

/-- The functions of a piece stay within their limits. -/
def FunsFit (fs : List (Option Params × Stmts)) : Prop := ∀ f ∈ fs, FunFits f.1 f.2

theorem funsFit_nil : FunsFit [] := by
  intro f hf
  cases hf

theorem FunsFit.append {fs fs' : List (Option Params × Stmts)} (h : FunsFit fs)
    (h' : FunsFit fs') : FunsFit (fs ++ fs') := List.forall_mem_append.mpr ⟨h, h'⟩

theorem FunsFit.left {fs fs' : List (Option Params × Stmts)} (h : FunsFit (fs ++ fs')) :
    FunsFit fs := (List.forall_mem_append.mp h).1

theorem FunsFit.right {fs fs' : List (Option Params × Stmts)} (h : FunsFit (fs ++ fs')) :
    FunsFit fs' := (List.forall_mem_append.mp h).2

/-- The piece was read with room for it. -/
structure Reads (p : Parser) (x : Piece) (p' : Parser) : Prop where
  compiles : Compiles p x p'
  fits : FunsFit x.funs
  thrifty : Thrifty p p'

namespace Reads

variable {p p' p'' : Parser} {x y : Piece}

theorem trans (h : Reads p x p') (h' : Reads p' y p'') : Reads p (x.append y) p'' :=
  ⟨h.compiles.trans h'.compiles, h.fits.append h'.fits, h.thrifty.trans h'.thrifty⟩

theorem cast (h : Reads p x p') (hxy : x = y) : Reads p y p' := hxy ▸ h

theorem refl (p : Parser) : Reads p ⟨[], [], [], [], [], []⟩ p := ⟨.refl p, funsFit_nil, .refl p⟩

theorem ahead (h : Reads p x p') {ls : List Lexeme} (hp : p.toks = x.toks ++ ls) :
    p'.toks = ls := List.append_cancel_left (h.compiles.toks.symm.trans hp)

theorem clean (h : Reads p x p') (hp : p.Clean) : p'.Clean := by
  intro l hl
  refine hp l ?_
  rw [h.compiles.toks]
  exact List.mem_append_right _ hl

theorem room (h : Reads p x p') {n : Nat} (hp : p.Room (x.items.length + n)) : p'.Room n := by
  obtain ⟨new, hnew, hd⟩ := h.compiles.prog
  have hlen := hd.length_eq
  obtain ⟨h1, h2, h3⟩ := h.thrifty
  obtain ⟨h1', h2', h3'⟩ := hp
  rw [hnew, List.length_append] at h1 h2 h3
  exact ⟨by omega, by omega, by omega⟩

end Reads

/-- Lexemes that are read without emitting code. -/
theorem Emits.reads {p p' : Parser} {ts : List Lexeme} {br : List (Nat × Bool)}
    (h : Emits p ts [] br p') (hT : Thrifty p p') : Reads p (.emitted ts [] br) p' :=
  ⟨h.skip, funsFit_nil, hT⟩

end

/-- Inside a loop the innermost segments of the loop stacks are not those of a function. -/
def Looping (inLoop : Bool) (p : Parser) : Prop :=
  inLoop = true → p.stackBreak.headD (-1) ≠ -1 ∧ p.stackContinue.headD (-1) ≠ -1

theorem opens_nonneg (a : AInstr) (i : Nat) (l : List Item) : ∀ pos ∈ opens a i l, 0 ≤ pos := by
  induction l generalizing i with
  | nil => simp [opens]
  | cons r rs ih =>
      simp only [opens]
      split
      · exact List.forall_mem_cons.mpr ⟨Int.natCast_nonneg i, ih _⟩
      · exact ih _

/-- Further jumps on a stack do not make it a function's. -/
theorem headD_opens_ne {a : AInstr} {i : Nat} {l : List Item} {stack : List Int}
    (h : stack.headD (-1) ≠ -1) : ((opens a i l).reverse ++ stack).headD (-1) ≠ -1 := by
  cases hr : (opens a i l).reverse with
  | nil => exact h
  | cons pos rs =>
      have hmem : pos ∈ opens a i l := by
        rw [← List.mem_reverse, hr]
        exact List.mem_cons_self
      have := opens_nonneg a i l pos hmem
      simp only [List.cons_append, List.headD_cons]
      omega

section

variable [DeciBase]

theorem Compiles.looping {p p' : Parser} {x : Piece} (h : Compiles p x p') {b : Bool}
    (hp : Looping b p) : Looping b p' := by
  intro hb
  obtain ⟨h1, h2⟩ := hp hb
  rw [h.stackBreak, h.stackContinue]
  exact ⟨headD_opens_ne h1, headD_opens_ne h2⟩

omit [DeciBase] in
theorem looping_segment (p : Parser) : Looping true (loopSegmentBegin p) :=
  fun _ => by simp [loopSegmentBegin]

/-! ## Expressions and assignments -/

variable {x : Int → Parser → Res Parser} {N : Nat}

omit [DeciBase] in
theorem unemit_length {p : Parser} (h : p.prog ≠ []) :
    (unemit p).2.prog.length + 1 = p.prog.length := by
  have := List.length_pos_iff.mpr h
  simp only [unemit, List.length_dropLast]
  omega

omit [DeciBase] in
/-- The store of an assignment whose target is assignable. -/
theorem loadToStore_returns {T : Tables} {q : Parser} {i : Instr} {a : AInstr} {op : Lexeme}
    (hi : DenI T i a) (hk : op.kind = lkEq ∨ op.kind = lkColonEq)
    (ha : (assignInstr op.kind a).isSome = true) :
    ∃ j q', loadToStore q i (op.kind = lkColonEq) op = .ok (j, q') := by
  have hno : opAssignProps op.kind = none := by
    rcases hk with hk | hk
    · rw [hk]
      rfl
    · rw [hk]
      rfl
  cases hi with
  | plain hi =>
      cases i with
      | opLoadAt =>
          have heq : op.kind ≠ lkColonEq := by
            intro hce
            simp [assignInstr, hce] at ha
          simp only [loadToStore, heq, decide_false, Bool.false_eq_true, if_false]
          exact ⟨_, _, rfl⟩
      | _ => simp [assignInstr] at ha
  | load hx =>
      simp only [loadToStore]
      split
      · exact ⟨_, _, rfl⟩
      · exact ⟨_, _, rfl⟩
  | _ => simp [assignInstr] at ha

omit [DeciBase] in
/-- The modification of a compound assignment whose target is assignable. -/
theorem loadToModify_returns {T : Tables} {i : Instr} {a : AInstr} {op : Lexeme} (aop : Aop)
    (hi : DenI T i a) (ha : (assignInstr op.kind a).isSome = true) :
    ∃ j, loadToModify i aop op = .ok j := by
  cases hi with
  | plain hi =>
      cases i with
      | opLoadAt => exact ⟨_, rfl⟩
      | _ => simp [assignInstr] at ha
  | load hx => exact ⟨_, rfl⟩
  | _ => simp [assignInstr] at ha

/-- The right-hand side of an assignment, after the load of its target has been taken back. -/
theorem rhs_yields (hx : ExprYields x N) {ok : Prop} {p q : Parser} {e r : Expr}
    {op next : Lexeme} {rest : List Lexeme} (he : Built p e q) (hT : Thrifty p q)
    (htoks : p.toks = (e.toks ++ op :: r.toks) ++ next :: rest) (hp : p.Clean)
    (hr : r.Proper codePriorities) (hk : exprEnd next.kind = true)
    (hroom : ok → q.Room r.code.length) (hN : r.toks.length ≤ N) :
    ∃ q₁, advance (unemit q).2 = .ok q₁ ∧ Yields ok (x (-1) q₁) fun q₂ =>
      DenI q₂.tables (unemit q).1 e.lastInstr ∧ e.lastInstr.isStraight = true ∧
        Emits p (e.toks ++ op :: r.toks) (e.code.dropLast ++ r.code) (e.braces ++ r.braces) q₂ ∧
        ∀ {i : Instr} {l : Lexeme} {q₃ : Parser}, q₃.consts = q₂.consts → q₃.idents = q₂.idents →
          q₃.shapes = q₂.shapes → q₃.prog = q₂.prog → Thrifty p (emitAt q₃ i l) := by
  rw [List.append_assoc, List.cons_append] at htoks
  have hqt := he.emits.ahead htoks
  have hne : q.prog ≠ [] := by
    obtain ⟨new, hn, hd⟩ := he.emits.prog
    intro h
    rw [hn] at h
    obtain rfl := (List.append_eq_nil_iff.mp h).2
    exact e.code_ne_nil (List.forall₂_nil_left_iff.mp hd)
  obtain ⟨q₁, ha, hE, hT₁⟩ := advance_returns (p := (unemit q).2) hqt (by simp)
    (he.emits.clean hp)
  refine ⟨q₁, ha, (hx.low (hE.ahead hqt) (hE.clean (he.emits.clean hp)) hr.1 hr.2 hk ?_ hN).imp ?_⟩
  · intro h
    obtain ⟨c, lx, rfl⟩ := advance_eq ha
    exact ⟨(hroom h).consts, (hroom h).idents, (hroom h).shapes⟩
  · rintro q₂ ⟨hB, hT₂⟩
    obtain ⟨hi, hst, hem⟩ := rhs_built he hE hB
    refine ⟨hi, hst, hem, ?_⟩
    intro i l q₃ hc hid hsh hpr
    obtain ⟨c, lx, rfl⟩ := advance_eq ha
    have hlen := unemit_length hne
    obtain ⟨h1, h2, h3⟩ := hT
    obtain ⟨h1', h2', h3'⟩ := hT₂
    constructor
    · simp only [emitAt, emitAtLine, hc, hpr, List.length_append, List.length_singleton] at h1' ⊢
      simp only [unemit] at h1' hlen
      omega
    · simp only [emitAt, emitAtLine, hid, hpr, List.length_append, List.length_singleton] at h2' ⊢
      simp only [unemit] at h2' hlen
      omega
    · simp only [emitAt, emitAtLine, hsh, hpr, List.length_append, List.length_singleton] at h3' ⊢
      simp only [unemit] at h3' hlen
      omega

omit [DeciBase] in
theorem loadToStore_same {q q' : Parser} {i j : Instr} {b : Bool} {l : Lexeme}
    (h : loadToStore q i b l = .ok (j, q')) :
    q'.consts = q.consts ∧ q'.idents = q.idents ∧ q'.shapes = q.shapes ∧ q'.prog = q.prog := by
  unfold loadToStore at h
  split at h
  · split at h
    · obtain ⟨-, rfl⟩ := Prod.mk.inj (Except.ok.inj h)
      exact ⟨rfl, rfl, rfl, rfl⟩
    · obtain ⟨-, rfl⟩ := Prod.mk.inj (Except.ok.inj h)
      exact ⟨rfl, rfl, rfl, rfl⟩
  · split at h
    · simp [throwErrAt] at h
    · obtain ⟨-, rfl⟩ := Prod.mk.inj (Except.ok.inj h)
      exact ⟨rfl, rfl, rfl, rfl⟩
  · simp [throwErrAt] at h

omit [DeciBase] in
theorem exprEnd_of_assign {k : LexemeKind} (h : k.isAssign = true) : exprEnd k = true := by
  cases k <;> first | rfl | cases h

/-- `expr_or_assignment` in front of a `;` or of a closing parenthesis. -/
theorem exprOrAssignment_yields (hx : ExprYields x N) {ok : Prop} {p : Parser} {next : Lexeme}
    {rest : List Lexeme} (hk : next.kind = lkSemicolon ∨ next.kind = lkRparen) (hp : p.Clean) :
    ∀ {s : Simple}, p.toks = s.toks ++ next :: rest → s.Proper codePriorities →
      (ok → (s.isAssign = false → next.kind = lkSemicolon) ∧ p.Room (s.code next).length) →
      s.toks.length ≤ N →
      Yields ok (exprOrAssignment x p) fun p' => (s.isAssign = false → next.kind = lkSemicolon) ∧
        Compiles p (s.piece next) p' ∧ Thrifty p p'
  | .expr e, htoks, ⟨hwf, hg⟩, hok, hN => by
      have hend : exprEnd next.kind = true := by
        rcases hk with hk | hk
        · rw [hk]
          rfl
        · rw [hk]
          rfl
      unfold exprOrAssignment
      refine (hx.low htoks hp hwf hg hend (fun h => (hok h).2.mono (by simp [Simple.code]))
        hN).bind ?_
      rintro q ⟨hB, hT⟩
      obtain rfl := cur_of_toks (hB.emits.ahead htoks)
      rcases hk with hk | hk
      · simp only [hk, reduceCtorEq, or_self, if_false, if_true]
        exact .pure ⟨fun _ => trivial, print_compiles hB, hT.emitAt _ _⟩
      · simp only [hk, reduceCtorEq, or_self, if_false, opAssignProps]
        exact .fails fun h => by
          have := (hok h).1 rfl
          rw [hk] at this
          cases this
  | .assign lhs op rhs, htoks, ⟨⟨hwfl, hop, hwfr, hat⟩, hgl, hgr⟩, hok, hN => by
      have hend : exprEnd next.kind = true := by
        rcases hk with hk | hk
        · rw [hk]
          rfl
        · rw [hk]
          rfl
      have hpos := List.length_pos_iff.mpr lhs.code_ne_nil
      simp only [Simple.toks, List.length_append, List.length_cons] at hN htoks
      simp only [Simple.code, List.length_append, List.length_singleton,
        List.length_dropLast] at hok
      unfold exprOrAssignment
      have htoks' := htoks
      rw [List.append_assoc, List.cons_append] at htoks'
      refine (hx.low htoks' hp hwfl hgl (exprEnd_of_assign hop)
        (fun h => (hok h).2.mono (by omega)) (by omega)).bind ?_
      rintro q ⟨hB, hT⟩
      obtain rfl := cur_of_toks (hB.emits.ahead htoks')
      obtain ⟨q₁, ha, hr⟩ := rhs_yields hx hB hT htoks hp ⟨hwfr, hgr⟩ hend
        (fun h => hB.emits.room hT ((hok h).2.mono (by omega))) (by omega)
      by_cases hst : q.cur.kind = lkEq ∨ q.cur.kind = lkColonEq
      · simp only [hst, if_true]
        refine .step ha (hr.bind ?_)
        rintro q₂ ⟨hi, hstr, hem, hthr⟩
        obtain ⟨j, q₃, hls⟩ := loadToStore_returns (q := q₂) hi hst hat
        obtain ⟨h1, h2, h3, h4⟩ := loadToStore_same hls
        exact .step hls (.pure ⟨fun h => by simp [Simple.isAssign] at h,
          (assign_ok hst hwfl hwfr hem hi hstr hls next).2, hthr h1 h2 h3 h4⟩)
      · have hne : q.cur.kind ≠ lkSemicolon := by
          intro h
          rw [h] at hop
          cases hop
        obtain ⟨aop, haop⟩ : ∃ aop, opAssignProps q.cur.kind = some aop := by
          rw [not_or] at hst
          simpa [LexemeKind.isAssign, hst.1, hst.2, Option.isSome_iff_exists] using hop
        simp only [hst, if_false, hne, haop]
        refine .step ha (hr.bind ?_)
        rintro q₂ ⟨hi, hstr, hem, hthr⟩
        obtain ⟨j, hlm⟩ := loadToModify_returns aop hi hat
        exact .step hlm (.pure ⟨fun h => by simp [Simple.isAssign] at h,
          (modify_ok haop hwfl hwfr hem hi hstr hlm next).2, hthr rfl rfl rfl rfl⟩)

/-! ## Sequences and blocks -/

/-- The lexemes `ts` lie ahead in a function whose code is being recorded. -/
structure Meets (b : Bool) (ts : List Lexeme) (p : Parser) (ls : List Lexeme) : Prop where
  toks : p.toks = ts ++ ls
  clean : p.Clean
  active : Active p
  looping : Looping b p

theorem Meets.after {b : Bool} {ts ls : List Lexeme} {p p' : Parser} {y : Piece}
    (h : Meets b (y.toks ++ ts) p ls) (hr : Reads p y p') : Meets b ts p' ls :=
  ⟨hr.ahead (by rw [h.toks, List.append_assoc]), hr.clean h.clean, hr.compiles.active h.active,
    hr.compiles.looping h.looping⟩

/-- The kinds of lexemes that end a statement sequence or go on with the statement before. -/
def LexemeKind.isStop (k : LexemeKind) : Bool :=
  k = lkElif || k = lkElse || k = lkEof || k = lkRbrace

omit [DeciBase] in
theorem LexemeKind.ne_of_not_isStop {k m : LexemeKind} (h : k.isStop = false)
    (h' : m.isStop = true) : k ≠ m := by
  rintro rfl
  rw [h] at h'
  cases h'

omit [DeciBase] in
theorem not_isStop_of_starts {k : LexemeKind} (h : k.starts = true) : k.isStop = false := by
  cases k <;> first | rfl | cases h

theorem Simple.toks_head {s : Simple} (h : s.Wf) :
    ∃ t ts, s.toks = t :: ts ∧ t.kind.starts = true := by
  cases s with
  | expr e => exact Expr.toks_head h
  | assign lhs op rhs =>
      obtain ⟨t, ts, hts, hk⟩ := Expr.toks_head h.1
      exact ⟨t, _, by rw [Simple.toks, hts, List.cons_append], hk⟩

theorem Stmt.toks_head {tbl : Priorities} {b : Bool} {s : Stmt} (h : s.Proper tbl b) :
    ∃ t ts, s.toks = t :: ts ∧ t.kind.isStop = false := by
  have keyword : ∀ {t : Lexeme} {k : LexemeKind}, t.kind = k → k.isStop = false →
      t.kind.isStop = false := by
    rintro t k rfl hk
    exact hk
  cases s with
  | empty semi => exact ⟨semi, [], rfl, keyword h rfl⟩
  | simple s semi =>
      obtain ⟨t, ts, hts, hk⟩ := Simple.toks_head h.1.1
      exact ⟨t, _, by rw [Stmt.toks, hts, List.cons_append], not_isStop_of_starts hk⟩
  | ifStmt kw lp c rp lb body rb rest => exact ⟨kw, _, rfl, keyword h.1 rfl⟩
  | whileStmt kw lp c rp lb body rb => exact ⟨kw, _, rfl, keyword h.1 rfl⟩
  | forStmt kw lp pre semi1 cond semi2 post rp lb body rb =>
      exact ⟨kw, _, rfl, keyword h.1 rfl⟩
  | funStmt kw name lp ps rp lb body rb => exact ⟨kw, _, rfl, keyword h.1 rfl⟩
  | returnStmt kw e semi => exact ⟨kw, _, rfl, keyword h.1 rfl⟩
  | breakStmt kw semi => exact ⟨kw, _, rfl, keyword h.2.1 rfl⟩
  | continueStmt kw semi => exact ⟨kw, _, rfl, keyword h.2.1 rfl⟩

/-- What stands in front of a closing brace or the end: that, or the next statement. -/
theorem Stmts.toks_head {tbl : Priorities} {b : Bool} {ss : Stmts} (h : ss.Proper tbl b)
    (l : Lexeme) (ls : List Lexeme) :
    ss = .nil ∨ ∃ t ts, ss.toks ++ l :: ls = t :: ts ∧ t.kind.isStop = false := by
  cases ss with
  | nil => exact Or.inl rfl
  | cons s ss =>
      obtain ⟨t, ts, hts, hk⟩ := Stmt.toks_head h.1
      refine Or.inr ⟨t, ts ++ (ss.toks ++ l :: ls), ?_, hk⟩
      rw [Stmts.toks, hts, List.cons_append, List.cons_append, List.append_assoc]

variable {stmt : Parser → Res Parser}

/-- `stmt` on the statements of at most `N` lexemes that lie ahead. -/
def StmtYields (stmt : Parser → Res Parser) (N : Nat) : Prop :=
  ∀ {ok : Prop} {b : Bool} {s : Stmt} {p : Parser} {next : Lexeme} {rest : List Lexeme},
    Meets b s.toks p (next :: rest) → s.Proper codePriorities b → next.kind ≠ lkElif →
      next.kind ≠ lkElse → (ok → s.Wf b ∧ FunsFit s.funs ∧ p.Room s.code.length) →
      s.toks.length ≤ N → Yields ok (stmt p) fun p' => s.Wf b ∧ Reads p s.piece p'

/-- `stmt` consumes nothing in front of a closing brace or the end. -/
def Idles (stmt : Parser → Res Parser) : Prop :=
  ∀ p, p.cur.kind = lkRbrace ∨ p.cur.kind = lkEof → stmt p = .ok p

theorem Stmts.cons_piece (s : Stmt) (ss : Stmts) :
    (Stmts.cons s ss).piece = s.piece.append ss.piece := by
  simp [Stmts.piece, Stmt.piece, Piece.append, Stmts.toks, Stmts.code, Stmts.mask, Stmts.braces,
    Stmts.decls, Stmts.funs]

/-- The first statement of a sequence, with what is left to do behind it. -/
theorem StmtYields.first (hx : StmtYields stmt N) {ok : Prop} {b : Bool} {s : Stmt} {ss : Stmts}
    {p : Parser} {l : Lexeme} {ls : List Lexeme}
    (h : Meets b (Stmts.cons s ss).toks p (l :: ls))
    (hs : (Stmts.cons s ss).Proper codePriorities b)
    (hl : l.kind = lkRbrace ∨ l.kind = lkEof)
    (hok : ok → (Stmts.cons s ss).Wf b ∧ FunsFit (Stmts.cons s ss).funs ∧
      p.Room (Stmts.cons s ss).code.length)
    (hN : (Stmts.cons s ss).toks.length ≤ N) :
    Yields ok (stmt p) fun q => s.Wf b ∧ Reads p s.piece q ∧ Meets b ss.toks q (l :: ls) ∧
      (ok → ss.Wf b ∧ FunsFit ss.funs ∧ q.Room ss.code.length) := by
  simp only [Stmts.toks, List.length_append] at hN
  simp only [Stmts.funs, Stmts.code, List.length_append] at hok
  obtain ⟨t, ts, hts, hk⟩ : ∃ t ts, ss.toks ++ l :: ls = t :: ts ∧ t.kind ≠ lkElif ∧
      t.kind ≠ lkElse := by
    obtain rfl | ⟨t, ts, hts, hk⟩ := Stmts.toks_head hs.2 l ls
    · exact ⟨l, ls, rfl, by rcases hl with hl | hl <;> simp [hl]⟩
    · exact ⟨t, ts, hts, LexemeKind.ne_of_not_isStop hk rfl, LexemeKind.ne_of_not_isStop hk rfl⟩
  have hm : Meets b s.toks p (t :: ts) :=
    ⟨by rw [h.toks, Stmts.toks, List.append_assoc, hts], h.clean, h.active, h.looping⟩
  refine (hx hm hs.1 hk.1 hk.2 (fun h => ⟨(hok h).1.1, (hok h).2.1.left,
    (hok h).2.2.mono (by omega)⟩) (by omega)).imp ?_
  rintro q ⟨hwf, hR⟩
  exact ⟨hwf, hR, h.after hR, fun h => ⟨(hok h).1.2, (hok h).2.1.right, hR.room (hok h).2.2⟩⟩

theorem blockLoop_yields (hx : StmtYields stmt N) (hidle : Idles stmt) {ok : Prop} {b : Bool} :
    ∀ {ss : Stmts} {n : Nat} {p : Parser} {rb : Lexeme} {rest : List Lexeme},
      Meets b ss.toks p (rb :: rest) → rest ≠ [] → ss.Proper codePriorities b →
      rb.kind = lkRbrace → (ok → ss.Wf b ∧ FunsFit ss.funs ∧ p.Room ss.code.length) →
      ss.toks.length ≤ N → ss.toks.length < n →
      Yields ok (blockLoop stmt n p) fun p' => ss.Wf b ∧ Reads p (ss.blockPiece rb) p'
  | .nil, fuel, p, rb, rest, h, hne, _, hrb, _, _, hfuel => by
      obtain ⟨fuel, rfl⟩ : ∃ k, fuel = k + 1 := ⟨fuel - 1, by omega⟩
      obtain ⟨p', ha, hE, hT⟩ := advance_returns h.toks hne h.clean
      obtain rfl := cur_of_toks h.toks
      rw [blockLoop]
      refine .step (hidle p (Or.inl hrb)) ?_
      simp only [hrb]
      refine ⟨fun q hq => ?_, fun _ => ⟨p', ha⟩⟩
      obtain rfl := Except.ok.inj (ha.symm.trans hq)
      exact ⟨trivial, ((Reads.refl p).trans (hE.reads hT)).cast rfl⟩
  | .cons s ss, fuel, p, rb, rest, h, hne, hs, hrb, hok, hN, hfuel => by
      obtain ⟨fuel, rfl⟩ : ∃ k, fuel = k + 1 := ⟨fuel - 1, by omega⟩
      rw [blockLoop]
      refine (hx.first h hs (Or.inl hrb) hok hN).bind ?_
      rintro q ⟨hwf, hR, hm, hok'⟩
      have hlen : s.toks.length + ss.toks.length < fuel + 1 ∧
          s.toks.length + ss.toks.length ≤ N ∧ 0 < s.toks.length := by
        obtain ⟨t, ts, hts, -⟩ := Stmt.toks_head hs.1
        simp only [Stmts.toks, List.length_append] at hfuel hN
        exact ⟨hfuel, hN, by rw [hts]; exact Nat.succ_pos _⟩
      obtain rfl | ⟨t, ts, hts, hk⟩ := Stmts.toks_head hs.2 rb rest
      · obtain ⟨p', ha, hE, hT⟩ := advance_returns hm.toks hne hm.clean
        have hcur := cur_of_toks hm.toks
        simp only [← hcur, hrb]
        refine ⟨fun q' hq' => ?_, fun _ => ⟨p', ha⟩⟩
        obtain rfl := Except.ok.inj (ha.symm.trans hq')
        refine ⟨⟨hwf, trivial⟩, (hR.trans (hE.reads hT)).cast ?_⟩
        simp [Stmts.blockPiece, Stmts.piece, Stmt.piece, Piece.append, Piece.emitted, Stmts.toks,
          Stmts.code, Stmts.mask, Stmts.braces, Stmts.decls, Stmts.funs]
      · have hcur := cur_of_toks (hm.toks.trans hts)
        rw [hcur] at hk
        have hbr := LexemeKind.ne_of_not_isStop hk (m := lkRbrace) rfl
        have heof := LexemeKind.ne_of_not_isStop hk (m := lkEof) rfl
        have hgo := blockLoop_yields hx hidle (n := fuel) hm hne hs.2 hrb hok' (by omega)
          (by omega)
        split
        · exact absurd ‹_› heof
        · exact absurd ‹_› hbr
        · refine hgo.imp ?_
          rintro p' ⟨hwf', hR'⟩
          refine ⟨⟨hwf, hwf'⟩, (hR.trans hR').cast ?_⟩
          rw [Stmts.blockPiece, Stmts.blockPiece, Stmts.cons_piece]
          simp [Piece.append]

/-- A block of the documentation. -/
theorem block_yields (hx : StmtYields stmt N) (hidle : Idles stmt) {ok : Prop} {b : Bool}
    {body : Stmts} {fuel : Nat} {p : Parser} {lb rb : Lexeme} {rest : List Lexeme}
    (h : Meets b (lb :: (body.toks ++ [rb])) p rest) (hne : rest ≠ [])
    (hs : body.Proper codePriorities b) (hlb : lb.kind = lkLbrace) (hrb : rb.kind = lkRbrace)
    (hok : ok → body.Wf b ∧ FunsFit body.funs ∧ p.Room body.code.length)
    (hN : body.toks.length ≤ N) (hfuel : body.toks.length < fuel) :
    Yields ok (block stmt fuel p) fun p' => body.Wf b ∧ Reads p (body.bracedPiece lb rb) p' := by
  unfold block
  have htoks : p.toks = lb :: (body.toks ++ rb :: rest) := by rw [h.toks]; simp
  obtain ⟨q, hq, hE, hT⟩ := slurp_returns "expected '\x7b'" htoks hlb (by simp) h.clean
  obtain rfl := cur_of_toks htoks
  have hR := (hE.trans (Emits.brace q (p.cur.start, true))).reads
    (hT.trans (thrifty_brace q (p.cur.start, true)))
  have hm : Meets b body.toks { q with braces := q.braces ++ [(p.cur.start, true)] }
      (rb :: rest) :=
    ⟨hE.ahead htoks, hE.clean h.clean, hR.compiles.active h.active, hR.compiles.looping h.looping⟩
  refine .step hq ((blockLoop_yields hx hidle hm hne hs hrb (fun h => ⟨(hok h).1, (hok h).2.1,
    hR.room (by simpa [Piece.emitted] using (hok h).2.2)⟩) hN hfuel).imp ?_)
  rintro p' ⟨hwf, hR'⟩
  exact ⟨hwf, (hR.trans hR').cast
    (by simp [Stmts.bracedPiece, Stmts.blockPiece, Stmts.piece, Piece.append, Piece.emitted])⟩

/-! ## `if` -/

/-- The condition of a clause or of a loop that lies ahead behind its keyword, with the jump that
depends on it. -/
theorem header_yields (hx : ExprYields x N) {ok : Prop} {p : Parser} {kw lp rp : Lexeme}
    {c : Expr} {ls : List Lexeme} (htoks : p.toks = kw :: lp :: (c.toks ++ rp :: ls))
    (hne : ls ≠ []) (hp : p.Clean) (hlp : lp.kind = lkLparen) (hc : c.Proper codePriorities)
    (hrp : rp.kind = lkRparen) (hroom : ok → p.Room (c.code.length + 1))
    (hN : c.toks.length ≤ N) :
    ∃ q q₁, advance p = .ok q ∧ slurp q lkLparen "expected '('" = .ok q₁ ∧ here q₁ = here p ∧
      Yields ok (x (-1) q₁) fun q₂ => ∃ q₃,
        slurp (postponeJumpUnless q₂).2 lkRparen "expected ')'" = .ok q₃ ∧
        Reads p (headerPiece kw lp c rp) q₃ ∧
        (postponeJumpUnless q₂).1 = here p + c.code.length := by
  obtain ⟨q, ha, hE, hT⟩ := advance_returns htoks (by simp) hp
  have hqt := hE.ahead htoks
  obtain ⟨q₁, hs, hE₁, hT₁⟩ := slurp_returns "expected '('" hqt hlp (by simp) (hE.clean hp)
  have hE₀ : Emits p [kw, lp] [] [] q₁ := hE.trans hE₁
  have hT₀ := hT.trans hT₁
  have hq₁ := hE₁.ahead hqt
  refine ⟨q, q₁, ha, hs, hE₀.here_eq, (hx.low hq₁ (hE₀.clean hp) hc.1 hc.2 (by rw [hrp]; rfl)
    (fun h => hE₀.room hT₀ ((hroom h).mono (by simp))) hN).imp ?_⟩
  rintro q₂ ⟨hB, hT₂⟩
  have hq₂ := hB.emits.ahead hq₁
  obtain ⟨q₃, hs₃, hE₃, hT₃⟩ := slurp_returns (p := (postponeJumpUnless q₂).2) "expected ')'" hq₂
    hrp hne (hB.emits.clean (hE₀.clean hp))
  obtain ⟨hcomp, hpos⟩ := header_compiles hE₀ hB hE₃
  exact ⟨q₃, hs₃, ⟨hcomp, funsFit_nil,
    ((hT₀.trans hT₂).trans (thrifty_emitAtLine q₂ _ none)).trans hT₃⟩, hpos⟩

theorem ifOrElifClause_yields (he : ExprYields x N) (hx : StmtYields stmt N)
    (hidle : Idles stmt) {ok : Prop} {b : Bool} {fuel : Nat} {p : Parser}
    {kw lp rp lb rb : Lexeme} {c : Expr} {body : Stmts} {ls : List Lexeme}
    (h : Meets b (clausePiece kw lp c rp lb body rb).toks p ls) (hne : ls ≠ [])
    (hlp : lp.kind = lkLparen) (hc : c.Proper codePriorities) (hrp : rp.kind = lkRparen)
    (hlb : lb.kind = lkLbrace) (hs : body.Proper codePriorities b) (hrb : rb.kind = lkRbrace)
    (hok : ok → body.Wf b ∧ FunsFit body.funs ∧ p.Room (c.code.length + 1 + body.code.length))
    (hN : c.toks.length ≤ N) (hN' : body.toks.length ≤ N) (hfuel : body.toks.length < fuel) :
    Yields ok (ifOrElifClause x stmt fuel p) fun r => body.Wf b ∧
      Reads p (clausePiece kw lp c rp lb body rb) r.2 ∧ r.1 = here p + c.code.length := by
  have htoks : p.toks = kw :: lp :: (c.toks ++ rp :: (lb :: (body.toks ++ [rb]) ++ ls)) := by
    rw [h.toks]
    simp [clausePiece]
  obtain ⟨q, q₁, ha, hsl, -, hc'⟩ := header_yields he htoks (by simp) h.clean hlp hc hrp
    (fun h => (hok h).2.2.mono (by omega)) hN
  unfold ifOrElifClause
  refine .step ha (.step hsl (hc'.bind ?_))
  rintro q₂ ⟨q₃, hs₃, hR, hpos⟩
  have hm : Meets b (lb :: (body.toks ++ [rb])) q₃ ls :=
    Meets.after ⟨by rw [htoks]; simp [headerPiece], h.clean, h.active, h.looping⟩ hR
  refine .step hs₃ ((block_yields hx hidle hm hne hs hlb hrb (fun h => ⟨(hok h).1, (hok h).2.1,
    hR.room (by simpa [headerPiece] using (hok h).2.2)⟩) hN' hfuel).bind ?_)
  rintro q₄ ⟨hwf, hR'⟩
  exact .pure ⟨hwf, (hR.trans hR').cast (headerPiece_append _ _ _ _ _ _ _), hpos⟩

omit [DeciBase] in
theorem thrifty_nextClause (p : Parser) (prev : Nat) : Thrifty p (nextClause p prev) := by
  have h := thrifty_emitAtLine p (opJump 0) none
  refine ⟨?_, ?_, ?_⟩
  · simpa [nextClause_eq, fixupJump, pushIf, postponeJump, emit] using h.consts
  · simpa [nextClause_eq, fixupJump, pushIf, postponeJump, emit] using h.idents
  · simpa [nextClause_eq, fixupJump, pushIf, postponeJump, emit] using h.shapes

omit [DeciBase] in
theorem thrifty_fixupJump (p : Parser) (src dst : Nat) : Thrifty p (fixupJump p src dst) := by
  constructor
  · simp [fixupJump]
  · simp [fixupJump]
  · simp [fixupJump]

theorem Meets.nextClause {b : Bool} {ts ls : List Lexeme} {p : Parser} (h : Meets b ts p ls)
    (prev : Nat) : Meets b ts (nextClause p prev) ls :=
  ⟨h.toks, h.clean, h.active.nextClause prev, h.looping⟩

omit [DeciBase] in
theorem Parser.Room.nextClause {p : Parser} {n : Nat} (h : p.Room n) (prev : Nat) :
    (Calx.nextClause p prev).Room n := ⟨h.consts, h.idents, h.shapes⟩

/-- The clauses of an `if` statement after the first one. `A` and `B` are the code before and
after the conditional jump of the clause before them. -/
theorem clauses_yields (he : ExprYields x N) (hx : StmtYields stmt N) (hidle : Idles stmt)
    {ok : Prop} {b : Bool} {p₀ : Parser} {fuel' : Nat} : ∀ {rest : Else} {fuel : Nat} {p : Parser}
    {ts : List Lexeme} {A B : List Item} {m : List Bool} {br : List (Nat × Bool)}
    {dc : List Bytes} {fs : List (Option Params × Stmts)} {prev : Nat} {next : Lexeme}
    {ls : List Lexeme},
    Reads p₀ ⟨ts, A ++ .mine (.jumpUnless 0) none :: B, m, br, dc, fs⟩ p →
    prev = here p₀ + A.length → Meets b rest.toks p (next :: ls) → next.kind ≠ lkElif →
    next.kind ≠ lkElse → rest.Proper codePriorities b →
    (ok → rest.Wf b ∧ FunsFit rest.funs ∧ p.Room rest.code.length) → rest.toks.length ≤ N →
    rest.toks.length < fuel → rest.toks.length < fuel' →
    Yields ok (do
      let (prev, p) ← elifLoop x stmt fuel prev p
      ifEnd stmt fuel' prev p) fun p' => rest.Wf b ∧
        Reads p₀ ⟨ts ++ rest.toks, A ++ .mine (.jumpUnless
          (1 + B.length + if rest.openCode = [] then 0 else 1)) none :: (B ++ rest.openCode),
          m ++ rest.mask, br ++ rest.braces, dc ++ rest.decls, fs ++ rest.funs⟩ p'
  | .none, fuel, p, ts, A, B, m, br, dc, fs, prev, next, ls, hR, hprev, hm, hk, hk', _, _, _,
      hfuel, _ => by
      obtain ⟨fuel, rfl⟩ : ∃ k, fuel = k + 1 := ⟨fuel - 1, by omega⟩
      have hcur : next = p.cur := cur_of_toks hm.toks
      rw [hcur] at hk hk'
      rw [elifLoop, if_neg hk]
      refine .step rfl ?_
      change Yields ok (ifEnd stmt fuel' prev p) _
      rw [ifEnd, if_neg hk']
      refine .pure ⟨trivial, ⟨(lastClause_compiles hR.compiles hprev).cast ?_, ?_,
        hR.thrifty.trans (thrifty_fixupJump p prev (here p))⟩⟩
      · simp [Else.toks, Else.openCode, Else.mask, Else.braces, Else.decls, Else.funs]
      · simpa [Else.funs] using hR.fits
  | .elseClause kw lb body rb, fuel, p, ts, A, B, m, br, dc, fs, prev, next, ls, hR, hprev, hm, _,
      _, ⟨hkw, hlb, hbody, hrb⟩, hok, hN, hfuel, hfuel' => by
      obtain ⟨fuel, rfl⟩ : ∃ k, fuel = k + 1 := ⟨fuel - 1, by omega⟩
      simp only [Else.toks, List.length_cons, List.length_append, List.length_nil] at hN hfuel'
      simp only [Else.code, overCode, Else.funs, List.length_cons] at hok
      have htoks : p.toks = kw :: (lb :: (body.toks ++ [rb]) ++ next :: ls) := by
        rw [hm.toks]
        simp [Else.toks]
      have hcur := cur_of_toks htoks
      have hk₁ : p.cur.kind ≠ lkElif := by
        rw [← hcur, hkw]
        decide
      have hm' := hm.nextClause prev
      obtain ⟨q, ha, hE, hT⟩ := advance_returns (p := nextClause p prev) htoks (by simp) hm.clean
      have hq := hE.ahead htoks
      rw [elifLoop, if_neg hk₁]
      refine .step rfl ?_
      change Yields ok (ifEnd stmt fuel' prev p) _
      rw [ifEnd, if_pos (hcur ▸ hkw), elseClause]
      have hm₁ : Meets b (lb :: (body.toks ++ [rb])) q (next :: ls) :=
        ⟨hq, hE.clean hm.clean, hE.skip.active hm'.active, hE.skip.looping hm'.looping⟩
      refine .step ha ((block_yields hx hidle hm₁ (by simp) hbody hlb hrb
        (fun h => ⟨(hok h).1.2.2.1, (hok h).2.1, hE.room hT
          (((hok h).2.2.nextClause prev).mono (by simp))⟩) (by omega) (by omega)).imp ?_)
      rintro p' ⟨hwf, hR'⟩
      exact ⟨⟨hkw, hlb, hwf, hrb⟩, elseClause_compiles hR.compiles hprev hE hR'.compiles,
        hR.fits.append hR'.fits,
        ((hR.thrifty.trans (thrifty_nextClause p prev)).trans hT).trans hR'.thrifty⟩
  | .elifClause kw lp c rp lb body rb rest, fuel, p, ts, A, B, m, br, dc, fs, prev, next, ls, hR,
      hprev, hm, hn, hn', ⟨hkw, hlp, hc, hrp, hlb, hbody, hrb, hrest⟩, hok, hN, hfuel, hfuel' => by
      obtain ⟨fuel, rfl⟩ : ∃ k, fuel = k + 1 := ⟨fuel - 1, by omega⟩
      simp only [Else.toks, List.length_cons, List.length_append] at hN hfuel hfuel'
      simp only [Else.code, overCode, clauseCode, Else.funs, List.length_cons,
        List.length_append] at hok
      have htoks : p.toks = (clausePiece kw lp c rp lb body rb).toks ++
          (rest.toks ++ next :: ls) := by
        rw [hm.toks]
        simp [Else.toks, clausePiece]
      have hk₁ : p.cur.kind = lkElif := by
        rw [← cur_of_toks htoks, hkw]
      have hm₁ : Meets b (clausePiece kw lp c rp lb body rb).toks (nextClause p prev)
          (rest.toks ++ next :: ls) :=
        ⟨htoks, hm.clean, hm.active.nextClause prev, hm.looping⟩
      rw [elifLoop, if_pos hk₁, bind_assoc]
      refine (ifOrElifClause_yields he hx hidle hm₁ (by simp) hlp hc hrp hlb hbody hrb
        (fun h => ⟨(hok h).1.2.2.2.2.2.1, (hok h).2.1.left,
          ((hok h).2.2.nextClause prev).mono (by omega)⟩) (by omega) (by omega) (by omega)).bind ?_
      rintro ⟨pos, q⟩ ⟨hwf, hR', hpos⟩
      obtain ⟨hcomp, hprev'⟩ := elifClause_compiles hR.compiles hprev hR'.compiles hpos
      have hall : Reads p₀ _ q := ⟨hcomp, hR.fits.append hR'.fits,
        (hR.thrifty.trans (thrifty_nextClause p prev)).trans hR'.thrifty⟩
      have hm₂ : Meets b rest.toks q (next :: ls) :=
        ⟨hR'.ahead htoks, hR'.clean hm.clean, hR'.compiles.active hm₁.active,
          hR'.compiles.looping hm₁.looping⟩
      refine (clauses_yields he hx hidle hall hprev' hm₂ hn hn' hrest (fun h =>
        ⟨(hok h).1.2.2.2.2.2.2.2, (hok h).2.1.right, hR'.room
          (((hok h).2.2.nextClause prev).mono (by simp [clausePiece]; omega))⟩) (by omega)
        (by omega) (by omega)).imp ?_
      rintro p' ⟨hwf', hR''⟩
      refine ⟨⟨hkw, hlp, hc.1, hrp, hlb, hwf, hrb, hwf'⟩, hR''.cast ?_⟩
      simp [clausePiece, clauseCode, Else.toks, Else.openCode, Else.mask, Else.braces, Else.decls,
        Else.funs]

omit [DeciBase] in
theorem thrifty_segmentEndFixup (p : Parser) (dst : Nat) (l : List Int) :
    Thrifty p (segmentEndFixup p dst l).1 := by
  induction l generalizing p with
  | nil => exact .refl p
  | cons pos l ih =>
      rw [segmentEndFixup]
      split
      · exact .refl p
      · exact (thrifty_fixupJump p _ dst).trans (ih _)

omit [DeciBase] in
theorem thrifty_ifSegmentEnd (p : Parser) (dst : Nat) : Thrifty p (ifSegmentEnd p dst) :=
  (thrifty_segmentEndFixup p dst p.stackIf).trans ⟨le_rfl, le_rfl, le_rfl⟩

omit [DeciBase] in
/-- The clauses of an `if` statement behind the first one, up to its end. -/
theorem ifStmt_eq (x : Int → Parser → Res Parser) (stmt : Parser → Res Parser) (fuel : Nat)
    (p : Parser) :
    ifStmt x stmt fuel p = (do
      let r ← ifOrElifClause x stmt fuel (ifSegmentBegin p)
      let q ← (do
        let (prev, p) ← elifLoop x stmt fuel r.1 r.2
        ifEnd stmt fuel prev p)
      .ok (ifSegmentEnd q (here q))) := by
  simp only [bind_assoc]
  rfl

theorem ifStmt_yields (he : ExprYields x N) (hx : StmtYields stmt N) (hidle : Idles stmt)
    {ok : Prop} {b : Bool} {fuel : Nat} {p : Parser} {kw lp rp lb rb next : Lexeme} {c : Expr}
    {body : Stmts} {rest : Else} {ls : List Lexeme}
    (h : Meets b (Stmt.ifStmt kw lp c rp lb body rb rest).toks p (next :: ls))
    (hs : (Stmt.ifStmt kw lp c rp lb body rb rest).Proper codePriorities b)
    (hk : next.kind ≠ lkElif) (hk' : next.kind ≠ lkElse)
    (hok : ok → (Stmt.ifStmt kw lp c rp lb body rb rest).Wf b ∧
      FunsFit (Stmt.ifStmt kw lp c rp lb body rb rest).funs ∧
      p.Room (Stmt.ifStmt kw lp c rp lb body rb rest).code.length)
    (hN : (Stmt.ifStmt kw lp c rp lb body rb rest).toks.length ≤ N + 1)
    (hfuel : (Stmt.ifStmt kw lp c rp lb body rb rest).toks.length ≤ fuel) :
    Yields ok (ifStmt x stmt fuel p) fun p' =>
      (Stmt.ifStmt kw lp c rp lb body rb rest).Wf b ∧
        Reads p (Stmt.ifStmt kw lp c rp lb body rb rest).piece p' := by
  obtain ⟨hkw, hlp, hc, hrp, hlb, hbody, hrb, hrest⟩ := hs
  simp only [Stmt.toks, List.length_cons, List.length_append] at hN hfuel
  simp only [Stmt.funs, Stmt.code, clauseCode, List.length_cons, List.length_append] at hok
  have htoks : p.toks = (clausePiece kw lp c rp lb body rb).toks ++
      (rest.toks ++ next :: ls) := by
    rw [h.toks]
    simp [Stmt.toks, clausePiece]
  have hm₁ : Meets b (clausePiece kw lp c rp lb body rb).toks (ifSegmentBegin p)
      (rest.toks ++ next :: ls) := ⟨htoks, h.clean, h.active, h.looping⟩
  have hbegin : ∀ {n : Nat}, p.Room n → (ifSegmentBegin p).Room n :=
    fun h => ⟨h.consts, h.idents, h.shapes⟩
  rw [ifStmt_eq]
  refine (ifOrElifClause_yields he hx hidle hm₁ (by simp) hlp hc hrp hlb hbody hrb
    (fun h => ⟨(hok h).1.2.2.2.2.2.1, (hok h).2.1.left,
      hbegin ((hok h).2.2.mono (by omega))⟩) (by omega) (by omega) (by omega)).bind ?_
  rintro ⟨pos, q⟩ ⟨hwf, hR, hpos⟩
  have hm₂ : Meets b rest.toks q (next :: ls) :=
    ⟨hR.ahead htoks, hR.clean h.clean, hR.compiles.active hm₁.active,
      hR.compiles.looping hm₁.looping⟩
  refine (clauses_yields he hx hidle (A := c.code) (B := body.code) hR hpos hm₂ hk hk' hrest
    (fun h => ⟨(hok h).1.2.2.2.2.2.2.2, (hok h).2.1.right, hR.room
      (hbegin ((hok h).2.2.mono (by simp [clausePiece]; omega)))⟩) (by omega) (by omega)
    (by omega)).bind ?_
  rintro p' ⟨hwf', hR'⟩
  refine .pure ⟨⟨hkw, hlp, hc.1, hrp, hlb, hwf, hrb, hwf'⟩, if_compiles hwf hwf' hR'.compiles, ?_,
    ?_⟩
  · simpa [Stmt.piece, Stmt.funs, clausePiece] using hR'.fits
  · have hT : Thrifty p (ifSegmentBegin p) := ⟨le_rfl, le_rfl, le_rfl⟩
    exact (hT.trans hR'.thrifty).trans (thrifty_ifSegmentEnd p' (here p'))

/-! ## Loops -/

omit [DeciBase] in
theorem thrifty_loopSegmentBegin (p : Parser) : Thrifty p (loopSegmentBegin p) :=
  ⟨le_rfl, le_rfl, le_rfl⟩

omit [DeciBase] in
theorem Parser.Room.loopSegmentBegin {p : Parser} {n : Nat} (h : p.Room n) :
    (Calx.loopSegmentBegin p).Room n := ⟨h.consts, h.idents, h.shapes⟩

omit [DeciBase] in
theorem thrifty_loopSegmentEnd (p : Parser) (brk cnt : Nat) :
    Thrifty p (loopSegmentEnd p brk cnt) :=
  ((thrifty_segmentEndFixup p brk p.stackBreak).trans
    (thrifty_segmentEndFixup _ cnt _)).trans ⟨le_rfl, le_rfl, le_rfl⟩

omit [DeciBase] in
theorem thrifty_emitJumpTo (p : Parser) (dst : Nat) : Thrifty p (emitJumpTo p dst) := by
  rw [emitJumpTo_eq]
  exact thrifty_emitAtLine p _ none

theorem whileStmt_yields (he : ExprYields x N) (hx : StmtYields stmt N) (hidle : Idles stmt)
    {ok : Prop} {b : Bool} {fuel : Nat} {p : Parser} {kw lp rp lb rb : Lexeme} {c : Expr}
    {body : Stmts} {ls : List Lexeme}
    (h : Meets b (Stmt.whileStmt kw lp c rp lb body rb).toks p ls) (hne : ls ≠ [])
    (hs : (Stmt.whileStmt kw lp c rp lb body rb).Proper codePriorities b)
    (hok : ok → (Stmt.whileStmt kw lp c rp lb body rb).Wf b ∧
      FunsFit (Stmt.whileStmt kw lp c rp lb body rb).funs ∧
      p.Room (Stmt.whileStmt kw lp c rp lb body rb).code.length)
    (hN : (Stmt.whileStmt kw lp c rp lb body rb).toks.length ≤ N + 1)
    (hfuel : (Stmt.whileStmt kw lp c rp lb body rb).toks.length ≤ fuel) :
    Yields ok (whileStmt x stmt fuel p) fun p' =>
      (Stmt.whileStmt kw lp c rp lb body rb).Wf b ∧
        Reads p (Stmt.whileStmt kw lp c rp lb body rb).piece p' := by
  obtain ⟨hkw, hlp, hc, hrp, hlb, hbody, hrb⟩ := hs
  simp only [Stmt.toks, List.length_cons, List.length_append] at hN hfuel
  simp only [Stmt.funs, Stmt.code, whileCode, patch_length, List.length_cons,
    List.length_append] at hok
  have htoks : p.toks = kw :: lp :: (c.toks ++ rp :: (lb :: (body.toks ++ [rb]) ++ ls)) := by
    rw [h.toks]
    simp [Stmt.toks]
  obtain ⟨q, q₁, ha, hsl, hhere, hc'⟩ := header_yields (p := loopSegmentBegin p) he htoks (by simp)
    h.clean hlp hc hrp (fun h => ((hok h).2.2.mono (by omega)).loopSegmentBegin) (by omega)
  unfold whileStmt
  refine .step ha (.step hsl (hc'.bind ?_))
  rintro q₂ ⟨q₃, hs₃, hR, hpos⟩
  have hm : Meets true (lb :: (body.toks ++ [rb])) q₃ ls :=
    Meets.after (p := loopSegmentBegin p)
      ⟨htoks.trans (by simp [headerPiece]), h.clean, h.active, looping_segment p⟩ hR
  refine .step hs₃ ((block_yields hx hidle hm hne hbody hlb hrb (fun h =>
    ⟨(hok h).1.2.2.2.2.2.1, (hok h).2.1, hR.room
      ((hok h).2.2.mono (by simp [headerPiece]; omega)).loopSegmentBegin⟩) (by omega)
        (by omega)).bind ?_)
  rintro q₄ ⟨hwf, hR'⟩
  refine .pure ⟨⟨hkw, hlp, hc.1, hrp, hlb, hwf, hrb⟩,
    while_compiles hR.compiles hR'.compiles hhere hpos, hR'.fits, ?_⟩
  exact ((((thrifty_loopSegmentBegin p).trans hR.thrifty).trans hR'.thrifty).trans
    ((thrifty_emitJumpTo q₄ _).trans (thrifty_fixupJump _ _ _))).trans
      (thrifty_loopSegmentEnd _ _ _)

theorem forClause_yields (he : ExprYields x N) {ok : Prop} {p : Parser} {next : Lexeme}
    {rest : List Lexeme} {cl : Option Simple} (htoks : p.toks = (cl.map Simple.toks).getD [] ++
      next :: rest) (hp : p.Clean) (hk : next.kind = lkSemicolon ∨ next.kind = lkRparen)
    (hs : ∀ s ∈ cl, s.Proper codePriorities)
    (hok : ok → (∀ s ∈ cl, s.isAssign = false → next.kind = lkSemicolon) ∧
      p.Room ((cl.map (Simple.code next)).getD []).length)
    (hN : ((cl.map Simple.toks).getD []).length ≤ N) :
    Yields ok (forClause x next.kind p) fun p' =>
      (∀ s ∈ cl, s.isAssign = false → next.kind = lkSemicolon) ∧
        Reads p (Simple.optPiece next cl) p' := by
  unfold forClause
  cases cl with
  | none =>
      rw [if_pos (cur_of_toks htoks ▸ rfl)]
      exact .pure ⟨by simp, .refl p⟩
  | some s =>
      have htoks : p.toks = s.toks ++ next :: rest := htoks
      obtain ⟨t, ts, hts, hstart⟩ := Simple.toks_head (hs s rfl).1
      have hne : p.cur.kind ≠ next.kind := by
        rw [← cur_of_toks (htoks.trans (by rw [hts, List.cons_append]))]
        rcases hk with hk | hk
        · rw [hk]
          exact LexemeKind.ne_of_starts hstart rfl
        · rw [hk]
          exact LexemeKind.ne_of_starts hstart rfl
      rw [if_neg hne]
      refine (exprOrAssignment_yields he hk hp htoks (hs s rfl)
        (fun h => ⟨(hok h).1 s rfl, (hok h).2⟩) hN).imp ?_
      rintro p' ⟨hassign, hc, hT⟩
      refine ⟨?_, hc, funsFit_nil, hT⟩
      rintro s' ⟨⟩
      exact hassign

theorem forCond_yields (he : ExprYields x N) {ok : Prop} {p : Parser} {next : Lexeme}
    {rest : List Lexeme} {cond : Option Expr} (htoks : p.toks = (cond.map Expr.toks).getD [] ++
      next :: rest) (hp : p.Clean) (hk : next.kind = lkSemicolon)
    (hc : ∀ c ∈ cond, c.Proper codePriorities) (hok : ok → p.Room (condOpen cond).length)
    (hN : ((cond.map Expr.toks).getD []).length ≤ N) :
    Yields ok (forCond x p) fun r =>
      r.1 = cond.map (fun e => here p + e.code.length) ∧ Reads p (condPiece cond) r.2 := by
  unfold forCond
  cases cond with
  | none =>
      rw [if_pos (cur_of_toks htoks ▸ hk)]
      exact .pure ⟨rfl, .refl p⟩
  | some c =>
      have htoks : p.toks = c.toks ++ next :: rest := htoks
      have hstart := cur_starts (hc c rfl).1 htoks
      rw [if_neg (LexemeKind.ne_of_starts hstart rfl)]
      refine (he.low htoks hp (hc c rfl).1 (hc c rfl).2 (by rw [hk]; rfl)
        (fun h => (hok h).mono (by simp [condOpen])) hN).bind ?_
      rintro q ⟨hB, hT⟩
      refine .pure ⟨?_, cond_compiles hB, funsFit_nil, hT.trans (thrifty_emitAtLine q _ none)⟩
      simp [hB.emits.here_eq]

omit [DeciBase] in
theorem thrifty_rotate (p : Parser) {i j n : Nat} (hij : i ≤ j) :
    Thrifty p
      { p with prog :=
        p.prog.take i ++ tiRotateLeft ((p.prog.drop i).take (j - i)) n ++ p.prog.drop j } := by
  have hlen : p.prog.length ≤ (p.prog.take i ++
      tiRotateLeft ((p.prog.drop i).take (j - i)) n ++ p.prog.drop j).length := by
    simp only [tiRotateLeft, tiReverse, List.length_append, List.length_reverse,
      List.length_take, List.length_drop]
    omega
  exact ⟨Nat.add_le_add_left hlen _, Nat.add_le_add_left hlen _, Nat.add_le_add_left hlen _⟩

omit [DeciBase] in
theorem thrifty_fixupCondJump (p : Parser) (j : Option Nat) (dst : Nat) :
    Thrifty p (fixupCondJump p j dst) := by
  cases j with
  | none => exact .refl p
  | some src => exact thrifty_fixupJump p src dst

theorem forStmt_yields (he : ExprYields x N) (hx : StmtYields stmt N) (hidle : Idles stmt)
    {ok : Prop} {b : Bool} {fuel : Nat} {p : Parser} {kw lp semi₁ semi₂ rp lb rb : Lexeme}
    {pre post : Option Simple} {cond : Option Expr} {body : Stmts} {ls : List Lexeme}
    (h : Meets b (Stmt.forStmt kw lp pre semi₁ cond semi₂ post rp lb body rb).toks p ls)
    (hne : ls ≠ [])
    (hs : (Stmt.forStmt kw lp pre semi₁ cond semi₂ post rp lb body rb).Proper codePriorities b)
    (hok : ok → (Stmt.forStmt kw lp pre semi₁ cond semi₂ post rp lb body rb).Wf b ∧
      FunsFit (Stmt.forStmt kw lp pre semi₁ cond semi₂ post rp lb body rb).funs ∧
      p.Room (Stmt.forStmt kw lp pre semi₁ cond semi₂ post rp lb body rb).code.length)
    (hN : (Stmt.forStmt kw lp pre semi₁ cond semi₂ post rp lb body rb).toks.length ≤ N + 1)
    (hfuel : (Stmt.forStmt kw lp pre semi₁ cond semi₂ post rp lb body rb).toks.length ≤ fuel) :
    Yields ok (forStmt x stmt fuel p) fun p' =>
      (Stmt.forStmt kw lp pre semi₁ cond semi₂ post rp lb body rb).Wf b ∧
        Reads p (Stmt.forStmt kw lp pre semi₁ cond semi₂ post rp lb body rb).piece p' := by
  obtain ⟨hkw, hlp, hpre, hsemi₁, hcond, hsemi₂, hpost, hrp, hlb, hbody, hrb⟩ := hs
  simp only [Stmt.toks, List.length_cons, List.length_append] at hN hfuel
  simp only [Stmt.funs, Stmt.code, forCode, patch_length, List.length_cons, List.length_append,
    ← condOpen_length, List.length_nil] at hok
  have htoks : p.toks = [kw, lp] ++ ((pre.map Simple.toks).getD [] ++ semi₁ ::
      ((cond.map Expr.toks).getD [] ++ semi₂ :: ((post.map Simple.toks).getD [] ++
        rp :: (lb :: (body.toks ++ [rb]) ++ ls)))) := by
    rw [h.toks]
    simp [Stmt.toks]
  obtain ⟨q, ha, hE, hT⟩ := advance_returns (p := loopSegmentBegin p) htoks (by simp) h.clean
  obtain ⟨q₁, hs₁, hE', hT'⟩ := slurp_returns "expected '('" (hE.ahead htoks) hlp (by simp)
    (hE.clean h.clean)
  have hE₁ : Emits (loopSegmentBegin p) [kw, lp] [] [] q₁ := hE.trans hE'
  have hR₁ := hE₁.reads (hT.trans hT')
  have ht₁ := hE₁.ahead htoks
  have hc₁ := hE₁.clean h.clean
  have hr₁ : ok → q₁.Room (((pre.map (Simple.code semi₁)).getD []).length +
      ((condOpen cond).length + (body.code.length +
        (((post.map (Simple.code rp)).getD []).length + 1)))) := fun h =>
    hR₁.room (by simpa [Piece.emitted] using (hok h).2.2.loopSegmentBegin)
  unfold forStmt
  refine .step ha (.step hs₁ ?_)
  -- the first clause
  have hcl₁ := forClause_yields he ht₁ hc₁ (Or.inl hsemi₁) hpre
    (fun h => ⟨fun _ _ _ => hsemi₁, (hr₁ h).mono (Nat.le_add_right _ _)⟩) (by omega)
  rw [hsemi₁] at hcl₁
  refine hcl₁.bind ?_
  rintro q₂ ⟨-, hR₂⟩
  have ht₂ := hR₂.ahead ht₁
  obtain ⟨q₃, hs₃, hE₃, hT₃⟩ := slurp_returns "expected ';'" ht₂ hsemi₁ (by simp) (hR₂.clean hc₁)
  have hR₃ := hR₂.trans (hE₃.reads hT₃)
  have ht₃ := hE₃.ahead ht₂
  have hc₃ := hR₃.clean hc₁
  have hr₃ : ok → q₃.Room ((condOpen cond).length + (body.code.length +
      (((post.map (Simple.code rp)).getD []).length + 1))) := fun h => hR₃.room
    (by simpa [Piece.append, Piece.emitted, Simple.optPiece] using hr₁ h)
  refine .step hs₃ ?_
  -- the second clause
  refine (forCond_yields he ht₃ hc₃ hsemi₂ hcond (fun h => (hr₃ h).mono (Nat.le_add_right _ _))
    (by omega)).bind ?_
  rintro ⟨j, q₄⟩ ⟨hj, hR₄⟩
  have ht₄ := hR₄.ahead ht₃
  obtain ⟨q₅, hs₅, hE₅, hT₅⟩ := slurp_returns "expected ';'" ht₄ hsemi₂ (by simp) (hR₄.clean hc₃)
  have hR₅ := hR₄.trans (hE₅.reads hT₅)
  have ht₅ := hE₅.ahead ht₄
  have hc₅ := hR₅.clean hc₃
  have hr₅ : ok → q₅.Room (body.code.length +
      (((post.map (Simple.code rp)).getD []).length + 1)) := fun h => hR₅.room
    (by simpa [Piece.append, Piece.emitted, condPiece] using hr₃ h)
  refine .step hs₅ ?_
  -- the third clause
  have hcl₅ := forClause_yields he ht₅ hc₅ (Or.inr hrp) hpost (fun (h : ok) => ⟨fun s hs hna =>
    by simp [((hok h).1.2.2.2.2.2.2.1 s hs).2] at hna, (hr₅ h).mono (by omega)⟩) (by omega)
  rw [hrp] at hcl₅
  refine hcl₅.bind ?_
  rintro q₆ ⟨hassign, hR₆⟩
  have ht₆ := hR₆.ahead ht₅
  obtain ⟨q₇, hs₇, hE₇, hT₇⟩ := slurp_returns "expected ')'" ht₆ hrp (by simp) (hR₆.clean hc₅)
  have hR₇ := hR₆.trans (hE₇.reads hT₇)
  have hm : Meets true (lb :: (body.toks ++ [rb])) q₇ ls := by
    have hall := ((hR₁.trans hR₃).trans hR₅).trans hR₇
    exact ⟨hE₇.ahead ht₆, hall.clean h.clean, hall.compiles.active h.active,
      hall.compiles.looping (looping_segment p)⟩
  refine .step hs₇ ?_
  -- the body
  refine (block_yields hx hidle hm hne hbody hlb hrb (fun h => ⟨(hok h).1.2.2.2.2.2.2.2.2.2.1,
    (hok h).2.1, hR₇.room ((hr₅ h).mono (by
      simp [Piece.append, Piece.emitted, Simple.optPiece]
      omega))⟩) (by omega) (by omega)).bind ?_
  rintro q₈ ⟨hwf, hR₈⟩
  have hle : here q₅ ≤ here q₈ := by
    have h₇ := hR₇.compiles.here_eq
    have h₈ := hR₈.compiles.here_eq
    omega
  refine .pure ⟨⟨hkw, hlp, fun s hs => (hpre s hs).1, hsemi₁, fun c hc => (hcond c hc).1, hsemi₂,
    fun s hs => ⟨(hpost s hs).1, ?_⟩, hrp, hlb, hwf, hrb⟩,
    for_compiles hwf hE₁ hR₂.compiles hE₃ hR₄.compiles hj hE₅ hR₆.compiles hE₇ hR₈.compiles rfl,
    hR₈.fits, ?_⟩
  · by_contra hna
    exact absurd (hassign s hs (by simpa using hna)) (by decide)
  · exact ((((((thrifty_loopSegmentBegin p).trans hR₁.thrifty).trans hR₃.thrifty).trans
      hR₅.thrifty).trans hR₇.thrifty).trans hR₈.thrifty).trans
        ((((thrifty_emitJumpTo q₈ _).trans (thrifty_fixupCondJump _ _ _)).trans
          (thrifty_loopSegmentEnd _ _ _)).trans (thrifty_rotate _ hle))

/-! ## Functions -/

omit [DeciBase] in
theorem loadToStore_load {q : Parser} {c : Nat} {l : Lexeme} :
    loadToStore q (opLoadSymbolic c) false l = .ok (opStoreSymbolic c, q) := rfl

theorem funStmt_yields (hx : StmtYields stmt N) (hidle : Idles stmt) {ok : Prop} {b : Bool}
    {fuel : Nat} {p : Parser} {kw name lp rp lb rb : Lexeme} {ps : Option Params} {body : Stmts}
    {ls : List Lexeme} (h : Meets b (Stmt.funStmt kw name lp ps rp lb body rb).toks p ls)
    (hne : ls ≠ []) (hs : (Stmt.funStmt kw name lp ps rp lb body rb).Proper codePriorities b)
    (hok : ok → (Stmt.funStmt kw name lp ps rp lb body rb).Wf b ∧
      FunsFit (Stmt.funStmt kw name lp ps rp lb body rb).funs ∧
      p.Room (Stmt.funStmt kw name lp ps rp lb body rb).code.length)
    (hN : (Stmt.funStmt kw name lp ps rp lb body rb).toks.length ≤ N + 1)
    (hfuel : (Stmt.funStmt kw name lp ps rp lb body rb).toks.length ≤ fuel) :
    Yields ok (funStmt stmt fuel p) fun p' =>
      (Stmt.funStmt kw name lp ps rp lb body rb).Wf b ∧
        Reads p (Stmt.funStmt kw name lp ps rp lb body rb).piece p' := by
  obtain ⟨hkw, hname, hlp, hps, hrp, hlb, hbody, hrb⟩ := hs
  simp only [Stmt.toks, List.length_cons, List.length_append] at hN hfuel
  have hlen : (Stmt.funStmt kw name lp ps rp lb body rb).code.length = body.code.length + 4 := by
    simp [Stmt.code, funCode, nest, returnNil]
  rw [hlen] at hok
  have htoks : p.toks = [kw, name, lp] ++ ((ps.map Params.toks).getD [] ++
      rp :: (lb :: (body.toks ++ [rb]) ++ ls)) := by
    rw [h.toks]
    simp [Stmt.toks]
  -- the keyword, the name and the opening parenthesis
  obtain ⟨q, ha, hE, hT⟩ := advance_returns htoks (by simp) h.clean
  have hq := hE.ahead htoks
  have hcur : name = q.cur := cur_of_toks hq
  obtain ⟨q₁, ha₁, hE₁, hT₁⟩ := advance_returns hq (by simp) (hE.clean h.clean)
  obtain ⟨q₂, hs₂, hE₂, hT₂⟩ := slurp_returns "expected '('" (hE₁.ahead hq) hlp (by simp)
    (hE₁.clean (hE.clean h.clean))
  have hh : Emits p [kw, name, lp] [] [] q₂ := (hE.trans hE₁).trans hE₂
  have hTh := (hT.trans hT₁).trans hT₂
  have hq₂ := hh.ahead htoks
  have hc₂ := hh.clean h.clean
  have ha₂ := hh.skip.active h.active
  have hr₂ : ok → q₂.Room (body.code.length + 4) := fun h =>
    hh.room hTh (by simpa using (hok h).2.2)
  unfold funStmt
  refine .step ha ?_
  dsimp only
  rw [if_pos (hcur ▸ hname)]
  refine .step ha₁ (.step hs₂ ?_)
  -- the parameters
  refine (funBegin_yields (n := body.code.length + 3) hr₂).bind ?_
  rintro ⟨pos, q₃⟩ ⟨rfl, hs₃⟩
  have hlen' : ((ps.map Params.toks).getD []).length ≤ fuel := by omega
  obtain ⟨q₄, hs₄, ht₄, hE₄⟩ :=
    funParamList_returns hc₂ hs₃ hps hrp (hs₃.toks.symm.trans hq₂) hlen'
  obtain ⟨q₅, ha₅, ht₅, hE₅⟩ := hE₄.advance_returns hc₂ ht₄ (by simp)
  refine .step hs₄ (.step ha₅ ?_)
  -- the body
  have hm : Meets false (lb :: (body.toks ++ [rb])) q₅ ls :=
    ⟨ht₅, hE₅.clean hc₂, hE₅.active, fun hb => by cases hb⟩
  refine (block_yields hx hidle hm hne hbody hlb hrb (fun h => ⟨(hok h).1.2.2.2.2.2.2.1,
    (hok h).2.1.left, (hE₅.room (hr₂ h)).mono (by omega)⟩) (by omega) (by omega)).bind ?_
  rintro q₆ ⟨hwf, hR⟩
  -- the end of the function
  have hnd : (paramNames ps).Nodup := by
    cases ps with
    | none => exact List.nodup_nil
    | some ps => exact (hps ps rfl).2
  refine (funEnd_yields hE₅ ha₂.head_ne hnd hwf hR.compiles hR.thrifty rfl rfl rfl rfl
    fun h => ⟨?_, ?_⟩).bind ?_
  · exact (hok h).2.1.right (ps, body) (List.mem_singleton_self _)
  · exact hR.room ((hE₅.room (hr₂ h)).mono (by simp [Stmts.bracedPiece]))
  rintro q₇ ⟨hfits, hc₇, hT₇⟩
  have hR₇ : Reads q₂ _ q₇ := ⟨hc₇, (hR.fits).append fun f hf => by
    obtain rfl := List.mem_singleton.mp hf
    exact hfits, hT₇⟩
  -- the name
  rw [← hcur]
  refine (load_yields (n := 0) (fun h => hR₇.room ((hr₂ h).mono (by
    simp [funPiece, nestedCode, nest, closeItems, returnNil]))) name).bind ?_
  rintro _ rfl
  refine .step loadToStore_load (.pure ⟨⟨hkw, hname, hlp, hps, hrp, hlb, hwf, hrb⟩, ?_, ?_, ?_⟩)
  · exact fun_compiles hh (hc₇.cast (by simp))
  · exact hR₇.fits
  · exact (hTh.trans hR₇.thrifty).trans (thrifty_ident q₇ name.text _ none)

/-! ## Jumps and expression statements -/

theorem returnStmt_yields (he : ExprYields x N) {ok : Prop} {b : Bool} {p : Parser}
    {kw semi : Lexeme} {e : Option Expr} {ls : List Lexeme}
    (h : Meets b (Stmt.returnStmt kw e semi).toks p ls) (hne : ls ≠ [])
    (hs : (Stmt.returnStmt kw e semi).Proper codePriorities b)
    (hok : ok → p.Room (Stmt.returnStmt kw e semi).code.length)
    (hN : (Stmt.returnStmt kw e semi).toks.length ≤ N + 1) :
    Yields ok (returnStmt x p) fun p' => (Stmt.returnStmt kw e semi).Wf b ∧
      Reads p (Stmt.returnStmt kw e semi).piece p' := by
  obtain ⟨hkw, he', hsemi⟩ := hs
  have htoks : p.toks = kw :: ((e.map Expr.toks).getD [] ++ semi :: ls) := by
    rw [h.toks]
    simp [Stmt.toks]
  obtain ⟨q, ha, hE, hT⟩ := advance_returns htoks (by simp) h.clean
  have hq := hE.ahead htoks
  have hc := hE.clean h.clean
  unfold returnStmt
  refine .step ha ?_
  cases e with
  | none =>
      rw [if_pos (cur_of_toks hq ▸ hsemi)]
      obtain ⟨q₁, ha₁, hE₁, hT₁⟩ := advance_returns hq hne hc
      refine .step ha₁ ((addConstSteal_yields (n := 1) (fun h => (hE.trans hE₁).room
        (hT.trans hT₁) (by simpa [Stmt.code, returnNil] using hok h)) .nil).bind_eq ?_)
      rintro _ hcs rfl
      refine .pure ⟨⟨hkw, by simp, hsemi⟩, return_compiles (hE.trans hE₁) hcs, funsFit_nil, ?_⟩
      exact (hT.trans hT₁).trans
        ((thrifty_const q₁ .nil _ none).trans (thrifty_emitAtLine _ opReturn none))
  | some e =>
      have hwf := he' e rfl
      have hq : q.toks = e.toks ++ semi :: ls := hq
      have hne' : q.cur.kind ≠ lkSemicolon := LexemeKind.ne_of_starts (cur_starts hwf.1 hq) rfl
      rw [if_neg hne']
      simp only [Stmt.toks, Option.map_some, Option.getD_some, List.length_cons,
        List.length_append] at hN
      refine (he.low hq hc hwf.1 hwf.2 (by rw [hsemi]; rfl) (fun h => hE.room hT
        ((hok h).mono (by simp [Stmt.code]))) (by omega)).bind ?_
      rintro q₁ ⟨hB, hT₁⟩
      obtain ⟨q₂, hs₂, hE₂, hT₂⟩ := slurp_returns "expected ';'" (hB.emits.ahead hq) hsemi hne
        (hB.emits.clean hc)
      refine .step hs₂ (.pure ⟨⟨hkw, ?_, hsemi⟩, returnExpr_compiles hE hB hE₂, funsFit_nil, ?_⟩)
      · rintro y ⟨⟩
        exact hwf.1
      · exact ((hT.trans hT₁).trans hT₂).trans (thrifty_emitAtLine q₂ opReturn none)

theorem breakStmt_yields {ok : Prop} {b : Bool} {p : Parser} {kw semi : Lexeme}
    {ls : List Lexeme} (h : Meets b (Stmt.breakStmt kw semi).toks p ls) (hne : ls ≠ [])
    (hs : (Stmt.breakStmt kw semi).Proper codePriorities b) :
    Yields ok (breakStmt p) fun p' => (Stmt.breakStmt kw semi).Wf b ∧
      Reads p (Stmt.breakStmt kw semi).piece p' := by
  obtain ⟨hb, hkw, hsemi⟩ := hs
  have hT₀ : Thrifty p (pushBreak p) :=
    (thrifty_emitAtLine p (opJump 0) none).trans ⟨le_rfl, le_rfl, le_rfl⟩
  obtain ⟨q, ha, hE, hT⟩ := advance_returns (p := pushBreak p) h.toks (by simp) h.clean
  obtain ⟨p', hs, hE', hT'⟩ := slurp_returns "expected ';'" (hE.ahead h.toks) hsemi hne
    (hE.clean h.clean)
  unfold breakStmt
  rw [if_neg (h.looping hb).1]
  refine .step ha ⟨fun r hr => ?_, fun _ => ⟨p', hs⟩⟩
  obtain rfl := Except.ok.inj (hs.symm.trans hr)
  exact ⟨⟨hb, hkw, hsemi⟩, break_compiles (hE.trans hE'), funsFit_nil, (hT₀.trans hT).trans hT'⟩

theorem continueStmt_yields {ok : Prop} {b : Bool} {p : Parser} {kw semi : Lexeme}
    {ls : List Lexeme} (h : Meets b (Stmt.continueStmt kw semi).toks p ls) (hne : ls ≠ [])
    (hs : (Stmt.continueStmt kw semi).Proper codePriorities b) :
    Yields ok (continueStmt p) fun p' => (Stmt.continueStmt kw semi).Wf b ∧
      Reads p (Stmt.continueStmt kw semi).piece p' := by
  obtain ⟨hb, hkw, hsemi⟩ := hs
  have hT₀ : Thrifty p (pushContinue p) :=
    (thrifty_emitAtLine p (opJump 0) none).trans ⟨le_rfl, le_rfl, le_rfl⟩
  obtain ⟨q, ha, hE, hT⟩ := advance_returns (p := pushContinue p) h.toks (by simp) h.clean
  obtain ⟨p', hs, hE', hT'⟩ := slurp_returns "expected ';'" (hE.ahead h.toks) hsemi hne
    (hE.clean h.clean)
  unfold continueStmt
  rw [if_neg (h.looping hb).2]
  refine .step ha ⟨fun r hr => ?_, fun _ => ⟨p', hs⟩⟩
  obtain rfl := Except.ok.inj (hs.symm.trans hr)
  exact ⟨⟨hb, hkw, hsemi⟩, continue_compiles (hE.trans hE'), funsFit_nil,
    (hT₀.trans hT).trans hT'⟩

theorem simple_yields (he : ExprYields x N) {ok : Prop} {b : Bool} {p : Parser} {s : Simple}
    {semi : Lexeme} {ls : List Lexeme} (h : Meets b (Stmt.simple s semi).toks p ls)
    (hne : ls ≠ []) (hs : (Stmt.simple s semi).Proper codePriorities b)
    (hok : ok → p.Room (Stmt.simple s semi).code.length)
    (hN : (Stmt.simple s semi).toks.length ≤ N + 1) :
    Yields ok (do
      let p ← exprOrAssignment x p
      slurp p lkSemicolon "expected ';'") fun p' =>
        (Stmt.simple s semi).Wf b ∧ Reads p (Stmt.simple s semi).piece p' := by
  obtain ⟨hs, hsemi⟩ := hs
  have htoks : p.toks = s.toks ++ semi :: ls := by
    rw [h.toks]
    simp [Stmt.toks]
  simp only [Stmt.toks, List.length_append, List.length_singleton] at hN
  refine (exprOrAssignment_yields he (Or.inl hsemi) h.clean htoks hs
    (fun h => ⟨fun _ => hsemi, hok h⟩) (by omega)).bind ?_
  rintro q ⟨-, hc, hT⟩
  have hq : q.toks = semi :: ls := List.append_cancel_left (hc.toks.symm.trans htoks)
  have hclean : q.Clean := by
    intro l hl
    refine h.clean l ?_
    rw [hc.toks]
    exact List.mem_append_right _ hl
  obtain ⟨p', hs', hE, hT'⟩ := slurp_returns "expected ';'" hq hsemi hne hclean
  refine ⟨fun r hr => ?_, fun _ => ⟨p', hs'⟩⟩
  obtain rfl := Except.ok.inj (hs'.symm.trans hr)
  exact ⟨⟨hs.1, hsemi⟩, simple_compiles hc hE, funsFit_nil, hT.trans hT'⟩

theorem stmt_idles (fuel : Nat) : Idles (Calx.stmt (fuel + 1)) := by
  rintro p (hk | hk)
  · simp only [Calx.stmt, hk]
  · simp only [Calx.stmt, hk]

/-- `stmt` on every statement of the documentation that lies ahead, given fuel for its lexemes. -/
theorem stmt_yields : ∀ {fuel N : Nat}, N + 3 ≤ fuel → StmtYields (Calx.stmt fuel) N := by
  intro fuel
  induction fuel with
  | zero => intro N h; omega
  | succ fuel ih =>
      intro N hfuel ok b s p next ls h hs hk hk' hok hN
      obtain ⟨t, ts, hts, hstop⟩ := Stmt.toks_head hs
      have hpos : 0 < s.toks.length := by
        rw [hts]
        exact Nat.succ_pos _
      have hcur : t = p.cur := cur_of_toks (h.toks.trans (by rw [hts, List.cons_append]))
      have he : ExprYields (expr fuel) (N - 1) := expr_yields (by omega)
      obtain ⟨fuel, rfl⟩ : ∃ k, fuel = k + 1 := ⟨fuel - 1, by omega⟩
      have hidle := stmt_idles fuel
      rw [Calx.stmt]
      cases s with
      | empty semi =>
          obtain ⟨rfl, -⟩ := List.cons.inj hts
          obtain ⟨p', ha, hE, hT⟩ := advance_returns h.toks (by simp) h.clean
          simp only [← hcur, show semi.kind = lkSemicolon from hs]
          refine ⟨fun r hr => ?_, fun _ => ⟨p', ha⟩⟩
          obtain rfl := Except.ok.inj (ha.symm.trans hr)
          exact ⟨hs, hE.reads hT⟩
      | simple s semi =>
          have hstart : p.cur.kind.starts = true := by
            obtain ⟨t', ts', hts', hstart⟩ := Simple.toks_head hs.1.1
            rw [Stmt.toks, hts', List.cons_append] at hts
            rwa [← hcur, ← (List.cons.inj hts).1]
          split
          all_goals first
            | exact absurd ‹_› (LexemeKind.ne_of_starts hstart rfl)
            | exact simple_yields he h (by simp) hs (fun h => (hok h).2.2) (by omega)
      | ifStmt kw lp c rp lb body rb rest =>
          obtain ⟨rfl, -⟩ := List.cons.inj hts
          simp only [← hcur, hs.1]
          exact ifStmt_yields he (ih (N := N - 1) (by omega)) hidle h hs hk hk' hok (by omega)
            (by omega)
      | whileStmt kw lp c rp lb body rb =>
          obtain ⟨rfl, -⟩ := List.cons.inj hts
          simp only [← hcur, hs.1]
          exact whileStmt_yields he (ih (N := N - 1) (by omega)) hidle h (by simp) hs hok
            (by omega) (by omega)
      | forStmt kw lp pre semi1 cond semi2 post rp lb body rb =>
          obtain ⟨rfl, -⟩ := List.cons.inj hts
          simp only [← hcur, hs.1]
          exact forStmt_yields he (ih (N := N - 1) (by omega)) hidle h (by simp) hs hok
            (by omega) (by omega)
      | funStmt kw name lp ps rp lb body rb =>
          obtain ⟨rfl, -⟩ := List.cons.inj hts
          simp only [← hcur, hs.1]
          exact funStmt_yields (ih (N := N - 1) (by omega)) hidle h (by simp) hs hok (by omega)
            (by omega)
      | returnStmt kw e semi =>
          obtain ⟨rfl, -⟩ := List.cons.inj hts
          simp only [← hcur, hs.1]
          exact returnStmt_yields he h (by simp) hs (fun h => (hok h).2.2) (by omega)
      | breakStmt kw semi =>
          obtain ⟨rfl, -⟩ := List.cons.inj hts
          simp only [← hcur, hs.2.1]
          exact breakStmt_yields h (by simp) hs
      | continueStmt kw semi =>
          obtain ⟨rfl, -⟩ := List.cons.inj hts
          simp only [← hcur, hs.2.1]
          exact continueStmt_yields h (by simp) hs

end

end Calx
