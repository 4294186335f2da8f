import Calx.Lib.Fallible
import Calx.Vm.Globals

/-!
# Invariants of the parser

What every step of the parser keeps, from what its elementary steps keep: a property of
the states, one of the lexemes that have been current, and one of the errors.

## Implementation notes

A `ParserRule` lists the elementary steps that change the lexer, the current lexeme, the
shapes or the globals. Whatever else a step changes, `edit` covers.
-/

namespace Calx

open LexemeKind Instr Fallible

/-- The elementary steps keep the property `I` of states, and fail as `E` says. `L` holds of the
current lexeme. -/
structure ParserRule (I : Parser → Prop) (L : Lexeme → Prop) (E : Stop → Prop) : Prop where
  cur : ∀ {p}, I p → L p.cur
  advance : ∀ {p}, I p → Settles E I (advance p)
  edit : ∀ {p p' : Parser}, I p → p'.lexer = p.lexer → p'.cur = p.cur → p'.shapes = p.shapes →
    p'.globals = p.globals → I p'
  intern : ∀ {p}, I p → ∀ xs, I { p with globals := putNames p.globals xs }
  newShape : ∀ {p}, I p → I { p with shapes := p.shapes ++ [⟨0, 0, 0, 0⟩] }
  nargs : ∀ {p}, I p → ∀ i (f : Nat → Nat),
    I { p with shapes := p.shapes.modify i fun s => { s with nargsEncoded := f s.nargsEncoded } }
  closed : ∀ {p}, I p → ∀ i {m n : Nat}, m ≤ (sizeMod - 1) / 2 → n ≤ uint32Max / 2 →
    I { p with shapes := p.shapes.modify i fun s => { s with maxstack := m, nlocals := n } }
  offset : ∀ {p}, I p → ∀ i {n : Nat}, n ≤ uint32Max / 2 →
    I { p with shapes := p.shapes.modify i fun s => { s with offset := n } }
  general : ∀ msg, E (.parseError ⟨⟨0, 0⟩, none, msg, false⟩)
  at_ : ∀ {l : Lexeme}, L l → ∀ msg, E (.parseError ⟨l.pos, some l.size, msg, l.kind = lkEof⟩)
  escape : ∀ {l : Lexeme}, L l → l.kind = lkString → ∀ {k : Nat},
    stringContent (l.text.tail.dropLast.length + 1) l.text.tail.dropLast = .error k →
    E (.parseError ⟨⟨l.pos.line, l.pos.column + (k + 1)⟩, some 1, "invalid escape", false⟩)
  outOfFuel : E .outOfFuel

namespace ParserRule

variable {I : Parser → Prop} {L : Lexeme → Prop} {E : Stop → Prop} {p : Parser}
  {expr : Int → Parser → Res Parser} {stmt : Parser → Res Parser}

/-- Where a step returns a value with the state. -/
abbrev Snd {α : Type} (I : Parser → Prop) (r : α × Parser) : Prop := I r.2

variable (R : ParserRule I L E)

include R

/-! ## Elementary steps -/

theorem slurp (h : I p) (k : LexemeKind) (msg : String) : Settles E I (slurp p k msg) := by
  unfold Calx.slurp
  split
  · exact R.advance h
  · exact R.at_ (R.cur h) msg

theorem addShape (h : I p) : Settles E (Snd I) (addShape p) := by
  unfold Calx.addShape
  split
  · exact R.general _
  · exact R.newShape h

theorem addConstSteal (h : I p) (v : Const) : Settles E (Snd I) (addConstSteal p v) := by
  unfold Calx.addConstSteal
  split
  · exact R.general _
  · exact R.edit h rfl rfl rfl rfl

theorem addConst [DeciBase] (h : I p) {l : Lexeme} (hl : L l) (hk : exprCase l.kind = .literal) :
    Settles E (Snd I) (addConst p l) := by
  unfold Calx.addConst
  split
  · exact R.addConstSteal h _
  · exact R.addConstSteal h _
  · exact R.addConstSteal h _
  · exact R.addConstSteal h _
  · rename_i hnum htrue hfalse hnil
    have hstr : l.kind = lkString := by
      revert hnum htrue hfalse hnil hk
      cases l.kind <;> simp [exprCase, exprEnd]
    unfold addStringConst
    dsimp only
    split
    · exact R.escape hl hstr ‹_›
    · exact R.addConstSteal h _

theorem load (h : I p) (ident : Lexeme) : Settles E (Snd I) (load p ident) := by
  unfold Calx.load
  split
  · exact R.general _
  · exact R.edit h rfl rfl rfl rfl

theorem loadToStore (h : I p) {l : Lexeme} (hl : L l) (i : Instr) (isLocal : Bool) :
    Settles E (Snd I) (loadToStore p i isLocal l) := by
  unfold Calx.loadToStore
  split
  · split
    · exact R.edit h rfl rfl rfl rfl
    · exact h
  · split
    · exact R.at_ hl _
    · exact h
  · exact R.at_ hl _

theorem loadToModify {l : Lexeme} (hl : L l) (i : Instr) (aop : Aop) :
    Settles E (fun _ => True) (loadToModify i aop l) := by
  unfold Calx.loadToModify
  split
  · trivial
  · trivial
  · exact R.at_ hl _

/-! ## Expressions -/

/-- `expr` keeps the invariant. -/
def ExprKeeps (_R : ParserRule I L E) (expr : Int → Parser → Res Parser) : Prop :=
  ∀ min p, I p → Settles E I (expr min p)

theorem scatterStar (h : I p) (b : Bool) : Settles E (Snd I) (scatterStar p b) := by
  unfold Calx.scatterStar
  split
  · exact (R.advance h).bind fun q hq => hq
  · exact h

theorem funcallLoop (hx : R.ExprKeeps expr) (fuel n : Nat) (b : Bool) (h : I p) :
    Settles E (fun r => I r.2.2) (funcallLoop expr fuel n b p) := by
  induction fuel generalizing n b p with
  | zero => exact R.outOfFuel
  | succ fuel ih =>
      rw [Calx.funcallLoop]
      refine (R.scatterStar h b).bind fun r hr => ?_
      refine (hx _ _ hr).bind fun q hq => ?_
      split
      · exact (R.advance hq).bind fun q' hq' => hq'
      · refine (R.advance hq).bind fun q' hq' => ?_
        split
        · exact R.at_ (R.cur hq') _
        split
        · exact R.at_ (R.cur hq') _
        · exact ih _ _ hq'
      · exact R.at_ (R.cur hq) _

theorem funcall (hx : R.ExprKeeps expr) (fuel : Nat) (h : I p) :
    Settles E (fun r => I r.2.2) (funcall expr fuel p) := by
  unfold Calx.funcall
  refine (R.advance h).bind fun q hq => ?_
  split
  · exact (R.advance hq).bind fun q' hq' => hq'
  · exact R.funcallLoop hx _ _ _ hq

theorem newlistLoop (hx : R.ExprKeeps expr) (fuel n : Nat) (h : I p) :
    Settles E (Snd I) (newlistLoop expr fuel n p) := by
  induction fuel generalizing n p with
  | zero => exact R.outOfFuel
  | succ fuel ih =>
      rw [Calx.newlistLoop]
      refine (hx _ _ h).bind fun q hq => ?_
      split
      · exact (R.advance hq).bind fun q' hq' => hq'
      · refine (R.advance hq).bind fun q' hq' => ?_
        split
        · exact R.at_ (R.cur hq') _
        · exact ih _ hq'
      · exact R.at_ (R.cur hq) _

theorem newlist (hx : R.ExprKeeps expr) (fuel : Nat) (h : I p) :
    Settles E (Snd I) (newlist expr fuel p) := by
  unfold Calx.newlist
  refine (R.advance h).bind fun q hq => ?_
  split
  · exact (R.advance hq).bind fun q' hq' => hq'
  · exact R.newlistLoop hx _ _ hq

theorem newdictLoop (hx : R.ExprKeeps expr) (fuel n : Nat) (h : I p) :
    Settles E (Snd I) (newdictLoop expr fuel n p) := by
  induction fuel generalizing n p with
  | zero => exact R.outOfFuel
  | succ fuel ih =>
      rw [Calx.newdictLoop]
      refine (hx _ _ h).bind fun q hq => ?_
      refine (R.slurp hq _ _).bind fun q hq => ?_
      refine (hx _ _ hq).bind fun q hq => ?_
      split
      · exact (R.advance hq).bind fun q' hq' => hq'
      · refine (R.advance hq).bind fun q' hq' => ?_
        split
        · exact R.at_ (R.cur hq') _
        · exact ih _ hq'
      · exact R.at_ (R.cur hq) _

theorem newdict (hx : R.ExprKeeps expr) (fuel : Nat) (h : I p) :
    Settles E (Snd I) (newdict expr fuel p) := by
  unfold Calx.newdict
  have hbrace : I { p with braces := p.braces ++ [(p.cur.start, false)] } :=
    R.edit h rfl rfl rfl rfl
  refine (R.advance hbrace).bind fun q hq => ?_
  split
  · exact (R.advance hq).bind fun q' hq' => hq'
  · exact R.newdictLoop hx _ _ hq

theorem unaryOperator (hx : R.ExprKeeps expr) (h : I p) : Settles E I (unaryOperator expr p) := by
  unfold Calx.unaryOperator
  dsimp only
  split
  · exact R.at_ (R.cur h) _
  · refine (R.advance h).bind fun q hq => ?_
    exact (hx _ _ hq).bind fun q' hq' => R.edit hq' rfl rfl rfl rfl

theorem binaryOperator (hx : R.ExprKeeps expr) (h : I p) (min : Int) :
    Settles E (Snd I) (binaryOperator expr p min) := by
  unfold Calx.binaryOperator
  dsimp only
  split
  · exact R.at_ (R.cur h) _
  · split
    · exact h
    · refine (R.advance h).bind fun q hq => ?_
      exact (hx _ _ hq).bind fun q' hq' => R.edit hq' rfl rfl rfl rfl

theorem thisIsExpr (h : I p) (b : Bool) : Settles E (fun _ => True) (thisIsExpr p b) := by
  unfold Calx.thisIsExpr
  split
  · trivial
  · exact R.at_ (R.cur h) _

theorem afterExpr (h : I p) (b : Bool) : Settles E (fun _ => True) (afterExpr p b) := by
  unfold Calx.afterExpr
  split
  · exact R.at_ (R.cur h) _
  · trivial

theorem exprLoop [DeciBase] (hx : R.ExprKeeps expr) (fuel : Nat) (min : Int) (b : Bool) (h : I p) :
    Settles E I (exprLoop expr fuel min b p) := by
  induction fuel generalizing b p with
  | zero => exact R.outOfFuel
  | succ fuel ih =>
      rw [Calx.exprLoop]
      dsimp only
      split
      · rename_i hk
        refine (R.thisIsExpr h b).bind fun _ _ => ?_
        refine (R.addConst h (R.cur h) hk).bind fun r hr => ?_
        refine (R.advance ?_).bind fun q hq => ih _ hq
        exact R.edit hr rfl rfl rfl rfl
      · refine (R.thisIsExpr h b).bind fun _ _ => ?_
        refine (R.load h _).bind fun r hr => ?_
        refine (R.advance ?_).bind fun q hq => ih _ hq
        exact R.edit hr rfl rfl rfl rfl
      · split
        · exact (R.newlist hx _ h).bind fun r hr => ih _ (R.edit hr rfl rfl rfl rfl)
        · refine (R.advance h).bind fun q hq => ?_
          refine (hx _ _ hq).bind fun q hq => ?_
          exact (R.slurp hq _ _).bind fun q hq => ih _ (R.edit hq rfl rfl rfl rfl)
      · refine (R.thisIsExpr h b).bind fun _ _ => ?_
        exact (R.newdict hx _ h).bind fun r hr => ih _ (R.edit hr rfl rfl rfl rfl)
      · split
        · refine (R.advance h).bind fun q hq => ?_
          refine (hx _ _ hq).bind fun q hq => ?_
          exact (R.slurp hq _ _).bind fun q hq => ih _ hq
        · exact (R.funcall hx _ h).bind fun r hr => ih _ (R.edit hr rfl rfl rfl rfl)
      · refine (R.afterExpr h b).bind fun _ _ => ?_
        refine (R.advance h).bind fun q hq => ?_
        split
        · refine (R.addConstSteal hq _).bind fun r hr => ?_
          refine (R.advance ?_).bind fun q hq => ih _ hq
          exact R.edit hr rfl rfl rfl rfl
        · exact R.at_ (R.cur hq) _
      · exact (R.afterExpr h b).bind fun _ _ => h
      · split
        · exact (R.unaryOperator hx h).bind fun q hq => ih _ hq
        · refine (R.binaryOperator hx h min).bind fun r hr => ?_
          split
          · exact ih _ hr
          · exact hr

theorem exprKeeps [DeciBase] (fuel : Nat) : R.ExprKeeps (Calx.expr fuel) := by
  induction fuel with
  | zero => exact fun _ _ _ => R.outOfFuel
  | succ fuel ih => exact fun min p h => R.exprLoop ih fuel min true h

/-! ## Statements -/

/-- `stmt` keeps the invariant. -/
def StmtKeeps (_R : ParserRule I L E) (stmt : Parser → Res Parser) : Prop :=
  ∀ p, I p → Settles E I (stmt p)

omit R in
theorem segmentEndFixup_same (p : Parser) (dst : Nat) (l : List Int) :
    (segmentEndFixup p dst l).1.lexer = p.lexer ∧ (segmentEndFixup p dst l).1.cur = p.cur ∧
      (segmentEndFixup p dst l).1.shapes = p.shapes ∧
      (segmentEndFixup p dst l).1.globals = p.globals := by
  induction l generalizing p with
  | nil => exact ⟨rfl, rfl, rfl, rfl⟩
  | cons pos l ih =>
      rw [segmentEndFixup]
      split
      · exact ⟨rfl, rfl, rfl, rfl⟩
      · exact ih (fixupJump p pos.toNat dst)

theorem segmentEndFixup (h : I p) (dst : Nat) (l : List Int) : I (segmentEndFixup p dst l).1 := by
  obtain ⟨h1, h2, h3, h4⟩ := segmentEndFixup_same p dst l
  exact R.edit h h1 h2 h3 h4

theorem loopSegmentEnd (h : I p) (b c : Nat) : I (loopSegmentEnd p b c) := by
  have h' := R.segmentEndFixup (R.segmentEndFixup h b p.stackBreak) c
    (Calx.segmentEndFixup p b p.stackBreak).1.stackContinue
  exact R.edit h' rfl rfl rfl rfl

theorem exprOrAssignment (hx : R.ExprKeeps expr) (h : I p) :
    Settles E I (exprOrAssignment expr p) := by
  unfold Calx.exprOrAssignment
  refine (hx _ _ h).bind fun q hq => ?_
  have hl := R.cur hq
  have hun : I (unemit q).2 := R.edit hq rfl rfl rfl rfl
  dsimp only
  split
  · refine (R.advance hun).bind fun q₁ hq₁ => ?_
    refine (hx _ _ hq₁).bind fun q₂ hq₂ => ?_
    exact (R.loadToStore hq₂ hl _ _).bind fun r hr => R.edit hr rfl rfl rfl rfl
  · split
    · exact R.edit hq rfl rfl rfl rfl
    · split
      · exact R.at_ hl _
      · refine (R.advance hun).bind fun q₁ hq₁ => ?_
        refine (hx _ _ hq₁).bind fun q₂ hq₂ => ?_
        exact (R.loadToModify hl _ _).bind fun i _ => R.edit hq₂ rfl rfl rfl rfl

theorem blockLoop (hx : R.StmtKeeps stmt) (fuel : Nat) (h : I p) :
    Settles E I (blockLoop stmt fuel p) := by
  induction fuel generalizing p with
  | zero => exact R.outOfFuel
  | succ fuel ih =>
      rw [Calx.blockLoop]
      refine (hx _ h).bind fun q hq => ?_
      split
      · exact R.at_ (R.cur hq) _
      · exact R.advance hq
      · exact ih hq

theorem block (hx : R.StmtKeeps stmt) (fuel : Nat) (h : I p) : Settles E I (block stmt fuel p) := by
  unfold Calx.block
  refine (R.slurp h _ _).bind fun q hq => ?_
  exact R.blockLoop hx _ (R.edit hq rfl rfl rfl rfl)

theorem ifOrElifClause (hx : R.ExprKeeps expr) (hs : R.StmtKeeps stmt) (fuel : Nat) (h : I p) :
    Settles E (Snd I) (ifOrElifClause expr stmt fuel p) := by
  unfold Calx.ifOrElifClause
  refine (R.advance h).bind fun q hq => ?_
  refine (R.slurp hq _ _).bind fun q hq => ?_
  refine (hx _ _ hq).bind fun q hq => ?_
  have hjump : I (postponeJumpUnless q).2 := R.edit hq rfl rfl rfl rfl
  refine (R.slurp hjump _ _).bind fun q hq => ?_
  exact (R.block hs _ hq).bind fun q hq => hq

theorem elseClause (hs : R.StmtKeeps stmt) (fuel : Nat) (h : I p) :
    Settles E I (elseClause stmt fuel p) :=
  (R.advance h).bind fun _ hq => R.block hs _ hq

theorem nextClause (h : I p) (k : Nat) : I (nextClause p k) := R.edit h rfl rfl rfl rfl

theorem elifLoop (hx : R.ExprKeeps expr) (hs : R.StmtKeeps stmt) (fuel k : Nat) (h : I p) :
    Settles E (Snd I) (elifLoop expr stmt fuel k p) := by
  induction fuel generalizing k p with
  | zero => exact R.outOfFuel
  | succ fuel ih =>
      rw [Calx.elifLoop]
      split
      · exact (R.ifOrElifClause hx hs _ (R.nextClause h k)).bind fun r hr => ih _ hr
      · exact h

theorem ifEnd (hs : R.StmtKeeps stmt) (fuel k : Nat) (h : I p) :
    Settles E I (ifEnd stmt fuel k p) := by
  unfold Calx.ifEnd
  split
  · exact R.elseClause hs _ (R.nextClause h k)
  · exact R.edit h rfl rfl rfl rfl

theorem ifStmt (hx : R.ExprKeeps expr) (hs : R.StmtKeeps stmt) (fuel : Nat) (h : I p) :
    Settles E I (ifStmt expr stmt fuel p) := by
  unfold Calx.ifStmt
  have hbegin : I (ifSegmentBegin p) := R.edit h rfl rfl rfl rfl
  refine (R.ifOrElifClause hx hs _ hbegin).bind fun r hr => ?_
  refine (R.elifLoop hx hs _ _ hr).bind fun r hr => ?_
  refine (R.ifEnd hs _ _ hr).bind fun q hq => ?_
  exact R.edit (R.segmentEndFixup hq (here q) q.stackIf) rfl rfl rfl rfl

theorem whileStmt (hx : R.ExprKeeps expr) (hs : R.StmtKeeps stmt) (fuel : Nat) (h : I p) :
    Settles E I (whileStmt expr stmt fuel p) := by
  unfold Calx.whileStmt
  have hbegin : I (loopSegmentBegin p) := R.edit h rfl rfl rfl rfl
  refine (R.advance hbegin).bind fun q hq => ?_
  refine (R.slurp hq _ _).bind fun q hq => ?_
  refine (hx _ _ hq).bind fun q hq => ?_
  have hjump : I (postponeJumpUnless q).2 := R.edit hq rfl rfl rfl rfl
  refine (R.slurp hjump _ _).bind fun q hq => ?_
  refine (R.block hs _ hq).bind fun q hq => ?_
  refine R.loopSegmentEnd ?_ _ _
  exact R.edit hq rfl rfl rfl rfl

theorem funParam (h : I p) {l : Lexeme} (hl : L l) (i : Nat) (b : Bool) :
    Settles E I (funParam p i l b) := by
  unfold Calx.funParam
  split
  · exact R.at_ hl _
  · have hnames : I (setLocals p (locals p ++ [l.text])) := R.edit h rfl rfl rfl rfl
    exact R.nargs hnames _ fun n => if b then complement32 n else n + 1

theorem funParams (i fuel : Nat) (h : I p) : Settles E I (funParams i fuel p) := by
  induction fuel generalizing p with
  | zero => exact R.outOfFuel
  | succ fuel ih =>
      rw [Calx.funParams]
      dsimp only
      split
      · refine (R.advance h).bind fun q hq => ?_
        split
        · refine (R.funParam hq (R.cur hq) _ _).bind fun q₁ hq₁ => ?_
          refine (R.advance hq₁).bind fun q₂ hq₂ => ?_
          split
          · exact hq₂
          · exact R.at_ (R.cur hq) _
        · exact R.at_ (R.cur hq) _
      · split
        · refine (R.funParam h (R.cur h) _ _).bind fun q₁ hq₁ => ?_
          refine (R.advance hq₁).bind fun q₂ hq₂ => ?_
          split
          · exact hq₂
          · exact (R.slurp hq₂ _ _).bind fun q₃ hq₃ => ih hq₃
        · exact R.at_ (R.cur h) _

theorem funParamList (i fuel : Nat) (h : I p) : Settles E I (funParamList i fuel p) := by
  unfold Calx.funParamList
  split
  · exact h
  · exact R.funParams _ _ h

theorem funBegin (h : I p) : Settles E (Snd I) (funBegin p) := by
  unfold Calx.funBegin
  exact (R.addShape h).bind fun r hr => R.edit hr rfl rfl rfl rfl

theorem closeScope (h : I p) : Settles E
    (fun r => I r.2.2 ∧ r.1 ≤ (sizeMod - 1) / 2 ∧ r.2.1 ≤ uint32Max / 2) (closeScope p) := by
  cases hrun : Calx.closeScope p with
  | error e =>
      simp only [Calx.closeScope] at hrun
      split at hrun
      · obtain rfl := Except.error.inj hrun
        exact R.general _
      · split at hrun
        · obtain rfl := Except.error.inj hrun
          exact R.general _
        · cases hrun
  | ok r =>
      obtain ⟨m, n, q⟩ := r
      have hlimits : m ≤ (sizeMod - 1) / 2 ∧ n ≤ uint32Max / 2 := by
        simp only [Calx.closeScope] at hrun
        split at hrun
        · cases hrun
        · split at hrun
          · cases hrun
          · simp only [Except.ok.injEq, Prod.mk.injEq] at hrun
            omega
      obtain ⟨-, -, rfl⟩ := closeScope_ok hrun
      obtain ⟨xs, hxs⟩ := Globals.walk_globals p.idents (locals p)
        (walkedPositions (fixupLastRangeEnd p (here p)).ranges (p.scopes.length - 1))
        ⟨p.prog, p.globals, 0, 0⟩
      exact ⟨R.edit (R.intern h xs) rfl rfl rfl hxs, hlimits⟩

theorem funEnd (h : I p) (i : Nat) : Settles E I (funEnd p i) := by
  unfold Calx.funEnd
  refine (R.addConstSteal h _).bind fun r hr => ?_
  have hclosed : I (recordClosed (emit (emit r.2 (opLoadConst r.1)) .opReturn) i) :=
    R.edit hr rfl rfl rfl rfl
  refine (R.closeScope hclosed).bind fun r ⟨hr, hm, hn⟩ => ?_
  have hshape := R.closed hr (funShapeIdx r.2.2 i) hm hn
  dsimp only
  split
  · exact R.general _
  · rename_i hsmall
    have hoffset := R.offset hshape (funShapeIdx
      (updateShape r.2.2 i fun s => { s with maxstack := r.1, nlocals := r.2.1 }) i)
      (not_lt.mp hsmall)
    exact R.edit hoffset rfl rfl rfl rfl

theorem funStmt (hs : R.StmtKeeps stmt) (fuel : Nat) (h : I p) :
    Settles E I (funStmt stmt fuel p) := by
  unfold Calx.funStmt
  refine (R.advance h).bind fun q hq => ?_
  have hname := R.cur hq
  dsimp only
  split
  · refine (R.advance hq).bind fun q hq => ?_
    refine (R.slurp hq _ _).bind fun q hq => ?_
    refine (R.funBegin hq).bind fun r hr => ?_
    refine (R.funParamList _ _ hr).bind fun q hq => ?_
    refine (R.advance hq).bind fun q hq => ?_
    refine (R.block hs _ hq).bind fun q hq => ?_
    refine (R.funEnd hq _).bind fun q hq => ?_
    refine (R.load hq _).bind fun r hr => ?_
    exact (R.loadToStore hr hname _ _).bind fun r hr => R.edit hr rfl rfl rfl rfl
  · exact R.at_ hname _

theorem forClause (hx : R.ExprKeeps expr) (next : LexemeKind) (h : I p) :
    Settles E I (forClause expr next p) := by
  unfold Calx.forClause
  split
  · exact h
  · exact R.exprOrAssignment hx h

theorem forCond (hx : R.ExprKeeps expr) (h : I p) : Settles E (Snd I) (forCond expr p) := by
  unfold Calx.forCond
  split
  · exact h
  · exact (hx _ _ h).bind fun q hq => R.edit hq rfl rfl rfl rfl

theorem fixupCondJump (h : I p) (src : Option Nat) (dst : Nat) : I (fixupCondJump p src dst) := by
  cases src with
  | none => exact h
  | some src => exact R.edit h rfl rfl rfl rfl

theorem forStmt (hx : R.ExprKeeps expr) (hs : R.StmtKeeps stmt) (fuel : Nat) (h : I p) :
    Settles E I (forStmt expr stmt fuel p) := by
  unfold Calx.forStmt
  have hbegin : I (loopSegmentBegin p) := R.edit h rfl rfl rfl rfl
  refine (R.advance hbegin).bind fun q hq => ?_
  refine (R.slurp hq _ _).bind fun q hq => ?_
  refine (R.forClause hx _ hq).bind fun q hq => ?_
  refine (R.slurp hq _ _).bind fun q hq => ?_
  refine (R.forCond hx hq).bind fun r hr => ?_
  refine (R.slurp hr _ _).bind fun q hq => ?_
  refine (R.forClause hx _ hq).bind fun q hq => ?_
  refine (R.slurp hq _ _).bind fun q hq => ?_
  refine (R.block hs _ hq).bind fun q hq => ?_
  have hjump : ∀ dst, I (emitJumpTo q dst) := fun dst => R.edit hq rfl rfl rfl rfl
  exact R.edit (R.loopSegmentEnd (R.fixupCondJump (hjump _) _ _) _ _) rfl rfl rfl rfl

theorem returnStmt (hx : R.ExprKeeps expr) (h : I p) : Settles E I (returnStmt expr p) := by
  unfold Calx.returnStmt
  refine (R.advance h).bind fun q hq => ?_
  split
  · refine (R.advance hq).bind fun q hq => ?_
    exact (R.addConstSteal hq _).bind fun r hr => R.edit hr rfl rfl rfl rfl
  · refine (hx _ _ hq).bind fun q hq => ?_
    exact (R.slurp hq _ _).bind fun q hq => R.edit hq rfl rfl rfl rfl

theorem breakStmt (h : I p) : Settles E I (breakStmt p) := by
  unfold Calx.breakStmt
  split
  · exact R.at_ (R.cur h) _
  · have hjump : I { (postponeJump p).2 with
        stackBreak := ((postponeJump p).1 : Int) :: (postponeJump p).2.stackBreak } :=
      R.edit h rfl rfl rfl rfl
    exact (R.advance hjump).bind fun q hq => R.slurp hq _ _

theorem continueStmt (h : I p) : Settles E I (continueStmt p) := by
  unfold Calx.continueStmt
  split
  · exact R.at_ (R.cur h) _
  · have hjump : I { (postponeJump p).2 with
        stackContinue := ((postponeJump p).1 : Int) :: (postponeJump p).2.stackContinue } :=
      R.edit h rfl rfl rfl rfl
    exact (R.advance hjump).bind fun q hq => R.slurp hq _ _

theorem stmtKeeps [DeciBase] (fuel : Nat) : R.StmtKeeps (Calx.stmt fuel) := by
  induction fuel with
  | zero => exact fun _ _ => R.outOfFuel
  | succ fuel ih =>
      intro p h
      rw [Calx.stmt]
      split
      · exact R.ifStmt (R.exprKeeps fuel) ih _ h
      · exact R.whileStmt (R.exprKeeps fuel) ih _ h
      · exact R.forStmt (R.exprKeeps fuel) ih _ h
      · exact R.funStmt ih _ h
      · exact R.advance h
      · exact R.returnStmt (R.exprKeeps fuel) h
      · exact R.breakStmt h
      · exact R.continueStmt h
      · exact h
      · exact h
      · exact (R.exprOrAssignment (R.exprKeeps fuel) h).bind fun q hq => R.slurp hq _ _

theorem parseLoop (hs : R.StmtKeeps stmt) (fuel : Nat) (h : I p) :
    Settles E I (parseLoop stmt fuel p) := by
  induction fuel generalizing p with
  | zero => exact R.outOfFuel
  | succ fuel ih =>
      rw [Calx.parseLoop]
      refine (hs _ h).bind fun q hq => ?_
      split
      · exact R.at_ (R.cur hq) _
      · exact hq
      · exact ih hq

/-- The parser keeps the invariant from its first state to the end. -/
theorem parseState [DeciBase] (fuel : Nat) {globals : List Bytes} {source : Bytes}
    (h : I (parserNew source globals)) : Settles E I (parseState fuel globals source) := by
  unfold Calx.parseState
  refine (R.funBegin h).bind fun r hr => ?_
  refine (R.advance hr).bind fun q hq => ?_
  refine (R.parseLoop (R.stmtKeeps fuel) _ hq).bind fun q hq => ?_
  exact R.funEnd hq _

end ParserRule

/-! ## Limits -/

/-- The shape is that of a function that has been closed within the limits, or is still open. -/
structure Shape.Limited (s : Shape) : Prop where
  nlocals : s.nlocals ≤ uint32Max / 2
  maxstack : s.maxstack ≤ (sizeMod - 1) / 2
  offset : s.offset ≤ uint32Max / 2

theorem forall_mem_modify {α : Type} {P : α → Prop} {l : List α} (h : ∀ a ∈ l, P a) (f : α → α)
    (hf : ∀ a, P a → P (f a)) (i : Nat) : ∀ a ∈ l.modify i f, P a := by
  intro a ha
  obtain ⟨j, hj⟩ := List.mem_iff_getElem?.mp ha
  rw [List.getElem?_modify] at hj
  obtain ⟨b, hb, rfl⟩ := Option.map_eq_some_iff.mp hj
  split
  · exact hf b (h b (List.mem_of_getElem? hb))
  · exact h b (List.mem_of_getElem? hb)

theorem limitsRule : ParserRule (fun p => ∀ s ∈ p.shapes, s.Limited) (fun _ => True)
    (fun _ => True) where
  cur _ := trivial
  advance {p} h := by
    unfold advance
    dsimp only
    split
    · trivial
    · exact h
  edit h _ _ hs _ := hs ▸ h
  intern h _ := h
  newShape {p} h := by
    intro s hs
    rcases List.mem_append.mp hs with hs | hs
    · exact h s hs
    · rw [List.mem_singleton.mp hs]
      exact ⟨Nat.zero_le _, Nat.zero_le _, Nat.zero_le _⟩
  nargs h i f := forall_mem_modify h (fun s => { s with nargsEncoded := f s.nargsEncoded })
    (fun _ hs => ⟨hs.nlocals, hs.maxstack, hs.offset⟩) i
  closed h i m n hm hn := forall_mem_modify h (fun s => { s with maxstack := m, nlocals := n })
    (fun _ hs => ⟨hn, hm, hs.offset⟩) i
  offset h i n hn := forall_mem_modify h (fun s => { s with offset := n })
    (fun _ hs => ⟨hs.nlocals, hs.maxstack, hn⟩) i
  general _ := trivial
  at_ _ _ := trivial
  escape _ _ _ _ := trivial
  outOfFuel := trivial

/-- The names of the globals are those that there were and some others, interned in turn. -/
theorem namesRule (names : List Bytes) :
    ParserRule (fun p => ∃ xs, p.globals = putNames names xs) (fun _ => True) (fun _ => True) where
  cur _ := trivial
  advance {p} h := by
    unfold advance
    dsimp only
    split
    · trivial
    · exact h
  edit h _ _ _ hg := hg ▸ h
  intern h ys := by
    obtain ⟨xs, hxs⟩ := h
    exact ⟨xs ++ ys, by rw [putNames_append, ← hxs]⟩
  newShape h := h
  nargs h _ _ := h
  closed h _ _ _ _ _ := h
  offset h _ _ _ := h
  general _ := trivial
  at_ _ _ := trivial
  escape _ _ _ _ := trivial
  outOfFuel := trivial

section

variable [DeciBase] {globals : List Bytes} {source : Bytes} {fuel : Nat} {p : Parser}

/-- The limits that `close_scope` and `fun_end` check hold of every shape. -/
theorem parseState_limited (h : parseState fuel globals source = .ok p) :
    ∀ s ∈ p.shapes, s.Limited := by
  have hends : Settles _ _ (Calx.parseState fuel globals source) :=
    limitsRule.parseState fuel (List.forall_mem_nil _)
  rw [h] at hends
  exact hends

/-- The parser interns some names. -/
theorem parseState_globals (h : parseState fuel globals source = .ok p) :
    ∃ xs, p.globals = putNames globals xs := by
  have hends : Settles _ _ (Calx.parseState fuel globals source) :=
    (namesRule globals).parseState fuel ⟨[], rfl⟩
  rw [h] at hends
  exact hends

end

end Calx
