import Calx.Emits

/-!
# Expressions

Whenever `expr` succeeds it has consumed the lexemes of a well-formed
expression tree and emitted the code of that tree.

## Implementation notes

The forward-declared `expr` is a variable of the lemmas on the functions that
call it; `ExprSound` is what they assume of it, and the induction over the fuel
at the end closes the recursion.
-/

namespace Calx

open LexemeKind Instr

/-! ## Cases of the switch -/

@[simp] theorem exprCase_ident {k : LexemeKind} : exprCase k = .ident ↔ k = lkIdent := by
  cases k <;> decide

@[simp] theorem exprCase_lbracket {k : LexemeKind} : exprCase k = .lbracket ↔ k = lkLbracket := by
  cases k <;> decide

@[simp] theorem exprCase_lbrace {k : LexemeKind} : exprCase k = .lbrace ↔ k = lkLbrace := by
  cases k <;> decide

@[simp] theorem exprCase_lparen {k : LexemeKind} : exprCase k = .lparen ↔ k = lkLparen := by
  cases k <;> decide

@[simp] theorem exprCase_dot {k : LexemeKind} : exprCase k = .dot ↔ k = lkDot := by
  cases k <;> decide

theorem unaryProps_ne_eof {k : LexemeKind} {r : Instr × Int} (h : unaryProps k = some r) :
    k ≠ lkEof := by
  rintro rfl
  simp [unaryProps] at h

theorem binaryProps_ne_eof {k : LexemeKind} {r : Instr × Int × Int} (h : binaryProps k = some r) :
    k ≠ lkEof := by
  rintro rfl
  simp [binaryProps] at h

theorem unaryProps_isPlain {k : LexemeKind} {r : Instr × Int} (h : unaryProps k = some r) :
    r.1.isPlain = true := by
  cases k <;> simp only [unaryProps, Option.some.injEq, reduceCtorEq] at h <;> subst h <;> rfl

theorem binaryProps_isPlain {k : LexemeKind} {r : Instr × Int × Int}
    (h : binaryProps k = some r) : r.1.isPlain = true := by
  cases k <;> simp only [binaryProps, Option.some.injEq, reduceCtorEq] at h <;> subst h <;> rfl

theorem litConst_ne_eof {k : LexemeKind} (h : k.isLiteral = true) : k ≠ lkEof := by
  rintro rfl
  simp [LexemeKind.isLiteral, exprCase, exprEnd] at h

/-- An instruction emitted at the current lexeme, which is then consumed. -/
theorem Emits.emit_cur {p q p' : Parser} {i : Instr} {a : AInstr} (hq : Emits p [] [] [] q)
    (hi : DenI q.tables i a) (h : advance (emitAt q i p.cur) = .ok p') (hc : p.cur.kind ≠ lkEof) :
    Emits p [p.cur] [.mine a p.cur.tag] [] p' := by
  have hcur : (emitAt q i p.cur).cur = p.cur := hq.cur_eq
  have ha := advance_ok h (by rwa [hcur])
  rw [hcur] at ha
  simpa using (hq.trans (emitAt_emits q p.cur hi)).trans ha

/-- Recording a brace. -/
theorem Emits.brace (p : Parser) (b : Nat × Bool) :
    Emits p [] [] [b] { p with braces := p.braces ++ [b] } :=
  ⟨rfl, ⟨[], by simp, .nil⟩, List.prefix_rfl, List.prefix_rfl, rfl, rfl⟩

theorem scatterStar_ok {p p' : Parser} {b sc : Bool} (h : scatterStar p b = .ok (sc, p')) :
    ∃ star : Option Lexeme, (∀ s ∈ star, s.kind = lkStar) ∧ sc = (star.isSome || b) ∧
      Emits p star.toList [] [] p' := by
  unfold scatterStar at h
  split_ifs at h with hk
  · obtain ⟨q, hq, h⟩ := bind_ok h
    simp only [Except.ok.injEq, Prod.mk.injEq] at h
    obtain ⟨rfl, rfl⟩ := h
    exact ⟨some p.cur, by simp [hk], by simp, advance_ok hq (by simp [hk])⟩
  · simp only [Except.ok.injEq, Prod.mk.injEq] at h
    obtain ⟨rfl, rfl⟩ := h
    exact ⟨none, by simp, by simp, .refl p⟩

variable [DeciBase] {expr : Int → Parser → Res Parser}

/-- From `p` to `p'` the parser consumed a well-formed expression and emitted its code. -/
structure Built (p : Parser) (e : Expr) (p' : Parser) : Prop where
  wf : e.Wf
  emits : Emits p e.toks e.code e.braces p'

/-- Every success of `expr` follows an expression tree. -/
def ExprSound (expr : Int → Parser → Res Parser) : Prop :=
  ∀ {min : Int} {p p' : Parser}, expr min p = .ok p' → ∃ e, Built p e p'

-- The lexemes, the code and the braces of a tree are computed from those of its parts.
attribute [local simp] Expr.toks Expr.code Expr.braces Elems.toks Elems.code Elems.braces
  Entries.toks Entries.code Entries.braces

/-! ## Trees from their parts -/

section

variable {p₀ p q q' p' : Parser} {e l r i f : Expr} {rb : Lexeme}

theorem Built.paren (hk : p.cur.kind = lkLparen) (ha : Emits p [p.cur] [] [] q)
    (he : Built q e q') (hrb : rb.kind = lkRparen) (hr : Emits q' [rb] [] [] p') :
    Built p (.paren p.cur e rb) p' := by
  refine ⟨⟨hk, he.wf, hrb⟩, ?_⟩
  simpa using (ha.trans he.emits).trans hr

theorem Built.list0 (hk : p.cur.kind = lkLbracket) (ha : Emits p [p.cur] [] [] q)
    (hrb : rb.kind = lkRbracket) (hr : Emits q [rb] [] [] p') :
    Built p (.list0 p.cur rb) (emitAt p' (opList 0) p.cur) := by
  refine ⟨⟨hk, hrb⟩, ?_⟩
  simpa using (ha.trans hr).trans (emitAt_emits p' (i := opList 0) p.cur (.plain rfl))

theorem Built.list {es : Elems} (hk : p.cur.kind = lkLbracket) (ha : Emits p [p.cur] [] [] q)
    (hes : es.Wf) (hrb : rb.kind = lkRbracket)
    (hE : Emits q (es.toks [] ++ [rb]) es.code es.braces p') :
    Built p (.list p.cur es rb) (emitAt p' (opList es.count) p.cur) := by
  refine ⟨⟨hk, hes, hrb⟩, ?_⟩
  simpa using (ha.trans hE).trans (emitAt_emits p' (i := opList es.count) p.cur (.plain rfl))

theorem Built.dict0 (hk : p.cur.kind = lkLbrace)
    (ha : Emits p [p.cur] [] [(p.cur.start, false)] q) (hrb : rb.kind = lkRbrace)
    (hr : Emits q [rb] [] [] p') : Built p (.dict0 p.cur rb) (emitAt p' (opDict 0) p.cur) := by
  refine ⟨⟨hk, hrb⟩, ?_⟩
  simpa using (ha.trans hr).trans (emitAt_emits p' (i := opDict 0) p.cur (.plain rfl))

theorem Built.dict {kvs : Entries} (hk : p.cur.kind = lkLbrace)
    (ha : Emits p [p.cur] [] [(p.cur.start, false)] q) (hkvs : kvs.Wf) (hrb : rb.kind = lkRbrace)
    (hE : Emits q (kvs.toks ++ [rb]) kvs.code kvs.braces p') :
    Built p (.dict p.cur kvs rb) (emitAt p' (opDict kvs.count) p.cur) := by
  refine ⟨⟨hk, hkvs, hrb⟩, ?_⟩
  simpa using (ha.trans hE).trans (emitAt_emits p' (i := opDict kvs.count) p.cur (.plain rfl))

theorem Built.call0 (hf : Built p₀ f p) (hk : p.cur.kind = lkLparen)
    (ha : Emits p [p.cur] [] [] q) (hrb : rb.kind = lkRparen) (hr : Emits q [rb] [] [] p') :
    Built p₀ (.call0 f p.cur rb) (emitAt p' (opCall false 0) p.cur) := by
  refine ⟨⟨hf.wf, hk, hrb⟩, ?_⟩
  simpa using ((hf.emits.trans ha).trans hr).trans
    (emitAt_emits p' (i := opCall false 0) p.cur (.plain rfl))

theorem Built.call {es : Elems} {star : Option Lexeme} (hf : Built p₀ f p)
    (hk : p.cur.kind = lkLparen) (ha : Emits p [p.cur] [] [] q) (hes : es.Wf)
    (hstar : ∀ s ∈ star, s.kind = lkStar) (hrb : rb.kind = lkRparen)
    (hE : Emits q (es.toks star.toList ++ [rb]) es.code es.braces p') :
    Built p₀ (.call f p.cur es star rb) (emitAt p' (opCall star.isSome es.count) p.cur) := by
  refine ⟨⟨hf.wf, hk, hes, hstar, hrb⟩, ?_⟩
  simpa using ((hf.emits.trans ha).trans hE).trans
    (emitAt_emits p' (i := opCall star.isSome es.count) p.cur (.plain rfl))

theorem Built.unary {u : Instr × Int} (hu : unaryProps p.cur.kind = some u)
    (ha : Emits p [p.cur] [] [] q) (he : Built q e p') :
    Built p (.unary p.cur e) (emitAt p' u.1 p.cur) := by
  refine ⟨⟨by simp [hu], he.wf⟩, ?_⟩
  simpa [unaryInstr, hu] using (ha.trans he.emits).trans
    (emitAt_emits p' p.cur (.plain (unaryProps_isPlain hu)))

theorem Built.binary {u : Instr × Int × Int} (hl : Built p₀ l p)
    (hu : binaryProps p.cur.kind = some u) (ha : Emits p [p.cur] [] [] q) (hr : Built q r p') :
    Built p₀ (.binary l p.cur r) (emitAt p' u.1 p.cur) := by
  refine ⟨⟨hl.wf, by simp [hu], hr.wf⟩, ?_⟩
  simpa [binaryInstr, hu] using ((hl.emits.trans ha).trans hr.emits).trans
    (emitAt_emits p' p.cur (.plain (binaryProps_isPlain hu)))

theorem Built.index (hl : Built p₀ l p) (hk : p.cur.kind = lkLbracket)
    (ha : Emits p [p.cur] [] [] q) (hi : Built q i q') (hrb : rb.kind = lkRbracket)
    (hr : Emits q' [rb] [] [] p') :
    Built p₀ (.index l p.cur i rb) (emitAt p' opLoadAt p.cur) := by
  refine ⟨⟨hl.wf, hk, hi.wf, hrb⟩, ?_⟩
  simpa using (((hl.emits.trans ha).trans hi.emits).trans hr).trans
    (emitAt_emits p' (i := opLoadAt) p.cur (.plain rfl))

end

/-! ## Leaves -/

theorem addConst_ok {p p' : Parser} {c : Nat} (h : addConst p p.cur = .ok (c, p')) :
    ∃ v, litConst p.cur = some v ∧ Emits p [] [] [] p' ∧ p'.tables.consts[c]? = some v := by
  unfold addConst at h
  split at h
  · exact ⟨_, by simp [litConst, *], addConstSteal_ok h⟩
  · exact ⟨_, by simp [litConst, *], addConstSteal_ok h⟩
  · exact ⟨_, by simp [litConst, *], addConstSteal_ok h⟩
  · exact ⟨_, by simp [litConst, *], addConstSteal_ok h⟩
  · rename_i h1 h2 h3 h4
    simp only [addStringConst] at h
    split at h
    · simp [throwErrPrecise] at h
    · rename_i s hs
      refine ⟨.str s, ?_, addConstSteal_ok h⟩
      unfold litConst
      split <;> simp_all

theorem literal_ok {p q p' : Parser} {c : Nat} (hk : exprCase p.cur.kind = .literal)
    (hc : addConst p p.cur = .ok (c, q))
    (h : advance (emitAt q (opLoadConst c) p.cur) = .ok p') : Built p (.literal p.cur) p' := by
  obtain ⟨v, hv, hq, hcv⟩ := addConst_ok hc
  have hl : p.cur.kind.isLiteral = true := by simp [LexemeKind.isLiteral, hk]
  refine ⟨⟨hl, by simp [hv]⟩, ?_⟩
  simpa [hv] using
    hq.emit_cur (.const hcv) h (litConst_ne_eof hl)

theorem ident_ok {p q p' : Parser} {i : Instr} (hk : p.cur.kind = lkIdent)
    (hl : load p p.cur = .ok (i, q)) (h : advance (emitAt q i p.cur) = .ok p') :
    Built p (.ident p.cur) p' := by
  obtain ⟨hq, hi⟩ := load_ok hl
  refine ⟨hk, ?_⟩
  simpa using hq.emit_cur hi h (by simp [hk])

/-! ## Comma-separated lists -/

theorem newlistLoop_ok (hx : ExprSound expr) {fuel n m : Nat} {p p' : Parser}
    (h : newlistLoop expr fuel n p = .ok (m, p')) :
    ∃ (es : Elems) (rb : Lexeme), es.Wf ∧ rb.kind = lkRbracket ∧ m + 1 = n + es.count ∧
      Emits p (es.toks [] ++ [rb]) es.code es.braces p' := by
  induction fuel generalizing n p with
  | zero => simp [newlistLoop] at h
  | succ fuel ih =>
      rw [newlistLoop] at h
      obtain ⟨q, hq, h⟩ := bind_ok h
      obtain ⟨e, he, hE⟩ := hx hq
      split at h
      · rename_i hk
        obtain ⟨r, hr, h⟩ := bind_ok h
        simp only [Except.ok.injEq, Prod.mk.injEq] at h
        obtain ⟨rfl, rfl⟩ := h
        refine ⟨.last e, q.cur, he, hk, rfl, ?_⟩
        simpa using
          hE.trans (advance_ok hr (by simp [hk]))
      · rename_i hk
        obtain ⟨r, hr, h⟩ := bind_ok h
        split_ifs at h
        · simp [throwErrAt] at h
        · obtain ⟨es, rb, hes, hrb, hm, hE'⟩ := ih h
          refine ⟨.more e q.cur es, rb, ⟨he, hk, hes⟩, hrb, ?_, ?_⟩
          · simp only [Elems.count]
            omega
          · simpa using
              (hE.trans (advance_ok hr (by simp [hk]))).trans hE'
      · simp [throwErrAt] at h

theorem newdictLoop_ok (hx : ExprSound expr) {fuel n m : Nat} {p p' : Parser}
    (h : newdictLoop expr fuel n p = .ok (m, p')) :
    ∃ (kvs : Entries) (rb : Lexeme), kvs.Wf ∧ rb.kind = lkRbrace ∧ m + 1 = n + kvs.count ∧
      Emits p (kvs.toks ++ [rb]) kvs.code kvs.braces p' := by
  induction fuel generalizing n p with
  | zero => simp [newdictLoop] at h
  | succ fuel ih =>
      rw [newdictLoop] at h
      obtain ⟨q, hq, h⟩ := bind_ok h
      obtain ⟨k, hk, hK⟩ := hx hq
      obtain ⟨q1, hq1, h⟩ := bind_ok h
      obtain ⟨hc, hC⟩ := slurp_ok hq1 (by simp)
      obtain ⟨q2, hq2, h⟩ := bind_ok h
      obtain ⟨v, hv, hV⟩ := hx hq2
      have hE := (hK.trans hC).trans hV
      split at h
      · rename_i hr
        obtain ⟨r, hr', h⟩ := bind_ok h
        simp only [Except.ok.injEq, Prod.mk.injEq] at h
        obtain ⟨rfl, rfl⟩ := h
        refine ⟨.last k q.cur v, q2.cur, ⟨hk, hc, hv⟩, hr, rfl, ?_⟩
        simpa using
          hE.trans (advance_ok hr' (by simp [hr]))
      · rename_i hr
        obtain ⟨r, hr', h⟩ := bind_ok h
        split_ifs at h
        · simp [throwErrAt] at h
        · obtain ⟨kvs, rb, hkvs, hrb, hm, hE'⟩ := ih h
          refine ⟨.more k q.cur v q2.cur kvs, rb, ⟨hk, hc, hv, hr, hkvs⟩, hrb, ?_, ?_⟩
          · simp only [Entries.count]
            omega
          · simpa using
              (hE.trans (advance_ok hr' (by simp [hr]))).trans hE'
      · simp [throwErrAt] at h

theorem funcallLoop_ok (hx : ExprSound expr) {fuel n m : Nat} {sc : Bool} {p p' : Parser}
    (h : funcallLoop expr fuel n false p = .ok (m, sc, p')) :
    ∃ (es : Elems) (star : Option Lexeme) (rp : Lexeme), es.Wf ∧ (∀ s ∈ star, s.kind = lkStar) ∧
      rp.kind = lkRparen ∧ m + 1 = n + es.count ∧ sc = star.isSome ∧
      Emits p (es.toks star.toList ++ [rp]) es.code es.braces p' := by
  induction fuel generalizing n p with
  | zero => simp [funcallLoop] at h
  | succ fuel ih =>
      rw [funcallLoop] at h
      obtain ⟨⟨b, q⟩, hq, h⟩ := bind_ok h
      obtain ⟨star, hstar, rfl, hS⟩ := scatterStar_ok hq
      simp only [Bool.or_false] at h
      obtain ⟨q1, hq1, h⟩ := bind_ok h
      obtain ⟨e, he, hE⟩ := hx hq1
      have hSE := hS.trans hE
      split at h
      · rename_i hk
        obtain ⟨r, hr, h⟩ := bind_ok h
        simp only [Except.ok.injEq, Prod.mk.injEq] at h
        obtain ⟨rfl, rfl, rfl⟩ := h
        refine ⟨.last e, star, q1.cur, he, hstar, hk, rfl, rfl, ?_⟩
        simpa using
          hSE.trans (advance_ok hr (by simp [hk]))
      · rename_i hk
        obtain ⟨r, hr, h⟩ := bind_ok h
        split_ifs at h with h1 h2
        · simp [throwErrAt] at h
        · simp [throwErrAt] at h
        · obtain rfl : star = none := by simpa using h1
          obtain ⟨es, star, rp, hes, hstar, hrp, hm, hsc, hE'⟩ := ih h
          refine ⟨.more e q1.cur es, star, rp, ⟨he, hk, hes⟩, hstar, hrp, ?_, hsc, ?_⟩
          · simp only [Elems.count]
            omega
          · simpa using
              (hSE.trans (advance_ok hr (by simp [hk]))).trans hE'
      · simp [throwErrAt] at h

theorem newlist_ok (hx : ExprSound expr) {fuel n : Nat} {p p' : Parser}
    (hk : p.cur.kind = lkLbracket) (h : newlist expr fuel p = .ok (n, p')) :
    ∃ e, Built p e (emitAt p' (opList n) p.cur) := by
  unfold newlist at h
  obtain ⟨q, hq, h⟩ := bind_ok h
  have ha := advance_ok hq (by simp [hk])
  split_ifs at h with hr
  · obtain ⟨r, hr', h⟩ := bind_ok h
    simp only [Except.ok.injEq, Prod.mk.injEq] at h
    obtain ⟨rfl, rfl⟩ := h
    exact ⟨.list0 p.cur q.cur, .list0 hk ha hr (advance_ok hr' (by simp [hr]))⟩
  · obtain ⟨es, rb, hes, hrb, hm, hE⟩ := newlistLoop_ok hx h
    obtain rfl : n = es.count := by omega
    exact ⟨.list p.cur es rb, .list hk ha hes hrb hE⟩

theorem newdict_ok (hx : ExprSound expr) {fuel n : Nat} {p p' : Parser}
    (hk : p.cur.kind = lkLbrace) (h : newdict expr fuel p = .ok (n, p')) :
    ∃ e, Built p e (emitAt p' (opDict n) p.cur) := by
  unfold newdict at h
  obtain ⟨q, hq, h⟩ := bind_ok h
  have ha := (Emits.brace p (p.cur.start, false)).trans (advance_ok hq (by simp [hk]))
  split_ifs at h with hr
  · obtain ⟨r, hr', h⟩ := bind_ok h
    simp only [Except.ok.injEq, Prod.mk.injEq] at h
    obtain ⟨rfl, rfl⟩ := h
    exact ⟨.dict0 p.cur q.cur, .dict0 hk ha hr (advance_ok hr' (by simp [hr]))⟩
  · obtain ⟨kvs, rb, hkvs, hrb, hm, hE⟩ := newdictLoop_ok hx h
    obtain rfl : n = kvs.count := by omega
    exact ⟨.dict p.cur kvs rb, .dict hk ha hkvs hrb hE⟩

/-! ## Operators -/

theorem funcall_ok (hx : ExprSound expr) {fuel n : Nat} {sc : Bool} {p₀ p p' : Parser} {f : Expr}
    (hf : Built p₀ f p) (hk : p.cur.kind = lkLparen)
    (h : funcall expr fuel p = .ok (n, sc, p')) :
    ∃ e, Built p₀ e (emitAt p' (opCall sc n) p.cur) := by
  unfold funcall at h
  obtain ⟨q, hq, h⟩ := bind_ok h
  have ha := advance_ok hq (by simp [hk])
  split_ifs at h with hr
  · obtain ⟨r, hr', h⟩ := bind_ok h
    simp only [Except.ok.injEq, Prod.mk.injEq] at h
    obtain ⟨rfl, rfl, rfl⟩ := h
    exact ⟨.call0 f p.cur q.cur, hf.call0 hk ha hr (advance_ok hr' (by simp [hr]))⟩
  · obtain ⟨es, star, rp, hes, hstar, hrp, hm, rfl, hE⟩ := funcallLoop_ok hx h
    obtain rfl : n = es.count := by omega
    exact ⟨.call f p.cur es star rp, hf.call hk ha hes hstar hrp hE⟩

theorem unaryOperator_ok (hx : ExprSound expr) {p p' : Parser}
    (h : unaryOperator expr p = .ok p') : ∃ e, Built p e p' := by
  simp only [unaryOperator] at h
  split at h
  · simp [throwErrAt] at h
  · rename_i op priority hu
    obtain ⟨q, hq, h⟩ := bind_ok h
    obtain ⟨q', hq', h⟩ := bind_ok h
    simp only [Except.ok.injEq] at h
    subst h
    obtain ⟨e, he⟩ := hx hq'
    exact ⟨.unary p.cur e, .unary hu (advance_ok hq (unaryProps_ne_eof hu)) he⟩

/-- An infix operator whose priority is too low is left to the caller. -/
theorem binaryOperator_ok (hx : ExprSound expr) {min : Int} {b : Bool} {p₀ p p' : Parser} {l : Expr}
    (hl : Built p₀ l p) (h : binaryOperator expr p min = .ok (b, p')) :
    ∃ e, Built p₀ e p' := by
  simp only [binaryOperator] at h
  split at h
  · simp [throwErrAt] at h
  · rename_i op priority isLeftAssoc hb
    split_ifs at h
    · simp only [Except.ok.injEq, Prod.mk.injEq] at h
      obtain ⟨rfl, rfl⟩ := h
      exact ⟨l, hl⟩
    · obtain ⟨q, hq, h⟩ := bind_ok h
      obtain ⟨q', hq', h⟩ := bind_ok h
      simp only [Except.ok.injEq, Prod.mk.injEq] at h
      obtain ⟨rfl, rfl⟩ := h
      obtain ⟨r, hr⟩ := hx hq'
      exact ⟨.binary l p.cur r, hl.binary hb (advance_ok hq (binaryProps_ne_eof hb)) hr⟩

theorem index_ok (hx : ExprSound expr) {p₀ p q q' p' : Parser} {l : Expr} {msg : String}
    (hl : Built p₀ l p) (hk : p.cur.kind = lkLbracket) (hq : advance p = .ok q)
    (hi : expr (-1) q = .ok q') (hs : slurp q' lkRbracket msg = .ok p') :
    ∃ e, Built p₀ e (emitAt p' opLoadAt p.cur) := by
  obtain ⟨i, hi⟩ := hx hi
  obtain ⟨hr, hs⟩ := slurp_ok hs (by simp)
  exact ⟨.index l p.cur i q'.cur, hl.index hk (advance_ok hq (by simp [hk])) hi hr hs⟩

theorem field_ok {p₀ p q r p' : Parser} {l : Expr} {c : Nat} (hl : Built p₀ l p)
    (hk : p.cur.kind = lkDot) (hq : advance p = .ok q) (hf : q.cur.kind = lkIdent)
    (hc : addConstSteal q (.str q.cur.text) = .ok (c, r))
    (h : advance (emitAt (emitAt r (opLoadConst c) q.cur) opLoadAt q.cur) = .ok p') :
    Built p₀ (.field l p.cur q.cur) p' := by
  obtain ⟨hr, hcv⟩ := addConstSteal_ok hc
  have hcur : (emitAt (emitAt r (opLoadConst c) q.cur) opLoadAt q.cur).cur = q.cur := hr.cur_eq
  have ha := advance_ok h (by simp [hcur, hf])
  rw [hcur] at ha
  have h1 := hr.trans (emitAt_emits r q.cur (.const hcv))
  have h2 := h1.trans (emitAt_emits _ (i := opLoadAt) q.cur (.plain rfl))
  refine ⟨⟨hl.wf, hk, hf⟩, ?_⟩
  simpa using
    ((hl.emits.trans (advance_ok hq (by simp [hk]))).trans h2).trans ha

/-! ## The loop -/

/-- The loop of `expr` extends an expression already read, and starts one otherwise. -/
theorem exprLoop_ok (hx : ExprSound expr) (fuel : Nat) (min : Int) :
    (∀ {p₀ p p' : Parser} {l : Expr}, Built p₀ l p →
      exprLoop expr fuel min false p = .ok p' → ∃ e, Built p₀ e p') ∧
    (∀ {p p' : Parser}, exprLoop expr fuel min true p = .ok p' → ∃ e, Built p e p') := by
  induction fuel with
  | zero => exact ⟨fun _ h => by simp [exprLoop] at h, fun h => by simp [exprLoop] at h⟩
  | succ fuel ih =>
      obtain ⟨ihf, iht⟩ := ih
      constructor
      · intro p₀ p p' l hl h
        rw [exprLoop] at h
        split at h <;> rename_i hk
        · simp [thisIsExpr, throwErrAt, bind, Except.bind] at h
        · simp [thisIsExpr, throwErrAt, bind, Except.bind] at h
        · simp only [Bool.false_eq_true, if_false] at h
          obtain ⟨q, hq, h⟩ := bind_ok h
          obtain ⟨q', hq', h⟩ := bind_ok h
          obtain ⟨r, hr, h⟩ := bind_ok h
          obtain ⟨e, he⟩ := index_ok hx hl (exprCase_lbracket.mp hk) hq hq' hr
          exact ihf he h
        · simp [thisIsExpr, throwErrAt, bind, Except.bind] at h
        · simp only [Bool.false_eq_true, if_false] at h
          obtain ⟨⟨n, sc, q⟩, hq, h⟩ := bind_ok h
          obtain ⟨e, he⟩ := funcall_ok hx hl (exprCase_lparen.mp hk) hq
          exact ihf he h
        · obtain ⟨-, -, h⟩ := bind_ok h
          obtain ⟨q, hq, h⟩ := bind_ok h
          simp only at h
          split_ifs at h with hf
          · obtain ⟨⟨c, r⟩, hc, h⟩ := bind_ok h
            obtain ⟨r', hr', h⟩ := bind_ok h
            exact ihf (field_ok hl (exprCase_dot.mp hk) hq hf hc hr') h
          · simp [throwErrAt] at h
        · obtain ⟨-, -, h⟩ := bind_ok h
          simp only [Except.ok.injEq] at h
          exact ⟨l, h ▸ hl⟩
        · simp only [Bool.false_eq_true, if_false] at h
          obtain ⟨⟨again, q⟩, hq, h⟩ := bind_ok h
          obtain ⟨e, he⟩ := binaryOperator_ok hx hl hq
          cases again with
          | true => exact ihf he h
          | false =>
              simp only [Bool.false_eq_true, if_false, Except.ok.injEq] at h
              exact ⟨e, h ▸ he⟩
      · intro p p' h
        rw [exprLoop] at h
        split at h <;> rename_i hk
        · obtain ⟨-, -, h⟩ := bind_ok h
          obtain ⟨⟨c, q⟩, hc, h⟩ := bind_ok h
          obtain ⟨q', hq', h⟩ := bind_ok h
          exact ihf (literal_ok hk hc hq') h
        · obtain ⟨-, -, h⟩ := bind_ok h
          obtain ⟨⟨i, q⟩, hi, h⟩ := bind_ok h
          obtain ⟨q', hq', h⟩ := bind_ok h
          exact ihf (ident_ok (exprCase_ident.mp hk) hi hq') h
        · simp only [if_true] at h
          obtain ⟨⟨n, q⟩, hq, h⟩ := bind_ok h
          obtain ⟨e, he⟩ := newlist_ok hx (exprCase_lbracket.mp hk) hq
          exact ihf he h
        · obtain ⟨-, -, h⟩ := bind_ok h
          obtain ⟨⟨n, q⟩, hq, h⟩ := bind_ok h
          obtain ⟨e, he⟩ := newdict_ok hx (exprCase_lbrace.mp hk) hq
          exact ihf he h
        · simp only [if_true] at h
          obtain ⟨q, hq, h⟩ := bind_ok h
          obtain ⟨q', hq', h⟩ := bind_ok h
          obtain ⟨r, hr, h⟩ := bind_ok h
          obtain ⟨e, he⟩ := hx hq'
          obtain ⟨hrk, hr⟩ := slurp_ok hr (by simp)
          have hlp := exprCase_lparen.mp hk
          exact ihf (.paren hlp (advance_ok hq (by simp [hlp])) he hrk hr) h
        · simp [afterExpr, throwErrAt, bind, Except.bind] at h
        · simp [afterExpr, throwErrAt, bind, Except.bind] at h
        · simp only [if_true] at h
          obtain ⟨q, hq, h⟩ := bind_ok h
          obtain ⟨e, he⟩ := unaryOperator_ok hx hq
          exact ihf he h

/-- Every success of `expr` follows an expression tree. -/
theorem expr_sound (fuel : Nat) : ExprSound (Calx.expr fuel) := by
  induction fuel with
  | zero =>
      intro min p p' h
      simp [Calx.expr] at h
  | succ fuel ih =>
      intro min p p' h
      exact (exprLoop_ok ih fuel min).2 h

end Calx
