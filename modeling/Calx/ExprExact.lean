import Calx.Lib.Fallible
import Calx.AssignSound
import Calx.Grouping

/-!
# Expressions, exactly

Where the lexemes ahead are those of a well-formed expression that is grouped as
the table of `binary_operator` says, and the lexeme behind them ends it, `expr`
can return only after having read this expression and emitted its code, and it
does return where there is room.

## Implementation notes

What needs room are constants and identifiers. Every step emits at least as many
instructions as it adds constants or identifiers, so that the length of the code
measures this room.
-/

namespace Calx

open LexemeKind Instr Fallible

/-! ## Room -/

namespace Parser

/-- No lexeme still to come is an error. -/
def Clean (p : Parser) : Prop := ∀ l ∈ p.toks, l.kind ≠ lkError

/-- There is room for `n` more constants, identifiers and functions. -/
structure Room (p : Parser) (n : Nat) : Prop where
  consts : p.consts.length + n ≤ uint32Max
  idents : p.idents.length + n ≤ uint32Max
  shapes : p.shapes.length + n ≤ uint32Max

theorem Room.mono {p : Parser} {n m : Nat} (h : p.Room n) (hle : m ≤ n) : p.Room m := by
  obtain ⟨h1, h2, h3⟩ := h
  exact ⟨by omega, by omega, by omega⟩

end Parser

/-- From `p` to `p'` no more constants, identifiers or functions were added than instructions. -/
structure Thrifty (p p' : Parser) : Prop where
  consts : p'.consts.length + p.prog.length ≤ p.consts.length + p'.prog.length
  idents : p'.idents.length + p.prog.length ≤ p.idents.length + p'.prog.length
  shapes : p'.shapes.length + p.prog.length ≤ p.shapes.length + p'.prog.length

section

variable {p p' p'' : Parser}

theorem Thrifty.refl (p : Parser) : Thrifty p p := ⟨le_rfl, le_rfl, le_rfl⟩

theorem Thrifty.trans (h : Thrifty p p') (h' : Thrifty p' p'') : Thrifty p p'' := by
  obtain ⟨h1, h2, h3⟩ := h
  obtain ⟨h1', h2', h3'⟩ := h'
  exact ⟨by omega, by omega, by omega⟩

theorem Thrifty.advance (h : Calx.advance p = .ok p') : Thrifty p p' := by
  obtain ⟨c, lx, rfl⟩ := advance_eq h
  exact ⟨le_rfl, le_rfl, le_rfl⟩

theorem thrifty_emitAtLine (p : Parser) (i : Instr) (line : Option Nat) :
    Thrifty p (emitAtLine p i line) := by
  constructor
  · simp [emitAtLine]
  · simp [emitAtLine]
  · simp [emitAtLine]

theorem Thrifty.emitAt (h : Thrifty p p') (i : Instr) (l : Lexeme) :
    Thrifty p (Calx.emitAt p' i l) := h.trans (thrifty_emitAtLine p' i _)

theorem thrifty_brace (p : Parser) (b : Nat × Bool) :
    Thrifty p { p with braces := p.braces ++ [b] } := ⟨le_rfl, le_rfl, le_rfl⟩

/-- The instruction that loads a constant pays for it. -/
theorem thrifty_const (p : Parser) (v : Const) (i : Instr) (line : Option Nat) :
    Thrifty p (emitAtLine { p with consts := p.consts ++ [v] } i line) := by
  constructor
  · simp only [emitAtLine, List.length_append, List.length_singleton]
    omega
  · simp [emitAtLine]
  · simp [emitAtLine]

/-- The instruction that loads an identifier pays for it. -/
theorem thrifty_ident (p : Parser) (x : Bytes) (i : Instr) (line : Option Nat) :
    Thrifty p (emitAtLine { p with idents := p.idents ++ [x] } i line) := by
  constructor
  · simp [emitAtLine]
  · simp only [emitAtLine, List.length_append, List.length_singleton]
    omega
  · simp [emitAtLine]

/-- The first lexeme ahead is the current one. -/
theorem cur_of_toks {l : Lexeme} {ls : List Lexeme} (h : p.toks = l :: ls) : l = p.cur :=
  (List.cons.inj h).1.symm

theorem Emits.ahead {ts rest : List Lexeme} {items : List Item} {br : List (Nat × Bool)}
    (h : Emits p ts items br p') (hp : p.toks = ts ++ rest) : p'.toks = rest :=
  List.append_cancel_left (h.toks.symm.trans hp)

theorem Emits.clean {ts : List Lexeme} {items : List Item} {br : List (Nat × Bool)}
    (h : Emits p ts items br p') (hp : p.Clean) : p'.Clean := by
  intro l hl
  refine hp l ?_
  rw [h.toks]
  exact List.mem_append_right _ hl

theorem Emits.room {ts : List Lexeme} {items : List Item} {br : List (Nat × Bool)} {n : Nat}
    (h : Emits p ts items br p') (ht : Thrifty p p') (hp : p.Room (items.length + n)) :
    p'.Room n := by
  obtain ⟨new, hnew, hd⟩ := h.prog
  have hlen := hd.length_eq
  obtain ⟨h1, h2, h3⟩ := ht
  obtain ⟨h1', h2', h3'⟩ := hp
  rw [hnew, List.length_append] at h1 h2 h3
  exact ⟨by omega, by omega, by omega⟩

end

/-! ## Steps that return -/

section

variable {p p' : Parser} {l : Lexeme} {ls : List Lexeme}

theorem advance_returns (h : p.toks = l :: ls) (hne : ls ≠ []) (hp : p.Clean) :
    ∃ p', advance p = .ok p' ∧ Emits p [l] [] [] p' ∧ Thrifty p p' := by
  obtain rfl := cur_of_toks h
  have hcur : p.cur.kind ≠ lkEof := by
    intro hk
    rw [Parser.toks, if_pos hk] at h
    exact hne (List.cons.inj h).2.symm
  have hls : lexAll p.lexer = ls := by
    rw [Parser.toks, if_neg hcur] at h
    exact (List.cons.inj h).2
  have hmem : (lexerNext p.lexer).1 ∈ p.toks := by
    rw [h, ← hls, lexAll_eq]
    exact List.mem_cons_of_mem _ List.mem_cons_self
  have hr : advance p =
      .ok { p with cur := (lexerNext p.lexer).1, lexer := (lexerNext p.lexer).2 } := by
    simp [advance, hp _ hmem]
  exact ⟨_, hr, advance_ok hr hcur, .advance hr⟩

theorem slurp_returns {k : LexemeKind} (msg : String) (h : p.toks = l :: ls) (hk : l.kind = k)
    (hne : ls ≠ []) (hp : p.Clean) :
    ∃ p', slurp p k msg = .ok p' ∧ Emits p [l] [] [] p' ∧ Thrifty p p' := by
  obtain ⟨p', hr, hE, hT⟩ := advance_returns h hne hp
  obtain rfl := cur_of_toks h
  exact ⟨p', by rw [slurp, if_pos hk, hr], hE, hT⟩

variable {ok : Prop} {n : Nat}

theorem addConstSteal_yields (hp : ok → p.Room (n + 1)) (v : Const) :
    Yields ok (addConstSteal p v) fun r =>
      r = (p.consts.length, { p with consts := p.consts ++ [v] }) := by
  unfold addConstSteal
  split_ifs with h
  · refine .fails fun hok => ?_
    have := (hp hok).consts
    omega
  · exact .pure rfl

theorem load_yields (hp : ok → p.Room (n + 1)) (ident : Lexeme) :
    Yields ok (load p ident) fun r =>
      r = (opLoadSymbolic p.idents.length, { p with idents := p.idents ++ [ident.text] }) := by
  unfold load
  split_ifs with h
  · refine .fails fun hok => ?_
    have := (hp hok).idents
    omega
  · exact .pure rfl

theorem addConst_yields [DeciBase] {tok : Lexeme} (hp : ok → p.Room (n + 1))
    (hv : (litConst tok).isSome = true) :
    Yields ok (addConst p tok) fun r =>
      ∃ v, r = (p.consts.length, { p with consts := p.consts ++ [v] }) := by
  unfold addConst
  split
  · exact (addConstSteal_yields hp _).imp fun _ h => ⟨_, h⟩
  · exact (addConstSteal_yields hp _).imp fun _ h => ⟨_, h⟩
  · exact (addConstSteal_yields hp _).imp fun _ h => ⟨_, h⟩
  · exact (addConstSteal_yields hp _).imp fun _ h => ⟨_, h⟩
  · simp only [addStringConst]
    split
    · rename_i k hk
      unfold litConst at hv
      split at hv <;> simp_all
    · exact (addConstSteal_yields hp _).imp fun _ h => ⟨_, h⟩

end

/-! ## Turns of the loop -/

theorem exprCase_unary {k : LexemeKind} {u : Instr × Int} (hu : unaryProps k = some u) :
    exprCase k = .operator := by
  cases k <;> first | rfl | simp [unaryProps] at hu

theorem exprCase_binary {k : LexemeKind} {u : Instr × Int × Int} (hu : binaryProps k = some u) :
    exprCase k = .operator := by
  cases k <;> first | rfl | simp [binaryProps] at hu

section

variable [DeciBase] {x : Int → Parser → Res Parser} {fuel : Nat} {min : Int} {p : Parser}

theorem exprLoop_literal (hk : p.cur.kind.isLiteral = true) :
    exprLoop x (fuel + 1) min true p = (do
      let (c, q) ← addConst p p.cur
      let p' ← advance (emitAt q (opLoadConst c) p.cur)
      exprLoop x fuel min false p') := by
  have hcase : exprCase p.cur.kind = .literal := by simpa [LexemeKind.isLiteral] using hk
  simp only [exprLoop, hcase, thisIsExpr, if_true]
  rfl

theorem exprLoop_ident (hk : p.cur.kind = lkIdent) :
    exprLoop x (fuel + 1) min true p = (do
      let (i, q) ← load p p.cur
      let p' ← advance (emitAt q i p.cur)
      exprLoop x fuel min false p') := by
  simp only [exprLoop, exprCase_ident.mpr hk, thisIsExpr, if_true]
  rfl

theorem exprLoop_list (hk : p.cur.kind = lkLbracket) :
    exprLoop x (fuel + 1) min true p = (do
      let (n, q) ← newlist x fuel p
      exprLoop x fuel min false (emitAt q (opList n) p.cur)) := by
  simp only [exprLoop, exprCase_lbracket.mpr hk, if_true]

theorem exprLoop_dict (hk : p.cur.kind = lkLbrace) :
    exprLoop x (fuel + 1) min true p = (do
      let (n, q) ← newdict x fuel p
      exprLoop x fuel min false (emitAt q (opDict n) p.cur)) := by
  simp only [exprLoop, exprCase_lbrace.mpr hk, thisIsExpr, if_true]
  rfl

theorem exprLoop_paren (hk : p.cur.kind = lkLparen) :
    exprLoop x (fuel + 1) min true p = (do
      let q ← advance p
      let q ← x (-1) q
      let q ← slurp q lkRparen "expected ')'"
      exprLoop x fuel min false q) := by
  simp only [exprLoop, exprCase_lparen.mpr hk, if_true]

theorem exprLoop_unary {u : Instr × Int} (hu : unaryProps p.cur.kind = some u) :
    exprLoop x (fuel + 1) min true p = (do
      let q ← advance p
      let q ← x u.2 q
      exprLoop x fuel min false (emitAt q u.1 p.cur)) := by
  simp only [exprLoop, exprCase_unary hu, unaryOperator, hu, if_true, bind_assoc]
  rfl

theorem exprLoop_binary {u : Instr × Int × Int} (hu : binaryProps p.cur.kind = some u)
    (hmin : min ≤ u.2.1) :
    exprLoop x (fuel + 1) min false p = (do
      let q ← advance p
      let q ← x (u.2.1 + u.2.2) q
      exprLoop x fuel min false (emitAt q u.1 p.cur)) := by
  simp only [exprLoop, exprCase_binary hu, binaryOperator, hu, if_neg (not_lt.mpr hmin),
    Bool.false_eq_true, if_false, bind_assoc]
  rfl

theorem exprLoop_index (hk : p.cur.kind = lkLbracket) :
    exprLoop x (fuel + 1) min false p = (do
      let q ← advance p
      let q ← x (-1) q
      let q ← slurp q lkRbracket "expected ']'"
      exprLoop x fuel min false (emitAt q opLoadAt p.cur)) := by
  simp only [exprLoop, exprCase_lbracket.mpr hk, Bool.false_eq_true, if_false]

theorem exprLoop_call (hk : p.cur.kind = lkLparen) :
    exprLoop x (fuel + 1) min false p = (do
      let (n, b, q) ← funcall x fuel p
      exprLoop x fuel min false (emitAt q (opCall b n) p.cur)) := by
  simp only [exprLoop, exprCase_lparen.mpr hk, Bool.false_eq_true, if_false]

theorem exprLoop_field {q : Parser} (hk : p.cur.kind = lkDot) (ha : advance p = .ok q)
    (hf : q.cur.kind = lkIdent) :
    exprLoop x (fuel + 1) min false p = (do
      let (c, r) ← addConstSteal q (.str q.cur.text)
      let p' ← advance (emitAt (emitAt r (opLoadConst c) q.cur) opLoadAt q.cur)
      exprLoop x fuel min false p') := by
  simp only [exprLoop, exprCase_dot.mpr hk, afterExpr, Bool.false_eq_true, if_false]
  rw [bind_of_ok rfl, bind_of_ok ha]
  simp only [hf, if_true]

theorem exprLoop_end (hk : EndsAt min p.cur.kind) :
    exprLoop x (fuel + 1) min false p = .ok p := by
  obtain hk | ⟨q, hq, hlt⟩ := hk
  · have hcase : exprCase p.cur.kind = .stop := by
      revert hk
      cases p.cur.kind <;> decide
    simp only [exprLoop, hcase, afterExpr, Bool.false_eq_true, if_false]
    rfl
  · obtain ⟨u, hu, rfl⟩ := Option.map_eq_some_iff.mp hq
    have ho : binaryOperator x p min = .ok (false, p) := by
      simp only [binaryOperator, hu, if_pos hlt]
    simp only [exprLoop, exprCase_binary hu, Bool.false_eq_true, if_false]
    rw [bind_of_ok ho]
    rfl

end

/-! ## What lies ahead -/

section

variable [DeciBase] {x : Int → Parser → Res Parser} {N : Nat}

/-- The expression `e` lies ahead, with `next` and `rest` behind it, for `expr` called with
`min`. -/
structure Faces (min : Int) (e : Expr) (p : Parser) (next : Lexeme) (rest : List Lexeme) :
    Prop where
  toks : p.toks = e.toks ++ next :: rest
  clean : p.Clean
  wf : e.Wf
  grouped : e.Grouped codePriorities
  above : e.Above min
  ends : e.EndsBefore next.kind

/-- `expr` on the expressions of at most `N` lexemes that lie ahead. -/
def ExprYields (x : Int → Parser → Res Parser) (N : Nat) : Prop :=
  ∀ {ok : Prop} {min : Int} {e : Expr} {p : Parser} {next : Lexeme} {rest : List Lexeme},
    Faces min e p next rest → EndsAt min next.kind → (ok → p.Room e.code.length) →
      e.toks.length ≤ N → Yields ok (x min p) fun p' => Built p e p' ∧ Thrifty p p'

/-- An expression in front of a lexeme at which every expression ends. -/
theorem ExprYields.low (hx : ExprYields x N) {ok : Prop} {e : Expr} {p : Parser} {next : Lexeme}
    {rest : List Lexeme} (htoks : p.toks = e.toks ++ next :: rest) (hp : p.Clean) (hwf : e.Wf)
    (hg : e.Grouped codePriorities) (hk : exprEnd next.kind = true)
    (hr : ok → p.Room e.code.length) (hN : e.toks.length ≤ N) :
    Yields ok (x (-1) p) fun p' => Built p e p' ∧ Thrifty p p' :=
  hx ⟨htoks, hp, hwf, hg, e.above_low, e.endsBefore_stop hk⟩ (Or.inl hk) hr hN

/-- The kinds of lexemes that start an expression. -/
def LexemeKind.starts (k : LexemeKind) : Bool :=
  match exprCase k with
  | .literal | .ident | .lbracket | .lbrace | .lparen => true
  | .operator => (unaryProps k).isSome
  | _ => false

theorem Expr.toks_head : ∀ {e : Expr}, e.Wf → ∃ t ts, e.toks = t :: ts ∧ t.kind.starts = true
  | .literal t, ⟨hk, _⟩ => by
      refine ⟨t, [], rfl, ?_⟩
      have hcase : exprCase t.kind = .literal := by simpa [LexemeKind.isLiteral] using hk
      simp [LexemeKind.starts, hcase]
  | .ident t, hk => by
      refine ⟨t, [], rfl, ?_⟩
      simp [LexemeKind.starts, exprCase_ident.mpr hk]
  | .list0 lb rb, ⟨hk, _⟩ => by
      refine ⟨lb, [rb], rfl, ?_⟩
      simp [LexemeKind.starts, exprCase_lbracket.mpr hk]
  | .list lb es rb, ⟨hk, _⟩ => by
      refine ⟨lb, _, rfl, ?_⟩
      simp [LexemeKind.starts, exprCase_lbracket.mpr hk]
  | .dict0 lb rb, ⟨hk, _⟩ => by
      refine ⟨lb, [rb], rfl, ?_⟩
      simp [LexemeKind.starts, exprCase_lbrace.mpr hk]
  | .dict lb kvs rb, ⟨hk, _⟩ => by
      refine ⟨lb, _, rfl, ?_⟩
      simp [LexemeKind.starts, exprCase_lbrace.mpr hk]
  | .paren lp e rp, ⟨hk, _⟩ => by
      refine ⟨lp, _, rfl, ?_⟩
      simp [LexemeKind.starts, exprCase_lparen.mpr hk]
  | .unary op e, ⟨hu, _⟩ => by
      refine ⟨op, _, rfl, ?_⟩
      obtain ⟨u, hu'⟩ := Option.isSome_iff_exists.mp hu
      simp [LexemeKind.starts, exprCase_unary hu', hu]
  | .binary l _ _, ⟨hl, _⟩ | .index l _ _ _, ⟨hl, _⟩ | .field l _ _, ⟨hl, _⟩
  | .call0 l _ _, ⟨hl, _⟩ | .call l _ _ _ _, ⟨hl, _⟩ => by
      obtain ⟨t, ts, hts, hk⟩ := Expr.toks_head hl
      exact ⟨t, _, by rw [Expr.toks, hts, List.cons_append], hk⟩

/-- The lexeme in front of an expression starts one. -/
theorem cur_starts {e : Expr} {p : Parser} {ls : List Lexeme} (hwf : e.Wf)
    (h : p.toks = e.toks ++ ls) : p.cur.kind.starts = true := by
  obtain ⟨t, ts, hts, hk⟩ := Expr.toks_head hwf
  rw [hts, List.cons_append] at h
  rwa [← cur_of_toks h]

omit [DeciBase] in
theorem LexemeKind.ne_of_starts {k k' : LexemeKind} (h : k.starts = true)
    (h' : k'.starts = false) : k ≠ k' := by
  rintro rfl
  rw [h] at h'
  cases h'

theorem Expr.toks_pos {e : Expr} (hwf : e.Wf) : 0 < e.toks.length := by
  obtain ⟨t, ts, hts, -⟩ := Expr.toks_head hwf
  rw [hts]
  exact Nat.succ_pos _

/-! ## Lists -/

theorem newlistLoop_yields (hx : ExprYields x N) {ok : Prop} : ∀ {es : Elems} {m n : Nat}
    {p : Parser} {rb : Lexeme} {rest : List Lexeme}, p.toks = es.toks [] ++ rb :: rest →
    rest ≠ [] → p.Clean → es.Wf → es.Grouped codePriorities → rb.kind = lkRbracket →
    (ok → p.Room es.code.length) → (ok → n + es.count ≤ uint32Max + 1) →
    (es.toks []).length ≤ N → (es.toks []).length ≤ m →
    Yields ok (newlistLoop x m n p) fun r => r.1 + 1 = n + es.count ∧
      Emits p (es.toks [] ++ [rb]) es.code es.braces r.2 ∧ Thrifty p r.2
  | .last e, fuel, n, p, rb, rest, htoks, hne, hp, hwf, hg, hrb, hroom, _, hN, hfuel => by
      have hpos := Expr.toks_pos hwf
      simp only [Elems.toks, List.nil_append] at htoks hN hfuel
      obtain ⟨fuel, rfl⟩ : ∃ k, fuel = k + 1 := ⟨fuel - 1, by omega⟩
      rw [newlistLoop]
      refine (hx.low htoks hp hwf hg (by rw [hrb]; rfl) hroom hN).bind ?_
      rintro q ⟨hB, hT⟩
      have hqt := hB.emits.ahead htoks
      obtain ⟨p', ha, hE, hT'⟩ := advance_returns hqt hne (hB.emits.clean hp)
      rw [← cur_of_toks hqt]
      simp only [hrb]
      refine .step ha (.pure ⟨rfl, ?_, hT.trans hT'⟩)
      simpa [Elems.toks, Elems.code, Elems.braces] using hB.emits.trans hE
  | .more e comma es, fuel, n, p, rb, rest, htoks, hne, hp, ⟨hwf, hk, hwfs⟩, ⟨hg, hgs⟩, hrb,
      hroom, hcount, hN, hfuel => by
      simp only [Elems.toks, List.append_assoc, List.cons_append, List.length_append,
        List.length_cons, Elems.count, Elems.code] at htoks hN hfuel hcount hroom
      obtain ⟨fuel, rfl⟩ : ∃ k, fuel = k + 1 := ⟨fuel - 1, by omega⟩
      rw [newlistLoop]
      refine (hx.low htoks hp hwf hg (by rw [hk]; rfl) (fun h => (hroom h).mono (by omega))
        (by omega)).bind ?_
      rintro q ⟨hB, hT⟩
      have hqt := hB.emits.ahead htoks
      obtain ⟨q', ha, hE, hT'⟩ := advance_returns hqt (by simp) (hB.emits.clean hp)
      have hBE := hB.emits.trans hE
      have hTT := hT.trans hT'
      have hpos : 0 < es.count := by cases es <;> simp [Elems.count]
      rw [← cur_of_toks hqt]
      simp only [hk]
      refine .step ha ?_
      split_ifs with hn
      · refine .fails fun h => ?_
        have := hcount h
        omega
      · refine (newlistLoop_yields (m := fuel) (n := n + 1) hx (hE.ahead hqt) hne (hBE.clean hp)
          hwfs hgs hrb (fun h => hBE.room hTT (by simpa using hroom h))
          (fun h => by have := hcount h; omega) (by omega) (by omega)).imp ?_
        rintro r ⟨hr, hE', hT''⟩
        refine ⟨by rw [hr, Elems.count]; omega, ?_, hTT.trans hT''⟩
        simpa [Elems.toks, Elems.code, Elems.braces] using hBE.trans hE'

theorem newdictLoop_yields (hx : ExprYields x N) {ok : Prop} : ∀ {kvs : Entries} {m n : Nat}
    {p : Parser} {rb : Lexeme} {rest : List Lexeme}, p.toks = kvs.toks ++ rb :: rest →
    rest ≠ [] → p.Clean → kvs.Wf → kvs.Grouped codePriorities → rb.kind = lkRbrace →
    (ok → p.Room kvs.code.length) → (ok → n + kvs.count ≤ uint32Max + 1) →
    kvs.toks.length ≤ N → kvs.toks.length ≤ m →
    Yields ok (newdictLoop x m n p) fun r => r.1 + 1 = n + kvs.count ∧
      Emits p (kvs.toks ++ [rb]) kvs.code kvs.braces r.2 ∧ Thrifty p r.2
  | .last k colon v, fuel, n, p, rb, rest, htoks, hne, hp, ⟨hwf, hc, hwfv⟩, ⟨hg, hgv⟩, hrb, hroom,
      _, hN, hfuel => by
      simp only [Entries.toks, List.append_assoc, List.cons_append, List.length_append,
        List.length_cons, Entries.code] at htoks hN hfuel hroom
      obtain ⟨fuel, rfl⟩ : ∃ k, fuel = k + 1 := ⟨fuel - 1, by omega⟩
      rw [newdictLoop]
      refine (hx.low htoks hp hwf hg (by rw [hc]; rfl) (fun h => (hroom h).mono (by omega))
        (by omega)).bind ?_
      rintro q ⟨hB, hT⟩
      obtain ⟨q₁, hs, hC, hT₁⟩ := slurp_returns "expected ':'" (hB.emits.ahead htoks) hc
        (by simp) (hB.emits.clean hp)
      have hBC := hB.emits.trans hC
      have hq₁ := hC.ahead (hB.emits.ahead htoks)
      refine .step hs ((hx.low hq₁ (hBC.clean hp) hwfv hgv (by rw [hrb]; rfl)
        (fun h => hBC.room (hT.trans hT₁) (by simpa using hroom h)) (by omega)).bind ?_)
      rintro q₂ ⟨hV, hT₂⟩
      have hBV := hBC.trans hV.emits
      have hqt := hV.emits.ahead hq₁
      obtain ⟨p', ha, hE, hT₃⟩ := advance_returns hqt hne (hBV.clean hp)
      rw [← cur_of_toks hqt]
      simp only [hrb]
      refine .step ha (.pure ⟨rfl, ?_, ((hT.trans hT₁).trans hT₂).trans hT₃⟩)
      simpa [Entries.toks, Entries.code, Entries.braces] using hBV.trans hE
  | .more k colon v comma kvs, fuel, n, p, rb, rest, htoks, hne, hp, ⟨hwf, hc, hwfv, hk, hwfs⟩,
      ⟨hg, hgv, hgs⟩, hrb, hroom, hcount, hN, hfuel => by
      simp only [Entries.toks, List.append_assoc, List.cons_append, List.length_append,
        List.length_cons, Entries.count, Entries.code] at htoks hN hfuel hcount hroom
      obtain ⟨fuel, rfl⟩ : ∃ k, fuel = k + 1 := ⟨fuel - 1, by omega⟩
      rw [newdictLoop]
      refine (hx.low htoks hp hwf hg (by rw [hc]; rfl) (fun h => (hroom h).mono (by omega))
        (by omega)).bind ?_
      rintro q ⟨hB, hT⟩
      obtain ⟨q₁, hs, hC, hT₁⟩ := slurp_returns "expected ':'" (hB.emits.ahead htoks) hc
        (by simp) (hB.emits.clean hp)
      have hBC := hB.emits.trans hC
      have hq₁ := hC.ahead (hB.emits.ahead htoks)
      have hroom₁ : ok → q₁.Room (v.code.length + kvs.code.length) :=
        fun h => hBC.room (hT.trans hT₁) (by simpa using hroom h)
      refine .step hs ((hx.low hq₁ (hBC.clean hp) hwfv hgv (by rw [hk]; rfl)
        (fun h => (hroom₁ h).mono (by omega)) (by omega)).bind ?_)
      rintro q₂ ⟨hV, hT₂⟩
      have hqt := hV.emits.ahead hq₁
      have hV' := hBC.trans hV.emits
      obtain ⟨q₃, ha, hE, hT₃⟩ := advance_returns hqt (by simp) (hV'.clean hp)
      have hBV := hV'.trans hE
      have hpos : 0 < kvs.count := by cases kvs <;> simp [Entries.count]
      rw [← cur_of_toks hqt]
      simp only [hk]
      refine .step ha ?_
      split_ifs with hn
      · refine .fails fun h => ?_
        have := hcount h
        omega
      · refine (newdictLoop_yields (m := fuel) (n := n + 1) hx (hE.ahead hqt) hne (hBV.clean hp)
          hwfs hgs hrb (fun h => hE.room hT₃ (by simpa using hV.emits.room hT₂ (hroom₁ h)))
          (fun h => by have := hcount h; omega) (by omega) (by omega)).imp ?_
        rintro r ⟨hr, hE', hT₄⟩
        refine ⟨by rw [hr, Entries.count]; omega, ?_,
          (((hT.trans hT₁).trans hT₂).trans hT₃).trans hT₄⟩
        simpa [Entries.toks, Entries.code, Entries.braces] using hBV.trans hE'

omit [DeciBase] in
theorem scatterStar_returns {star : Option Lexeme} {p : Parser} {ls : List Lexeme}
    (htoks : p.toks = star.toList ++ ls) (hp : p.Clean) (hstar : ∀ s ∈ star, s.kind = lkStar)
    (hls : ∃ t ts, ls = t :: ts ∧ t.kind.starts = true) :
    ∃ p', scatterStar p false = .ok (star.isSome, p') ∧ Emits p star.toList [] [] p' ∧
      Thrifty p p' := by
  obtain ⟨t, ts, rfl, ht⟩ := hls
  cases star with
  | none =>
      have hk : p.cur.kind ≠ lkStar := by
        rw [← cur_of_toks htoks]
        exact LexemeKind.ne_of_starts ht rfl
      exact ⟨p, by rw [scatterStar, if_neg hk]; rfl, .refl p, .refl p⟩
  | some s =>
      obtain ⟨p', ha, hE, hT⟩ := advance_returns htoks (by simp) hp
      have hk : p.cur.kind = lkStar := by
        rw [← cur_of_toks htoks]
        exact hstar s rfl
      exact ⟨p', by rw [scatterStar, if_pos hk, bind_of_ok ha]; rfl, hE, hT⟩

theorem funcallLoop_yields (hx : ExprYields x N) {ok : Prop} {star : Option Lexeme}
    (hstar : ∀ s ∈ star, s.kind = lkStar) : ∀ {es : Elems} {m n : Nat} {p : Parser}
    {rb : Lexeme} {rest : List Lexeme}, p.toks = es.toks star.toList ++ rb :: rest → rest ≠ [] →
    p.Clean → es.Wf → es.Grouped codePriorities → rb.kind = lkRparen →
    (ok → p.Room es.code.length) → (ok → n + es.count ≤ uint32Max + 1) →
    (es.toks star.toList).length ≤ N → (es.toks star.toList).length ≤ m →
    Yields ok (funcallLoop x m n false p) fun r => r.1 + 1 = n + es.count ∧
      r.2.1 = star.isSome ∧ Emits p (es.toks star.toList ++ [rb]) es.code es.braces r.2.2 ∧
      Thrifty p r.2.2
  | .last e, fuel, n, p, rb, rest, htoks, hne, hp, hwf, hg, hrb, hroom, _, hN, hfuel => by
      have hpos := Expr.toks_pos hwf
      simp only [Elems.toks, List.append_assoc, List.length_append] at htoks hN hfuel
      obtain ⟨fuel, rfl⟩ : ∃ k, fuel = k + 1 := ⟨fuel - 1, by omega⟩
      obtain ⟨t, ts, hts, hk⟩ := Expr.toks_head hwf
      obtain ⟨q₀, hs, hS, hT₀⟩ := scatterStar_returns htoks hp hstar
        ⟨t, ts ++ rb :: rest, by rw [hts, List.cons_append], hk⟩
      have hq₀ := hS.ahead htoks
      rw [funcallLoop]
      refine .step hs ((hx.low hq₀ (hS.clean hp) hwf hg (by rw [hrb]; rfl)
        (fun h => hS.room hT₀ (by simpa [Elems.code] using hroom h)) (by omega)).bind ?_)
      rintro q ⟨hB, hT⟩
      have hqt := hB.emits.ahead hq₀
      have hSB := hS.trans hB.emits
      obtain ⟨p', ha, hE, hT'⟩ := advance_returns hqt hne (hSB.clean hp)
      rw [← cur_of_toks hqt]
      simp only [hrb]
      refine .step ha (.pure ⟨rfl, rfl, ?_, (hT₀.trans hT).trans hT'⟩)
      simpa [Elems.toks, Elems.code, Elems.braces] using hSB.trans hE
  | .more e comma es, fuel, n, p, rb, rest, htoks, hne, hp, ⟨hwf, hk, hwfs⟩, ⟨hg, hgs⟩, hrb,
      hroom, hcount, hN, hfuel => by
      simp only [Elems.toks, List.append_assoc, List.cons_append, List.length_append,
        List.length_cons, Elems.count, Elems.code] at htoks hN hfuel hcount hroom
      obtain ⟨fuel, rfl⟩ : ∃ k, fuel = k + 1 := ⟨fuel - 1, by omega⟩
      have hs : scatterStar p false = .ok (false, p) := by
        rw [scatterStar, if_neg (LexemeKind.ne_of_starts (cur_starts hwf htoks) rfl)]
      rw [funcallLoop]
      refine .step hs ((hx.low htoks hp hwf hg (by rw [hk]; rfl)
        (fun h => (hroom h).mono (by omega)) (by omega)).bind ?_)
      rintro q ⟨hB, hT⟩
      have hqt := hB.emits.ahead htoks
      obtain ⟨q', ha, hE, hT'⟩ := advance_returns hqt (by simp) (hB.emits.clean hp)
      have hBE := hB.emits.trans hE
      have hTT := hT.trans hT'
      have hpos : 0 < es.count := by cases es <;> simp [Elems.count]
      rw [← cur_of_toks hqt]
      simp only [hk]
      refine .step ha ?_
      simp only [Bool.false_eq_true, if_false]
      split_ifs with hn
      · refine .fails fun h => ?_
        have := hcount h
        omega
      · refine (funcallLoop_yields (m := fuel) (n := n + 1) hx hstar (hE.ahead hqt) hne
          (hBE.clean hp) hwfs hgs hrb (fun h => hBE.room hTT (by simpa using hroom h))
          (fun h => by have := hcount h; omega) (by omega) (by omega)).imp ?_
        rintro r ⟨hr, hb, hE', hT''⟩
        refine ⟨by rw [hr, Elems.count]; omega, hb, ?_, hTT.trans hT''⟩
        simpa [Elems.toks, Elems.code, Elems.braces] using hBE.trans hE'

theorem Elems.toks_head {es : Elems} (hwf : es.Wf) (star : List Lexeme) :
    ∃ t ts, es.toks star = t :: ts ∧ (t.kind.starts = true ∨ t ∈ star) := by
  cases es with
  | last e =>
      obtain ⟨t, ts, hts, hk⟩ := Expr.toks_head hwf
      cases star with
      | nil => exact ⟨t, ts, hts, Or.inl hk⟩
      | cons s star => exact ⟨s, star ++ e.toks, rfl, Or.inr List.mem_cons_self⟩
  | more e comma es =>
      obtain ⟨t, ts, hts, hk⟩ := Expr.toks_head hwf.1
      exact ⟨t, _, by rw [Elems.toks, hts, List.cons_append], Or.inl hk⟩

theorem Entries.toks_head {kvs : Entries} (hwf : kvs.Wf) :
    ∃ t ts, kvs.toks = t :: ts ∧ t.kind.starts = true := by
  cases kvs with
  | last k colon v =>
      obtain ⟨t, ts, hts, hk⟩ := Expr.toks_head hwf.1
      exact ⟨t, _, by rw [Entries.toks, hts, List.cons_append], hk⟩
  | more k colon v comma kvs =>
      obtain ⟨t, ts, hts, hk⟩ := Expr.toks_head hwf.1
      exact ⟨t, _, by rw [Entries.toks, hts, List.cons_append], hk⟩

theorem Elems.count_le_code (es : Elems) : es.count ≤ es.code.length := by
  induction es using Elems.count.induct with
  | case1 e => exact List.length_pos_of_ne_nil e.code_ne_nil
  | case2 e comma es ih =>
      have := List.length_pos_of_ne_nil e.code_ne_nil
      simp only [Elems.count, Elems.code, List.length_append]
      omega

theorem Entries.count_le_code (kvs : Entries) : kvs.count ≤ kvs.code.length := by
  induction kvs using Entries.count.induct with
  | case1 k colon v =>
      have := List.length_pos_of_ne_nil k.code_ne_nil
      simp only [Entries.count, Entries.code, List.length_append]
      omega
  | case2 k colon v comma kvs ih =>
      have := List.length_pos_of_ne_nil k.code_ne_nil
      simp only [Entries.count, Entries.code, List.length_append]
      omega

omit [DeciBase] in
/-- There is room for as many parts as the room for their code. -/
theorem Parser.Room.count {p : Parser} {n m : Nat} (h : p.Room n) (hm : m ≤ n) :
    1 + m ≤ uint32Max + 1 := by
  have := h.consts
  omega

/-- `newlist` on a list that is not empty. -/
theorem newlist_yields (hx : ExprYields x N) {ok : Prop} {es : Elems} {fuel : Nat} {p : Parser}
    {lb rb : Lexeme} {rest : List Lexeme} (htoks : p.toks = lb :: (es.toks [] ++ rb :: rest))
    (hne : rest ≠ []) (hp : p.Clean) (hlb : lb.kind = lkLbracket) (hwf : es.Wf)
    (hg : es.Grouped codePriorities) (hrb : rb.kind = lkRbracket)
    (hroom : ok → p.Room es.code.length) (hN : (es.toks []).length ≤ N)
    (hfuel : (es.toks []).length ≤ fuel) :
    Yields ok (newlist x fuel p) fun r => Built p (.list lb es rb) (emitAt r.2 (opList r.1) lb) ∧
      Thrifty p r.2 := by
  obtain ⟨q, ha, hE, hT⟩ := advance_returns htoks (by simp) hp
  have hqt := hE.ahead htoks
  obtain rfl := cur_of_toks htoks
  have hk : q.cur.kind ≠ lkRbracket := by
    obtain ⟨t, ts, hts, hk⟩ := Elems.toks_head hwf []
    rw [hts] at hqt
    rw [← cur_of_toks hqt]
    exact LexemeKind.ne_of_starts (by simpa using hk) rfl
  unfold newlist
  refine .step ha ?_
  rw [if_neg hk]
  refine (newlistLoop_yields hx hqt hne (hE.clean hp) hwf hg hrb
    (fun h => hE.room hT ((hroom h).mono (by simp))) (fun h => (hroom h).count es.count_le_code)
    hN hfuel).imp ?_
  rintro ⟨n, p'⟩ ⟨hn, hE', hT'⟩
  obtain rfl : n = es.count := by omega
  exact ⟨.list hlb hE hwf hrb hE', hT.trans hT'⟩

/-- `newdict` on a dict that is not empty. -/
theorem newdict_yields (hx : ExprYields x N) {ok : Prop} {kvs : Entries} {fuel : Nat} {p : Parser}
    {lb rb : Lexeme} {rest : List Lexeme} (htoks : p.toks = lb :: (kvs.toks ++ rb :: rest))
    (hne : rest ≠ []) (hp : p.Clean) (hlb : lb.kind = lkLbrace) (hwf : kvs.Wf)
    (hg : kvs.Grouped codePriorities) (hrb : rb.kind = lkRbrace)
    (hroom : ok → p.Room kvs.code.length) (hN : kvs.toks.length ≤ N)
    (hfuel : kvs.toks.length ≤ fuel) :
    Yields ok (newdict x fuel p) fun r => Built p (.dict lb kvs rb) (emitAt r.2 (opDict r.1) lb) ∧
      Thrifty p r.2 := by
  obtain rfl := cur_of_toks htoks
  have hB := Emits.brace p (p.cur.start, false)
  obtain ⟨q, ha, hE, hT⟩ := advance_returns (hB.ahead htoks) (by simp) (hB.clean hp)
  have hqt := hE.ahead (hB.ahead htoks)
  have hBE := hB.trans hE
  have hT₀ : Thrifty p q := (thrifty_brace p (p.cur.start, false)).trans hT
  have hk : q.cur.kind ≠ lkRbrace := by
    obtain ⟨t, ts, hts, hk⟩ := Entries.toks_head hwf
    rw [hts] at hqt
    rw [← cur_of_toks hqt]
    exact LexemeKind.ne_of_starts hk rfl
  unfold newdict
  refine .step ha ?_
  rw [if_neg hk]
  refine (newdictLoop_yields hx hqt hne (hBE.clean hp) hwf hg hrb
    (fun h => hBE.room hT₀ ((hroom h).mono (by simp)))
    (fun h => (hroom h).count kvs.count_le_code) hN hfuel).imp ?_
  rintro ⟨n, p'⟩ ⟨hn, hE', hT'⟩
  obtain rfl : n = kvs.count := by omega
  exact ⟨.dict hlb hBE hwf hrb hE', hT₀.trans hT'⟩

/-- `funcall` with arguments. -/
theorem funcall_yields (hx : ExprYields x N) {ok : Prop} {f : Expr} {es : Elems}
    {star : Option Lexeme} {fuel : Nat} {p₀ p : Parser} {lp rp : Lexeme} {rest : List Lexeme}
    (hf : Built p₀ f p) (htoks : p.toks = lp :: (es.toks star.toList ++ rp :: rest))
    (hne : rest ≠ []) (hp : p.Clean) (hlp : lp.kind = lkLparen) (hwf : es.Wf)
    (hg : es.Grouped codePriorities) (hstar : ∀ s ∈ star, s.kind = lkStar)
    (hrp : rp.kind = lkRparen) (hroom : ok → p.Room es.code.length)
    (hN : (es.toks star.toList).length ≤ N) (hfuel : (es.toks star.toList).length ≤ fuel) :
    Yields ok (funcall x fuel p) fun r =>
      Built p₀ (.call f lp es star rp) (emitAt r.2.2 (opCall r.2.1 r.1) lp) ∧ Thrifty p r.2.2 := by
  obtain ⟨q, ha, hE, hT⟩ := advance_returns htoks (by simp) hp
  have hqt := hE.ahead htoks
  obtain rfl := cur_of_toks htoks
  have hk : q.cur.kind ≠ lkRparen := by
    obtain ⟨t, ts, hts, hk⟩ := Elems.toks_head hwf star.toList
    rw [hts] at hqt
    rw [← cur_of_toks hqt]
    obtain hk | hk := hk
    · exact LexemeKind.ne_of_starts hk rfl
    · rw [hstar t (Option.mem_toList.mp hk)]
      decide
  unfold funcall
  refine .step ha ?_
  rw [if_neg hk]
  refine (funcallLoop_yields hx hstar hqt hne (hE.clean hp) hwf hg hrp
    (fun h => hE.room hT ((hroom h).mono (by simp))) (fun h => (hroom h).count es.count_le_code)
    hN hfuel).imp ?_
  rintro ⟨n, b, p'⟩ ⟨hn, rfl, hE', hT'⟩
  obtain rfl : n = es.count := by omega
  exact ⟨hf.call hlp hE hwf hstar hrp hE', hT.trans hT'⟩

/-! ## The loop -/

/-- What stands in front of a postfix operator. -/
theorem Faces.base {min : Int} {e : Expr} {p : Parser} {next : Lexeme} {rest : List Lexeme}
    (htoks : p.toks = e.toks ++ next :: rest) (hp : p.Clean) (hwf : e.Wf)
    (hg : e.Grouped codePriorities) (hrank : 100 ≤ e.rank codePriorities) :
    Faces min e p next rest :=
  ⟨htoks, hp, hwf, hg, Expr.above_of_prefix (by omega) min,
    Expr.endsBefore_of_postfix hrank next.kind⟩

/-- The loop of `expr` reads the expression that lies ahead and goes on behind it. -/
theorem exprLoop_yields (hx : ExprYields x N) {ok : Prop} {min : Int} {P : Parser → Prop} :
    ∀ {e : Expr} {fuel : Nat} {p : Parser} {next : Lexeme} {rest : List Lexeme},
    Faces min e p next rest → (ok → p.Room e.code.length) → e.toks.length ≤ N + 1 →
    e.toks.length ≤ fuel →
    (∀ {fuel' : Nat} {p' : Parser}, fuel ≤ fuel' + e.toks.length → Built p e p' → Thrifty p p' →
      Yields ok (exprLoop x fuel' min false p') P) →
    Yields ok (exprLoop x fuel min true p) P
  | .literal tok, fuel, p, next, rest, hf, hroom, _, hfuel, hgo => by
      simp only [Expr.toks, List.length_singleton] at hfuel hgo
      obtain ⟨fuel, rfl⟩ : ∃ k, fuel = k + 1 := ⟨fuel - 1, by omega⟩
      obtain rfl := cur_of_toks hf.toks
      rw [exprLoop_literal hf.wf.1]
      refine (addConst_yields (n := 0) hroom hf.wf.2).bind_eq ?_
      rintro _ hc ⟨v, rfl⟩
      obtain ⟨p', ha, -, hT⟩ := advance_returns
        (p := emitAt { p with consts := p.consts ++ [v] } (opLoadConst p.consts.length) p.cur)
        hf.toks (by simp) hf.clean
      have hcase : exprCase p.cur.kind = .literal := by
        simpa [LexemeKind.isLiteral] using hf.wf.1
      exact .step ha (hgo le_rfl (literal_ok hcase hc ha) ((thrifty_const p v _ _).trans hT))
  | .ident tok, fuel, p, next, rest, hf, hroom, _, hfuel, hgo => by
      simp only [Expr.toks, List.length_singleton] at hfuel hgo
      obtain ⟨fuel, rfl⟩ : ∃ k, fuel = k + 1 := ⟨fuel - 1, by omega⟩
      obtain rfl := cur_of_toks hf.toks
      rw [exprLoop_ident hf.wf]
      refine (load_yields (n := 0) hroom p.cur).bind_eq ?_
      rintro _ hl rfl
      obtain ⟨p', ha, -, hT⟩ := advance_returns
        (p := emitAt { p with idents := p.idents ++ [p.cur.text] }
          (opLoadSymbolic p.idents.length) p.cur) hf.toks (by simp) hf.clean
      exact .step ha (hgo le_rfl (ident_ok hf.wf hl ha) ((thrifty_ident p _ _ _).trans hT))
  | .list0 lb rb, fuel, p, next, rest, hf, _, _, hfuel, hgo => by
      simp only [Expr.toks, List.length_cons, List.length_nil] at hfuel hgo
      obtain ⟨fuel, rfl⟩ : ∃ k, fuel = k + 1 := ⟨fuel - 1, by omega⟩
      obtain ⟨q, ha, hE, hT⟩ := advance_returns hf.toks (by simp) hf.clean
      have hqt := hE.ahead hf.toks
      obtain ⟨p', ha', hE', hT'⟩ := advance_returns hqt (by simp) (hE.clean hf.clean)
      obtain rfl := cur_of_toks hf.toks
      have hl : newlist x fuel p = .ok (0, p') := by
        rw [newlist, bind_of_ok ha, ← cur_of_toks hqt, if_pos hf.wf.2, bind_of_ok ha']
      rw [exprLoop_list hf.wf.1]
      exact .step hl (hgo (by omega) (.list0 hf.wf.1 hE hf.wf.2 hE') ((hT.trans hT').emitAt _ _))
  | .list lb es rb, fuel, p, next, rest, hf, hroom, hN, hfuel, hgo => by
      obtain ⟨hlb, hes, hrb⟩ := hf.wf
      have htoks := hf.toks
      simp only [Expr.toks, List.length_cons, List.length_append, List.length_nil,
        List.cons_append, List.append_assoc, List.nil_append] at hfuel hN htoks hgo
      simp only [Expr.code, List.length_append, List.length_singleton] at hroom
      obtain ⟨fuel, rfl⟩ : ∃ k, fuel = k + 1 := ⟨fuel - 1, by omega⟩
      obtain rfl := cur_of_toks htoks
      rw [exprLoop_list hlb]
      refine (newlist_yields hx htoks (by simp) hf.clean hlb hes hf.grouped hrb
        (fun h => (hroom h).mono (by omega)) (by omega) (by omega)).bind ?_
      rintro ⟨n, p'⟩ ⟨hB, hT⟩
      exact hgo (by omega) hB (hT.emitAt _ _)
  | .dict0 lb rb, fuel, p, next, rest, hf, _, _, hfuel, hgo => by
      simp only [Expr.toks, List.length_cons, List.length_nil] at hfuel hgo
      obtain ⟨fuel, rfl⟩ : ∃ k, fuel = k + 1 := ⟨fuel - 1, by omega⟩
      obtain rfl := cur_of_toks hf.toks
      have hB := Emits.brace p (p.cur.start, false)
      obtain ⟨q, ha, hE, hT⟩ := advance_returns (hB.ahead hf.toks) (by simp) (hB.clean hf.clean)
      have hqt := hE.ahead (hB.ahead hf.toks)
      have hBE := hB.trans hE
      obtain ⟨p', ha', hE', hT'⟩ := advance_returns hqt (by simp) (hBE.clean hf.clean)
      have hd : newdict x fuel p = .ok (0, p') := by
        simp only [newdict]
        rw [bind_of_ok ha, ← cur_of_toks hqt, if_pos hf.wf.2, bind_of_ok ha']
      have hT₀ : Thrifty p p' := (thrifty_brace p (p.cur.start, false)).trans (hT.trans hT')
      rw [exprLoop_dict hf.wf.1]
      exact .step hd (hgo (by omega) (.dict0 hf.wf.1 hBE hf.wf.2 hE') (hT₀.emitAt _ _))
  | .dict lb kvs rb, fuel, p, next, rest, hf, hroom, hN, hfuel, hgo => by
      obtain ⟨hlb, hes, hrb⟩ := hf.wf
      have htoks := hf.toks
      simp only [Expr.toks, List.length_cons, List.length_append, List.length_nil,
        List.cons_append, List.append_assoc, List.nil_append] at hfuel hN htoks hgo
      simp only [Expr.code, List.length_append, List.length_singleton] at hroom
      obtain ⟨fuel, rfl⟩ : ∃ k, fuel = k + 1 := ⟨fuel - 1, by omega⟩
      obtain rfl := cur_of_toks htoks
      rw [exprLoop_dict hlb]
      refine (newdict_yields hx htoks (by simp) hf.clean hlb hes hf.grouped hrb
        (fun h => (hroom h).mono (by omega)) (by omega) (by omega)).bind ?_
      rintro ⟨n, p'⟩ ⟨hB, hT⟩
      exact hgo (by omega) hB (hT.emitAt _ _)
  | .paren lp e rp, fuel, p, next, rest, hf, hroom, hN, hfuel, hgo => by
      obtain ⟨hlp, hwf, hrp⟩ := hf.wf
      have htoks := hf.toks
      simp only [Expr.toks, List.length_cons, List.length_append, List.length_nil,
        List.cons_append, List.append_assoc, List.nil_append] at hfuel hN htoks hgo
      obtain ⟨fuel, rfl⟩ : ∃ k, fuel = k + 1 := ⟨fuel - 1, by omega⟩
      obtain ⟨q, ha, hE, hT⟩ := advance_returns htoks (by simp) hf.clean
      have hqt := hE.ahead htoks
      obtain rfl := cur_of_toks htoks
      rw [exprLoop_paren hlp]
      refine .step ha ((hx.low hqt (hE.clean hf.clean) hwf hf.grouped (by rw [hrp]; rfl)
        (fun h => hE.room hT (by simpa [Expr.code] using hroom h)) (by omega)).bind ?_)
      rintro q' ⟨hB, hT'⟩
      obtain ⟨p', hs, hE', hT''⟩ := slurp_returns "expected ')'" (hB.emits.ahead hqt) hrp
        (by simp) (hB.emits.clean (hE.clean hf.clean))
      exact .step hs (hgo (by omega) (.paren hlp hE hB hrp hE') ((hT.trans hT').trans hT''))
  | .unary op e, fuel, p, next, rest, hf, hroom, hN, hfuel, hgo => by
      obtain ⟨hop, hwf⟩ := hf.wf
      obtain ⟨u, hu⟩ := Option.isSome_iff_exists.mp hop
      have htoks := hf.toks
      simp only [Expr.toks, List.length_cons, List.cons_append] at hfuel hN htoks hgo
      simp only [Expr.code, List.length_append, List.length_singleton] at hroom
      obtain ⟨fuel, rfl⟩ : ∃ k, fuel = k + 1 := ⟨fuel - 1, by omega⟩
      obtain ⟨q, ha, hE, hT⟩ := advance_returns htoks (by simp) hf.clean
      obtain rfl := cur_of_toks htoks
      rw [exprLoop_unary hu]
      refine .step ha ((hx ⟨hE.ahead htoks, hE.clean hf.clean, hwf, hf.grouped.1,
        Expr.above_of_prefix hf.grouped.2 u.2, hf.ends.2⟩ (hf.ends.1 u hu)
        (fun h => hE.room hT ((hroom h).mono (by simp))) (by omega)).bind ?_)
      rintro p' ⟨hB, hT'⟩
      exact hgo (by omega) (.unary hu hE hB) ((hT.trans hT').emitAt _ _)
  | .binary l op r, fuel, p, next, rest, hf, hroom, hN, hfuel, hgo => by
      obtain ⟨hwfl, hop, hwfr⟩ := hf.wf
      obtain ⟨u, hu⟩ := Option.isSome_iff_exists.mp hop
      have hq : codePriorities op.kind = some u.2 := by simp [codePriorities, hu]
      obtain ⟨hgl, hgr, hranks⟩ := hf.grouped
      obtain ⟨hrl, hrr⟩ := hranks u.2 hq
      have htoks := hf.toks
      simp only [Expr.toks, List.length_cons, List.length_append, List.cons_append,
        List.append_assoc] at hfuel hN htoks hgo
      simp only [Expr.code, List.length_append, List.length_singleton] at hroom
      refine exprLoop_yields hx (e := l)
        ⟨htoks, hf.clean, hwfl, hgl, hf.above.2, Expr.endsBefore_of_rank hq hwfl hgl hrl⟩
        (fun h => (hroom h).mono (by omega)) (by omega) (by omega) ?_
      intro fuel₁ q₁ hle hB₁ hT₁
      have hqt := hB₁.emits.ahead htoks
      obtain ⟨fuel₂, rfl⟩ : ∃ k, fuel₁ = k + 1 := ⟨fuel₁ - 1, by omega⟩
      obtain ⟨q₂, ha, hE, hT₂⟩ := advance_returns hqt (by simp) (hB₁.emits.clean hf.clean)
      have hBE := hB₁.emits.trans hE
      obtain rfl := cur_of_toks hqt
      rw [exprLoop_binary hu (hf.above.1 u.2 hq)]
      refine .step ha ((hx ⟨hE.ahead hqt, hBE.clean hf.clean, hwfr, hgr,
        Expr.above_of_rank hwfr hgr hrr, hf.ends.2⟩ (hf.ends.1 u.2 hq)
        (fun h => hBE.room (hT₁.trans hT₂) ((hroom h).mono (by simp))) (by omega)).bind ?_)
      rintro p' ⟨hB₂, hT₃⟩
      exact hgo (by omega) (hB₁.binary hu hE hB₂) (((hT₁.trans hT₂).trans hT₃).emitAt _ _)
  | .index e lb i rb, fuel, p, next, rest, hf, hroom, hN, hfuel, hgo => by
      obtain ⟨hwf, hlb, hwfi, hrb⟩ := hf.wf
      obtain ⟨hg, hrank, hgi⟩ := hf.grouped
      have htoks := hf.toks
      simp only [Expr.toks, List.length_cons, List.length_append, List.cons_append,
        List.append_assoc, List.length_nil, List.nil_append] at hfuel hN htoks hgo
      simp only [Expr.code, List.length_append, List.length_singleton] at hroom
      refine exprLoop_yields hx (e := e) (.base htoks hf.clean hwf hg hrank)
        (fun h => (hroom h).mono (by omega)) (by omega) (by omega) ?_
      intro fuel₁ q₁ hle hB₁ hT₁
      have hqt := hB₁.emits.ahead htoks
      obtain ⟨fuel₂, rfl⟩ : ∃ k, fuel₁ = k + 1 := ⟨fuel₁ - 1, by omega⟩
      obtain ⟨q₂, ha, hE, hT₂⟩ := advance_returns hqt (by simp) (hB₁.emits.clean hf.clean)
      have hBE := hB₁.emits.trans hE
      obtain rfl := cur_of_toks hqt
      rw [exprLoop_index hlb]
      refine .step ha ((hx.low (hE.ahead hqt) (hBE.clean hf.clean) hwfi hgi (by rw [hrb]; rfl)
        (fun h => hBE.room (hT₁.trans hT₂) ((hroom h).mono (by simp))) (by omega)).bind ?_)
      rintro q₃ ⟨hB₂, hT₃⟩
      obtain ⟨p', hs, hE', hT₄⟩ := slurp_returns "expected ']'" (hB₂.emits.ahead (hE.ahead hqt)) hrb
        (by simp) (hB₂.emits.clean (hBE.clean hf.clean))
      exact .step hs (hgo (by omega) (hB₁.index hlb hE hB₂ hrb hE')
        ((((hT₁.trans hT₂).trans hT₃).trans hT₄).emitAt _ _))
  | .field e dot name, fuel, p, next, rest, hf, hroom, hN, hfuel, hgo => by
      obtain ⟨hwf, hdot, hname⟩ := hf.wf
      obtain ⟨hg, hrank⟩ := hf.grouped
      have htoks := hf.toks
      simp only [Expr.toks, List.length_cons, List.length_append, List.cons_append,
        List.append_assoc, List.length_nil, List.nil_append] at hfuel hN htoks hgo
      simp only [Expr.code, List.length_append, List.length_cons, List.length_nil] at hroom
      refine exprLoop_yields hx (e := e) (.base htoks hf.clean hwf hg hrank)
        (fun h => (hroom h).mono (by omega)) (by omega) (by omega) ?_
      intro fuel₁ q₁ hle hB₁ hT₁
      have hqt := hB₁.emits.ahead htoks
      obtain ⟨fuel₂, rfl⟩ : ∃ k, fuel₁ = k + 1 := ⟨fuel₁ - 1, by omega⟩
      obtain ⟨q₂, ha, hE, hT₂⟩ := advance_returns hqt (by simp) (hB₁.emits.clean hf.clean)
      have hBE := hB₁.emits.trans hE
      have hqt₂ := hE.ahead hqt
      obtain rfl := cur_of_toks hqt₂
      obtain rfl := cur_of_toks hqt
      rw [exprLoop_field hdot ha hname]
      refine (addConstSteal_yields (n := 1)
        (fun h => hBE.room (hT₁.trans hT₂) ((hroom h).mono (by simp))) _).bind_eq ?_
      rintro _ hc rfl
      obtain ⟨p', hr, hE', hT₃⟩ := advance_returns (p := emitAt (emitAt
        { q₂ with consts := q₂.consts ++ [.str q₂.cur.text] } (opLoadConst q₂.consts.length) q₂.cur)
        opLoadAt q₂.cur) hqt₂ (by simp) (hBE.clean hf.clean)
      exact .step hr (hgo (by omega) (field_ok hB₁ hdot ha hname hc hr)
        (((hT₁.trans hT₂).trans (Thrifty.emitAt (thrifty_const q₂ _ _ _) _ _)).trans hT₃))
  | .call0 e lp rp, fuel, p, next, rest, hf, hroom, hN, hfuel, hgo => by
      obtain ⟨hwf, hlp, hrp⟩ := hf.wf
      obtain ⟨hg, hrank⟩ := hf.grouped
      have htoks := hf.toks
      simp only [Expr.toks, List.length_cons, List.length_append, List.cons_append,
        List.append_assoc, List.length_nil, List.nil_append] at hfuel hN htoks hgo
      simp only [Expr.code, List.length_append, List.length_singleton] at hroom
      refine exprLoop_yields hx (e := e) (.base htoks hf.clean hwf hg hrank)
        (fun h => (hroom h).mono (by omega)) (by omega) (by omega) ?_
      intro fuel₁ q₁ hle hB₁ hT₁
      have hqt := hB₁.emits.ahead htoks
      obtain ⟨fuel₂, rfl⟩ : ∃ k, fuel₁ = k + 1 := ⟨fuel₁ - 1, by omega⟩
      obtain ⟨q₂, ha, hE, hT₂⟩ := advance_returns hqt (by simp) (hB₁.emits.clean hf.clean)
      have hqt₂ := hE.ahead hqt
      obtain ⟨p', ha', hE', hT₃⟩ := advance_returns hqt₂ (by simp)
        (hE.clean (hB₁.emits.clean hf.clean))
      obtain rfl := cur_of_toks hqt
      have hc : funcall x fuel₂ q₁ = .ok (0, false, p') := by
        rw [funcall, bind_of_ok ha, ← cur_of_toks hqt₂, if_pos hrp, bind_of_ok ha']
      rw [exprLoop_call hlp]
      exact .step hc (hgo (by omega) (hB₁.call0 hlp hE hrp hE')
        (((hT₁.trans hT₂).trans hT₃).emitAt _ _))
  | .call e lp args star rp, fuel, p, next, rest, hf, hroom, hN, hfuel, hgo => by
      obtain ⟨hwf, hlp, hargs, hstar, hrp⟩ := hf.wf
      obtain ⟨hg, hrank, hga⟩ := hf.grouped
      have htoks := hf.toks
      simp only [Expr.toks, List.length_cons, List.length_append, List.cons_append,
        List.append_assoc, List.length_nil, List.nil_append] at hfuel hN htoks hgo
      simp only [Expr.code, List.length_append, List.length_singleton] at hroom
      refine exprLoop_yields hx (e := e) (.base htoks hf.clean hwf hg hrank)
        (fun h => (hroom h).mono (by omega)) (by omega) (by omega) ?_
      intro fuel₁ q₁ hle hB₁ hT₁
      have hqt := hB₁.emits.ahead htoks
      obtain ⟨fuel₂, rfl⟩ : ∃ k, fuel₁ = k + 1 := ⟨fuel₁ - 1, by omega⟩
      obtain rfl := cur_of_toks hqt
      rw [exprLoop_call hlp]
      refine (funcall_yields hx hB₁ hqt (by simp) (hB₁.emits.clean hf.clean) hlp hargs hga hstar hrp
        (fun h => hB₁.emits.room hT₁ ((hroom h).mono (by omega))) (by omega) (by omega)).bind ?_
      rintro ⟨n, b, p'⟩ ⟨hB, hT⟩
      exact hgo (by omega) hB ((hT₁.trans hT).emitAt _ _)

/-- `expr` on every expression that lies ahead, given fuel for its lexemes. -/
theorem expr_yields : ∀ {fuel N : Nat}, N + 2 ≤ fuel → ExprYields (expr fuel) N := by
  intro fuel
  induction fuel with
  | zero => intro N h; omega
  | succ fuel ih =>
      intro N hfuel ok min e p next rest hf hend hroom hN
      have hpos := Expr.toks_pos hf.wf
      rw [expr]
      refine exprLoop_yields (ih (N := N - 1) (by omega)) hf hroom (by omega) (by omega) ?_
      intro fuel' p' hle hB hT
      obtain ⟨k, rfl⟩ : ∃ k, fuel' = k + 1 := ⟨fuel' - 1, by omega⟩
      rw [exprLoop_end]
      · exact .pure ⟨hB, hT⟩
      · rwa [← cur_of_toks (hB.emits.ahead hf.toks)]

end

end Calx
