import Calx.CloseScope

/-!
# Functions

From `fun_begin` over the parameters and the body to `fun_end`: the function's
code is closed, its shape is filled in, and the state of the function around it
continues where it was left.
-/

namespace Calx

open LexemeKind Instr

/-! ## The beginning of a function -/

/-- The parser inside a function that has just been opened at `p` with the parameters
`names0`. -/
structure Enters (p : Parser) (ts : List Lexeme) (nargs : Nat) (names : List Bytes)
    (s : Parser) : Prop where
  toks : p.toks = ts ++ s.toks
  prog : s.prog = p.prog ++ [⟨opFunction p.shapes.length, none⟩]
  shapes : s.shapes = p.shapes ++ [⟨nargs, 0, 0, 0⟩]
  scopes : s.scopes = names :: p.scopes
  ranges : s.ranges =
    ⟨p.scopes.length, here p + 1, none⟩ :: (fixupLastRangeEnd p (here p + 1)).ranges
  stackIf : s.stackIf = -1 :: p.stackIf
  stackBreak : s.stackBreak = -1 :: p.stackBreak
  stackContinue : s.stackContinue = -1 :: p.stackContinue
  others : (s.consts, s.idents, s.globals, s.braces, s.closes) =
    (p.consts, p.idents, p.globals, p.braces, p.closes)

theorem funBegin_ok {p q : Parser} {pos : Nat} (h : funBegin p = .ok (pos, q)) :
    pos = here p ∧ Enters p [] 0 [] q := by
  unfold funBegin addShape at h
  split_ifs at h
  · simp [throwErr, bind, Except.bind] at h
  · simp only [bind, Except.bind, Except.ok.injEq, Prod.mk.injEq] at h
    obtain ⟨rfl, rfl⟩ := h
    refine ⟨rfl, ?_⟩
    have hh : here (emit { p with shapes := p.shapes ++ [⟨0, 0, 0, 0⟩] }
        (opFunction p.shapes.length)) = here p + 1 := by
      simp [here, emit, emitAtLine]
    simp only [openScope, hh]
    exact ⟨rfl, rfl, rfl, rfl, rfl, rfl, rfl, rfl, rfl⟩

theorem Enters.advance {p s s' : Parser} {ts : List Lexeme} {nargs : Nat} {names : List Bytes}
    (hs : Enters p ts nargs names s) (h : advance s = .ok s') (hc : s.cur.kind ≠ lkEof) :
    Enters p (ts ++ [s.cur]) nargs names s' := by
  have ha := (advance_ok h hc).toks
  obtain ⟨c, lx, rfl⟩ := advance_eq h
  exact ⟨by rw [hs.toks, ha, List.append_assoc], hs.prog, hs.shapes, hs.scopes, hs.ranges,
    hs.stackIf, hs.stackBreak, hs.stackContinue, hs.others⟩

/-- `nargs_encoded` after one more parameter. -/
def addParam (nargs : Nat) (gather : Bool) : Nat :=
  if gather then complement32 nargs else nargs + 1

theorem Enters.param {p s s' : Parser} {ts : List Lexeme} {nargs : Nat} {names : List Bytes}
    (hs : Enters p ts nargs names s) {name : Lexeme} {gather : Bool}
    (h : funParam s (here p) name gather = .ok s') :
    name.text ∉ names ∧ s'.cur = s.cur ∧
      Enters p ts (addParam nargs gather) (names ++ [name.text]) s' := by
  have hl : locals s = names := by simp [locals, hs.scopes]
  simp only [funParam, hl] at h
  by_cases hmem : name.text ∈ names
  · simp [hmem, throwErrAt] at h
  · rw [if_neg hmem] at h
    have hsi : funShapeIdx (setLocals s (names ++ [name.text])) (here p) = p.shapes.length := by
      simp [funShapeIdx, setLocals, hs.prog, here]
    simp only [updateShape, hsi, Except.ok.injEq] at h
    subst h
    refine ⟨hmem, rfl, hs.toks, hs.prog, ?_, ?_, hs.ranges, hs.stackIf, hs.stackBreak,
      hs.stackContinue, hs.others⟩
    · simp only [setLocals, hs.shapes, modify_append_cons, addParam]
    · simp [setLocals, hs.scopes]

/-- `nargs_encoded` after a parameter list. -/
def Params.encode (nargs : Nat) : Params → Nat
  | .last _ => addParam nargs false
  | .gather _ _ => addParam nargs true
  | .more _ _ ps => ps.encode (addParam nargs false)

theorem Params.encode_eq (ps : Params) (nargs : Nat) :
    ps.encode nargs = if ps.gathers then complement32 (nargs + (ps.names.length - 1))
      else nargs + ps.names.length := by
  induction ps generalizing nargs with
  | last _ => rfl
  | gather _ _ => rfl
  | more name comma ps ih =>
      have hpos : 0 < ps.names.length := by cases ps <;> simp [Params.names]
      simp only [Params.encode, ih, addParam, Params.gathers, Params.names, List.length_cons,
        Bool.false_eq_true, if_false]
      rw [show nargs + 1 + (ps.names.length - 1) = nargs + (ps.names.length + 1 - 1) by omega,
        show nargs + 1 + ps.names.length = nargs + (ps.names.length + 1) by omega]
      rfl

theorem funParams_ok {p : Parser} {fuel : Nat} {s s' : Parser} {ts : List Lexeme} {nargs : Nat}
    {names : List Bytes} (hs : Enters p ts nargs names s) (hn : names.Nodup)
    (h : funParams (here p) fuel s = .ok s') :
    ∃ ps : Params, ps.Wf ∧ s'.cur.kind = lkRparen ∧ (names ++ ps.names).Nodup ∧
      Enters p (ts ++ ps.toks) (ps.encode nargs) (names ++ ps.names) s' := by
  have hnd : ∀ {ns : List Bytes} {x : Bytes}, ns.Nodup → x ∉ ns → (ns ++ [x]).Nodup := by
    intro ns x hns hx
    exact List.nodup_append.mpr ⟨hns, by simp, by
      rintro a ha b hb rfl
      exact hx (List.mem_singleton.mp hb ▸ ha)⟩
  induction fuel generalizing s ts nargs names with
  | zero => simp [funParams] at h
  | succ fuel ih =>
      rw [funParams] at h
      simp only at h
      split_ifs at h with hstar hid
      · obtain ⟨q, hq, h⟩ := bind_ok h
        have h1 := hs.advance hq (by simp [hstar])
        split_ifs at h with hid
        · obtain ⟨q1, hq1, h⟩ := bind_ok h
          obtain ⟨hmem, hcur, h2⟩ := h1.param hq1
          obtain ⟨q2, hq2, h⟩ := bind_ok h
          have h3 := h2.advance hq2 (by simp [hcur, hid])
          split_ifs at h with hr
          · obtain rfl := Except.ok.inj h
            refine ⟨.gather s.cur q.cur, ⟨hstar, hid⟩, hr, hnd hn hmem, ?_⟩
            simpa [Params.toks, Params.encode, Params.names, hcur] using h3
          · simp [throwErrAt] at h
        · simp [throwErrAt] at h
      · obtain ⟨q1, hq1, h⟩ := bind_ok h
        obtain ⟨hmem, hcur, h2⟩ := hs.param hq1
        obtain ⟨q2, hq2, h⟩ := bind_ok h
        have h3 := h2.advance hq2 (by simp [hcur, hid])
        split_ifs at h with hr
        · obtain rfl := Except.ok.inj h
          refine ⟨.last s.cur, hid, hr, hnd hn hmem, ?_⟩
          simpa [Params.toks, Params.encode, Params.names, hcur] using h3
        · obtain ⟨q3, hq3, h⟩ := bind_ok h
          unfold slurp at hq3
          split_ifs at hq3 with hc
          · have h4 := h3.advance hq3 (by simp [hc])
            obtain ⟨ps, hwf, hk, hnd', hE⟩ := ih h4 (hnd hn hmem) h
            refine ⟨.more s.cur q2.cur ps, ⟨hid, hc, hwf⟩, hk, by simpa [Params.names] using hnd', ?_⟩
            simpa [Params.toks, Params.names, Params.encode, hcur] using hE
          · simp [throwErrAt] at hq3
      · simp [throwErrAt] at h

theorem funParamList_ok {p s s' : Parser} {fuel : Nat} {ts : List Lexeme}
    (hs : Enters p ts 0 [] s) (h : funParamList (here p) fuel s = .ok s') :
    ∃ ps : Option Params, (∀ q ∈ ps, q.Wf ∧ q.names.Nodup) ∧ s'.cur.kind = lkRparen ∧
      Enters p (ts ++ (ps.map Params.toks).getD []) (nargsEncoded ps) (paramNames ps) s' := by
  unfold funParamList at h
  split_ifs at h with hr
  · obtain rfl := Except.ok.inj h
    exact ⟨none, by simp, hr, by simpa [nargsEncoded, paramNames] using hs⟩
  · obtain ⟨ps, hwf, hk, hnd, hE⟩ := funParams_ok hs List.nodup_nil h
    refine ⟨some ps, ?_, hk, ?_⟩
    · rintro q ⟨⟩
      exact ⟨hwf, by simpa using hnd⟩
    · have := ps.encode_eq 0
      simp only [Nat.zero_add] at this
      simpa [nargsEncoded, paramNames, this] using hE

/-! ## The end of a function -/

/-- The code of a function that has been closed, seen from the function around it. -/
def nestedCode (ps : Option Params) (names : List Bytes) (posted : Bool) (body : List Item) :
    List Item :=
  .mine (.function (funInfo ps names posted body)) none :: nest (closeItems posted names body)

/-- The ranges recorded in a function that has been opened at `p`, when it ends at `e`. -/
theorem Enters.ranges_end [DeciBase] {p s e : Parser} {ts : List Lexeme} {nargs : Nat}
    {names : List Bytes} {y : Piece} (hs : Enters p ts nargs names s) (hy : Compiles s y e)
    (hp : ∀ r ∈ p.ranges.head?, r.scopeIndex ≠ p.scopes.length) :
    walkedPositions (fixupLastRangeEnd e (here e)).ranges p.scopes.length =
        maskPos (here p + 1) y.mask ∧
      (fixupLastRangeEnd e (here e)).ranges.dropWhile
        (fun r => r.scopeIndex = p.scopes.length) =
          (fixupLastRangeEnd p (here p + 1)).ranges := by
  have hh : here s = here p + 1 := by simp [here, hs.prog]
  have hl : s.scopes.length - 1 = p.scopes.length := by simp [hs.scopes]
  obtain ⟨b', cl, hr, hcl, -, hcov⟩ := hy.ranges (here p + 1) _ (by rw [hl]; exact hs.ranges)
    hh.ge (by simp [hs.scopes])
  rw [hl] at hr hcl hcov
  have hstop : ∀ r ∈ (fixupLastRangeEnd p (here p + 1)).ranges.head?,
      r.scopeIndex ≠ p.scopes.length := by
    unfold fixupLastRangeEnd
    cases hpr : p.ranges with
    | nil => simp
    | cons r rs => simpa using hp r (by simp [hpr])
  generalize (fixupLastRangeEnd p (here p + 1)).ranges = old at hr hstop
  have hfix : (fixupLastRangeEnd e (here e)).ranges =
      ⟨p.scopes.length, b', some (here e)⟩ :: (cl ++ old) := by
    simp only [fixupLastRangeEnd, hr]
  have hcl' : ∀ r ∈ (⟨p.scopes.length, b', some (here e)⟩ :: cl : List Range),
      decide (r.scopeIndex = p.scopes.length) = true := by
    simpa using hcl
  have htake : old.takeWhile (fun r => decide (r.scopeIndex = p.scopes.length)) = [] ∧
      old.dropWhile (fun r => decide (r.scopeIndex = p.scopes.length)) = old := by
    cases old with
    | nil => exact ⟨rfl, rfl⟩
    | cons r rs => simp [hstop r (by simp)]
  rw [hfix, ← List.cons_append]
  constructor
  · rw [walkedPositions, ourRanges, List.takeWhile_append_of_pos hcl', htake.1, List.append_nil,
      List.reverse_cons]
    simpa [coveredBy, hh] using hcov
  · rw [List.dropWhile_append_of_pos hcl', htake.2]

theorem closeScope_ok {q q' : Parser} {m n : Nat} (h : closeScope q = .ok (m, n, q')) :
    let old := (fixupLastRangeEnd q (here q)).ranges
    let w := (walkedPositions old (q.scopes.length - 1)).foldl (walkStep q.idents (locals q))
      ⟨q.prog, q.globals, 0, 0⟩
    let rest := old.dropWhile (fun r => r.scopeIndex = q.scopes.length - 1)
    m = w.maxstack ∧ n = (locals q).length ∧
      q' = { q with
        prog := w.code
        globals := w.globals
        scopes := q.scopes.tail
        ranges := if q.scopes.tail = [] then rest
          else ⟨q.scopes.tail.length - 1, here q, none⟩ :: rest } := by
  simp only [closeScope] at h
  split at h
  · simp [throwErr] at h
  · split at h
    · simp [throwErr] at h
    · simp only [Except.ok.injEq, Prod.mk.injEq] at h
      obtain ⟨rfl, rfl, rfl⟩ := h
      exact ⟨rfl, rfl, rfl⟩

/-- The ranges with which the function around continues at `pos`. -/
def rangesAfter (p : Parser) (pos : Nat) : List Range :=
  let old := (fixupLastRangeEnd p (here p + 1)).ranges
  if p.scopes = [] then old else ⟨p.scopes.length - 1, pos, none⟩ :: old

/-- The ranges after a function cover its `OP_FUNCTION` instruction and nothing of its body. -/
theorem covers_rangesAfter {p p' : Parser} (n : Nat) (hr : p'.ranges = rangesAfter p (here p')) :
    Covers p (true :: List.replicate n false) p' := by
  intro b rs hp hle hne
  refine ⟨here p', [⟨p.scopes.length - 1, b, some (here p + 1)⟩], ?_, by simp, le_rfl, ?_⟩
  · simp [hr, rangesAfter, hne, fixupLastRangeEnd, hp]
  · simp only [coveredBy, List.reverse_singleton, List.singleton_append, List.flatMap_cons,
      List.flatMap_nil, Range.positions, Option.getD_some, Nat.sub_self, List.range'_zero,
      List.append_nil, maskPos, if_true, maskPos_replicate_false]
    rw [show here p + 1 - b = here p - b + 1 by omega, List.range'_concat,
      show b + 1 * (here p - b) = here p by omega]

theorem putNames_nodup {ns : List Bytes} (h : ns.Nodup) (xs : List Bytes) :
    (putNames ns xs).Nodup := by
  induction xs generalizing ns with
  | nil => exact h
  | cons x xs ih =>
      refine ih ?_
      change (putName ns x).2.Nodup
      unfold putName
      split
      · exact h
      · rename_i hx
        exact List.nodup_append.mpr ⟨h, by simp, by
          rintro a ha b hb rfl
          exact hx (List.mem_singleton.mp hb ▸ ha)⟩

/-- A parser state with other shapes. -/
def Parser.setShapes (p : Parser) (shapes : List Shape) : Parser := { p with shapes := shapes }

/-- The shape behind an `OP_FUNCTION` instruction is the one that is updated. -/
theorem updateShape_setShapes {p q : Parser} {tail : List TaggedInstr}
    (hp : q.prog = p.prog ++ ⟨opFunction p.shapes.length, none⟩ :: tail) (sh : Shape)
    (rest : List Shape) (f : Shape → Shape) :
    updateShape (q.setShapes (p.shapes ++ sh :: rest)) (here p) f =
      q.setShapes (p.shapes ++ f sh :: rest) := by
  have hi : funShapeIdx (q.setShapes (p.shapes ++ sh :: rest)) (here p) = p.shapes.length := by
    simp [funShapeIdx, Parser.setShapes, hp, here]
  simp only [updateShape, hi]
  simp only [Parser.setShapes, modify_append_cons]

section

variable [DeciBase] {p s e : Parser} {ts : List Lexeme} {ps : Option Params} {body : Stmts}
  {y : Piece}

/-- The stacks of jumps at the end of a function are those at its beginning. -/
theorem Enters.stacks_end (hs : Enters p ts (nargsEncoded ps) (paramNames ps) s)
    (hy : Compiles s y e) (hl : Layout false y.items) :
    e.stackIf = -1 :: p.stackIf ∧ e.stackBreak = -1 :: p.stackBreak ∧
      e.stackContinue = -1 :: p.stackContinue := by
  rw [hy.stackIf, hy.stackBreak, hy.stackContinue, hs.stackIf, hs.stackBreak, hs.stackContinue,
    opens_eq_nil.mpr hl.noIf, opens_eq_nil.mpr fun r hr => (hl.noLoop rfl r hr).1,
    opens_eq_nil.mpr fun r hr => (hl.noLoop rfl r hr).2]
  exact ⟨rfl, rfl, rfl⟩

/-- The compiled function, as a piece of the function around it. -/
def funPiece (ts : List Lexeme) (ps : Option Params) (body : Stmts) (br : List (Nat × Bool)) :
    Piece :=
  ⟨ts, nestedCode ps (funLocals ps body) body.postedFun (body.code ++ returnNil),
    true :: List.replicate (body.code ++ returnNil).length false, br, [],
    body.funs ++ [(ps, body)]⟩

/-- What `close_scope` does at the end of a function that has been opened at `p`. -/
theorem Enters.close {m n : Nat} {q : Parser}
    (hs : Enters p ts (nargsEncoded ps) (paramNames ps) s)
    (hp : ∀ r ∈ p.ranges.head?, r.scopeIndex ≠ p.scopes.length) (hnd : (paramNames ps).Nodup)
    (hy : Compiles s y e) (hl : Layout false y.items) (hyd : y.decls = body.decls)
    (hmask : body.postedFun = false → y.mask = flags y.items) {b : Nat}
    (h : closeScope (recordClosed e b) = .ok (m, n, q)) :
    ∃ new, q.prog = s.prog ++ new ∧ e.globals <+: q.globals ∧ n = (funLocals ps body).length ∧
      q.scopes = p.scopes ∧ q.ranges = rangesAfter p (here e) ∧
      (body.postedFun = false → m = (stackWalk (0, 0) (y.items.filter (·.own))).2) ∧
      (∀ T : Tables, e.tables.Grows T → T.globals = q.globals →
        Dens T new (closeItems body.postedFun (funLocals ps body) y.items)) ∧
      (q.cur, q.lexer, q.consts, q.idents, q.shapes, q.stackIf, q.stackBreak, q.stackContinue) =
        (e.cur, e.lexer, e.consts, e.idents, e.shapes, e.stackIf, e.stackBreak, e.stackContinue) ∧
      q.braces = e.braces ∧
      q.closes = e.closes ++ [⟨b, here e, maskPos (here p + 1) y.mask, e.prog, e.shapes⟩] := by
  obtain ⟨rfl, rfl, rfl⟩ := closeScope_ok h
  obtain ⟨hwalked, hrest⟩ := hs.ranges_end hy hp
  have hsc : e.scopes = funLocals ps body :: p.scopes := by
    rw [hy.scopes _ _ hs.scopes, hyd, funLocals]
  have hl1 : e.scopes.length - 1 = p.scopes.length := by simp [hsc]
  have hlo : locals e = funLocals ps body := by simp [locals, hsc]
  have hpre : here p + 1 = s.prog.length := by simp [here, hs.prog]
  obtain ⟨new, hn, hd⟩ := hy.prog
  have hop := hl.isOpen_eq_false
  have hW : walkedPositions (fixupLastRangeEnd (recordClosed e b) (here (recordClosed e b))).ranges
      ((recordClosed e b).scopes.length - 1) = maskPos s.prog.length y.mask := by
    rw [← hpre, ← hwalked, ← hl1]
    rfl
  have hR : (fixupLastRangeEnd (recordClosed e b) (here (recordClosed e b))).ranges.dropWhile
      (fun r => r.scopeIndex = (recordClosed e b).scopes.length - 1) =
        (fixupLastRangeEnd p (here p + 1)).ranges := by
    rw [← hrest, ← hl1]
    rfl
  obtain ⟨w, hw⟩ : ∃ w, w = (maskPos s.prog.length y.mask).foldl (walkStep e.idents (locals e))
    ⟨e.prog, e.globals, 0, 0⟩ := ⟨_, rfl⟩
  have hws := walk_spec e.idents (locals e) (maskPos_nodup s.prog.length y.mask)
    ⟨e.prog, e.globals, 0, 0⟩
  rw [← hw] at hws
  have hnd' : (locals e).Nodup := hlo ▸ putNames_nodup hnd body.decls
  have hwd : ∀ T : Tables, e.tables.Grows T → T.globals = w.globals →
      ∃ new', w.code = s.prog ++ new' ∧
        Dens T new' (closeItems body.postedFun (locals e) y.items) := by
    intro T hT hg
    rw [hw] at hg ⊢
    exact walk_dens (T := e.tables) hT hnd' hd hop hl.blocked.isClosed hmask hn hg
  obtain ⟨new', hn', -⟩ := hwd { e.tables with globals := w.globals }
    ⟨List.prefix_rfl, List.prefix_rfl, hws.globals, fun _ _ h _ => h⟩ rfl
  have hstack : body.postedFun = false →
      w.maxstack = (stackWalk (0, 0) (y.items.filter (·.own))).2 := by
    intro hpf
    have := walkStack_dens hd s.prog (0, 0)
    rw [← hmask hpf, ← hn] at this
    rw [← this]
    exact congrArg Prod.snd hws.stack
  have hscq : (recordClosed e b).scopes.tail = p.scopes := by simp [recordClosed, hsc]
  have hran : (if p.scopes = [] then (fixupLastRangeEnd p (here p + 1)).ranges
      else ⟨p.scopes.length - 1, here e, none⟩ :: (fixupLastRangeEnd p (here p + 1)).ranges) =
        rangesAfter p (here e) := rfl
  rw [hW, hR, hscq]
  refine ⟨new', hw ▸ hn', hw ▸ hws.globals, by rw [← hlo]; rfl, rfl, hran, hw ▸ hstack, ?_, rfl,
    rfl, ?_⟩
  · intro T hT hg
    obtain ⟨new₂, hn₂, hd₂⟩ := hwd T hT (hw ▸ hg)
    rw [← hlo]
    rwa [List.append_cancel_left (hn'.symm.trans hn₂)]
  · simp only [recordClosed, hl1, hwalked]

omit [DeciBase] in
/-- The code of a function means the same in the function around it. -/
theorem Dens.nested {T : Tables} {new : List TaggedInstr} {l : List Item} (h : Dens T new l) :
    Dens T new (nest l) :=
  List.forall₂_map_right_iff.mpr (h.imp fun _ _ hab => ⟨hab.line, hab.instr⟩)

omit [DeciBase] in
/-- No jump of a function is open in the function around it. -/
theorem opens_nestedCode {names : List Bytes} {posted : Bool} {items : List Item} {a : AInstr}
    (hl : Layout false items) (ha : a.isOpen = true) (i : Nat) :
    opens a i (nestedCode ps names posted items) = [] := by
  refine opens_eq_nil.mpr ?_
  rintro r hr rfl
  obtain rfl | hr := List.mem_cons.mp hr
  · simp [AInstr.isOpen] at ha
  · obtain ⟨r', hr', rfl⟩ := List.mem_map.mp hr
    have hclosed := AInstr.isOpen_of_isClosed (hl.closeItems_isClosed posted names r' hr')
    change r'.instr.isOpen = true at ha
    rw [hclosed] at ha
    cases ha

/-- The shape that `fun_end` fills in agrees with the function. -/
theorem agrees_funInfo {m n : Nat} (hn : n = (funLocals ps body).length)
    (hm : body.postedFun = false →
      m = (stackWalk (0, 0) ((body.code ++ returnNil).filter (·.own))).2)
    (hsmall : (body.code ++ returnNil).length + 1 ≤ uint32Max / 2) :
    Shape.Agrees ⟨nargsEncoded ps, n, (body.code ++ returnNil).length + 1, m⟩
      (funInfo ps (funLocals ps body) body.postedFun (body.code ++ returnNil)) := by
  refine ⟨rfl, hn, rfl, fun k hk => ?_, hsmall⟩
  cases hpf : body.postedFun with
  | true => simp [funInfo, hpf] at hk
  | false =>
      rw [hpf] at hk
      simp only [funInfo, Bool.false_eq_true, if_false, Option.mem_some_iff] at hk
      rw [← hk, hm hpf]

omit [DeciBase] in
/-- The tables after the shape of a function has been filled in. -/
theorem grows_popSentinels {q : Parser} {shapes newShapes : List Shape} {nargs : Nat} (sh : Shape)
    (hconsts : q.consts = e.consts) (hidents : q.idents = e.idents)
    (hglob : e.globals <+: q.globals) (hshapes : shapes ++ ⟨nargs, 0, 0, 0⟩ :: newShapes = e.shapes) :
    e.tables.Grows (popSentinels (q.setShapes (shapes ++ sh :: newShapes))).tables := by
  refine ⟨by simp [popSentinels, Parser.setShapes, Parser.tables, hconsts],
    by simp [popSentinels, Parser.setShapes, Parser.tables, hidents], hglob, fun c s' hc ho => ?_⟩
  simp only [Parser.tables, ← hshapes, List.getElem?_append, List.getElem?_cons] at hc
  simp only [popSentinels, Parser.setShapes, Parser.tables, List.getElem?_append,
    List.getElem?_cons]
  split at hc
  · simpa [*] using hc
  · split at hc
    · obtain rfl := Option.some.inj hc
      exact absurd rfl ho
    · simp [*]

/-- `fun_end` closes the function that has been opened at `p`. -/
theorem funEnd_ok {p' : Parser} {x : Piece}
    (hs : Enters p ts (nargsEncoded ps) (paramNames ps) s)
    (hp : ∀ r ∈ p.ranges.head?, r.scopeIndex ≠ p.scopes.length) (hnd : (paramNames ps).Nodup)
    (hwf : body.Wf false)
    (hx : Compiles s x e) (hitems : x.items = body.code) (hmask : x.mask = body.mask)
    (hdecls : x.decls = body.decls) (hfuns : x.funs = body.funs)
    (h : funEnd e (here p) = .ok p') :
    Compiles p (funPiece (ts ++ x.toks) ps body x.braces) p' := by
  unfold funEnd at h
  obtain ⟨⟨c, e0⟩, hc, h⟩ := bind_ok h
  obtain ⟨he0, hcv⟩ := addConstSteal_ok hc
  simp only at h
  -- the implicit `return nil`
  have hR : Emits e [] returnNil [] (emit (emit e0 (opLoadConst c)) opReturn) := by
    simpa [returnNil] using
      (he0.trans (emit_emits e0 (.const hcv))).trans (emit_emits _ (i := opReturn) (.plain rfl))
  generalize emit (emit e0 (opLoadConst c)) opReturn = e1 at h hR
  have hy := hx.trans (hR.compiles returnNil_straight.unopened)
  set y := x.append (.emitted [] returnNil []) with hydef
  have hyi : y.items = body.code ++ returnNil := by simp [y, Piece.append, Piece.emitted, hitems]
  have hym : y.mask = body.mask ++ [true, true] := by
    simp [y, Piece.append, Piece.emitted, hmask, returnNil]
  have hyd : y.decls = body.decls := by simp [y, Piece.append, Piece.emitted, hdecls]
  have hlay : Layout false y.items := by
    rw [hyi]
    exact (body.code_layout false hwf).append (.straight returnNil_straight)
  obtain ⟨⟨m, n, e2⟩, hcs, h⟩ := bind_ok h
  obtain ⟨new, hprog, hglob, hn, hscopes, hranges, hm, hden, hsame, hbr, hcl⟩ :=
    hs.close hp hnd hy hlay hyd (fun hpf => by rw [hym, hyi, body.mask_eq hpf]; simp [returnNil]) hcs
  simp only [Prod.mk.injEq] at hsame
  obtain ⟨hcur, hlex, hconsts, hidents, hshapes, hif, hbrk, hcnt⟩ := hsame
  obtain ⟨hif', hbrk', hcnt'⟩ := hs.stacks_end hy hlay
  have hoth := hs.others
  simp only [Prod.mk.injEq] at hoth
  obtain ⟨hsc, hsi, hsg, hsb, hscl⟩ := hoth
  obtain ⟨newShapes, hns⟩ := hy.shapes
  rw [hs.shapes, List.append_assoc, List.singleton_append] at hns
  have hprog2 : e2.prog = p.prog ++ ⟨opFunction p.shapes.length, none⟩ :: new := by
    rw [hprog, hs.prog, List.append_assoc, List.singleton_append]
  have hnl : new.length = y.items.length := by
    have := hden { e1.tables with globals := e2.globals }
      ⟨List.prefix_rfl, List.prefix_rfl, hglob, fun _ _ h _ => h⟩ rfl
    rw [this.length_eq, closeItems_length]
  have hh2 : here e2 = here p + 1 + y.items.length := by
    simp only [here, hprog2, List.length_append, List.length_cons, hnl]
    omega
  have hsh2 : e2.shapes = p.shapes ++ ⟨nargsEncoded ps, 0, 0, 0⟩ :: newShapes := by
    rw [hshapes, ← hns]
  have hu : ∀ f, updateShape e2 (here p) f =
      e2.setShapes (p.shapes ++ f ⟨nargsEncoded ps, 0, 0, 0⟩ :: newShapes) := fun f => by
    rw [← updateShape_setShapes hprog2, ← hsh2]
    rfl
  simp only [hu] at h
  split at h
  · simp [throwErr] at h
  rename_i hsmall
  rw [updateShape_setShapes hprog2] at h
  obtain rfl := Except.ok.inj h
  have hoff : here e2 - here p = (body.code ++ returnNil).length + 1 := by
    rw [hh2, hyi]
    omega
  have hsmall' : (body.code ++ returnNil).length + 1 ≤ uint32Max / 2 := hoff ▸ Nat.not_lt.mp hsmall
  simp only [show ∀ l, here (e2.setShapes l) = here e2 from fun _ => rfl, hoff]
  have hagree := agrees_funInfo hn (fun hpf => hyi ▸ hm hpf) hsmall'
  generalize hsh : (⟨nargsEncoded ps, n, (body.code ++ returnNil).length + 1, m⟩ : Shape) = sh
    at hagree
  have hd := hden _ (grows_popSentinels sh hconsts hidents hglob hns) rfl
  rw [hyi] at hd hlay
  exact {
    toks := by
      have := hy.toks
      simp only [hydef, Piece.append, Piece.emitted, List.append_nil] at this
      simp only [funPiece, hs.toks, this, List.append_assoc]
      congr 2
      simp only [Parser.toks, popSentinels, Parser.setShapes, hcur, hlex]
    prog := by
      refine ⟨⟨opFunction p.shapes.length, none⟩ :: new, hprog2, .cons ⟨rfl, ?_⟩ hd.nested⟩
      refine .function (s := sh) ?_ (by simp [← hsh]) hagree
      simp [popSentinels, Parser.setShapes, Parser.tables]
    consts := by
      rw [← hsc]
      simpa [popSentinels, Parser.setShapes, hconsts] using hy.consts
    idents := by
      rw [← hsi]
      simpa [popSentinels, Parser.setShapes, hidents] using hy.idents
    globals := by
      rw [← hsg]
      exact hy.globals.trans hglob
    shapes := List.prefix_append _ _
    scopes := fun ns sc hp => by
      simpa [popSentinels, Parser.setShapes, funPiece, putNames, hscopes] using hp
    ranges := by
      refine covers_rangesAfter _ ?_
      have : here e2 = here e1 := by
        have := hy.here_eq
        rw [hh2, this]
        simp [here, hs.prog]
      change e2.ranges = rangesAfter p (here e2)
      rw [hranges, this]
    mask := by simp [funPiece, nestedCode, nest]
    stackIf := by
      change e2.stackIf.tail = _
      rw [hif, hif']
      exact (congrArg (·.reverse ++ p.stackIf)
        (opens_nestedCode (a := .ifTo) hlay rfl (here p))).symm
    stackBreak := by
      change e2.stackBreak.tail = _
      rw [hbrk, hbrk']
      exact (congrArg (·.reverse ++ p.stackBreak)
        (opens_nestedCode (a := .breakTo) hlay rfl (here p))).symm
    stackContinue := by
      change e2.stackContinue.tail = _
      rw [hcnt, hcnt']
      exact (congrArg (·.reverse ++ p.stackContinue)
        (opens_nestedCode (a := .continueTo) hlay rfl (here p))).symm
    braces := by
      change e2.braces = _
      rw [hbr, hy.braces, hsb]
      simp [hydef, Piece.append, Piece.emitted, funPiece]
    closes := by
      obtain ⟨cl, hcl', hof⟩ := hy.closes
      refine ⟨cl ++ [⟨here p, here e1, maskPos (here p + 1) y.mask, e1.prog, e1.shapes⟩], ?_, ?_⟩
      · change e2.closes = _
        rw [hcl, hcl', hscl, List.append_assoc]
      · refine List.rel_append ?_ (.cons ⟨by rw [hym], ?_, e1.tables, rfl, ?_⟩ .nil)
        · simpa [hydef, Piece.append, Piece.emitted, hfuns] using hof
        · rw [hy.here_eq, hyi]
          simp [here, hs.prog]
        · obtain ⟨new', hn', hd'⟩ := hy.prog
          rw [hn', show here p + 1 = s.prog.length by simp [here, hs.prog], List.drop_left, ← hyi]
          exact hd' }

end

end Calx
