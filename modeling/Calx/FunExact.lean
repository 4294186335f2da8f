import Calx.FunSound
import Calx.ExprExact

/-!
# Functions, exactly

What the beginning and the end of a function need in order to return: room for a
shape and for a constant, distinct parameters, and the limits that `close_scope`
and `fun_end` check.
-/

namespace Calx

open LexemeKind Instr Fallible

/-! ## Limits -/

section

variable [DeciBase]

/-- The greatest height of the stack that `close_scope` counts for a function. -/
def funHeight (body : Stmts) : Nat :=
  (stackWalk (0, 0) (picked (body.mask ++ [true, true]) (body.code ++ returnNil))).2

/-- A function stays within the limits that are checked at its end. -/
structure FunFits (ps : Option Params) (body : Stmts) : Prop where
  height : funHeight body ≤ (sizeMod - 1) / 2
  names : (funLocals ps body).length ≤ uint32Max / 2
  length : (body.code ++ returnNil).length + 1 ≤ uint32Max / 2

end

/-! ## Sizes -/

theorem walk_length (idents names : List Bytes) (l : List Nat) (w : Walk) :
    (l.foldl (walkStep idents names) w).code.length = w.code.length := by
  induction l generalizing w with
  | nil => rfl
  | cons j l ih =>
      rw [List.foldl_cons, ih]
      exact (walkStep_spec idents names w j).length

theorem thrifty_closeScope {q q' : Parser} {m n : Nat} (h : closeScope q = .ok (m, n, q')) :
    Thrifty q q' := by
  obtain ⟨-, -, rfl⟩ := closeScope_ok h
  constructor
  · rw [walk_length]
  · rw [walk_length]
  · rw [walk_length]

theorem closeScope_yields {q : Parser} {ok : Prop} {m n : Nat}
    (hm : ((walkedPositions (fixupLastRangeEnd q (here q)).ranges (q.scopes.length - 1)).foldl
      (walkStep q.idents (locals q)) ⟨q.prog, q.globals, 0, 0⟩).maxstack = m)
    (hn : (locals q).length = n) (hok : ok → m ≤ (sizeMod - 1) / 2 ∧ n ≤ uint32Max / 2) :
    Yields ok (closeScope q) fun r =>
      (m ≤ (sizeMod - 1) / 2 ∧ n ≤ uint32Max / 2) ∧ Thrifty q r.2.2 := by
  have hcheck : Yields ok (closeScope q) fun _ => m ≤ (sizeMod - 1) / 2 ∧ n ≤ uint32Max / 2 := by
    subst hm hn
    simp only [closeScope]
    split
    · rename_i hbig
      exact .fails fun h => absurd (hok h).1 (not_le.mpr hbig)
    · rename_i hsmall
      split
      · rename_i hmany
        exact .fails fun h => absurd (hok h).2 (not_le.mpr hmany)
      · rename_i hfew
        exact .pure ⟨not_lt.mp hsmall, not_lt.mp hfew⟩
  exact hcheck.imp_eq fun r hr h => ⟨h, thrifty_closeScope hr⟩

theorem thrifty_recordClosed (p : Parser) (b : Nat) : Thrifty p (recordClosed p b) :=
  ⟨le_rfl, le_rfl, le_rfl⟩

theorem thrifty_updateShape (p : Parser) (b : Nat) (f : Shape → Shape) :
    Thrifty p (updateShape p b f) := by
  constructor
  · rfl
  · rfl
  · simp [updateShape]

theorem thrifty_popSentinels (p : Parser) : Thrifty p (popSentinels p) := ⟨le_rfl, le_rfl, le_rfl⟩

theorem Enters.thrifty {p s : Parser} {ts : List Lexeme} {nargs : Nat} {names : List Bytes}
    (h : Enters p ts nargs names s) : Thrifty p s := by
  have hothers := h.others
  simp only [Prod.mk.injEq] at hothers
  obtain ⟨hconsts, hidents, -⟩ := hothers
  constructor
  · rw [hconsts, h.prog, List.length_append]
    omega
  · rw [hidents, h.prog, List.length_append]
    omega
  · rw [h.shapes, h.prog, List.length_append, List.length_append, List.length_singleton,
      List.length_singleton]
    omega

/-- There is room in a function for what there was room for around it. -/
theorem Enters.room {p s : Parser} {ts : List Lexeme} {nargs : Nat} {names : List Bytes} {n : Nat}
    (h : Enters p ts nargs names s) (hp : p.Room (n + 1)) : s.Room n := by
  obtain ⟨h1, h2, h3⟩ := h.thrifty
  obtain ⟨h1', h2', h3'⟩ := hp
  rw [h.prog, List.length_append, List.length_singleton] at h1 h2 h3
  exact ⟨by omega, by omega, by omega⟩

/-! ## The beginning of a function -/

theorem funBegin_yields {ok : Prop} {p : Parser} {n : Nat} (hp : ok → p.Room (n + 1)) :
    Yields ok (funBegin p) fun r => r.1 = here p ∧ Enters p [] 0 [] r.2 := by
  have hsound : ∀ r, funBegin p = .ok r → r.1 = here p ∧ Enters p [] 0 [] r.2 :=
    fun _ h => funBegin_ok h
  refine ⟨hsound, fun hok => ?_⟩
  have := (hp hok).shapes
  unfold funBegin addShape
  rw [if_neg (by omega)]
  exact ⟨_, rfl⟩

section

variable {p s : Parser} {ts ls : List Lexeme} {nargs : Nat} {names : List Bytes}

theorem Enters.ahead (hs : Enters p ts nargs names s) {ts' : List Lexeme} {nargs' : Nat}
    {names' : List Bytes} {s' : Parser} (hs' : Enters p (ts ++ ts') nargs' names' s')
    (h : s.toks = ts' ++ ls) : s'.toks = ls := by
  have := hs.toks.symm.trans hs'.toks
  rw [h, List.append_assoc] at this
  exact (List.append_cancel_left (List.append_cancel_left this)).symm

theorem Enters.clean (hs : Enters p ts nargs names s) (hp : p.Clean) : s.Clean := by
  intro l hl
  refine hp l ?_
  rw [hs.toks]
  exact List.mem_append_right _ hl

theorem Enters.param_returns (hs : Enters p ts nargs names s) {name : Lexeme} (gather : Bool)
    (hmem : name.text ∉ names) :
    ∃ s', funParam s (here p) name gather = .ok s' ∧ s'.cur = s.cur ∧ s'.toks = s.toks ∧
      Enters p ts (addParam nargs gather) (names ++ [name.text]) s' := by
  have hl : locals s = names := by simp [locals, hs.scopes]
  have hr : ∃ s', funParam s (here p) name gather = .ok s' := by
    simp only [funParam, hl, if_neg hmem]
    exact ⟨_, rfl⟩
  obtain ⟨s', hs'⟩ := hr
  obtain ⟨-, hcur, hE⟩ := hs.param hs'
  exact ⟨s', hs', hcur, List.append_cancel_left (hE.toks.symm.trans hs.toks), hE⟩

theorem Enters.advance_returns {l : Lexeme} (hs : Enters p ts nargs names s)
    (hp : p.Clean) (h : s.toks = l :: ls) (hne : ls ≠ []) :
    ∃ s', Calx.advance s = .ok s' ∧ s'.toks = ls ∧ Enters p (ts ++ [l]) nargs names s' := by
  obtain ⟨s', hs', hE, -⟩ := Calx.advance_returns h hne (hs.clean hp)
  have hcur : s.cur.kind ≠ lkEof := by
    intro hk
    rw [Parser.toks, if_pos hk] at h
    exact hne (List.cons.inj h).2.symm
  obtain rfl := cur_of_toks h
  exact ⟨s', hs', hE.ahead h, hs.advance hs' hcur⟩

theorem funParams_returns (hp : p.Clean) : ∀ {ps : Params} {fuel : Nat} {s : Parser}
    {ts ls : List Lexeme} {nargs : Nat} {names : List Bytes}, Enters p ts nargs names s →
    ps.Wf → (names ++ ps.names).Nodup → (∃ r rs, ls = r :: rs ∧ r.kind = lkRparen) →
    s.toks = ps.toks ++ ls → ps.toks.length ≤ fuel →
    ∃ s', funParams (here p) fuel s = .ok s' ∧ s'.toks = ls ∧
      Enters p (ts ++ ps.toks) (ps.encode nargs) (names ++ ps.names) s'
  | .last name, fuel, s, ts, ls, nargs, names, hs, hname, hnd, ⟨r, rs, hls, hr⟩, h, hfuel => by
      subst hls
      obtain ⟨fuel, rfl⟩ : ∃ k, fuel = k + 1 := ⟨fuel - 1, by simp [Params.toks] at hfuel; omega⟩
      have hcur := cur_of_toks h
      have hk : s.cur.kind = lkIdent := hcur ▸ hname
      have hmem : s.cur.text ∉ names := by
        intro hm
        rw [← hcur] at hm
        exact (List.nodup_append.mp hnd).2.2 _ hm _ (List.mem_singleton_self _) rfl
      obtain ⟨s₁, h₁, -, ht₁, hs₁⟩ := hs.param_returns false hmem
      obtain ⟨s₂, h₂, ht₂, hs₂⟩ := hs₁.advance_returns hp (ht₁.trans h) (by simp)
      refine ⟨s₂, ?_, ht₂, ?_⟩
      · simp only [funParams, hk, reduceCtorEq, if_false, if_true]
        rw [bind_of_ok h₁, bind_of_ok h₂, ← cur_of_toks ht₂, if_pos hr]
      · rw [hcur] at hs₂ ⊢
        exact hs₂
  | .gather star name, fuel, s, ts, ls, nargs, names, hs, ⟨hstar, hname⟩, hnd, ⟨r, rs, hls, hr⟩,
      h, hfuel => by
      subst hls
      obtain ⟨fuel, rfl⟩ : ∃ k, fuel = k + 1 := ⟨fuel - 1, by simp [Params.toks] at hfuel; omega⟩
      obtain ⟨s₁, h₁, ht₁, hs₁⟩ := hs.advance_returns hp h (by simp)
      have hcur := cur_of_toks h
      have hcur₁ := cur_of_toks ht₁
      have hk : s₁.cur.kind = lkIdent := hcur₁ ▸ hname
      have hmem : s₁.cur.text ∉ names := by
        intro hm
        rw [← hcur₁] at hm
        exact (List.nodup_append.mp hnd).2.2 _ hm _ (List.mem_singleton_self _) rfl
      obtain ⟨s₂, h₂, -, ht₂, hs₂⟩ := hs₁.param_returns true hmem
      obtain ⟨s₃, h₃, ht₃, hs₃⟩ := hs₂.advance_returns hp (ht₂.trans ht₁) (by simp)
      refine ⟨s₃, ?_, ht₃, ?_⟩
      · simp only [funParams, ← hcur, hstar, if_true]
        rw [bind_of_ok h₁]
        simp only [hk, if_true]
        rw [bind_of_ok h₂, bind_of_ok h₃, ← cur_of_toks ht₃, if_pos hr]
      · rw [← hcur₁] at hs₃
        simpa [Params.toks, Params.encode, Params.names] using hs₃
  | .more name comma ps, fuel, s, ts, ls, nargs, names, hs, ⟨hname, hcomma, hwf⟩, hnd, hls, h,
      hfuel => by
      obtain ⟨fuel, rfl⟩ : ∃ k, fuel = k + 1 := ⟨fuel - 1, by simp [Params.toks] at hfuel; omega⟩
      have hcur := cur_of_toks h
      have hk : s.cur.kind = lkIdent := hcur ▸ hname
      have hmem : s.cur.text ∉ names := by
        intro hm
        rw [← hcur] at hm
        exact (List.nodup_append.mp hnd).2.2 _ hm _ List.mem_cons_self rfl
      obtain ⟨s₁, h₁, -, ht₁, hs₁⟩ := hs.param_returns false hmem
      obtain ⟨s₂, h₂, ht₂, hs₂⟩ := hs₁.advance_returns hp (ht₁.trans h) (by simp)
      have hne : ps.toks ++ ls ≠ [] := by
        obtain ⟨r, rs, rfl, -⟩ := hls
        simp
      obtain ⟨s₃, h₃, ht₃, hs₃⟩ := hs₂.advance_returns hp ht₂ hne
      have hk₂ : s₂.cur.kind = lkComma := cur_of_toks ht₂ ▸ hcomma
      have hlen : ps.toks.length ≤ fuel := by
        simp only [Params.toks, List.length_cons] at hfuel
        omega
      obtain ⟨s', h', ht', hs'⟩ := funParams_returns hp hs₃ hwf
        (by rw [← hcur]; simpa [Params.names] using hnd) hls ht₃ hlen
      refine ⟨s', ?_, ht', ?_⟩
      · simp only [funParams, hk, reduceCtorEq, if_false, if_true]
        rw [bind_of_ok h₁, bind_of_ok h₂]
        simp only [hk₂, reduceCtorEq, if_false]
        rw [slurp, if_pos hk₂, bind_of_ok h₃]
        exact h'
      · rw [← hcur] at hs'
        simpa [Params.toks, Params.encode, Params.names] using hs'

theorem funParamList_returns (hp : p.Clean) {ps : Option Params} {fuel : Nat} {r : Lexeme}
    {rs : List Lexeme} (hs : Enters p ts 0 [] s) (hps : ∀ q ∈ ps, q.Wf ∧ q.names.Nodup)
    (hr : r.kind = lkRparen) (h : s.toks = (ps.map Params.toks).getD [] ++ r :: rs)
    (hfuel : ((ps.map Params.toks).getD []).length ≤ fuel) :
    ∃ s', funParamList (here p) fuel s = .ok s' ∧ s'.toks = r :: rs ∧
      Enters p (ts ++ (ps.map Params.toks).getD []) (nargsEncoded ps) (paramNames ps) s' := by
  unfold funParamList
  cases ps with
  | none =>
      rw [if_pos ((cur_of_toks h) ▸ hr)]
      exact ⟨s, rfl, h, by simpa [nargsEncoded, paramNames] using hs⟩
  | some ps =>
      obtain ⟨hwf, hnd⟩ := hps ps rfl
      have hne : s.cur.kind ≠ lkRparen := by
        have h : s.toks = ps.toks ++ r :: rs := h
        cases ps with
        | last name => rw [← cur_of_toks h, hwf]; decide
        | gather star name => rw [← cur_of_toks h, hwf.1]; decide
        | more name comma ps => rw [← cur_of_toks h, hwf.1]; decide
      rw [if_neg hne]
      obtain ⟨s', h', ht', hs'⟩ :=
        funParams_returns hp hs hwf (by simpa using hnd) ⟨r, rs, rfl, hr⟩ h hfuel
      refine ⟨s', h', ht', ?_⟩
      have := ps.encode_eq 0
      simp only [Nat.zero_add] at this
      simpa [nargsEncoded, paramNames, this] using hs'

end

/-! ## The end of a function -/

section

variable [DeciBase] {p s e : Parser} {ts : List Lexeme} {ps : Option Params} {body : Stmts}
  {y : Piece}

/-- What `close_scope` checks at the end of a function that has been opened at `p`. -/
theorem Enters.close_yields (hs : Enters p ts (nargsEncoded ps) (paramNames ps) s)
    (hp : ∀ r ∈ p.ranges.head?, r.scopeIndex ≠ p.scopes.length) (hy : Compiles s y e)
    (hyd : y.decls = body.decls) {b : Nat} {ok : Prop}
    (hok : ok → (stackWalk (0, 0) (picked y.mask y.items)).2 ≤ (sizeMod - 1) / 2 ∧
      (funLocals ps body).length ≤ uint32Max / 2) :
    Yields ok (closeScope (recordClosed e b)) fun r =>
      ((stackWalk (0, 0) (picked y.mask y.items)).2 ≤ (sizeMod - 1) / 2 ∧
        (funLocals ps body).length ≤ uint32Max / 2) ∧ Thrifty e r.2.2 := by
  obtain ⟨hwalked, -⟩ := hs.ranges_end hy hp
  have hsc : e.scopes = funLocals ps body :: p.scopes := by
    rw [hy.scopes _ _ hs.scopes, hyd, funLocals]
  have hlo : locals (recordClosed e b) = funLocals ps body := by simp [locals, recordClosed, hsc]
  have hpre : here p + 1 = s.prog.length := by simp [here, hs.prog]
  obtain ⟨new, hn, hd⟩ := hy.prog
  have hW : walkedPositions (fixupLastRangeEnd (recordClosed e b) (here (recordClosed e b))).ranges
      ((recordClosed e b).scopes.length - 1) = maskPos s.prog.length y.mask := by
    have hl1 : e.scopes.length - 1 = p.scopes.length := by simp [hsc]
    rw [← hpre, ← hwalked, ← hl1]
    rfl
  have hheight : ((maskPos s.prog.length y.mask).foldl
      (walkStep e.idents (locals (recordClosed e b))) ⟨e.prog, e.globals, 0, 0⟩).maxstack =
        (stackWalk (0, 0) (picked y.mask y.items)).2 := by
    have h1 := (walk_spec e.idents (locals (recordClosed e b))
      (maskPos_nodup s.prog.length y.mask) ⟨e.prog, e.globals, 0, 0⟩).stack
    have h2 := walkStack_picked hd hy.mask s.prog (0, 0)
    rw [← hn] at h2
    rw [← h2]
    exact congrArg Prod.snd h1
  refine (closeScope_yields (q := recordClosed e b) (by rw [hW]; exact hheight)
    (congrArg List.length hlo) hok).imp ?_
  rintro r ⟨hlimits, hT⟩
  exact ⟨hlimits, (thrifty_recordClosed e b).trans hT⟩

/-- `fun_end` on the function that has been opened at `p`. -/
theorem funEnd_yields {x : Piece} {ok : Prop}
    (hs : Enters p ts (nargsEncoded ps) (paramNames ps) s)
    (hp : ∀ r ∈ p.ranges.head?, r.scopeIndex ≠ p.scopes.length) (hnd : (paramNames ps).Nodup)
    (hwf : body.Wf false) (hx : Compiles s x e) (hT : Thrifty s e) (hitems : x.items = body.code)
    (hmask : x.mask = body.mask) (hdecls : x.decls = body.decls) (hfuns : x.funs = body.funs)
    (hok : ok → FunFits ps body ∧ e.Room 1) :
    Yields ok (funEnd e (here p)) fun p' =>
      FunFits ps body ∧ Compiles p (funPiece (ts ++ x.toks) ps body x.braces) p' ∧
        Thrifty p p' := by
  have hsound : ∀ p', funEnd e (here p) = .ok p' →
      Compiles p (funPiece (ts ++ x.toks) ps body x.braces) p' :=
    fun _ h => funEnd_ok hs hp hnd hwf hx hitems hmask hdecls hfuns h
  have hlimits : Yields ok (funEnd e (here p)) fun p' => FunFits ps body ∧ Thrifty p p' := by
    unfold funEnd
    refine (addConstSteal_yields (n := 0) (fun h => (hok h).2) .nil).bind_eq ?_
    rintro ⟨c, e₀⟩ hc ⟨⟩
    obtain ⟨he₀, hcv⟩ := addConstSteal_ok hc
    have hR : Emits e [] returnNil [] (emit (emit { e with consts := e.consts ++ [.nil] }
        (opLoadConst e.consts.length)) opReturn) := by
      simpa [returnNil] using
        (he₀.trans (emit_emits _ (.const hcv))).trans (emit_emits _ (i := opReturn) (.plain rfl))
    have hTR : Thrifty e (emit (emit { e with consts := e.consts ++ [.nil] }
        (opLoadConst e.consts.length)) opReturn) :=
      (thrifty_const e .nil _ none).trans (thrifty_emitAtLine _ opReturn none)
    dsimp only
    generalize emit (emit { e with consts := e.consts ++ [.nil] } (opLoadConst e.consts.length))
      opReturn = e₁ at hR hTR ⊢
    have hy := hx.trans (hR.compiles returnNil_straight.unopened)
    have hheight : (stackWalk (0, 0) (picked (x.append (.emitted [] returnNil [])).mask
        (x.append (.emitted [] returnNil [])).items)).2 = funHeight body := by
      simp [Piece.append, Piece.emitted, hitems, hmask, funHeight, returnNil]
    refine (hs.close_yields hp hy (by simpa [Piece.append, Piece.emitted] using hdecls)
      fun h => ⟨hheight ▸ (hok h).1.height, (hok h).1.names⟩).bind_eq ?_
    rintro ⟨m, n, e₂⟩ hcs ⟨⟨hh, hnames⟩, hT₂⟩
    have hlen : here (updateShape e₂ (here p) fun s => { s with maxstack := m, nlocals := n }) -
        here p = (body.code ++ returnNil).length + 1 := by
      obtain ⟨-, -, rfl⟩ := closeScope_ok hcs
      have h1 := hy.here_eq
      simp only [Piece.append, Piece.emitted, hitems] at h1
      simp only [here, updateShape, walk_length, recordClosed] at h1 ⊢
      rw [h1, hs.prog, List.length_append, List.length_singleton]
      omega
    dsimp only
    rw [hlen]
    split_ifs with hlong
    · exact .fails fun h => absurd (hok h).1.length (not_le.mpr hlong)
    · refine .pure ⟨⟨hheight ▸ hh, hnames, not_lt.mp hlong⟩, ?_⟩
      exact ((((hs.thrifty.trans hT).trans hTR).trans hT₂).trans
        ((thrifty_updateShape _ _ _).trans (thrifty_updateShape _ _ _))).trans
          (thrifty_popSentinels _)
  exact hlimits.imp_eq fun p' hp' h => ⟨h.1, hsound p' hp', h.2⟩

end

end Calx
