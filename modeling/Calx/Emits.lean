import Calx.WellFormed
import Calx.Lexemes
import Mathlib.Data.List.Forall2

/-!
# Parser states and the code of trees

What an item of a tree's code says about an instruction, given the tables of
the parser, and the relation between two parser states when the parser has
consumed the lexemes of an expression and emitted its code.
-/

namespace Calx

open LexemeKind Instr

/-! ## Meaning of items -/

/-- The tables instructions index into, with the names of the innermost scope. -/
structure Tables where
  consts : List Const
  idents : List Bytes
  shapes : List Shape
  globals : List Bytes
  locals : List Bytes

namespace Parser

/-- The tables of a parser state. -/
def tables (p : Parser) : Tables := ⟨p.consts, p.idents, p.shapes, p.globals, locals p⟩

/-- The lexemes not yet consumed, the current one included. -/
def toks (p : Parser) : List Lexeme :=
  p.cur :: if p.cur.kind = lkEof then [] else lexAll p.lexer

/-- Everything an expression leaves unchanged. -/
def frame (p : Parser) :=
  (p.globals, p.shapes, p.scopes, p.ranges, p.stackIf, p.stackBreak, p.stackContinue, p.closes)

end Parser

/-- A shape agrees with what a tree determines of it. -/
structure Shape.Agrees (s : Shape) (f : FunInfo) : Prop where
  nargs : s.nargsEncoded = f.nargsEncoded
  nlocals : s.nlocals = f.nlocals
  offset : s.offset = f.offset
  maxstack : ∀ m ∈ f.maxstack, s.maxstack = m
  small : s.offset ≤ uint32Max / 2

/-- The instructions that mean the same whatever the tables hold, jumps left out. -/
def Instr.isPlain : Instr → Bool
  | opLoadConst _ | opLoadGlobal _ | opStoreGlobal _ | opModifyGlobal .. | opJump _
  | opJumpUnless _ | opFunction _ | opLoadSymbolic _ | opModifySymbolic .. | opStoreSymbolic _ =>
      false
  | _ => true

/-- The instruction an item stands for. -/
inductive DenI (T : Tables) : Instr → AInstr → Prop
  | plain {i : Instr} (h : i.isPlain = true) : DenI T i (.plain i)
  | const {c v} (h : T.consts[c]? = some v) : DenI T (opLoadConst c) (.const v)
  | load {c x} (h : T.idents[c]? = some x) : DenI T (opLoadSymbolic c) (.load x)
  | store {c x} (h : T.idents[c]? = some x) : DenI T (opStoreSymbolic c) (.store x)
  | modify {a c x} (h : T.idents[c]? = some x) : DenI T (opModifySymbolic a c) (.modify a x)
  | storeNew {c x} (h : T.locals[c]? = some x) : DenI T (opStoreLocal c) (.storeNew x)
  | loadGlobal {c x} (h : T.globals[c]? = some x) : DenI T (opLoadGlobal c) (.loadGlobal x)
  | storeGlobal {c x} (h : T.globals[c]? = some x) : DenI T (opStoreGlobal c) (.storeGlobal x)
  | modifyGlobal {a c x} (h : T.globals[c]? = some x) :
      DenI T (opModifyGlobal a c) (.modifyGlobal a x)
  | loadSome (c : Nat) : DenI T (opLoadSymbolic c) .someLoad
  | loadSomeLocal (c : Nat) : DenI T (opLoadLocal c) .someLoad
  | loadSomeGlobal (c : Nat) : DenI T (opLoadGlobal c) .someLoad
  | storeSome (c : Nat) : DenI T (opStoreSymbolic c) .someStore
  | storeSomeLocal (c : Nat) : DenI T (opStoreLocal c) .someStore
  | storeSomeGlobal (c : Nat) : DenI T (opStoreGlobal c) .someStore
  | modifySome (a) (c : Nat) : DenI T (opModifySymbolic a c) (.someModify a)
  | modifySomeLocal (a) (c : Nat) : DenI T (opModifyLocal a c) (.someModify a)
  | modifySomeGlobal (a) (c : Nat) : DenI T (opModifyGlobal a c) (.someModify a)
  | jump (off : Int) : DenI T (opJump (toUint32 off)) (.jump off)
  | jumpUnless (off : Int) : DenI T (opJumpUnless (toUint32 off)) (.jumpUnless off)
  | breakTo : DenI T (opJump 0) .breakTo
  | continueTo : DenI T (opJump 0) .continueTo
  | ifTo : DenI T (opJump 0) .ifTo
  | function {c s f} (h : T.shapes[c]? = some s) (ho : s.offset ≠ 0) (ha : s.Agrees f) :
      DenI T (opFunction c) (.function f)

/-- The instruction, with its line, an item stands for. -/
structure Den (T : Tables) (ti : TaggedInstr) (it : Item) : Prop where
  line : ti.line = it.line
  instr : DenI T ti.instr it.instr

/-- The code items stand for. -/
abbrev Dens (T : Tables) : List TaggedInstr → List Item → Prop := List.Forall₂ (Den T)

/-- Tables that have only been appended to, up to shapes of functions still open; the names of
the innermost scope are left out. -/
structure Tables.Grows (T T' : Tables) : Prop where
  consts : T.consts <+: T'.consts
  idents : T.idents <+: T'.idents
  globals : T.globals <+: T'.globals
  shapes : ∀ (c : Nat) (s : Shape), T.shapes[c]? = some s → s.offset ≠ 0 → T'.shapes[c]? = some s

/-- Tables that have only been appended to, within one scope. -/
structure Tables.Le (T T' : Tables) : Prop extends Tables.Grows T T' where
  locals : T.locals <+: T'.locals

theorem getElem?_of_isPrefix {α : Type} {l l' : List α} (h : l <+: l') {i : Nat} {a : α}
    (hi : l[i]? = some a) : l'[i]? = some a := by
  obtain ⟨t, rfl⟩ := h
  rw [List.getElem?_append_left (List.getElem?_eq_some_iff.mp hi).1]
  exact hi

theorem DenI.mono {T T' : Tables} (h : T.Le T') {i : Instr} {a : AInstr} (hd : DenI T i a) :
    DenI T' i a := by
  cases hd with
  | plain hi => exact .plain hi
  | const hc => exact .const (getElem?_of_isPrefix h.consts hc)
  | load hc => exact .load (getElem?_of_isPrefix h.idents hc)
  | store hc => exact .store (getElem?_of_isPrefix h.idents hc)
  | modify hc => exact .modify (getElem?_of_isPrefix h.idents hc)
  | storeNew hc => exact .storeNew (getElem?_of_isPrefix h.locals hc)
  | loadGlobal hc => exact .loadGlobal (getElem?_of_isPrefix h.globals hc)
  | storeGlobal hc => exact .storeGlobal (getElem?_of_isPrefix h.globals hc)
  | modifyGlobal hc => exact .modifyGlobal (getElem?_of_isPrefix h.globals hc)
  | function hc ho ha => exact .function (h.shapes _ _ hc ho) ho ha
  | _ => constructor

theorem Dens.mono {T T' : Tables} (h : T.Le T') {code : List TaggedInstr} {items : List Item}
    (hd : Dens T code items) : Dens T' code items :=
  List.Forall₂.imp (fun _ _ hab => ⟨hab.line, hab.instr.mono h⟩) hd

/-! ## Consuming lexemes and emitting code -/

/-- From `p` to `p'` the parser consumed the lexemes `ts` and emitted the code `items`; `br` are
the braces among the lexemes. -/
structure Emits (p : Parser) (ts : List Lexeme) (items : List Item) (br : List (Nat × Bool))
    (p' : Parser) : Prop where
  toks : p.toks = ts ++ p'.toks
  prog : ∃ new, p'.prog = p.prog ++ new ∧ Dens p'.tables new items
  consts : p.consts <+: p'.consts
  idents : p.idents <+: p'.idents
  braces : p'.braces = p.braces ++ br
  frame : p'.frame = p.frame

namespace Emits

variable {p p' p'' : Parser} {ts ts' : List Lexeme} {items items' : List Item}
  {br br' : List (Nat × Bool)}

theorem refl (p : Parser) : Emits p [] [] [] p :=
  ⟨rfl, ⟨[], by simp, .nil⟩, List.prefix_rfl, List.prefix_rfl, by simp, rfl⟩

theorem tables_le (h : Emits p ts items br p') : p.tables.Le p'.tables := by
  have hf := h.frame
  simp only [Parser.frame, Prod.mk.injEq] at hf
  obtain ⟨hg, hs, hsc, -⟩ := hf
  refine ⟨⟨h.consts, h.idents, ?_, ?_⟩, ?_⟩
  · simp [Parser.tables, hg]
  · intro c s hc _
    simpa [Parser.tables, hs] using hc
  · simp [Parser.tables, locals, hsc]

theorem trans (h : Emits p ts items br p') (h' : Emits p' ts' items' br' p'') :
    Emits p (ts ++ ts') (items ++ items') (br ++ br') p'' := by
  obtain ⟨new, hn, hd⟩ := h.prog
  obtain ⟨new', hn', hd'⟩ := h'.prog
  exact {
    toks := by rw [h.toks, h'.toks, List.append_assoc]
    prog := ⟨new ++ new', by rw [hn', hn, List.append_assoc],
      List.rel_append (hd.mono h'.tables_le) hd'⟩
    consts := h.consts.trans h'.consts
    idents := h.idents.trans h'.idents
    braces := by rw [h'.braces, h.braces, List.append_assoc]
    frame := h'.frame.trans h.frame }

theorem cur_eq (h : Emits p [] items br p') : p'.cur = p.cur := by
  have := h.toks
  simp only [Parser.toks, List.nil_append, List.cons.injEq] at this
  exact this.1.symm

end Emits

/-- A sequence of two steps succeeds with the second. -/
theorem bind_ok {ε α β : Type} {x : Except ε α} {f : α → Except ε β} {b : β}
    (h : (x >>= f) = .ok b) : ∃ a, x = .ok a ∧ f a = .ok b := by
  cases x with
  | error e => cases h
  | ok a => exact ⟨a, rfl, h⟩

theorem advance_eq {p p' : Parser} (h : advance p = .ok p') :
    ∃ c lx, p' = { p with cur := c, lexer := lx } := by
  simp only [advance] at h
  split_ifs at h
  · simp [throwErrAt] at h
  · exact ⟨_, _, (Except.ok.inj h).symm⟩

theorem advance_ok {p p' : Parser} (h : advance p = .ok p') (hc : p.cur.kind ≠ lkEof) :
    Emits p [p.cur] [] [] p' := by
  simp only [advance] at h
  split_ifs at h with he
  · simp [throwErrAt] at h
  · simp only [Except.ok.injEq] at h
    subst h
    refine ⟨?_, ⟨[], by simp, .nil⟩, List.prefix_rfl, List.prefix_rfl, by simp, rfl⟩
    simp only [Parser.toks, if_neg hc, List.cons_append, List.nil_append]
    rw [lexAll_eq]
    by_cases hk : (lexerNext p.lexer).1.kind = lkEof <;> simp [Lexeme.final, hk, he]

theorem slurp_ok {p p' : Parser} {k : LexemeKind} {msg : String} (h : slurp p k msg = .ok p')
    (hk : k ≠ lkEof) : p.cur.kind = k ∧ Emits p [p.cur] [] [] p' := by
  unfold slurp at h
  split_ifs at h with hc
  · exact ⟨hc, advance_ok h (hc ▸ hk)⟩
  · simp [throwErrAt] at h

theorem emitAt_emits (p : Parser) {i : Instr} {a : AInstr} (l : Lexeme) (h : DenI p.tables i a) :
    Emits p [] [.mine a l.tag] [] (emitAt p i l) :=
  ⟨rfl, ⟨[⟨i, l.tag⟩], rfl, .cons ⟨rfl, h⟩ .nil⟩, List.prefix_rfl, List.prefix_rfl,
    by simp [emitAt, emitAtLine], rfl⟩

theorem addConstSteal_ok {p p' : Parser} {v : Const} {c : Nat}
    (h : addConstSteal p v = .ok (c, p')) :
    Emits p [] [] [] p' ∧ p'.tables.consts[c]? = some v := by
  unfold addConstSteal at h
  split_ifs at h
  · simp [throwErr] at h
  · simp only [Except.ok.injEq, Prod.mk.injEq] at h
    obtain ⟨rfl, rfl⟩ := h
    exact ⟨⟨rfl, ⟨[], by simp, .nil⟩, by simp, List.prefix_rfl, by simp, rfl⟩,
      by simp [Parser.tables]⟩

theorem load_ok {p p' : Parser} {l : Lexeme} {i : Instr} (h : load p l = .ok (i, p')) :
    Emits p [] [] [] p' ∧ DenI p'.tables i (.load l.text) := by
  unfold load at h
  split_ifs at h
  · simp [throwErr] at h
  · simp only [Except.ok.injEq, Prod.mk.injEq] at h
    obtain ⟨rfl, rfl⟩ := h
    exact ⟨⟨rfl, ⟨[], by simp, .nil⟩, List.prefix_rfl, by simp, by simp, rfl⟩,
      .load (by simp [Parser.tables])⟩

end Calx
