import Calx.StmtSound

/-!
# Programs

A successful `parse` follows the syntax tree of its source: the lexemes are
those of the tree, the code is the tree's code, and every function of the tree
has been closed once.
-/

namespace Calx

open LexemeKind Instr

theorem advance_toks {p p' : Parser} (h : advance p = .ok p') : p'.toks = lexAll p.lexer := by
  simp only [advance] at h
  split_ifs at h with he
  · simp [throwErrAt] at h
  · obtain rfl := Except.ok.inj h
    rw [lexAll_eq]
    by_cases hk : (lexerNext p.lexer).1.kind = lkEof <;> simp [Parser.toks, Lexeme.final, hk, he]

theorem funBegin_lexer {p q : Parser} {pos : Nat} (h : funBegin p = .ok (pos, q)) :
    q.lexer = p.lexer := by
  unfold funBegin addShape at h
  split_ifs at h
  · simp [throwErr, bind, Except.bind] at h
  · simp only [bind, Except.bind, Except.ok.injEq, Prod.mk.injEq] at h
    obtain ⟨-, rfl⟩ := h
    rfl

theorem Dens.of_nest {T : Tables} {code : List TaggedInstr} {items : List Item}
    (h : Dens T code (nest items)) : Dens T code items :=
  (List.forall₂_map_right_iff.mp h).imp fun _ _ hab => ⟨hab.line, hab.instr⟩

section

variable [DeciBase]

/-- The functions of a program in the order in which they end; the program itself is one. -/
def Stmts.functions (body : Stmts) : List (Option Params × Stmts) := body.funs ++ [(none, body)]

/-- The code of a program, seen from outside. -/
def Stmts.program (body : Stmts) : List Item :=
  nestedCode none (funLocals none body) body.postedFun (body.code ++ returnNil)

/-- The state at the end of a parse has followed the tree `body` of the source. -/
structure Follows (source : Bytes) (p : Parser) (body : Stmts) : Prop where
  wf : body.Wf false
  toks : ∃ e, e.kind = lkEof ∧ lexAll (lexerNew source) = body.toks ++ [e]
  code : Dens p.tables p.prog body.program
  braces : p.braces = body.braces
  closes : List.Forall₂ Closed.Of p.closes body.functions

omit [DeciBase] in
/-- The state in which the statements of a chunk are read. -/
theorem chunk_enters {globals : List Bytes} {source : Bytes} {pos : Nat} {q q₁ : Parser}
    (hq : funBegin (parserNew source globals) = .ok (pos, q)) (hq₁ : advance q = .ok q₁) :
    q₁.toks = lexAll (lexerNew source) ∧ ∃ c lx,
      Enters { parserNew source globals with cur := c, lexer := lx } [] (nargsEncoded none)
        (paramNames none) q₁ := by
  obtain ⟨rfl, hs⟩ := funBegin_ok hq
  constructor
  · rw [advance_toks hq₁, funBegin_lexer hq]
    rfl
  · -- the state before the function, with the first lexeme already read
    obtain ⟨c, lx, rfl⟩ := advance_eq hq₁
    exact ⟨c, lx, rfl, hs.prog, hs.shapes, hs.scopes, hs.ranges, hs.stackIf, hs.stackBreak,
      hs.stackContinue, hs.others⟩

/-- The state at the end of a chunk. -/
theorem follows_chunk {globals : List Bytes} {source : Bytes} {c e : Lexeme} {lx : Lexer}
    {ts : List Lexeme} {body : Stmts} {p : Parser} (hwf : body.Wf false) (he : e.kind = lkEof)
    (htoks : lexAll (lexerNew source) = body.toks ++ [e])
    (hf : Compiles { parserNew source globals with cur := c, lexer := lx }
      (funPiece ts none body body.braces) p) : Follows source p body := by
  refine ⟨hwf, ⟨e, he, htoks⟩, ?_, hf.braces.trans (List.nil_append _), ?_⟩
  · obtain ⟨new, hn, hd⟩ := hf.prog
    obtain rfl : p.prog = new := by simpa [parserNew] using hn
    exact hd
  · obtain ⟨new, hn, hd⟩ := hf.closes
    obtain rfl : p.closes = new := by simpa [parserNew] using hn
    exact hd

/-- Every successful parse follows a tree. -/
theorem parse_sound {fuel : Nat} {globals : List Bytes} {source : Bytes} {p : Parser}
    (h : parseState fuel globals source = .ok p) : ∃ body : Stmts, Follows source p body := by
  unfold parseState at h
  obtain ⟨⟨pos, q⟩, hq, h⟩ := bind_ok h
  obtain ⟨q₁, hq₁, h⟩ := bind_ok h
  obtain ⟨q₂, hq₂, hend⟩ := bind_ok h
  obtain ⟨htoks, c, lx, hs₁⟩ := chunk_enters hq hq₁
  obtain ⟨rfl, -⟩ := funBegin_ok hq
  obtain ⟨body, hwf, hk, hc⟩ := parseLoop_ok (stmt_sound fuel) hs₁.active hs₁.inLoop hq₂
  have hf := funEnd_ok hs₁ (by simp [parserNew]) List.nodup_nil hwf hc rfl rfl rfl rfl hend
  refine ⟨body, follows_chunk hwf hk ?_ hf⟩
  have := hc.toks
  rw [htoks] at this
  rw [this]
  simp [Stmts.piece, Parser.toks, hk]

end

end Calx
