import Calx.ParseSound
import Calx.StmtExact

/-!
# Programs, exactly

Where the lexemes of a source are those of a program of the documentation, `parse`
succeeds if and only if the third clauses of the `for` loops are assignments and
all functions stay within their limits, and then it follows this program.
-/

namespace Calx

open LexemeKind Instr Fallible

section

variable [DeciBase] {stmt : Parser → Res Parser} {N : Nat}

theorem parseLoop_yields (hx : StmtYields stmt N) (hidle : Idles stmt) {ok : Prop} :
    ∀ {body : Stmts} {n : Nat} {p : Parser} {e : Lexeme}, Meets false body.toks p [e] →
      body.Proper codePriorities false → e.kind = lkEof →
      (ok → body.Wf false ∧ FunsFit body.funs ∧ p.Room body.code.length) →
      body.toks.length ≤ N → body.toks.length < n →
      Yields ok (parseLoop stmt n p) fun p' => body.Wf false ∧ Reads p body.piece p'
  | .nil, fuel, p, e, h, _, he, _, _, hfuel => by
      obtain ⟨fuel, rfl⟩ : ∃ k, fuel = k + 1 := ⟨fuel - 1, by omega⟩
      have hk : p.cur.kind = lkEof := cur_of_toks h.toks ▸ he
      rw [parseLoop]
      refine .step (hidle p (Or.inr hk)) ?_
      simp only [hk]
      exact .pure ⟨trivial, .refl p⟩
  | .cons s body, fuel, p, e, h, hs, he, hok, hN, hfuel => by
      obtain ⟨fuel, rfl⟩ : ∃ k, fuel = k + 1 := ⟨fuel - 1, by omega⟩
      rw [parseLoop]
      refine (hx.first h hs (Or.inr he) hok hN).bind ?_
      rintro q ⟨hwf, hR, hm, hok'⟩
      have hlen : s.toks.length + body.toks.length < fuel + 1 ∧
          s.toks.length + body.toks.length ≤ N ∧ 0 < s.toks.length := by
        obtain ⟨t, ts, hts, -⟩ := Stmt.toks_head hs.1
        simp only [Stmts.toks, List.length_append] at hfuel hN
        exact ⟨hfuel, hN, by rw [hts]; exact Nat.succ_pos _⟩
      obtain rfl | ⟨t, ts, hts, hk⟩ := Stmts.toks_head hs.2 e []
      · have hk : q.cur.kind = lkEof := cur_of_toks hm.toks ▸ he
        simp only [hk]
        refine .pure ⟨⟨hwf, trivial⟩, hR.cast ?_⟩
        simp [Stmts.piece, Stmt.piece, Stmts.toks, Stmts.code, Stmts.mask, Stmts.braces,
          Stmts.decls, Stmts.funs]
      · rw [cur_of_toks (hm.toks.trans hts)] at hk
        have hbr := LexemeKind.ne_of_not_isStop hk (m := lkRbrace) rfl
        have heof := LexemeKind.ne_of_not_isStop hk (m := lkEof) rfl
        have hgo := parseLoop_yields hx hidle (n := fuel) hm hs.2 he hok' (by omega) (by omega)
        split
        · exact absurd ‹_› hbr
        · exact absurd ‹_› heof
        · refine hgo.imp ?_
          rintro p' ⟨hwf', hR'⟩
          exact ⟨⟨hwf, hwf'⟩, (hR.trans hR').cast (Stmts.cons_piece s body).symm⟩

/-- The state at the end of a parse, where the lexemes of the source are those of a program of
the documentation. -/
theorem parseState_yields {fuel : Nat} {globals : List Bytes} {source : Bytes} {body : Stmts}
    {e : Lexeme} (hlex : lexAll (lexerNew source) = body.toks ++ [e]) (he : e.kind = lkEof)
    (herr : ∀ l ∈ body.toks, l.kind ≠ lkError) (hs : body.Proper codePriorities false)
    (hfuel : body.toks.length + 3 ≤ fuel) :
    Yields (body.Wf false ∧ FunsFit body.functions) (parseState fuel globals source) fun p =>
      (body.Wf false ∧ FunsFit body.functions) ∧ Follows source p body := by
  have hroom : body.Wf false ∧ FunsFit body.functions →
      (parserNew source globals).Room (body.code.length + 3) := by
    rintro ⟨-, hfit⟩
    have := (hfit (none, body) (by simp [Stmts.functions])).length
    simp only [List.length_append, returnNil, List.length_cons, List.length_nil] at this
    have hmax : uint32Max / 2 ≤ uint32Max := Nat.div_le_self _ _
    refine ⟨?_, ?_, ?_⟩
    · simp only [parserNew, List.length_nil]
      omega
    · simp only [parserNew, List.length_nil]
      omega
    · simp only [parserNew, List.length_nil]
      omega
  have hclean : ∀ l ∈ body.toks ++ [e], l.kind ≠ lkError := by
    refine List.forall_mem_append.mpr ⟨herr, ?_⟩
    simp [he]
  obtain ⟨fuel, rfl⟩ : ∃ k, fuel = k + 1 := ⟨fuel - 1, by omega⟩
  unfold parseState
  refine (funBegin_yields hroom).bind_eq ?_
  rintro ⟨pos, q⟩ hq ⟨rfl, hs₀⟩
  have hlexer := funBegin_lexer hq
  have hfirst : (lexerNext q.lexer).1 ∈ body.toks ++ [e] := by
    rw [← hlex, lexAll_eq, hlexer]
    exact List.mem_cons_self
  have ha : advance q =
      .ok { q with cur := (lexerNext q.lexer).1, lexer := (lexerNext q.lexer).2 } := by
    rw [advance, if_neg (hclean _ hfirst)]
  refine .step ha ?_
  obtain ⟨htoks, c, lx, hE⟩ := chunk_enters hq ha
  generalize ({ q with cur := (lexerNext q.lexer).1, lexer := (lexerNext q.lexer).2 } : Parser) =
    q₁ at htoks hE
  rw [hlex] at htoks
  have hm : Meets false body.toks q₁ [e] :=
    ⟨htoks, by rw [Parser.Clean, htoks]; exact hclean, hE.active, fun hb => by cases hb⟩
  have hroom₁ : body.Wf false ∧ FunsFit body.functions → q₁.Room (body.code.length + 2) :=
    fun h => hE.room ⟨(hroom h).consts, (hroom h).idents, (hroom h).shapes⟩
  refine (parseLoop_yields (stmt_yields hfuel) (stmt_idles fuel) hm hs he (fun h => ⟨h.1,
    h.2.left, (hroom₁ h).mono (by omega)⟩) le_rfl (by omega)).bind ?_
  rintro q₂ ⟨hwf, hR⟩
  refine (funEnd_yields hE (by simp [parserNew]) List.nodup_nil hwf hR.compiles hR.thrifty rfl rfl
    rfl rfl fun h => ⟨?_, ?_⟩).imp ?_
  · exact h.2.right (none, body) (List.mem_singleton_self _)
  · exact hR.room ((hroom₁ h).mono (by simp [Stmts.piece]))
  · rintro p ⟨hfit, hc, -⟩
    refine ⟨⟨hwf, hR.fits.append fun f hf => ?_⟩, follows_chunk hwf he hlex hc⟩
    obtain rfl := List.mem_singleton.mp hf
    exact hfit

end

end Calx
