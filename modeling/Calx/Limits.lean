import Calx.Scopes
import Calx.StmtExact

/-!
# Limits of the parser

The checks at the end of a function amount to bounds on the number of its locals
and of its instructions. The stack height that `close_scope` counts matters in
one case only: where a function is defined in the body of a `for` loop with a third
clause, the count runs over shifted instructions and can fall below zero.

## Implementation notes

The count is in `size_t`, so that a height below zero is a very large one. No
instruction takes more operands than its function has instructions, and the first
height below zero is therefore beyond the limit.
-/

namespace Calx

open Instr

/-! ## What an instruction takes -/

/-- No instruction leaves more than `n` operands fewer on the stack. -/
def TakesAtMost (n : Nat) (l : List Item) : Prop := ∀ r ∈ l, -(n : Int) ≤ r.instr.effect

namespace TakesAtMost

variable {n : Nat} {l l' : List Item}

theorem nil : TakesAtMost n [] := List.forall_mem_nil _

theorem append (h : TakesAtMost n l) (h' : TakesAtMost n l') : TakesAtMost n (l ++ l') :=
  List.forall_mem_append.mpr ⟨h, h'⟩

theorem cons {r : Item} (hr : -(n : Int) ≤ r.instr.effect) (h : TakesAtMost n l) :
    TakesAtMost n (r :: l) := List.forall_mem_cons.mpr ⟨hr, h⟩

theorem snoc {a : AInstr} {line : Option Nat} (h : TakesAtMost n l) (ha : -(n : Int) ≤ a.effect) :
    TakesAtMost n (l ++ [.mine a line]) := h.append (cons ha nil)

theorem dropLast (h : TakesAtMost n l) : TakesAtMost n l.dropLast :=
  fun r hr => h r (List.dropLast_subset _ hr)

theorem patch (h : TakesAtMost n l) (brk cnt : Int) : TakesAtMost n (patch brk cnt l) := by
  intro r hr
  obtain ⟨-, -, h' | ⟨off, h'⟩⟩ := mem_patch hr
  · exact h r h'
  · rw [h']
    exact Int.neg_nonpos_of_nonneg (Int.natCast_nonneg n)

theorem nest_closeItems (h : TakesAtMost n l) (posted : Bool) (names : List Bytes) :
    TakesAtMost n (nest (closeItems posted names l)) := by
  intro r hr
  obtain ⟨r₁, hr₁, rfl⟩ := List.mem_map.mp hr
  rw [closeItems_eq] at hr₁
  obtain ⟨r₀, hr₀, rfl⟩ := List.mem_map.mp hr₁
  change -(n : Int) ≤ (closeItem posted names r₀).instr.effect
  unfold closeItem
  split
  · rw [AInstr.effect_eq, closeInstr_pops, closeInstr_pushes, ← AInstr.effect_eq]
    exact h r₀ hr₀
  · exact h r₀ hr₀

end TakesAtMost

theorem takes_of_nonneg {n : Nat} {a : AInstr} (h : 0 ≤ a.effect) : -(n : Int) ≤ a.effect := by
  omega

theorem jumpUnless_takes {n : Nat} (hn : 1 ≤ n) (off : Int) :
    -(n : Int) ≤ AInstr.effect (.jumpUnless off) := by
  simp only [AInstr.effect]
  omega

theorem plain_takes {n : Nat} {i : Instr} (h : i.pops ≤ n) :
    -(n : Int) ≤ AInstr.effect (.plain i) := by
  rw [AInstr.effect_eq]
  simp only [AInstr.pops, AInstr.pushes]
  omega

theorem returnNil_takes {n : Nat} (hn : 1 ≤ n) : TakesAtMost n returnNil :=
  .cons (takes_of_nonneg Int.one_nonneg) (.cons (plain_takes hn) .nil)

theorem binaryInstr_pops (k : LexemeKind) : (binaryInstr k).pops ≤ 2 := by
  cases k <;> simp [binaryInstr, binaryProps, Instr.pops]

theorem assignInstr_takes {n : Nat} (hn : 3 ≤ n) (op : LexemeKind) (target : AInstr) :
    -(n : Int) ≤ ((assignInstr op target).getD (.plain opPrint)).effect := by
  cases hb : assignInstr op target with
  | none =>
      simp only [Option.getD_none, AInstr.effect, stackEffect]
      omega
  | some b =>
      unfold assignInstr at hb
      split at hb
      · split_ifs at hb
        · obtain rfl := Option.some.inj hb
          simp only [Option.getD_some, AInstr.effect]
          omega
        · obtain rfl := Option.some.inj hb
          simp only [Option.getD_some, AInstr.effect]
          omega
        · obtain ⟨_, -, rfl⟩ := Option.map_eq_some_iff.mp hb
          simp only [Option.getD_some, AInstr.effect]
          omega
      · split_ifs at hb
        · obtain rfl := Option.some.inj hb
          simp only [Option.getD_some, AInstr.effect, stackEffect]
          omega
        · obtain ⟨_, -, rfl⟩ := Option.map_eq_some_iff.mp hb
          simp only [Option.getD_some, AInstr.effect, stackEffect]
          omega
      · cases hb

section

variable [DeciBase]

mutual

theorem Expr.code_takes : ∀ (e : Expr) {n : Nat}, 2 * e.code.length + 3 ≤ n → TakesAtMost n e.code
  | .literal t, n, h => .cons (takes_of_nonneg Int.one_nonneg) .nil
  | .ident t, n, h => .cons (takes_of_nonneg Int.one_nonneg) .nil
  | .list0 _ _, n, h | .dict0 _ _, n, h => .cons (plain_takes (by simp [Instr.pops])) .nil
  | .list lb es rb, n, h => by
      simp only [Expr.code, List.length_append, List.length_singleton] at h
      have hcount := es.count_le_code
      exact .snoc (es.code_takes (by omega)) (plain_takes (by simp only [Instr.pops]; omega))
  | .dict lb kvs rb, n, h => by
      simp only [Expr.code, List.length_append, List.length_singleton] at h
      have hcount := kvs.count_le_code
      exact .snoc (kvs.code_takes (by omega)) (plain_takes (by simp only [Instr.pops]; omega))
  | .paren lp e rp, n, h => e.code_takes h
  | .unary op e, n, h => by
      simp only [Expr.code, List.length_append, List.length_singleton] at h
      have hpops := (unaryInstr_spec op.kind).2.1
      exact .snoc (e.code_takes (by omega)) (plain_takes (by omega))
  | .binary l op r, n, h => by
      simp only [Expr.code, List.length_append, List.length_singleton] at h
      have hpops := binaryInstr_pops op.kind
      exact .append (l.code_takes (by omega))
        (.snoc (r.code_takes (by omega)) (plain_takes (by omega)))
  | .index e lb i rb, n, h => by
      simp only [Expr.code, List.length_append, List.length_singleton] at h
      exact .append (e.code_takes (by omega))
        (.snoc (i.code_takes (by omega)) (plain_takes (by simp only [Instr.pops]; omega)))
  | .field e dot name, n, h => by
      simp only [Expr.code, List.length_append, List.length_cons, List.length_nil] at h
      exact .append (e.code_takes (by omega)) (.cons (takes_of_nonneg Int.one_nonneg)
        (.cons (plain_takes (by simp only [Instr.pops]; omega)) .nil))
  | .call0 f lp rp, n, h => by
      simp only [Expr.code, List.length_append, List.length_singleton] at h
      exact .snoc (f.code_takes (by omega)) (plain_takes (by simp only [Instr.pops]; omega))
  | .call f lp args star rp, n, h => by
      simp only [Expr.code, List.length_append, List.length_singleton] at h
      have hcount := args.count_le_code
      exact .append (f.code_takes (by omega))
        (.snoc (args.code_takes (by omega)) (plain_takes (by simp only [Instr.pops]; omega)))

/-- `Expr.code_takes` for lists of expressions. -/
theorem Elems.code_takes : ∀ (es : Elems) {n : Nat}, 2 * es.code.length + 3 ≤ n →
    TakesAtMost n es.code
  | .last e, n, h => e.code_takes h
  | .more e comma es, n, h => by
      simp only [Elems.code, List.length_append] at h
      exact .append (e.code_takes (by omega)) (es.code_takes (by omega))

/-- `Expr.code_takes` for lists of dict entries. -/
theorem Entries.code_takes : ∀ (kvs : Entries) {n : Nat}, 2 * kvs.code.length + 3 ≤ n →
    TakesAtMost n kvs.code
  | .last k colon v, n, h => by
      simp only [Entries.code, List.length_append] at h
      exact .append (k.code_takes (by omega)) (v.code_takes (by omega))
  | .more k colon v comma kvs, n, h => by
      simp only [Entries.code, List.length_append] at h
      exact .append (k.code_takes (by omega))
        (.append (v.code_takes (by omega)) (kvs.code_takes (by omega)))

end

theorem Simple.code_takes (next : Lexeme) : ∀ (s : Simple) {n : Nat},
    2 * (s.code next).length + 4 ≤ n → TakesAtMost n (s.code next)
  | .expr e, n, h => by
      simp only [Simple.code, List.length_append, List.length_singleton] at h
      exact .snoc (e.code_takes (by omega)) (plain_takes (by simp only [Instr.pops]; omega))
  | .assign lhs op rhs, n, h => by
      simp only [Simple.code, List.length_append, List.length_singleton, List.length_dropLast] at h
      exact .append (lhs.code_takes (by omega)).dropLast
        (.snoc (rhs.code_takes (by omega)) (assignInstr_takes (by omega) _ _))

theorem Simple.optCode_takes (next : Lexeme) (s : Option Simple) {n : Nat}
    (h : 2 * ((s.map (Simple.code next)).getD []).length + 4 ≤ n) :
    TakesAtMost n ((s.map (Simple.code next)).getD []) := by
  cases s with
  | none => exact .nil
  | some s => exact s.code_takes next h

theorem forCondCode_takes (cond : Option Expr) (k : Nat) {n : Nat}
    (h : 2 * (forCondCode k (cond.map Expr.code)).length + 3 ≤ n) :
    TakesAtMost n (forCondCode k (cond.map Expr.code)) := by
  cases cond with
  | none => exact .nil
  | some c =>
      simp only [Option.map_some, forCondCode, List.length_append, List.length_singleton] at h
      exact .snoc (c.code_takes (by omega)) (jumpUnless_takes (by omega) _)

omit [DeciBase] in
theorem clauseCode_takes {n : Nat} {cond body rest : List Item} (hn : 1 ≤ n)
    (hc : TakesAtMost n cond) (hb : TakesAtMost n body) (hr : TakesAtMost n rest) :
    TakesAtMost n (clauseCode cond body rest) :=
  hc.append (.cons (jumpUnless_takes hn _) (hb.append hr))

mutual

theorem Stmt.code_takes : ∀ (s : Stmt) {n : Nat}, 2 * s.code.length + 4 ≤ n → TakesAtMost n s.code
  | .empty _, n, h => .nil
  | .simple s semi, n, h => s.code_takes semi h
  | .ifStmt kw lp c rp lb body rb rest, n, h => by
      simp only [Stmt.code, clauseCode, List.length_append, List.length_cons] at h
      exact clauseCode_takes (by omega) (c.code_takes (by omega)) (body.code_takes (by omega))
        (rest.code_takes (by omega))
  | .whileStmt kw lp c rp lb body rb, n, h => by
      simp only [Stmt.code, whileCode, List.length_append, List.length_cons, List.length_nil,
        patch_length] at h
      exact .append (c.code_takes (by omega)) (.cons (jumpUnless_takes (by omega) _)
        (.snoc ((body.code_takes (by omega)).patch _ _) (takes_of_nonneg le_rfl)))
  | .forStmt kw lp pre semi1 cond semi2 post rp lb body rb, n, h => by
      simp only [Stmt.code, forCode, List.length_append, List.length_cons, List.length_nil,
        patch_length] at h
      exact .append (Simple.optCode_takes semi1 pre (by omega))
        (.append (forCondCode_takes cond _ (by omega))
          (.append ((body.code_takes (by omega)).patch _ _)
            (.snoc (Simple.optCode_takes rp post (by omega)) (takes_of_nonneg le_rfl))))
  | .funStmt kw name lp ps rp lb body rb, n, h => by
      simp only [Stmt.code, funCode, List.take_succ_cons, List.take_zero, List.tail_cons,
        List.length_append, List.length_cons, List.length_nil, nest, closeItems, List.length_map] at h
      have hbody : TakesAtMost n (body.code ++ returnNil) :=
        .append (body.code_takes (by omega)) (returnNil_takes (by omega))
      exact .cons (takes_of_nonneg Int.one_nonneg)
        (.snoc (hbody.nest_closeItems _ _) (by simp only [AInstr.effect]; omega))
  | .returnStmt kw none semi, n, h => returnNil_takes (by omega)
  | .returnStmt kw (some e) semi, n, h => by
      simp only [Stmt.code, List.length_append, List.length_singleton] at h
      exact .snoc (e.code_takes (by omega)) (plain_takes (by simp only [Instr.pops]; omega))
  | .breakStmt _ _, n, h | .continueStmt _ _, n, h => .cons (takes_of_nonneg le_rfl) .nil

/-- `Stmt.code_takes` for statement sequences. -/
theorem Stmts.code_takes : ∀ (ss : Stmts) {n : Nat}, 2 * ss.code.length + 4 ≤ n →
    TakesAtMost n ss.code
  | .nil, n, h => .nil
  | .cons s ss, n, h => by
      simp only [Stmts.code, List.length_append] at h
      exact .append (s.code_takes (by omega)) (ss.code_takes (by omega))

/-- `Stmt.code_takes` for further clauses. -/
theorem Else.code_takes : ∀ (e : Else) {n : Nat}, 2 * e.code.length + 4 ≤ n → TakesAtMost n e.code
  | .none, n, h => .nil
  | .elifClause kw lp c rp lb body rb rest, n, h => by
      simp only [Else.code, overCode, clauseCode, List.length_append, List.length_cons] at h
      exact .cons (takes_of_nonneg le_rfl) (clauseCode_takes (by omega) (c.code_takes (by omega))
        (body.code_takes (by omega)) (rest.code_takes (by omega)))
  | .elseClause kw lb body rb, n, h => by
      simp only [Else.code, overCode, List.length_cons] at h
      exact .cons (takes_of_nonneg le_rfl) (body.code_takes (by omega))

end

/-! ## The height that is counted -/

/-- The instructions of a function that `close_scope` goes through, in the final order, at the places
where its own ones stood when they were emitted. -/
def Stmts.walked (body : Stmts) : List Item :=
  picked (body.mask ++ [true, true]) (body.code ++ returnNil)

end

end Calx
