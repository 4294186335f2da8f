import Calx.Discipline
import Calx.Lib.Machine

/-!
# The meaning of control flow

The step-by-step meaning the README gives to `if`, `while`, `for`, `break`,
`continue` and `return`, and the dispatch loop of `state_eval` on a function's
code, both over arbitrary elementary actions.

## Implementation notes

An elementary action is an instruction other than a jump or a return, with the
table entry it refers to in place of the index: the evaluation of an expression,
a store or a print is a sequence of these. What an action does to a state, and
when it raises an error, is a parameter of both sides. The meaning of a
statement is a function of a bound on the number of iterations of its loops; a
loop that reaches the bound reports the state in which it does.
-/

namespace Calx

open LexemeKind Instr

/-- What the elementary actions do to a state: `act` may raise an error, and `test` takes a
condition off the stack. -/
structure Ops (σ ε : Type) where
  act : AInstr → σ → Except ε σ
  test : σ → Bool × σ

/-- An elementary action that was performed. -/
inductive Event
  | act (a : AInstr)
  | tested (b : Bool)

/-- Elementary actions that also record what is performed, up to an error. -/
def Ops.logged {σ ε : Type} (ops : Ops σ ε) : Ops (σ × List Event) (ε × List Event) where
  act a s :=
    match ops.act a s.1 with
    | .ok st => .ok (st, s.2 ++ [.act a])
    | .error e => .error (e, s.2 ++ [.act a])
  test s := ((ops.test s.1).1, (ops.test s.1).2, s.2 ++ [.tested (ops.test s.1).1])

/-- How the execution of a statement ends. -/
inductive Outcome (σ ε : Type)
  | fell (s : σ)
  | broke (s : σ)
  | continued (s : σ)
  | returned (s : σ)
  | raised (e : ε)

section

variable {σ ε : Type} (ops : Ops σ ε) (names : List Bytes)

/-- The elementary actions of a piece of straight code, in a function with the locals `names`. -/
def acts (code : List Item) (s : σ) : Except ε σ :=
  code.foldlM (fun s r => ops.act (resolve names r.instr) s) s

/-- Evaluate a condition. -/
def evalCond (code : List Item) (s : σ) : Except ε (Bool × σ) :=
  (acts ops names code s).map ops.test

/-- The second clause of a `for` header; without one, the loop goes on. -/
def evalForCond : Option (List Item) → σ → Except ε (Bool × σ)
  | none, s => .ok (true, s)
  | some code, s => evalCond ops names code s

/-- The execution of straight code as a statement. -/
def execActs (code : List Item) (s : σ) : σ ⊕ Outcome σ ε :=
  match acts ops names code s with
  | .error e => .inr (.raised e)
  | .ok s => .inr (.fell s)

/-- The steps of the loops of the README: the condition, the body, the third clause, and again
while the bound allows it. -/
def loop (cond : σ → Except ε (Bool × σ)) (post : σ → Except ε σ)
    (body : Nat → σ → σ ⊕ Outcome σ ε) : Nat → σ → σ ⊕ Outcome σ ε
  | n, s =>
      match cond s with
      | .error e => .inr (.raised e)
      | .ok (true, s) =>
          match body n s with
          | .inr (.fell s) | .inr (.continued s) =>
              match post s, n with
              | .error e, _ => .inr (.raised e)
              | .ok s, 0 => .inl s
              | .ok s, n + 1 => loop cond post body n s
          | .inr (.broke s) => .inr (.fell s)
          | r => r
      | .ok (false, s) => .inr (.fell s)

variable [DeciBase]

mutual

/-- The execution of a statement. -/
def Stmt.exec : Stmt → Nat → σ → σ ⊕ Outcome σ ε
  | .empty _ => fun _ s => .inr (.fell s)
  | .simple t semi => fun _ s => execActs ops names (t.code semi) s
  | .ifStmt _ _ c _ _ body _ rest => fun n s =>
      match evalCond ops names c.code s with
      | .error e => .inr (.raised e)
      | .ok (true, s) => body.exec n s
      | .ok (false, s) => rest.exec n s
  | .whileStmt _ _ c _ _ body _ => loop (evalCond ops names c.code) .ok body.exec
  | .forStmt _ _ pre semi1 cond _ post rp _ body _ => fun n s =>
      match acts ops names ((pre.map (Simple.code semi1)).getD []) s with
      | .error e => .inr (.raised e)
      | .ok s =>
          loop (evalForCond ops names (cond.map Expr.code))
            (acts ops names ((post.map (Simple.code rp)).getD [])) body.exec n s
  | .funStmt _ name _ ps _ _ body _ => fun _ s =>
      match ops.act (.function { shapeInfo (ps, body) with maxstack := none }) s with
      | .error e => .inr (.raised e)
      | .ok s => execActs ops names [.mine (.store name.text) none] s
  | .returnStmt _ e _ => fun _ s =>
      match acts ops names ((e.map Expr.code).getD [.mine (.const .nil) none]) s with
      | .error e => .inr (.raised e)
      | .ok s => .inr (.returned s)
  | .breakStmt .. => fun _ s => .inr (.broke s)
  | .continueStmt .. => fun _ s => .inr (.continued s)

/-- The execution of a statement sequence. -/
def Stmts.exec : Stmts → Nat → σ → σ ⊕ Outcome σ ε
  | .nil => fun _ s => .inr (.fell s)
  | .cons t ts => fun n s =>
      match t.exec n s with
      | .inr (.fell s) => ts.exec n s
      | r => r

/-- The execution of the clauses after the first one. -/
def Else.exec : Else → Nat → σ → σ ⊕ Outcome σ ε
  | .none => fun _ s => .inr (.fell s)
  | .elifClause _ _ c _ _ body _ rest => fun n s =>
      match evalCond ops names c.code s with
      | .error e => .inr (.raised e)
      | .ok (true, s) => body.exec n s
      | .ok (false, s) => rest.exec n s
  | .elseClause _ _ body _ => body.exec

end

/-! ## The dispatch loop -/

/-- The action of an instruction: what it refers to in the tables of its chunk and in the
globals. A function is created from its parameters, its locals and its length. -/
def decode (c : Chunk) (globals : List Bytes) : Instr → AInstr
  | opLoadConst n => (c.consts[n]?).elim (.plain (opLoadConst n)) .const
  | opLoadGlobal n => (globals[n]?).elim (.plain (opLoadGlobal n)) .loadGlobal
  | opStoreGlobal n => (globals[n]?).elim (.plain (opStoreGlobal n)) .storeGlobal
  | opModifyGlobal a n => (globals[n]?).elim (.plain (opModifyGlobal a n)) (.modifyGlobal a)
  | opFunction n => (c.shapes[n]?).elim (.plain (opFunction n)) fun s =>
      .function ⟨s.nargsEncoded, s.nlocals, s.offset, none⟩
  | i => .plain i

/-- How far an instruction without a jump moves on. -/
def width (c : Chunk) : Instr → Nat
  | opFunction n => (c.shapes[n]?).elim 1 Shape.offset
  | _ => 1

/-- The dispatch loop of `state_eval` on the body of a function, up to its end at `hi`. -/
def bodyStep (c : Chunk) (globals : List Bytes) (hi : Nat) (x : Nat × σ) :
    (Nat × σ) ⊕ Outcome σ ε :=
  if x.1 = hi then .inr (.fell x.2)
  else
    match c.code[x.1]? with
    | none => .inl x
    | some (opJump t) => .inl (((x.1 : Int) + toInt32 t).toNat, x.2)
    | some (opJumpUnless t) =>
        let r := ops.test x.2
        if r.1 then .inl (x.1 + 1, r.2) else .inl (((x.1 : Int) + toInt32 t).toNat, r.2)
    | some opReturn => .inr (.returned x.2)
    | some i =>
        match ops.act (decode c globals i) x.2 with
        | .ok s => .inl (x.1 + width c i, s)
        | .error e => .inr (.raised e)

/-- The machine that runs the body of a function. -/
def bodyMachine (c : Chunk) (globals : List Bytes) (hi : Nat) :
    Machine (Nat × σ) (Outcome σ ε) where
  step := bodyStep ops c globals hi

end

end Calx
