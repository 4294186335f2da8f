import Calx.Lib.Nondet
import Calx.Vm.Guarantees

/-!
# The meaning of programs

What the tree of a source means: expressions have values, statements change variables and end
in one of a few ways, and a call of a function runs the tree that the function was made from.
Variables are known by their names, and there is no code, no stack and no jump.

## Implementation notes

The meaning has several outcomes where it depends on what a program cannot see: reference
counts, addresses and the surroundings of native functions, all of them in a `World`. The
operators on values and objects are those of the machine. Calls are bounded in their depth,
so that the meaning of a call is defined by recursion; a program that does not end has no
outcome at any bound.
-/

namespace Calx

open LexemeKind Aop Libdeci

/-! ## States -/

/-- What the body of a function works on. -/
structure Frame where
  locals : List Value
  store : Store

abbrev Run := Nd Frame Fault

/-- What the meaning of a function's body depends on. -/
structure Context (ι : Type) where
  world : ι → World
  chunk : Chunk
  names : List Bytes
  call : Func → List Value → Nd Store Fault Value

/-- How a statement ends. -/
inductive Finish
  | fell
  | broke
  | continued
  | returned (v : Value)

namespace Globals

/-- The value of the global with a name. -/
def valueOf (g : Globals) (x : Bytes) : Option Value := (g.globals.data[g.names.idxOf x]?).join

/-- The globals after an assignment. -/
def assign (g : Globals) (x : Bytes) (v : Value) : Globals :=
  { g with globals := { g.globals with data := g.globals.data.set (g.names.idxOf x) (some v) } }

end Globals

namespace Frame

variable (names : List Bytes) (x : Bytes) (fr : Frame)

/-- The value of a variable. -/
def load : Except Fault Value :=
  if x ∈ names then .ok (fr.locals.getD (names.idxOf x) .nil)
  else
    match fr.store.globals.valueOf x with
    | some v => .ok v
    | none => .error (.thrown (Globals.undefinedGlobal x))

/-- A variable gets a value. -/
def assign (v : Value) : Frame :=
  if x ∈ names then { fr with locals := fr.locals.set (names.idxOf x) v }
  else { fr with store := { fr.store with globals := fr.store.globals.assign x v } }

end Frame

/-! ## Actions -/

namespace Frame

variable (fr : Frame)

/-- What an instruction makes of the elements of the containers. -/
def elements (r : ElementRun) : Except Fault Unit × Frame :=
  (r.1.mapError ElementError.fault, { fr with store := fr.store.withContainers r.2 })

/-- What can be seen of an element before it is modified. -/
def elementValue [Libdeci] (c i : Value) : Value :=
  match getElemAt fr.store.containers c i with
  | .ok v => v
  | .error _ => .nil

end Frame

namespace Run

/-- A value that depends on the frame, or an error. -/
def reads {α : Type} (f : Frame → Except Fault α) : Run α := Nd.lift fun fr => (f fr, fr)

/-- A value that depends on more than the frame, or an error. -/
def value {ι : Type} (f : ι → Frame → Except Fault Value) : Run Value :=
  Nd.perform fun i fr => (f i fr, fr)

/-- A computation on the store. -/
def onStore {α : Type} (c : Nd Store Fault α) : Run α :=
  Nd.zoom Frame.store (fun st fr => { fr with store := st }) c

/-- A list is made. -/
def newList (vs : List Value) : Run Value :=
  Nd.lift fun fr => (.ok (.list fr.store.lists.length),
    { fr with store := { fr.store with lists := fr.store.lists ++ [vs] } })

/-- The dict with these keys and values in turn. -/
def makeDict (kv : List Value) : Except Fault Str.Dict := do
  checkDictKeys kv
  dictNewSteal (xhtNew 0) kv

/-- A dict is made. -/
def newDict (kv : List Value) : Run Value :=
  Nd.lift fun fr =>
    match makeDict kv with
    | .ok d => (.ok (.dict fr.store.dicts.length),
        { fr with store := { fr.store with dicts := fr.store.dicts ++ [d] } })
    | .error e => (.error e, fr)

/-- The element of a container. -/
def element [Libdeci] (c i : Value) : Run Value :=
  reads fun fr => (getElemAt fr.store.containers c i).mapError ElementError.fault

/-- An assignment to an element. -/
def storeElement [Libdeci] (c i v : Value) : Run Unit :=
  Nd.lift fun fr => fr.elements (opStoreAt fr.store.containers c i v)

/-- The arguments of a call, with the elements of a list in the place of the last one when it is
to be scattered. -/
def arguments (scatter : Bool) (args : List Value) : Run (List Value) :=
  reads fun fr =>
    if scatter then
      match args.getLast?.getD .nil with
      | .list id => .ok (args.dropLast ++ (fr.store.lists[id]?).getD [])
      | v => .error (.thrown (bytesOf ("cannot scatter " ++ valueKindName v ++
          " value (expected list)")))
    else .ok args

end Run

namespace Context

variable {ι : Type} (C : Context ι)

/-- The value of a variable. -/
def load (x : Bytes) : Run Value := Run.reads fun fr => fr.load C.names x

/-- An assignment to a variable. -/
def store (x : Bytes) (v : Value) : Run Unit := Nd.lift fun fr => (.ok (), fr.assign C.names x v)

section

variable [Libdeci]

/-- An operator with an assignment, on a variable. -/
def modify (a : Aop) (x : Bytes) (v : Value) : Run Unit :=
  Nd.perform fun i fr =>
    match fr.load C.names x >>= fun u => (C.world i).aop fr.store.ntp a u v with
    | .ok z => (.ok (), fr.assign C.names x z)
    | .error e => (.error e, fr)

/-- An operator with an assignment, on an element. -/
def modifyElement (a : Aop) (c i v : Value) : Run Unit :=
  Nd.perform fun j fr => fr.elements (opModifyAt fr.store.ntp
    ((C.world j).sharing (fr.elementValue c i) v) a fr.store.containers c i v)

/-- The value of an expression that stands as a statement is printed. -/
def print (v : Value) : Run Unit :=
  Nd.perform fun i fr => (.ok (), { fr with store := { fr.store with
    out := fr.store.out ++ valuePrint (C.world i).pointer fr.store.containers v } })

/-- The prefix operators. -/
def prefixOp (k : LexemeKind) (v : Value) : Run Value :=
  Run.value fun i fr =>
    match k with
    | lkBang => .ok (.flag (!valueIsTruthy v))
    | lkAt => (performLen fr.store.containers v).mapError OperatorError.fault
    | _ => (performNeg ((C.world i).uniq v) v).mapError OperatorError.fault

/-- The arithmetic operators, the logical ones and the concatenation. -/
def aopOf : LexemeKind → Option Aop
  | lkTilde => some aopConcat
  | lkOrOr => some aopOr
  | lkAndAnd => some aopAnd
  | lkOr => some aopBitOr
  | lkHat => some aopBitXor
  | lkAnd => some aopBitAnd
  | lkGreaterGreater => some aopRshift
  | lkLessLess => some aopLshift
  | lkMinus => some aopSub
  | lkPlus => some aopAdd
  | lkPercent => some aopMod
  | lkSlash => some aopDiv
  | lkSlashSlash => some aopIdiv
  | lkStar => some aopMul
  | lkStarStar => some aopPow
  | _ => none

/-- The orders of its operands for which a comparison is true. -/
def comparison : LexemeKind → Nat
  | lkGreaterEq => compareGreater ||| compareEq
  | lkGreater => compareGreater
  | lkLessEq => compareLess ||| compareEq
  | _ => compareLess

/-- The infix operators. -/
def infixOp (k : LexemeKind) (left right : Value) : Run Value :=
  Run.value fun i fr =>
    match aopOf k with
    | some a => (C.world i).aop fr.store.ntp a left right
    | none =>
        match k with
        | lkEqEq => .ok (.flag (valuesEqual ((C.world i).sameObject left right) left right))
        | lkBangEq => .ok (.flag (!valuesEqual ((C.world i).sameObject left right) left right))
        | _ => (performCmp3way left right (comparison k)).mapError OperatorError.fault

end

/-- A call. -/
def apply (callee : Value) (args : List Value) : Run Value :=
  match callee with
  | .func f =>
      if f.Fits args.length then Run.onStore (C.call f args)
      else Nd.throw (.thrown (bytesOf (arityText f args.length)))
  | .cfunc id => Run.onStore (Nd.perform fun i st =>
      (C.world i).natives id st (args.take (toUint32 args.length)))
  | v => Nd.throw (.thrown (bytesOf ("attempt to call " ++ valueKindName v ++ " value")))

end Context

/-- The function has been made from a function of its source. -/
def Func.Of [DeciBase] (f : Func) (q : Option Params × Stmts) : Prop :=
  ∃ p body, f.chunk.Compiled p body ∧ q ∈ body.functions ∧ Placed f.chunk p.tables f.ip f.shape q

/-- The definition of a function. -/
def Context.newFunction [DeciBase] {ι : Type} (C : Context ι) (q : Option Params × Stmts) :
    Run Value :=
  Nd.choose fun v => ∃ f, v = .func f ∧ f.chunk = C.chunk ∧ f.Of q

/-! ## Expressions -/

section

variable [Libdeci] {ι : Type} (C : Context ι)

mutual

/-- The value of an expression. -/
def Expr.eval : Expr → Run Value
  | .literal t => pure ((litConst t).getD .nil).value
  | .ident t => C.load t.text
  | .list0 _ _ => Run.newList []
  | .list _ es _ => do
      let vs ← es.eval
      Run.newList vs
  | .dict0 _ _ => Run.newDict []
  | .dict _ kvs _ => do
      let kv ← kvs.eval
      Run.newDict kv
  | .paren _ e _ => e.eval
  | .unary op e => do
      let v ← e.eval
      C.prefixOp op.kind v
  | .binary l op r => do
      let left ← l.eval
      let right ← r.eval
      C.infixOp op.kind left right
  | .index e _ i _ => do
      let c ← e.eval
      let i ← i.eval
      Run.element c i
  | .field e _ name => do
      let c ← e.eval
      Run.element c (.str name.text)
  | .call0 f _ _ => do
      let f ← f.eval
      C.apply f []
  | .call f _ args star _ => do
      let f ← f.eval
      let args ← args.eval
      let args ← Run.arguments star.isSome args
      C.apply f args

/-- The values of a list of expressions. -/
def Elems.eval : Elems → Run (List Value)
  | .last e => do
      let v ← e.eval
      pure [v]
  | .more e _ es => do
      let v ← e.eval
      let vs ← es.eval
      pure (v :: vs)

/-- The keys and values of a list of dict entries. -/
def Entries.eval : Entries → Run (List Value)
  | .last k _ v => do
      let k ← k.eval
      let v ← v.eval
      pure [k, v]
  | .more k _ v _ kvs => do
      let k ← k.eval
      let v ← v.eval
      let kv ← kvs.eval
      pure (k :: v :: kv)

end

/-! ## Statements -/

/-- What an assignment assigns to. -/
inductive Assignee
  | variable (x : Bytes)
  | element (c i : Expr)
  | field (c : Expr) (name : Bytes)
  | nothing

/-- The place that an expression denotes, in parentheses or not. -/
def Expr.assignee : Expr → Assignee
  | .ident t => .variable t.text
  | .index e _ i _ => .element e i
  | .field e _ name => .field e name.text
  | .paren _ e _ => e.assignee
  | _ => .nothing

/-- What an assignment does to a variable. -/
def Context.assignVariable (op : LexemeKind) (x : Bytes) (v : Value) : Run Unit :=
  match opAssignProps op with
  | some a => C.modify a x v
  | none => C.store x v

/-- What an assignment does to an element. -/
def Context.assignElement (op : LexemeKind) (c i v : Value) : Run Unit :=
  match opAssignProps op with
  | some a => C.modifyElement a c i v
  | none => Run.storeElement c i v

/-- An expression or assignment as a statement. -/
def Simple.run : Simple → Run Unit
  | .expr e => do
      let v ← e.eval C
      C.print v
  | .assign lhs op rhs =>
      match lhs.assignee with
      | .variable x => do
          let v ← rhs.eval C
          C.assignVariable op.kind x v
      | .element c i => do
          let c ← c.eval C
          let i ← i.eval C
          let v ← rhs.eval C
          C.assignElement op.kind c i v
      | .field c name => do
          let c ← c.eval C
          let v ← rhs.eval C
          C.assignElement op.kind c (.str name) v
      | .nothing => Nd.throw .illegal

/-- A clause of a `for` header, if there is one. -/
def Simple.optRun : Option Simple → Run Unit
  | none => pure ()
  | some s => s.run C

/-- A condition. -/
def Expr.test (e : Expr) : Run Bool := do
  let v ← e.eval C
  pure (valueIsTruthy v)

/-- The condition of a `for` header; without one, the loop goes on. -/
def Expr.optTest : Option Expr → Run Bool
  | none => pure true
  | some e => e.test C

/-- What follows the body in a turn of a loop. -/
def afterBody (post : Run Unit) : Finish → Run (Option Finish)
  | .fell | .continued => do
      post
      pure none
  | .broke => pure (some .fell)
  | .returned v => pure (some (.returned v))

/-- A loop: the condition, the body, the third clause of the header, and again. -/
def loopRun (cond : Run Bool) (post : Run Unit) (body : Run Finish) : Run Finish :=
  Nd.loop do
    let b ← cond
    if b then do
      let finish ← body
      afterBody post finish
    else pure (some .fell)

/-- A statement and what follows it. -/
def andThen (rest : Run Finish) : Finish → Run Finish
  | .fell => rest
  | finish => pure finish

mutual

/-- The execution of a statement. -/
def Stmt.run : Stmt → Run Finish
  | .empty _ => pure .fell
  | .simple s _ => do
      s.run C
      pure .fell
  | .ifStmt _ _ c _ _ body _ rest => do
      let b ← c.test C
      if b then body.run else rest.run
  | .whileStmt _ _ c _ _ body _ => loopRun (c.test C) (pure ()) body.run
  | .forStmt _ _ pre _ cond _ post _ _ body _ => do
      Simple.optRun C pre
      loopRun (Expr.optTest C cond) (Simple.optRun C post) body.run
  | .funStmt _ name _ ps _ _ body _ => do
      let f ← C.newFunction (ps, body)
      C.store name.text f
      pure .fell
  | .returnStmt _ none _ => pure (.returned .nil)
  | .returnStmt _ (some e) _ => do
      let v ← e.eval C
      pure (.returned v)
  | .breakStmt _ _ => pure .broke
  | .continueStmt _ _ => pure .continued

/-- The execution of a statement sequence. -/
def Stmts.run : Stmts → Run Finish
  | .nil => pure .fell
  | .cons s ss => do
      let finish ← s.run
      andThen ss.run finish

/-- The execution of the clauses after the first one. -/
def Else.run : Else → Run Finish
  | .none => pure .fell
  | .elifClause _ _ c _ _ body _ rest => do
      let b ← c.test C
      if b then body.run else rest.run
  | .elseClause _ _ body _ => body.run

end

/-! ## Calls -/

/-- What a call returns whose body has ended. -/
def Finish.result : Finish → Value
  | .returned v => v
  | _ => .nil

/-- The execution of the body of a function. -/
def Stmts.body (body : Stmts) : Run Value := do
  let finish ← body.run C
  pure finish.result

end

/-- The frame that a function begins with. -/
def Func.enter (f : Func) (args : List Value) (st : Store) : Frame :=
  ⟨frameCells f ⟨st.lists⟩ args, { st with lists := (boundHeap f ⟨st.lists⟩ args).lists }⟩

/-- The call of a function, with fewer than `depth` calls under way in it at a time. -/
def Func.call [Libdeci] {ι : Type} (w : ι → World) : Nat → Func → List Value → Nd Store Fault Value
  | 0, _, _ => fun _ _ => False
  | depth + 1, f, args => fun st r => ∃ q, f.Of q ∧
      ∃ r', q.2.body ⟨w, f.chunk, funLocals q.1 q.2, Func.call w depth⟩ (f.enter args st) r' ∧
        r = (r'.1, r'.2.store)

/-- How the execution of a program may end. -/
def Stmts.Means [Libdeci] {ι : Type} (body : Stmts) (w : ι → World) (c : Chunk) (st : Store)
    (r : Except Fault Value × Store) : Prop :=
  ∃ depth r', body.body ⟨w, c, funLocals none body, Func.call w depth⟩
    ⟨List.replicate (funLocals none body).length .nil, st⟩ r' ∧ r = (r'.1, r'.2.store)

end Calx
