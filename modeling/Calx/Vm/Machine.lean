import Calx.Vm.Frames
import Calx.Vm.Globals
import Calx.Vm.Print

/-!
# The machine

The dispatch loop of `state_eval` with all of its instructions, on a state that has
the value stack, the call stack, the objects, the globals and the output.

## Implementation notes

An instruction is given its operands and what lies below them. What C leaves undefined
is the fault `illegal`: an access outside of an object, a stack or a table, an opcode
that the jump table lacks, a stack that does not end with one value. A `World` stands
for what a step depends on besides the machine: native functions, addresses, and which
objects are shared. A function object is made through it because a function carries
proofs. Memory for objects other than the value stack never runs out.
-/

namespace Calx

open Libdeci

/-! ## Faults -/

/-- How running the machine ends early. -/
inductive Fault
  /-- `state_throw`, or a jump to `flush_and_throw`: the message. -/
  | thrown (message : Bytes)
  /-- `UU_PANIC`. -/
  | panic
  | illegal
deriving DecidableEq

def VmError.fault : VmError → Fault
  | .thrown text => .thrown (bytesOf text)
  | .outOfMemory => .panic
  | .outOfBounds => .illegal

def OperatorError.fault : OperatorError → Fault
  | .prepared text => .thrown (bytesOf text)
  | .panic _ => .panic

def XhtFault.fault : XhtFault → Fault
  | .panic => .panic
  | .outOfBounds | .exhausted => .illegal

def ElementError.fault : ElementError → Fault
  | .operator e => e.fault
  | .table e => e.fault

def GlobalFault.fault : GlobalFault → Fault
  | .table e => e.fault
  | .outOfMemory | .panic _ => .panic
  | .outOfBounds => .illegal

/-- What has to be there. -/
def orIllegal {α : Type} : Option α → Except Fault α
  | some a => .ok a
  | none => .error .illegal

/-! ## States -/

/-- What the machine works on besides its stacks and the lists. -/
structure Env where
  dicts : List Str.Dict
  weakrefs : List (Option Value)
  globals : Globals
  ntp : NumberTruncateParams
  /-- What has been written to `stdout`. -/
  out : Bytes

/-- What native functions work on. -/
structure Store extends Env where
  lists : List (List Value)

def Store.containers (st : Store) : Containers := ⟨st.lists, st.dicts⟩

def Store.withContainers (st : Store) (h : Containers) : Store :=
  { st with lists := h.lists, dicts := h.dicts }

/-- The state of the dispatch loop. -/
structure Machine where
  vm : VmState
  env : Env

/-- What a step depends on besides the machine. -/
structure World where
  natives : Nat → Store → List Value → Except Fault Value × Store
  /-- The reference counts of two operands, and whether they are one object. -/
  sharing : Value → Value → Sharing
  /-- An operand has no other reference. -/
  uniq : Value → Bool
  /-- Two functions are one object. -/
  sameFunc : Value → Value → Bool
  /-- `%p`. -/
  pointer : Value → Bytes
  /-- `mk_func`. -/
  mkFunc : Chunk → Nat → Option Func

/-- What an instruction makes of what lies below its operands, what it puts there, where the
machine goes on, and what it leaves. -/
inductive Effect
  | goes (rest results : List Value) (next : Int) (store : Store)
  | raises (fault : Fault) (store : Store)

/-- One turn of the dispatch loop. -/
inductive StepResult
  | next (m : Machine)
  | done (v : Value) (store : Store)
  | raised (fault : Fault) (store : Store)

/-! ## Operators -/

/-- The pointer comparison in `values_equal`. -/
def World.sameObject (w : World) : Value → Value → Bool
  | .flag a, .flag b => a == b
  | .nil, .nil => true
  | .list a, .list b | .dict a, .dict b | .weakref a, .weakref b | .cfunc a, .cfunc b => a == b
  | .func f, .func g => w.sameFunc (.func f) (.func g)
  | _, _ => false

/-- A constant as a value. -/
def Const.value : Const → Value
  | .num n => .num n
  | .flag b => .flag b
  | .nil => .nil
  | .str s => .str s

section

variable [Libdeci]

/-- `perform_aop`. -/
def World.aop (w : World) (ntp : NumberTruncateParams) (a : Aop) (left right : Value) :
    Except Fault Value :=
  (performAop ntp (w.sharing left right) a left right).mapError OperatorError.fault

/-- `perform_neg`. -/
def performNeg (uniq : Bool) : Value → Except OperatorError Value
  | .num a => .ok (.num (numberNegate uniq a))
  | v => .error (.prepared ("attempt to negate " ++ valueKindName v))

/-- `perform_len`. -/
def performLen (h : Containers) : Value → Except OperatorError Value
  | .list id => .ok (.num (numberNewFromZu (h.list id).length))
  | .dict id => .ok (.num (numberNewFromZu (xhtSize (h.dict id))))
  | .str s => .ok (.num (numberNewFromZu s.length))
  | v => .error (.prepared ("attempt to compute length of " ++ valueKindName v))

end

/-- `check_dict_keys`. -/
def checkDictKeys : List Value → Except Fault Unit
  | .str _ :: _ :: kv => checkDictKeys kv
  | k :: _ :: _ => .error (.thrown (bytesOf ("attempt to create dict with " ++ valueKindName k ++
      " key (expected string)")))
  | _ => .ok ()

/-- The loop of `dict_new_steal`. -/
def dictNewSteal (d : Str.Dict) : List Value → Except Fault Str.Dict
  | [] => .ok d
  | .str key :: v :: kv =>
      match xhtPut Str.chainFuel d key (hashStr key) none with
      | .ok (r, d) => dictNewSteal (d.setValue r (some v)) kv
      | .error e => .error e.fault
  | _ => .error .illegal

/-! ## Instructions -/

namespace Machine

variable (m : Machine)

def store : Store := { m.env with lists := m.vm.heap.lists }

/-- The instruction leaves a result, and the next one follows. -/
def result (rest : List Value) : Except Fault Value → Effect
  | .ok v => .goes rest [v] (m.vm.ip + 1) m.store
  | .error e => .raises e m.store

/-- The instruction changes the store, and the next one follows. -/
def leaves (rest : List Value) (st : Store) : Effect := .goes rest [] (m.vm.ip + 1) st

/-- `store(&locals[c], ..)`. -/
def writeLocal (rest : List Value) (c : Nat) : Except Fault Value → Effect
  | .ok v =>
      let i := (m.vm.locals - m.vm.vs.base).toNat + c
      if m.vm.vs.base ≤ m.vm.locals ∧ i < rest.length then m.leaves (rest.set i v) m.store
      else .raises .illegal m.store
  | .error e => .raises e m.store

/-- An instruction on an element. -/
def elements (rest : List Value) : ElementRun → Effect
  | (.ok _, h) => m.leaves rest (m.store.withContainers h)
  | (.error e, h) => .raises e.fault (m.store.withContainers h)

/-- An instruction that assigns a global. -/
def assigns (rest : List Value) : Except GlobalFault (Globals.GlobalResult × Globals) → Effect
  | .ok (.thrown message, g) => .raises (.thrown message) { m.store with globals := g }
  | .ok (_, g) => m.leaves rest { m.store with globals := g }
  | .error e => .raises e.fault m.store

section

variable [Libdeci]

/-- `OP_LOAD_GLOBAL`. -/
def loadGlobal (c : Nat) : Except Fault Value :=
  match Globals.opLoadGlobal m.env.globals c with
  | .ok (.loaded v) => .ok v
  | .ok (.thrown message) => .error (.thrown message)
  | .ok .stored => .error .illegal
  | .error e => .error e.fault

/-- The value that `OP_MODIFY_GLOBAL` modifies. -/
def globalValue (c : Nat) : Value := ((m.env.globals.globals.data[c]?).join).getD .nil

/-- The value that `OP_MODIFY_AT` modifies. -/
def elementValue (c i : Value) : Value :=
  match getElemAt m.store.containers c i with
  | .ok v => v
  | .error _ => .nil

/-- `OP_FUNCTION`. -/
def function (w : World) (rest : List Value) (c : Nat) : Effect :=
  match m.vm.cs.head? with
  | none => .raises .illegal m.store
  | some site =>
      match site.callee.chunk.shapes[c]?, w.mkFunc site.callee.chunk m.vm.ip with
      | some s, some f => .goes rest [.func f] (m.vm.ip + s.offset) m.store
      | _, _ => .raises .illegal m.store

/-- `OP_DICT`. -/
def dict (rest kv : List Value) : Effect :=
  match checkDictKeys kv with
  | .error e => .raises e m.store
  | .ok _ =>
      match dictNewSteal (xhtNew 0) kv with
      | .error e => .raises e m.store
      | .ok d => .goes rest [.dict m.env.dicts.length] (m.vm.ip + 1)
          { m.store with dicts := m.env.dicts ++ [d] }

/-- The cases of the dispatch loop, with the operands from the bottom up. -/
def effect (w : World) (rest : List Value) : Instr → List Value → Effect
  | .opLoadConst c, [] => m.result rest (orIllegal (m.vm.consts[c]?.map Const.value))
  | .opLoadLocal c, [] => m.result rest (orIllegal (m.vm.local? c))
  | .opLoadGlobal c, [] => m.result rest (m.loadGlobal c)
  | .opLoadAt, [c, i] =>
      m.result rest ((getElemAt m.store.containers c i).mapError ElementError.fault)
  | .opStoreLocal c, [v] => m.writeLocal rest c (.ok v)
  | .opStoreGlobal c, [v] =>
      m.assigns rest ((Globals.opStoreGlobal m.env.globals c v).map fun g => (.stored, g))
  | .opStoreAt, [c, i, v] => m.elements rest (Calx.opStoreAt m.store.containers c i v)
  | .opModifyLocal a c, [v] =>
      m.writeLocal rest c (orIllegal (m.vm.local? c) >>= fun x => w.aop m.env.ntp a x v)
  | .opModifyGlobal a c, [v] =>
      m.assigns rest (Globals.opModifyGlobal m.env.ntp (w.sharing (m.globalValue c) v) a
        m.env.globals c v)
  | .opModifyAt a, [c, i, v] =>
      m.elements rest (Calx.opModifyAt m.env.ntp (w.sharing (m.elementValue c i) v) a
        m.store.containers c i v)
  | .opPrint, [v] =>
      m.leaves rest { m.store with out := m.env.out ++ valuePrint w.pointer m.store.containers v }
  | .opJump c, [] => .goes rest [] (m.vm.ip + toInt32 c) m.store
  | .opJumpUnless c, [v] =>
      .goes rest [] (if valueIsTruthy v then (m.vm.ip : Int) + 1 else m.vm.ip + toInt32 c) m.store
  | .opFunction c, [] => m.function w rest c
  | .opNeg, [v] => m.result rest ((performNeg (w.uniq v) v).mapError OperatorError.fault)
  | .opNot, [v] => m.result rest (.ok (.flag (!valueIsTruthy v)))
  | .opAop a, [left, right] => m.result rest (w.aop m.env.ntp a left right)
  | .opCmp2way a, [left, right] =>
      m.result rest (.ok (.flag (valuesEqual (w.sameObject left right) left right == decide (a ≠ 0))))
  | .opCmp3way a, [left, right] =>
      m.result rest ((performCmp3way left right a).mapError OperatorError.fault)
  | .opList _, elems =>
      .goes rest [.list m.vm.heap.lists.length] (m.vm.ip + 1)
        { m.store with lists := m.vm.heap.lists ++ [elems] }
  | .opDict _, kv => m.dict rest kv
  | .opLen, [v] => m.result rest ((performLen m.store.containers v).mapError OperatorError.fault)
  | _, _ => .raises .illegal m.store

end

/-! ## The dispatch loop -/

/-- The effect of an instruction on the stack. -/
def settle : Effect → StepResult
  | .goes rest results next st =>
      if (rest ++ results).length ≤ m.vm.vs.capacity ∧ 0 ≤ next then
        .next ⟨{ m.vm.setCells (rest ++ results) with ip := next.toNat, heap := ⟨st.lists⟩ },
          st.toEnv⟩
      else .raised .illegal st
  | .raises fault st => .raised fault st

/-- The end of `OP_CALL`, with what the call has left. -/
def goesOn (m : Machine) : StepResult :=
  if m.vm.vs.cells.length ≤ m.vm.vs.capacity then .next { m with vm := { m.vm with ip := m.vm.ip + 1 } }
  else .raised .illegal m.store

/-- The call of a native function with the values from `args` on. -/
def callNative (w : World) (s : VmState) (id nargs : Nat) : StepResult :=
  let args := s.vs.cells.length - nargs
  match w.natives id { m.env with lists := s.heap.lists }
    ((s.vs.cells.drop args).take (toUint32 nargs)) with
  | (.ok r, st) =>
      goesOn ⟨{ s.setCells (s.vs.cells.take (args - 1) ++ [r]) with heap := ⟨st.lists⟩ }, st.toEnv⟩
  | (.error fault, st) => .raised fault st

/-- `do_call` by the kind of the callee. -/
def callValue (w : World) (s : VmState) (nargs : Nat) : Value → StepResult
  | .func f =>
      match doCallFunc s f nargs with
      | .ok s => goesOn ⟨s, m.env⟩
      | .error e => .raised e.fault m.store
  | .cfunc id => m.callNative w s id nargs
  | v => .raised (.thrown (bytesOf ("attempt to call " ++ valueKindName v ++ " value"))) m.store

/-- `OP_CALL`. -/
def call (w : World) (scatter : Bool) (nargs : Nat) : StepResult :=
  match doCallArgs m.vm scatter nargs with
  | .error e => .raised e.fault m.store
  | .ok (nargs, s) =>
      if s.vs.cells.length < nargs + 1 then .raised .illegal m.store
      else
        match s.vs.cells[s.vs.cells.length - nargs - 1]? with
        | some v => m.callValue w s nargs v
        | none => .raised .illegal m.store

/-- `OP_RETURN`, and the end of `state_eval` with its assertion. -/
def ret : StepResult :=
  match m.vm.cs.head? with
  | none => .raised .illegal m.store
  | some site =>
      if m.vm.vs.cells.length < site.callee.shape.nlocals + 2 then .raised .illegal m.store
      else
        match opReturn m.vm with
        | some (some ip, s) => .next ⟨{ s with ip := ip + 1 }, m.env⟩
        | some (none, s) =>
            match s.vs.cells with
            | [v] => .done v m.store
            | _ => .raised .illegal m.store
        | none => .raised .illegal m.store

variable [Libdeci]

/-- An instruction that is no call and no return. -/
def plain (w : World) (instr : Instr) : StepResult :=
  if instr.pops ≤ m.vm.vs.cells.length then
    let n := m.vm.vs.cells.length - instr.pops
    m.settle (m.effect w (m.vm.vs.cells.take n) instr (m.vm.vs.cells.drop n))
  else .raised .illegal m.store

/-- One turn of the dispatch loop. -/
def step (w : World) : StepResult :=
  match m.vm.instr? with
  | none => .raised .illegal m.store
  | some (.opCall scatter c) => m.call w scatter c
  | some .opReturn => m.ret
  | some instr => m.plain w instr

end Machine

/-- `setup_for_eval` with a new value stack, whose blocks lie where `realloc` says. -/
def evalStart (base : Int) (realloc : Nat → Int) (f : Func) (st : Store) : Except VmError Machine := do
  let s ← setupForEval ⟨base, [], 0, realloc, by decide⟩ ⟨st.lists⟩ f
  pure ⟨s, st.toEnv⟩

/-- The dispatch loop for a number of turns, each in a world of its own. -/
def runFor [Libdeci] (w : Nat → World) : Nat → Machine → StepResult
  | 0, m => .next m
  | n + 1, m =>
      match m.step (w 0) with
      | .next m => runFor (fun k => w (k + 1)) n m
      | r => r

end Calx
