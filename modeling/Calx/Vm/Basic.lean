import Calx.Discipline

/-!
# The value stack and calls

The value stack of `vm.c` with its addresses, and what `OP_CALL` and `OP_RETURN`
do with it: `do_call` with the expansion of a scatter list and the collection of
a gather list, and the return to the caller.

## Implementation notes

The stack lists its values from the bottom up. Addresses count values, and a
pointer is an integer, so that a difference of pointers into different blocks has
a value. `realloc` holds the addresses that the next reallocations return; they
are arbitrary. A list lives in the heap, which keeps what has been freed. A
function carries what the compiler guarantees of it, with the operand depths of
its instructions. The outcome `outOfMemory` ends the process.
-/

namespace Calx

open Instr

/-- `Func`: the chunk and the `OP_FUNCTION` instruction, whose shape is that of a compiled function
with `nparams` parameters before the gathering one. -/
structure Func where
  chunk : Chunk
  ip : Nat
  shape : Shape
  nparams : Nat
  gathers : Bool
  depth : Nat → Nat
  shape_eq : chunk.shapeAt ip = some shape
  nargs_eq : shape.nargsEncoded = if gathers then complement32 nparams else nparams
  nparams_le : nparams + gathers.toNat ≤ shape.nlocals
  nlocals_le : shape.nlocals ≤ uint32Max / 2
  disciplined : chunk.Disciplined ip depth

/-- `Value`; lists, dicts and weak references are objects of the heap. -/
inductive Value
  | num (n : Number)
  | flag (b : Bool)
  | nil
  | str (s : Bytes)
  | list (id : Nat)
  | dict (id : Nat)
  | weakref (id : Nat)
  | func (f : Func)
  | cfunc (id : Nat)

/-- `value_kind_name`. -/
def valueKindName : Value → String
  | .num _ => "number"
  | .flag _ => "flag"
  | .nil => "nil"
  | .str _ => "string"
  | .list _ => "list"
  | .dict _ => "dict"
  | .weakref _ => "weakref"
  | .func _ | .cfunc _ => "function"

/-- How running an instruction can end early. -/
inductive VmError
  /-- `state_throw`. -/
  | thrown (text : String)
  | outOfMemory
  /-- An access outside the value stack. -/
  | outOfBounds
deriving DecidableEq

/-- `ValueStack`: `begin`, the values below `top`, and `end - begin`. -/
structure ValueStack where
  base : Int
  cells : List Value
  capacity : Nat
  realloc : Nat → Int
  capacity_lt : capacity < 2 ^ 61

/-- The capacity after `uu_x2realloc`. -/
def doubled (capacity : Nat) : Nat := if capacity = 0 then 1 else capacity * 2

/-- `uu_x2realloc` on the block of the stack: twice the room, at another address perhaps. -/
def x2realloc (vs : ValueStack) : Except VmError ValueStack :=
  if h : doubled vs.capacity < 2 ^ 61 then
    .ok { vs with
      base := vs.realloc 0
      capacity := doubled vs.capacity
      realloc := fun n => vs.realloc (n + 1)
      capacity_lt := h }
  else .error .outOfMemory

/-- The loop of `value_stack_ensure`. -/
def ensureLoop (n : Nat) : Nat → ValueStack → Except VmError ValueStack
  | 0, _ => .error .outOfMemory
  | fuel + 1, vs => do
      let vs ← x2realloc vs
      if vs.capacity - vs.cells.length < n then ensureLoop n fuel vs else .ok vs

/-- `value_stack_ensure`; the capacity can be doubled 62 times at most. -/
def valueStackEnsure (vs : ValueStack) (n : Nat) : Except VmError ValueStack :=
  if n ≤ vs.capacity - vs.cells.length then .ok vs else ensureLoop n 62 vs

/-- `CallSite`. -/
structure CallSite where
  /-- The calling instruction; `none` for the function that `state_eval` was given. -/
  callIp : Option Nat
  callee : Func
  prevConsts : List Const
  prevLocalsOffset : Int

/-- The lists of the heap; `list_new_steal` takes an unused number. -/
structure Heap where
  lists : List (List Value)

/-- The runtime information of a `ScratchPad`, and the heap. -/
structure VmState where
  vs : ValueStack
  cs : List CallSite
  ip : Nat
  locals : Int
  consts : List Const
  heap : Heap

/-- What the native functions do with the arguments they are given. -/
abbrev Natives := Nat → Heap → List Value → Except String (Value × Heap)

namespace VmState

variable (s : VmState)

/-- The stack with other contents. -/
def setCells (cells : List Value) : VmState := { s with vs := { s.vs with cells := cells } }

/-- `value_stack_ensure` on the stack of the state. -/
def ensure (n : Nat) : Except VmError VmState := do
  let vs ← valueStackEnsure s.vs n
  pure { s with vs := vs }

/-- `locals[i]`. -/
def local? (i : Nat) : Option Value :=
  if s.vs.base ≤ s.locals then s.vs.cells[(s.locals - s.vs.base).toNat + i]? else none

end VmState

/-- `setup_for_eval` on a new stack, and the registers with which `state_eval` starts. -/
def setupForEval (vs : ValueStack) (heap : Heap) (f : Func) : Except VmError VmState :=
  if f.shape.nargsEncoded ≠ 0 then
    .error (.thrown "You are not supposed to call functions with args this way! >_~")
  else do
    let vs ← valueStackEnsure vs (f.shape.maxstack + f.shape.nlocals + 1)
    pure
      { vs := { vs with cells := vs.cells ++ .func f :: List.replicate f.shape.nlocals .nil }
        cs := [⟨none, f, [], -1⟩]
        ip := f.ip + 1
        locals := vs.base + 1
        consts := f.chunk.consts
        heap := heap }

/-- `do_call_scatter`: the list on top is replaced by its elements, which are counted. -/
def doCallScatter (s : VmState) : Except VmError (Nat × VmState) :=
  match s.vs.cells.getLast? with
  | some (.list id) => do
      let elems := (s.heap.lists[id]?).getD []
      let s ← (s.setCells s.vs.cells.dropLast).ensure elems.length
      pure (elems.length, s.setCells (s.vs.cells ++ elems))
  | some v => .error (.thrown ("cannot scatter " ++ valueKindName v ++ " value (expected list)"))
  | none => .error .outOfBounds

/-- Room for an empty gather list: `if (!n) value_stack_ensure(&pad->rti.vs, 1)`. -/
def gatherRoom (s : VmState) (n : Nat) : Except VmError VmState :=
  if n = 0 then s.ensure 1 else .ok s

/-- `do_call_gather`: the `n` values on top become a list. -/
def doCallGather (s : VmState) (n : Nat) : Except VmError VmState := do
  let s ← gatherRoom s n
  let below := s.vs.cells.length - n
  pure { s.setCells (s.vs.cells.take below ++ [.list s.heap.lists.length]) with
    heap := ⟨s.heap.lists ++ [s.vs.cells.drop below]⟩ }

/-- `do_call_coerce`. -/
def doCallCoerce (s : VmState) (nargsEncoded nargs : Nat) : Except VmError (Nat × VmState) :=
  if 0 ≤ toInt32 nargsEncoded then
    if nargs ≠ nargsEncoded then
      .error (.thrown ("wrong number of arguments: expected " ++ toString nargsEncoded ++
        ", got " ++ toString nargs))
    else .ok (nargs, s)
  else
    let nargsEncoded := complement32 nargsEncoded
    if nargs < nargsEncoded then
      .error (.thrown ("wrong number of arguments: expected at least " ++ toString nargsEncoded ++
        ", got " ++ toString nargs))
    else do
      let s ← doCallGather s (nargs - nargsEncoded)
      pure (nargsEncoded + 1, s)

/-- The part of `do_call` before the callee is looked at: the number of arguments in `size_t`. -/
def doCallArgs (s : VmState) (scatter : Bool) (nargs : Nat) : Except VmError (Nat × VmState) :=
  if scatter then do
    let (n, s) ← doCallScatter s
    pure ((nargs + (n + (2 ^ 64 - 1)) % 2 ^ 64) % 2 ^ 64, s)
  else .ok (nargs, s)

/-- The call of a bytecode function: the frame is completed with nils and entered. -/
def doCallFunc (s : VmState) (f : Func) (nargs : Nat) : Except VmError VmState := do
  let (nargs, s) ← doCallCoerce s f.shape.nargsEncoded nargs
  let curLocalsOffset := s.locals - s.vs.base
  let nvars := toUint32 ((f.shape.nlocals : Int) - nargs)
  let s ← s.ensure (f.shape.maxstack + nvars)
  let cells := s.vs.cells ++ List.replicate nvars .nil
  pure { s.setCells cells with
    cs := ⟨some s.ip, f, s.consts, curLocalsOffset⟩ :: s.cs
    consts := f.chunk.consts
    locals := s.vs.base + cells.length - f.shape.nlocals
    ip := f.ip }

/-- The result of a native function replaces what lies from `below` on. -/
def nativeReturn (s : VmState) (below : Nat) :
    Except String (Value × Heap) → Except VmError VmState
  | .error text => .error (.thrown text)
  | .ok (r, heap) => .ok { s.setCells (s.vs.cells.take below ++ [r]) with heap := heap }

/-- The call of a native function, which gets the address of the arguments and their number in
`uint32_t`. -/
def doCallNative (natives : Natives) (s : VmState) (id nargs : Nat) : Except VmError VmState :=
  let args := s.vs.cells.length - nargs
  nativeReturn s (args - 1) (natives id s.heap ((s.vs.cells.drop args).take (toUint32 nargs)))

/-- `do_call` by the kind of the callee. -/
def doCallValue (natives : Natives) (s : VmState) (nargs : Nat) : Value → Except VmError VmState
  | .func f => doCallFunc s f nargs
  | .cfunc id => doCallNative natives s id nargs
  | v => .error (.thrown ("attempt to call " ++ valueKindName v ++ " value"))

/-- `do_call`. -/
def doCall (natives : Natives) (s : VmState) (scatter : Bool) (nargs : Nat) :
    Except VmError VmState := do
  let (nargs, s) ← doCallArgs s scatter nargs
  if s.vs.cells.length < nargs + 1 then .error .outOfBounds
  else
    match s.vs.cells[s.vs.cells.length - nargs - 1]? with
    | some v => doCallValue natives s nargs v
    | none => .error .outOfBounds

/-- `OP_RETURN`, with the calling instruction to go on after. -/
def opReturn (s : VmState) : Option (Option Nat × VmState) :=
  match s.cs, s.vs.cells.getLast? with
  | site :: cs, some v =>
      let below := s.vs.cells.length - 1 - (site.callee.shape.nlocals + 1)
      some (site.callIp,
        { s.setCells (s.vs.cells.take below ++ [v]) with
          cs := cs
          consts := site.prevConsts
          locals := s.vs.base + site.prevLocalsOffset })
  | _, _ => none

end Calx
