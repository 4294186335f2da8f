import Calx.Number.Basic

/-!
# Instructions and chunks

The bytecode of `vm.h`: opcodes with the operands they use, function shapes
and the chunk a successful compilation returns.

## Implementation notes

An instruction is one constructor for each opcode, carrying those of the
operand fields `a` and `c` that the opcode reads. The field `b` is always zero
in the source and is left out.
-/

namespace Calx

/-- The arithmetic operators `AOP_*`. -/
inductive Aop
  | aopAnd | aopBitAnd | aopSub | aopOr | aopBitOr | aopBitXor | aopLshift | aopRshift
  | aopMod | aopAdd | aopDiv | aopIdiv | aopMul | aopPow | aopConcat
deriving DecidableEq, Repr

/-- `Instr`. -/
inductive Instr
  | opLoadConst (c : Nat) | opLoadLocal (c : Nat) | opLoadAt | opLoadGlobal (c : Nat)
  | opStoreLocal (c : Nat) | opStoreAt | opStoreGlobal (c : Nat)
  | opModifyLocal (a : Aop) (c : Nat) | opModifyAt (a : Aop) | opModifyGlobal (a : Aop) (c : Nat)
  | opPrint | opReturn
  | opJump (c : Nat) | opJumpUnless (c : Nat) | opCall (a : Bool) (c : Nat) | opFunction (c : Nat)
  | opNeg | opNot | opAop (a : Aop) | opCmp2way (a : Nat) | opCmp3way (a : Nat)
  | opList (c : Nat) | opDict (c : Nat) | opLen
  | opLoadSymbolic (c : Nat) | opModifySymbolic (a : Aop) (c : Nat) | opStoreSymbolic (c : Nat)
deriving DecidableEq, Repr

/-- `UINT32_MAX`. -/
def uint32Max : Nat := 4294967295

/-- A `size_t` or signed value stored in the 32-bit operand `c`. -/
def toUint32 (x : Int) : Nat := (x % 4294967296).toNat

/-- `(int32_t) c`. -/
def toInt32 (c : Nat) : Int := if c < 2147483648 then c else (c : Int) - 4294967296

/-- The constants a chunk can hold. -/
inductive Const
  | num (n : Number)
  | flag (b : Bool)
  | nil
  | str (s : Bytes)
deriving DecidableEq, Repr

/-- `Shape`. -/
structure Shape where
  nargsEncoded : Nat
  nlocals : Nat
  offset : Nat
  maxstack : Nat
deriving DecidableEq, Repr

/-- `TaggedInstr`; `none` is the line `(size_t) -1`. -/
structure TaggedInstr where
  instr : Instr
  line : Option Nat
deriving DecidableEq, Repr

/-- `Quark`. -/
structure Quark where
  instr : Nat
  line : Nat
deriving DecidableEq, Repr

/-- `Chunk`. -/
structure Chunk where
  code : List Instr
  consts : List Const
  quarks : List Quark
  shapes : List Shape
  origin : String
  source : Bytes
deriving DecidableEq, Repr

end Calx
