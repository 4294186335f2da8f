import Calx.Lib.Attempt
import Calx.Lib.Block
import Calx.Number.Printer
import Calx.Xht.Basic

/-!
# Strings

`hash.h`, `str.h` and `str.c`: strings with reference counts that are appended to
in place where nobody else holds them, `append_string_repr` of `vm.c`, and the
dicts of `dict.h` that are keyed by them.

## Implementation notes

The header of a string is its count in the memory of objects. A byte that has not
been written is an empty cell, and reading it fails like an access outside the
array. Which blocks `malloc` and `realloc` provide is arbitrary; a program that
does not get one ends. `UU_PANIC_OOM` and the overflow of a table are `StrPanic`.
A size stays below the capacity of its string, so that adding to it cannot wrap.
-/

namespace Calx

open Refcount

/-- `hash_str_concat`. -/
def hashStrConcat (old : UInt32) (s : Bytes) : UInt32 :=
  s.foldl (fun ret c => (ret ^^^ c.toUInt32) * 16777619) old

/-- `hash_str`. -/
def hashStr (s : Bytes) : UInt32 := hashStrConcat 2166136261 s

theorem hashStrConcat_append (old : UInt32) (s t : Bytes) :
    hashStrConcat old (s ++ t) = hashStrConcat (hashStrConcat old s) t := List.foldl_append

namespace Str

/-- `String`. -/
structure StringObj where
  size : Nat
  capacity : Nat
  hash : UInt32
  data : List (Option UInt8)

/-- `sizeof(String)`. -/
def sizeofString : Nat := 40

/-- The address of a string. -/
abbrev Addr := Nat

/-- How the process ends. -/
inductive StrPanic
  /-- A string of so many bytes is too long. -/
  | length (n : Nat)
  /-- A block of so many bytes is not provided. -/
  | block (nbytes : Nat)
  /-- A table is full. -/
  | table
deriving DecidableEq

/-- Whether `malloc` and `realloc` provide a block of so many bytes, which then gets the address. -/
class Allocator where
  provides : Addr → Nat → Bool

/-- A program on strings. -/
abbrev Strings := Attempt StrPanic StringObj

section Append

variable [Allocator]

/-- `unsafe_reallocate`; the other fields of a new string are left to the caller. -/
def unsafeReallocate (s : Option Addr) (newCapacity : Nat) : Strings Addr := do
  let n := newCapacity + sizeofString
  let p ← Attempt.nextAddr
  if 2 ^ 64 ≤ n ∨ Allocator.provides p n = false then throw (.block n)
  else
    match s with
    | none => Attempt.alloc ⟨0, newCapacity, 0, Block.resize [] newCapacity⟩
    | some s => do
        let x ← Attempt.load s
        Attempt.realloc s { x with capacity := newCapacity, data := Block.resize x.data newCapacity }

/-- `string_new_with_capacity`. -/
def stringNewWithCapacity (x : Bytes) (capacity : Nat) : Strings Addr := do
  let s ← unsafeReallocate none capacity
  let y ← Attempt.load s
  let data ← Attempt.compute (Block.write y.data 0 x)
  Attempt.store s { y with size := x.length, hash := hashStr x, data := data }
  pure s

/-- `string_new`. -/
def stringNew (x : Bytes) : Strings Addr := stringNewWithCapacity x x.length

/-- The loop of `string_hot_append_begin`; `size_t` has been doubled away after 64 turns. -/
def growCapacity (reqCapacity : Nat) : Nat → Nat → Option Nat
  | 0, _ => none
  | fuel + 1, c =>
      if c < reqCapacity then growCapacity reqCapacity fuel (c * 2 % 2 ^ 64) else some c

/-- `string_hot_append_begin`. -/
def stringHotAppendBegin (s : Addr) (n : Nat) : Strings Addr := do
  let x ← Attempt.load s
  let reqCapacity := x.size + n
  if 2 ^ 64 ≤ reqCapacity ∨ sizeMax / 2 < reqCapacity then throw (.length reqCapacity)
  else do
    let c ← Attempt.compute (growCapacity reqCapacity 64 (if x.capacity = 0 then 1 else x.capacity))
    let uniq ← Attempt.isUniq s
    if uniq then
      if x.capacity < c then unsafeReallocate (some s) c else pure s
    else do
      let bytes ← Attempt.compute (Block.read x.data 0 x.size)
      let t ← stringNewWithCapacity bytes c
      Attempt.decref s
      pure t

/-- `string_hot_append_buf`: the string and a position in its data. -/
def stringHotAppendBuf (s : Addr) : Strings (Addr × Nat) := do
  let x ← Attempt.load s
  pure (s, x.size)

/-- What the caller does with the buffer: write to it from `off` on. -/
def writeHotBuf (hotBuf : Addr × Nat) (off : Nat) (w : Bytes) : Strings Addr := do
  let x ← Attempt.load hotBuf.1
  let data ← Attempt.compute (Block.write x.data (hotBuf.2 + off) w)
  Attempt.store hotBuf.1 { x with data := data }
  pure hotBuf.1

/-- `string_hot_append_end`. -/
def stringHotAppendEnd (s : Addr) (n : Nat) : Strings Addr := do
  let x ← Attempt.load s
  let w ← Attempt.compute (Block.read x.data x.size n)
  Attempt.store s { x with hash := hashStrConcat x.hash w, size := x.size + n }
  pure s

/-- A pointer to bytes elsewhere, or to the data of a string. -/
inductive Source
  | bytes (x : Bytes)
  | data (t : Addr)

/-- Read `n` bytes. -/
def Source.read (n : Nat) : Source → Strings Bytes
  | .bytes x => Attempt.compute (Block.read (x.map some) 0 n)
  | .data t => do
      let y ← Attempt.load t
      Attempt.compute (Block.read y.data 0 n)

/-- `string_append`. -/
def stringAppend (s : Addr) (x : Source) (nx : Nat) : Strings Addr := do
  let s ← stringHotAppendBegin s nx
  if nx = 0 then stringHotAppendEnd s nx
  else do
    let hotBuf ← stringHotAppendBuf s
    let w ← x.read nx
    let s ← writeHotBuf hotBuf 0 w
    stringHotAppendEnd s nx

/-- A value, or a string in the memory. -/
inductive Operand
  | val (v : Value)
  | str (t : Addr)

/-- A text of its own that is appended. -/
def appendLiteral (s : Addr) (t : String) : Strings Addr :=
  stringAppend s (.bytes (bytesOf t)) (bytesOf t).length

/-- `append_string_repr`. -/
def appendStringRepr [DeciBase] (s : Addr) : Operand → Strings Addr
  | .val (.num n) => do
      let maxsz := numberTostringSize n
      if maxsz = sizeMax then throw (.length maxsz)
      else do
        let s ← stringHotAppendBegin s maxsz
        let buf ← stringHotAppendBuf s
        let w ← Attempt.compute (numberTostringIn maxsz n)
        let s ← writeHotBuf buf 0 w
        stringHotAppendEnd s w.length
  | .str t => do
      let y ← Attempt.load t
      stringAppend s (.data t) y.size
  | .val (.str t) => stringAppend s (.bytes t) t.length
  | .val (.flag b) => appendLiteral s (if b then "true" else "false")
  | .val v => do
      let s ← appendLiteral s "<"
      let s ← appendLiteral s (valueKindName v)
      appendLiteral s ">"

end Append

/-! ## Comparison -/

/-- `string_compare`. -/
def stringCompare (s t : Addr) : Strings Nat := do
  let x ← Attempt.load s
  let y ← Attempt.load t
  let nmin := if x.size < y.size then x.size else y.size
  let v ← Attempt.compute (Block.read x.data 0 nmin)
  let w ← Attempt.compute (Block.read y.data 0 nmin)
  match memcmp v w with
  | .lt => pure compareLess
  | .gt => pure compareGreater
  | .eq =>
      if x.size < y.size then pure compareLess
      else if x.size = y.size then pure compareEq
      else pure compareGreater

/-- `string_equal`. -/
def stringEqual (s t : Addr) : Strings Bool := do
  let x ← Attempt.load s
  let y ← Attempt.load t
  if x.size ≠ y.size then pure false
  else if x.hash ≠ y.hash then pure false
  else do
    let v ← Attempt.compute (Block.read x.data 0 x.size)
    let w ← Attempt.compute (Block.read y.data 0 x.size)
    pure (decide (memcmp v w = .eq))

end Str

end Calx
