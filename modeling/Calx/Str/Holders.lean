import Calx.Str.Dict

/-!
# Strings and their holders

Any sequence of operations on strings that their holders share gives what the
same operations on texts give, where every holder has a text of its own: nothing
that one of them appends is seen by another.

## Implementation notes

A holder is a reference, named by its position. A holder may end or write to a
buffer that it has begun, and shares its string at other times only. The texts
remember the largest capacity that has been asked for and the largest size that
a string has needed, which bound what memory has to provide.
-/

namespace Calx.Str

open Refcount

/-- What the holders of strings do. -/
inductive Op
  /-- `string_new_with_capacity`. -/
  | new (x : Bytes) (capacity : Nat)
  /-- `value_ref` for another holder. -/
  | ref (i : Nat)
  /-- `value_unref`. -/
  | unref (i : Nat)
  /-- `string_append`. -/
  | append (i : Nat) (x : Bytes)
  /-- `append_string_repr` with a value. -/
  | repr (i : Nat) (v : Value)
  /-- `append_string_repr` with the string of another holder. -/
  | concat (i j : Nat)
  /-- `string_hot_append_begin`. -/
  | hotBegin (i n : Nat)
  /-- Writing to `string_hot_append_buf`. -/
  | hotWrite (i off : Nat) (w : Bytes)
  /-- `string_hot_append_end`. -/
  | hotEnd (i n : Nat)
  | equal (i j : Nat)
  | compare (i j : Nat)
  | dictGet (i : Nat)
  | dictStore (i : Nat) (v : Value)
  | dictRemove (i : Nat)

inductive Answer
  | done
  | flag (b : Bool)
  | order (n : Nat)
  | value (v : Option Value)

/-! ## The operations on strings -/

/-- The strings, the references to them, and a dict. -/
structure Holders where
  mem : Memory StringObj
  refs : List Addr
  dict : Dict

/-- A step fails, ends the process or returns. -/
abbrev Outcome := ExceptT StrPanic Option

def fault {α : Type} : Outcome α := (none : Option (Except StrPanic α))

/-- An array access. -/
def get {α : Type} (l : List α) (i : Nat) : Outcome α := (l[i]?).elim fault pure

/-- Run a program. -/
def exec {α : Type} (c : Strings α) (mem : Memory StringObj) : Outcome (α × Memory StringObj) :=
  match c mem with
  | none => fault
  | some (.error e, _) => throw e
  | some (.ok a, mem) => pure (a, mem)

namespace Holders

variable (σ : Holders)

/-- A program that takes over the reference of a holder. -/
def update (i : Nat) (c : Addr → Strings Addr) : Outcome (Holders × Answer) := do
  let s ← get σ.refs i
  let (r, mem) ← exec (c s) σ.mem
  pure ({ σ with mem := mem, refs := σ.refs.set i r }, .done)

def step [DeciBase] [Allocator] : Op → Outcome (Holders × Answer)
  | .new x capacity => do
      let (r, mem) ← exec (stringNewWithCapacity x capacity) σ.mem
      pure ({ σ with mem := mem, refs := σ.refs ++ [r] }, .done)
  | .ref i => do
      let s ← get σ.refs i
      match incref s σ.mem with
      | none => fault
      | some (_, mem) => pure ({ σ with mem := mem, refs := σ.refs ++ [s] }, .done)
  | .unref i => do
      let s ← get σ.refs i
      match decref s σ.mem with
      | none => fault
      | some (_, mem) => pure ({ σ with mem := mem, refs := σ.refs.eraseIdx i }, .done)
  | .append i x => σ.update i fun s => stringAppend s (.bytes x) x.length
  | .repr i v => σ.update i fun s => appendStringRepr s (.val v)
  | .concat i j => do
      let t ← get σ.refs j
      σ.update i fun s => appendStringRepr s (.str t)
  | .hotBegin i n => σ.update i fun s => stringHotAppendBegin s n
  | .hotWrite i off w => σ.update i fun s => do
      let hotBuf ← stringHotAppendBuf s
      writeHotBuf hotBuf off w
  | .hotEnd i n => σ.update i fun s => stringHotAppendEnd s n
  | .equal i j => do
      let s ← get σ.refs i
      let t ← get σ.refs j
      let (b, mem) ← exec (stringEqual s t) σ.mem
      pure ({ σ with mem := mem }, .flag b)
  | .compare i j => do
      let s ← get σ.refs i
      let t ← get σ.refs j
      let (n, mem) ← exec (stringCompare s t) σ.mem
      pure ({ σ with mem := mem }, .order n)
  | .dictGet i => do
      let s ← get σ.refs i
      let (v, mem) ← exec (Str.dictGet σ.dict s) σ.mem
      pure ({ σ with mem := mem }, .value v)
  | .dictStore i v => do
      let s ← get σ.refs i
      let (d, mem) ← exec (Str.dictStore σ.dict s v) σ.mem
      pure ({ σ with mem := mem, dict := d }, .done)
  | .dictRemove i => do
      let s ← get σ.refs i
      let ((b, d), mem) ← exec (Str.dictRemove σ.dict s) σ.mem
      pure ({ σ with mem := mem, dict := d }, .flag b)

/-- The operations in turn, with their answers. -/
def run [DeciBase] [Allocator] : Holders → List Op → Outcome (Holders × List Answer)
  | σ, [] => pure (σ, [])
  | σ, op :: ops => do
      let (σ, a) ← σ.step op
      let (σ, as) ← run σ ops
      pure (σ, a :: as)

/-- No strings, and an empty dict. -/
def empty : Holders := ⟨[], [], xhtNew 0⟩

end Holders

/-! ## The operations on texts -/

/-- What a holder has: a text, and what has been written to a buffer that has been begun. -/
structure Holder where
  text : Bytes
  hot : Option (List (Option UInt8))

structure Texts where
  holders : List Holder
  dict : ByteMap Value
  capacity : Nat
  need : Nat

namespace Texts

variable (τ : Texts)

/-- A holder has something else. -/
def set (i : Nat) (h : Holder) : Texts := { τ with holders := τ.holders.set i h }

/-- A string of so many bytes is needed. -/
def grow (need : Nat) : Texts := { τ with need := max τ.need need }

/-- The largest capacity that a string can have. -/
def limit : Nat := max τ.capacity (2 * τ.need + 1)

def step [DeciBase] : Op → Option (Texts × Answer)
  | .new x capacity =>
      if x.length ≤ capacity then
        some ({ τ with
          holders := τ.holders ++ [⟨x, none⟩], capacity := max τ.capacity capacity }, .done)
      else none
  | .ref i => do
      let h ← τ.holders[i]?
      if h.hot = none then some ({ τ with holders := τ.holders ++ [h] }, .done) else none
  | .unref i => do
      let _ ← τ.holders[i]?
      some ({ τ with holders := τ.holders.eraseIdx i }, .done)
  | .append i x => do
      let h ← τ.holders[i]?
      some ((τ.set i ⟨h.text ++ x, none⟩).grow (h.text ++ x).length, .done)
  | .repr i v => do
      let h ← τ.holders[i]?
      if Printable v then
        some ((τ.set i ⟨Calx.appendStringRepr h.text v, none⟩).grow (reprNeed h.text v), .done)
      else none
  | .concat i j => do
      let h ← τ.holders[i]?
      let h' ← τ.holders[j]?
      if i = j then none
      else some ((τ.set i ⟨h.text ++ h'.text, none⟩).grow (h.text ++ h'.text).length, .done)
  | .hotBegin i n => do
      let h ← τ.holders[i]?
      some ((τ.set i ⟨h.text, some (List.replicate n none)⟩).grow (h.text.length + n), .done)
  | .hotWrite i off w => do
      let h ← τ.holders[i]?
      let room ← h.hot
      let room ← Block.write room off w
      some (τ.set i ⟨h.text, some room⟩, .done)
  | .hotEnd i n => do
      let h ← τ.holders[i]?
      let room ← h.hot
      let w ← Block.read room 0 n
      some (τ.set i ⟨h.text ++ w, none⟩, .done)
  | .equal i j => do
      let h ← τ.holders[i]?
      let h' ← τ.holders[j]?
      some (τ, .flag (decide (h.text = h'.text)))
  | .compare i j => do
      let h ← τ.holders[i]?
      let h' ← τ.holders[j]?
      some (τ, .order (compareFlag (compareOfLessAndEq h.text h'.text)))
  | .dictGet i => do
      let h ← τ.holders[i]?
      some (τ, .value (τ.dict.lookup h.text))
  | .dictStore i v => do
      let h ← τ.holders[i]?
      some ({ τ with dict := τ.dict.insert h.text v }, .done)
  | .dictRemove i => do
      let h ← τ.holders[i]?
      some ({ τ with dict := τ.dict.erase h.text }, .flag (τ.dict.lookup h.text).isSome)

/-- The operations in turn, with their answers. -/
def run [DeciBase] : Texts → List Op → Option (Texts × List Answer)
  | τ, [] => some (τ, [])
  | τ, op :: ops => do
      let (τ, a) ← τ.step op
      let (τ, as) ← run τ ops
      some (τ, a :: as)

/-- No holders, and an empty dict. -/
def empty : Texts := ⟨[], ∅, 0, 0⟩

end Texts

end Calx.Str
