import Calx.Lib.Stateful
import Calx.Natives.Decimal
import Calx.Number.Numerals
import Calx.Number.Radix
import Calx.Vm.Machine

/-!
# The native functions

The functions of `main.c` that programs can call, on the store of the machine, and the table
in which `make_state` registers them.

## Implementation notes

What a call depends on besides the store is an `Outside`: what is read, the weak references
that have been invalidated by then, and how the module that it evaluates ends. What goes to
`stderr` is left out, which is all that `Dasm` and `Where` do. `X_RawRead` gives `getline`
the addresses of variables that it has not set; what comes of it is a part of the `Outside`.
A number is never its own only reference, because the stack refers to it during the call.
-/

namespace Calx

open Libdeci Positional Stateful

/-! ## What a call depends on -/

/-- What native functions depend on besides their arguments and the store. -/
structure Outside where
  /-- The rest of what a turn of the machine depends on. -/
  base : World
  /-- The line that is entered at the prompt of `Input`. -/
  entered : Option Bytes
  /-- What `getline` does when `X_RawRead` calls it. -/
  line : Except Fault (Option Bytes)
  /-- `getchar`. -/
  byte : Option UInt8
  /-- `clock_gettime`. -/
  clock : Option (Nat × Fin (10 ^ 9))
  /-- The next word of the buffer of `X_Random32`, or the message that there is none. -/
  random : Except String UInt32
  calxPath : Option Bytes
  /-- What can be read from the file at a path. -/
  file : Bytes → Option Bytes
  /-- The names that a rejected source has interned. -/
  tried : List Bytes
  /-- The targets of these weak references have been destroyed. -/
  dead : Nat → Bool
  /-- How the evaluation of a module ends, and the store that it leaves. -/
  evaluated : Except Fault Value × Store

/-- What a native function does. -/
abbrev Act (α : Type) : Type := Action Store Fault α

namespace Act

/-- `state_throw`. -/
def fail {α : Type} (message : Bytes) : Act α := throw (.thrown message)

/-- A check that throws its message. -/
def check {α : Type} : Except String α → Act α
  | .ok a => pure a
  | .error text => fail (bytesOf text)

/-- A computation without the store. -/
def ofFault {α : Type} : Except Fault α → Act α
  | .ok a => pure a
  | .error e => throw e

/-- What has to be there. -/
def need {α : Type} (o : Option α) : Act α := ofFault (orIllegal o)

end Act

/-! ## Arguments -/

/-- `guardv` for the kind of the values that `pick` takes. -/
def guardv {α : Type} (expected : String) (pick : Value → Option α) (args : List Value) (i : Nat) :
    Except String α :=
  match (args[i]?).bind pick with
  | some a => .ok a
  | none => .error (guardText args i expected)

/-- `guardv_opt`. -/
def guardvOpt {α : Type} (expected : String) (pick : Value → Option α) (args : List Value)
    (i : Nat) : Except String (Option α) :=
  match args[i]? with
  | some .nil => .ok none
  | _ => (guardv (expected ++ " or nil") pick args i).map some

def Value.num? : Value → Option Number
  | .num n => some n
  | _ => none

def Value.str? : Value → Option Bytes
  | .str s => some s
  | _ => none

def Value.list? : Value → Option Nat
  | .list id => some id
  | _ => none

def Value.dict? : Value → Option Nat
  | .dict id => some id
  | _ => none

def Value.weakref? : Value → Option Nat
  | .weakref id => some id
  | _ => none

def Value.func? : Value → Option Func
  | .func f => some f
  | _ => none

section

variable [Libdeci]

/-- `guard_base`. -/
def guardBase (x : Number) : Except String Nat :=
  let r := numberToZu x
  if r < 2 ∨ r > 36 then .error "invalid base" else .ok r

/-! ## Kinds and text -/

omit [Libdeci] in
/-- `X_Dasm`. -/
def xDasm (args : List Value) : Act Value := do
  Act.check (guardn args.length 1)
  let _ ← Act.check (guardv "function (bytecode)" Value.func? args 0)
  pure .nil

omit [Libdeci] in
/-- `X_Kind`. -/
def xKind (args : List Value) : Act Value := do
  Act.check (guardn args.length 1)
  let v ← Act.need args[0]?
  pure (.str (bytesOf (valueKindName v)))

/-- `X_Ord`. -/
def xOrd (args : List Value) : Act Value := do
  Act.check (guardn args.length 1)
  let s ← Act.check (guardStr args 0)
  if s.length ≠ 1 then Act.fail (bytesOf "can only be applied to a single-character string")
  else pure (.num (numberNewFromZu (s.headD 0).toNat))

/-- `X_Chr`. -/
def xChr (args : List Value) : Act Value := do
  Act.check (guardn args.length 1)
  let n ← Act.check (guardNum args 0)
  pure (.str [(numberToU32 n).toUInt8])

omit [Libdeci] in
/-- `X_Error`. -/
def xError (args : List Value) : Act Value := do
  Act.check (guardn args.length 1)
  let s ← Act.check (guardStr args 0)
  let ns := if s.length > 8192 then 8192 else s.length
  Act.fail (Globals.printed ns s)

/-! ## Input and output -/

omit [Libdeci] in
/-- `X_Input`. -/
def xInput (o : Outside) (args : List Value) : Act Value := do
  Act.check (guardn args.length 0)
  pure (.str (o.entered.getD []))

/-- The line without the line feed at its end. -/
def chomp (s : Bytes) : Bytes := if s.getLast? = some (ch '\n') then s.dropLast else s

omit [Libdeci] in
/-- `X_RawRead`. -/
def xRawRead (o : Outside) (args : List Value) : Act Value := do
  Act.check (guardn args.length 1)
  let s ← Act.check (guardStr args 0)
  if s = [ch 'L'] then do
    let line ← Act.ofFault o.line
    pure (.str (line.getD []))
  else if s = [ch 's'] then do
    let line ← Act.ofFault o.line
    pure (.str (chomp (line.getD [])))
  else if s = [ch 'B'] then pure (.str o.byte.toList)
  else Act.fail (bytesOf "invalid argument; expected either of: \"L\", \"s\", \"B\"")

omit [Libdeci] in
/-- `X_RawWrite`. -/
def xRawWrite (args : List Value) : Act Value := do
  Act.check (guardn args.length 1)
  let s ← Act.check (guardStr args 0)
  let st ← get
  set { st with out := st.out ++ s }
  pure .nil

/-- What `"%" PRIu64 ".%09" PRIu32` prints. -/
def clockNumeral (sec : Nat) (nsec : Fin (10 ^ 9)) : Numeral 10 where
  neg := false
  frac := fixedDigits 10 9 nsec
  int := if sec = 0 then [0] else Nat.digits 10 sec
  int_ne_nil := by
    split
    · exact List.cons_ne_nil _ _
    · exact Nat.digits_ne_nil_iff_ne_zero.mpr ‹_›
  frac_digits := digits_fixedDigits (by norm_num) _ _
  int_digits := by
    split
    · exact digits_cons.mpr ⟨by norm_num, digits_nil⟩
    · exact fun d hd => Nat.digits_lt_base (by norm_num) hd

/-- `X_Clock`. -/
def xClock (o : Outside) (args : List Value) : Act Value := do
  Act.check (guardn args.length 0)
  match o.clock with
  | none => Act.fail (bytesOf "clock_gettime() failed")
  | some (sec, nsec) => pure (.num (numberParse (clockNumeral sec nsec).text))

omit [Libdeci] in
/-- `X_Where`. -/
def xWhere (args : List Value) : Act Value := do
  Act.check (guardn args.length 0)
  pure .nil

/-- `X_Random32`. -/
def xRandom32 (o : Outside) (args : List Value) : Act Value := do
  Act.check (guardn args.length 0)
  let word ← Act.check o.random
  pure (.num (numberNewFromZu word.toNat))

/-! ## Containers and weak references -/

omit [Libdeci] in
/-- `X_Pop`. -/
def xPop (args : List Value) : Act Value := do
  Act.check (guardn args.length 1)
  let id ← Act.check (guardv "list" Value.list? args 0)
  let st ← get
  let list ← Act.need st.lists[id]?
  match list.getLast? with
  | none => Act.fail (bytesOf "the list is empty")
  | some v => do
      set (st.withContainers (st.containers.setList id list.dropLast))
      pure v

/-- More turns than a table has buckets. -/
def iterFuel : Nat := 2 ^ 32

omit [Libdeci] in
/-- The index of the first key, or of the one after a key. -/
def nextKey (d : Str.Dict) : Option Bytes → Except XhtFault Nat
  | none => xhtIndexedFirst d iterFuel 0
  | some key => xhtIndexedNext iterFuel d key (hashStr key)

omit [Libdeci] in
/-- `X_NextKey`. -/
def xNextKey (args : List Value) : Act Value := do
  Act.check (guardn args.length 2)
  let id ← Act.check (guardv "dict" Value.dict? args 0)
  let s ← Act.check (guardvOpt "string" Value.str? args 1)
  let st ← get
  let d ← Act.need st.dicts[id]?
  let idx ← Act.ofFault ((nextKey d s).mapError XhtFault.fault)
  if idx = noIndex then pure .nil
  else do
    let key ← Act.ofFault ((xhtIndexedKey d idx).mapError XhtFault.fault)
    pure (.str key)

omit [Libdeci] in
/-- `X_RemoveKey`. -/
def xRemoveKey (args : List Value) : Act Value := do
  Act.check (guardn args.length 2)
  let id ← Act.check (guardv "dict" Value.dict? args 0)
  let key ← Act.check (guardStr args 1)
  let st ← get
  let d ← Act.need st.dicts[id]?
  let (_, d) ← Act.ofFault ((xhtRemove Str.chainFuel d key (hashStr key) none).mapError
    XhtFault.fault)
  set (st.withContainers (st.containers.setDict id d))
  pure .nil

omit [Libdeci] in
/-- `X_Wref`. -/
def xWref (args : List Value) : Act Value := do
  Act.check (guardn args.length 1)
  let v ← Act.need args[0]?
  match v with
  | .list _ | .dict _ => do
      let st ← get
      set { st with weakrefs := st.weakrefs ++ [some v] }
      pure (.weakref st.weakrefs.length)
  | _ => Act.fail (bytesOf ("cannot make weakref to " ++ valueKindName v ++ " value"))

omit [Libdeci] in
/-- `X_Wvalue`. -/
def xWvalue (o : Outside) (args : List Value) : Act Value := do
  Act.check (guardn args.length 1)
  let id ← Act.check (guardv "weakref" Value.weakref? args 0)
  let st ← get
  let target ← Act.need st.weakrefs[id]?
  pure (if o.dead id then .nil else target.getD .nil)

/-! ## Numbers -/

/-- `X_Scale` on the store. -/
def xScaleOf (args : List Value) : Act Value := do
  let st ← get
  let (v, ntp) ← Act.check (xScale st.ntp args)
  set { st with ntp := ntp }
  pure v

/-- `X_ToNumber`. -/
def xToNumber (args : List Value) : Act Value := do
  Act.check (guardn args.length 1)
  let s ← Act.check (guardStr args 0)
  if numberParseBaseValidate s 10 = false then Act.fail (bytesOf "invalid number format")
  else pure (.num (numberParse s))

/-- The third argument of `X_Encode`. -/
def encodeScale (args : List Value) : Except String Nat :=
  if args.length = 3 then do
    match ← guardvOpt "number" Value.num? args 2 with
    | some s => guardScale s
    | none => .ok 0
  else .ok 0

/-- `X_Encode`. -/
def xEncode (args : List Value) : Act Value := do
  Act.check (guardnRange args.length 2 3)
  let a ← Act.check (guardNum args 0)
  let b ← Act.check (guardNum args 1)
  let scale ← Act.check (encodeScale args)
  let base ← Act.check (guardBase b)
  let nr ← Act.need (numberTostringBaseSize 65 a base scale)
  if nr = sizeMax then throw .panic
  else do
    let text ← Act.need (numberTostringBase (nr + 1) nr a base scale)
    pure (.str text)

/-- `X_Decode`. -/
def xDecode (args : List Value) : Act Value := do
  Act.check (guardn args.length 2)
  let s ← Act.check (guardStr args 0)
  let b ← Act.check (guardNum args 1)
  let base ← Act.check (guardBase b)
  if numberParseBaseValidate s base = false then Act.fail (bytesOf "invalid number format")
  else do
    let st ← get
    pure (.num (numberParseBase s base st.ntp))

/-- `X_NumDigits`, whose loops end. -/
def xNumDigitsOf (args : List Value) : Act Value := do
  let r ← Act.need (xNumDigits args)
  Act.check r

/-! ## Sources -/

/-- Names are interned in turn. -/
def internAll (names : List Bytes) : Act Unit := do
  let st ← get
  let g ← Act.ofFault ((Globals.globalRun st.globals (names.map .intern)).mapError GlobalFault.fault)
  set { st with globals := g }

/-- `load_string`: `parse` has interned names, whether it has accepted the source or not. -/
def loadString (o : Outside) (source : Bytes) (origin : String) : Act (Option Func) := do
  let st ← get
  match parse st.globals.names source origin with
  | .ok (c, names) => do
      internAll (names.drop st.globals.names.length)
      let f ← Act.need (o.base.mkFunc c 0)
      pure (some f)
  | .error _ => do
      internAll o.tried
      pure none

/-- `X_LoadString`. -/
def xLoadString (o : Outside) (args : List Value) : Act Value := do
  Act.check (guardn args.length 1)
  let s ← Act.check (guardStr args 0)
  match ← loadString o s "(LoadString() arg)" with
  | none => Act.fail (bytesOf "compilation failed")
  | some f => pure (.func f)

omit [Libdeci] in
/-- The path that `X_Require` makes. -/
def modulePath (calxPath s : Bytes) : Bytes :=
  calxPath ++ ch '/' :: Globals.printed s.length s ++ bytesOf ".calx"

/-- The bytes as a text. -/
def textOf (s : Bytes) : String := String.ofList (s.map fun c => Char.ofNat c.toNat)

/-- `X_Require` until it evaluates the module. -/
def requireModule (o : Outside) (args : List Value) : Act Func := do
  Act.check (guardn args.length 1)
  let s ← Act.check (guardStr args 0)
  match o.calxPath with
  | none => Act.fail (bytesOf "cannot Require(): CALX_PATH was not set")
  | some calxPath =>
      if s = [] then Act.fail (bytesOf "empty string passed")
      else if s.any fun c => c = 0 ∨ c = ch '.' ∨ c = ch '/' then
        Act.fail (bytesOf "module name contains prohibited symbol")
      else if s.length > 8192 then Act.fail (bytesOf "module name is too long")
      else
        match o.file (modulePath calxPath s) with
        | none => Act.fail (bytesOf "cannot load module")
        | some source => do
            match ← loadString o source (textOf (modulePath calxPath s)) with
            | none => Act.fail (bytesOf "cannot load module")
            | some f => pure f

/-- The evaluation of a module by `X_Require`; `state_eval` has printed the error. -/
def evaluateModule (o : Outside) : Act Value := do
  set o.evaluated.2
  match o.evaluated.1 with
  | .ok v => pure v
  | .error (.thrown _) => Act.fail (bytesOf "module evaluation failed")
  | .error e => throw e

/-- `X_Require`. -/
def xRequire (o : Outside) (args : List Value) : Act Value := do
  let _ ← requireModule o args
  evaluateModule o

/-! ## The table -/

/-- The native functions in the order in which `make_state` registers them. -/
def natives (o : Outside) : List (String × (List Value → Act Value)) :=
  [("Dasm", xDasm), ("Kind", xKind), ("Pop", xPop), ("RemoveKey", xRemoveKey), ("Input", xInput o),
    ("Ord", xOrd), ("Chr", xChr), ("Error", xError), ("RawRead", xRawRead o),
    ("RawWrite", xRawWrite), ("Clock", xClock o), ("Scale", xScaleOf), ("Where", xWhere),
    ("Random32", xRandom32 o), ("trunc", fun args => Act.check (xTrunc args)),
    ("floor", fun args => Act.check (xFloor args)), ("ceil", fun args => Act.check (xCeil args)),
    ("round", fun args => Act.check (xRound args)), ("frac", fun args => Act.check (xFrac args)),
    ("LoadString", xLoadString o), ("Require", xRequire o), ("NextKey", xNextKey),
    ("ToNumber", xToNumber), ("Encode", xEncode), ("Decode", xDecode),
    ("NumDigits", xNumDigitsOf), ("DownScale", fun args => Act.check (xDownScale args)),
    ("UpScale", fun args => Act.check (xUpScale args)), ("Wref", xWref), ("Wvalue", xWvalue o)]

/-- The world of a turn of the machine, with the native functions of the table. -/
def Outside.world (o : Outside) : World :=
  { o.base with natives := fun id st args =>
      match (natives o)[id]? with
      | some x => outcome (x.2 args) st
      | none => (.error .illegal, st) }

end

end Calx
