import Calx.FunSound
import Calx.Str.Dict
import Calx.Vm.Operators

/-!
# Globals

The globals of the state: a hash table from names to indices next to an array of
values, with `state_intern_global`, `state_steal_global` and the instructions that
use an index. The two grow together, so that an index compiled into a chunk names
the same variable for as long as the state lives.

## Implementation notes

A null value is `none`. An instruction that fails with a message leaves the
globals as they are; a fault ends the process.
-/

namespace Calx

open Libdeci Xht

/-- What ends the process at an access to the globals. -/
inductive GlobalFault
  /-- What the hash table ran into. -/
  | table (fault : XhtFault)
  /-- `UU_PANIC_OOM`. -/
  | outOfMemory
  | outOfBounds
  /-- `UU_PANIC` of an operator. -/
  | panic (text : String)
deriving DecidableEq

/-- `GlobalList`, with its `size` as the length of the data. -/
structure GlobalList where
  data : List (Option Value)
  capacity : Nat

/-- The fields of `State` for the globals. -/
structure Globals where
  globalsTable : Xht Nat
  globals : GlobalList

namespace Globals

/-- `state_new`. -/
def stateNew : Globals := ⟨xhtNew 0, ⟨[], 0⟩⟩

/-- A call on the table. -/
def ofXht {α : Type} : Except XhtFault α → Except GlobalFault α := Except.mapError .table

/-- `globals.data[globals.size++] = NULL`, after `uu_x2realloc` when the array is full. -/
def appendNull (l : GlobalList) : Except GlobalFault GlobalList := do
  let capacity ←
    if l.data.length = l.capacity then
      if doubled l.capacity < 2 ^ 61 then pure (doubled l.capacity) else throw .outOfMemory
    else pure l.capacity
  if l.data.length < capacity then pure ⟨l.data ++ [none], capacity⟩ else throw .outOfBounds

/-- `state_intern_global`; the sizes and indices are truncated to 32 bits. -/
def stateInternGlobal (s : Globals) (name : Bytes) : Except GlobalFault (Nat × Globals) := do
  let oldSize := s.globals.data.length % 2 ^ 32
  let (i, table) ← ofXht (xhtPut Str.chainFuel s.globalsTable name (hashStr name) oldSize)
  let item ← ofXht (xhtLoad table.items i)
  let idx := item.value % 2 ^ 32
  if idx = oldSize then do
    let globals ← appendNull s.globals
    pure (idx, ⟨table, globals⟩)
  else pure (idx, { s with globalsTable := table })

/-- `state->globals.data[c]`. -/
def globalAt (s : Globals) (c : Nat) : Except GlobalFault (Option Value) :=
  match s.globals.data[c]? with
  | some v => .ok v
  | none => .error .outOfBounds

/-- `checked_store` to `state->globals.data[c]`. -/
def checkedStore (s : Globals) (c : Nat) (v : Value) : Except GlobalFault Globals := do
  let _ ← globalAt s c
  pure { s with globals := { s.globals with data := s.globals.data.set c (some v) } }

/-- `state_steal_global`. -/
def stateStealGlobal (s : Globals) (name : Bytes) (v : Value) : Except GlobalFault Globals := do
  let (idx, s) ← stateInternGlobal s name
  checkedStore s idx v

/-- What `%.*s` prints of a text: at most `n` bytes, and none from a zero byte on. -/
def printed (n : Nat) (text : Bytes) : Bytes := (text.take n).takeWhile (· ≠ 0)

/-- `missing_global`: the error message that it prepares. -/
def missingGlobal (s : Globals) (idx : Nat) : Except GlobalFault Bytes := do
  let name ← ofXht (xhtIndexedKey s.globalsTable idx)
  let nname := if name.length > 8192 then 8192 else name.length
  pure (bytesOf "undefined global '" ++ printed nname name ++ bytesOf "'")

/-! ## Instructions -/

/-- How an instruction on a global ends. -/
inductive GlobalResult
  | loaded (v : Value)
  | stored
  /-- The error message that has been prepared. -/
  | thrown (message : Bytes)

/-- `OP_LOAD_GLOBAL`. -/
def opLoadGlobal (s : Globals) (c : Nat) : Except GlobalFault GlobalResult := do
  match ← globalAt s c with
  | some v => pure (.loaded v)
  | none => do
      let message ← missingGlobal s c
      pure (.thrown message)

/-- `OP_STORE_GLOBAL`. -/
def opStoreGlobal (s : Globals) (c : Nat) (v : Value) : Except GlobalFault Globals :=
  checkedStore s c v

/-- `OP_MODIFY_GLOBAL`. -/
def opModifyGlobal [Libdeci] (ntp : NumberTruncateParams) (sh : Sharing) (aop : Aop) (s : Globals)
    (c : Nat) (v : Value) : Except GlobalFault (GlobalResult × Globals) := do
  match ← globalAt s c with
  | none => do
      let message ← missingGlobal s c
      pure (.thrown message, s)
  | some x =>
      match performAop ntp sh aop x v with
      | .ok r => do
          let s ← checkedStore s c r
          pure (.stored, s)
      | .error (.prepared text) => pure (.thrown (bytesOf text), s)
      | .error (.panic text) => throw (.panic text)

/-! ## Runs -/

/-- What the program does with its globals: native registration and the compiler intern names, the
machine uses indices. -/
inductive GlobalCall
  | intern (name : Bytes)
  | steal (name : Bytes) (v : Value)
  | load (c : Nat)
  | store (c : Nat) (v : Value)
  | modify (ntp : NumberTruncateParams) (sh : Sharing) (aop : Aop) (c : Nat) (v : Value)

/-- The globals after a call. -/
def globalCall [Libdeci] (s : Globals) : GlobalCall → Except GlobalFault Globals
  | .intern name => do
      let (_, s) ← stateInternGlobal s name
      pure s
  | .steal name v => stateStealGlobal s name v
  | .load c => do
      let _ ← opLoadGlobal s c
      pure s
  | .store c v => opStoreGlobal s c v
  | .modify ntp sh aop c v => do
      let (_, s) ← opModifyGlobal ntp sh aop s c v
      pure s

/-- The calls in turn. -/
def globalRun [Libdeci] (s : Globals) (calls : List GlobalCall) : Except GlobalFault Globals :=
  calls.foldlM globalCall s

/-! ## The invariant -/

/-- The names of the globals, in the order of their indices. -/
def names (s : Globals) : List Bytes := s.globalsTable.items.map XhtItem.key

/-- The table and the array fit together. -/
structure Wf (s : Globals) : Prop where
  table : s.globalsTable.Wf hashStr
  size : s.globalsTable.items.length = s.globals.data.length
  values : s.globalsTable.items.map XhtItem.value = List.range s.globalsTable.items.length
  capacity : s.globals.data.length ≤ s.globals.capacity
  growth : s.globals.capacity ≤ 2 * s.globals.data.length

variable {s t : Globals} {name : Bytes} {idx i c : Nat} {v : Value}

theorem wf_stateNew : stateNew.Wf where
  table := wf_new (Nat.zero_le 31)
  size := rfl
  values := rfl
  capacity := le_rfl
  growth := le_rfl

@[simp] theorem length_names : s.names.length = s.globalsTable.items.length := List.length_map _

theorem names_eq_entries : s.names = s.globalsTable.entries.map Prod.fst := by
  simp [names, entries]

theorem Wf.nodup (h : s.Wf) : s.names.Nodup := by
  rw [names_eq_entries]
  exact h.table.distinct

theorem Wf.index_inj (h : s.Wf) {j : Nat} (hi : s.names[i]? = some name)
    (hj : s.names[j]? = some name) : i = j :=
  (List.getElem?_inj (List.getElem?_eq_some_iff.mp hi).1 h.nodup).mp (hi.trans hj.symm)

theorem Wf.lt_size (h : s.Wf) (hi : s.names[i]? = some name) : i < s.globals.data.length := by
  rw [← h.size, ← length_names]
  exact (List.getElem?_eq_some_iff.mp hi).1

theorem Wf.length_lt (h : s.Wf) : s.globals.data.length < 2 ^ 32 := by
  have hle := h.table.length_le
  rw [h.size] at hle
  unfold maxItems at hle
  omega

theorem Wf.value_eq (h : s.Wf) {item : XhtItem Nat} (hi : s.globalsTable.items[i]? = some item) :
    item.value = i := by
  have hlt := (List.getElem?_eq_some_iff.mp hi).1
  have hmap := congrArg (·[i]?) h.values
  rw [List.getElem?_map, hi, List.getElem?_range hlt, Option.map_some] at hmap
  exact Option.some.inj hmap

theorem appendNull_spec {l : GlobalList} (hcap : l.data.length ≤ l.capacity)
    (hgrowth : l.capacity ≤ 2 * l.data.length) (hroom : l.data.length < maxItems) :
    ∃ capacity, appendNull l = .ok ⟨l.data ++ [none], capacity⟩ ∧ l.data.length + 1 ≤ capacity ∧
      capacity ≤ 2 * (l.data.length + 1) := by
  unfold maxItems at hroom
  by_cases hfull : l.data.length = l.capacity
  · have hdoubled : l.capacity < doubled l.capacity ∧ doubled l.capacity ≤ 2 * (l.capacity + 1) := by
      unfold doubled
      split <;> omega
    have hsmall : doubled l.capacity < 2 ^ 61 := by omega
    have hlt : l.data.length < doubled l.capacity := by omega
    refine ⟨doubled l.capacity, ?_, by omega, by omega⟩
    simp only [appendNull, if_pos hfull, if_pos hsmall, pure_bind, if_pos hlt]
    rfl
  · have hlt : l.data.length < l.capacity := by omega
    refine ⟨l.capacity, ?_, by omega, by omega⟩
    simp only [appendNull, if_neg hfull, pure_bind, if_pos hlt]
    rfl

/-! ## Interning -/

/-- `state_intern_global` after its call of `xht_put`. -/
theorem stateInternGlobal_eq {table : Xht Nat} {item : XhtItem Nat}
    (hput : xhtPut Str.chainFuel s.globalsTable name (hashStr name)
      (s.globals.data.length % 2 ^ 32) = .ok (i, table))
    (hitem : table.items[i]? = some item) :
    stateInternGlobal s name =
      if item.value % 2 ^ 32 = s.globals.data.length % 2 ^ 32 then
        (appendNull s.globals).map fun l => (item.value % 2 ^ 32, ⟨table, l⟩)
      else .ok (item.value % 2 ^ 32, { s with globalsTable := table }) := by
  simp only [stateInternGlobal, hput, ofXht, Except.mapError, xhtLoad_eq_ok.mpr hitem, bind,
    Except.bind]
  split
  · cases appendNull s.globals <;> rfl
  · rfl

theorem Wf.fuel (h : s.Wf) : s.globalsTable.items.length < Str.chainFuel :=
  Nat.lt_succ_of_le h.table.length_le

/-- A name that is there keeps its index, and nothing changes. -/
theorem stateInternGlobal_known (h : s.Wf) {item : XhtItem Nat}
    (hi : s.globalsTable.items[i]? = some item) : stateInternGlobal s item.key = .ok (i, s) := by
  have hlt : i < s.globals.data.length := h.size ▸ (List.getElem?_eq_some_iff.mp hi).1
  have hsmall := h.length_lt
  obtain ⟨b, hb, hfind⟩ := h.table.find_some hi h.fuel
  have hput : xhtPut Str.chainFuel s.globalsTable item.key (hashStr item.key)
      (s.globals.data.length % 2 ^ 32) = .ok (i, s.globalsTable) := by
    simp [xhtPut, xhtLoad_eq_ok.mpr hb, hfind, bind, Except.bind, pure, Except.pure]
  have hvalue : item.value % 2 ^ 32 = i := by
    rw [h.value_eq hi, Nat.mod_eq_of_lt (by omega)]
  rw [stateInternGlobal_eq hput hi, hvalue, Nat.mod_eq_of_lt hsmall, if_neg (by omega)]

/-- A new name gets the next index, and its global is undefined. -/
theorem stateInternGlobal_new (h : s.Wf) (hnew : name ∉ s.names)
    (hroom : s.globals.data.length < maxItems) :
    ∃ t, stateInternGlobal s name = .ok (s.globals.data.length, t) ∧ t.Wf ∧
      t.names = s.names ++ [name] ∧ t.globals.data = s.globals.data ++ [none] := by
  have hsmall : s.globals.data.length % 2 ^ 32 = s.globals.data.length :=
    Nat.mod_eq_of_lt h.length_lt
  rw [names_eq_entries] at hnew
  obtain ⟨b, hb, hfind⟩ := h.table.find_none hnew h.fuel
  obtain ⟨table, hinsert, hwf, hentries⟩ := insert_spec h.table hnew (h.size ▸ hroom)
    s.globals.data.length
  obtain ⟨capacity, happend, hcap, hgrowth⟩ := appendNull_spec h.capacity h.growth hroom
  have hput : xhtPut Str.chainFuel s.globalsTable name (hashStr name)
      (s.globals.data.length % 2 ^ 32) = .ok (s.globalsTable.items.length, table) := by
    rw [hsmall]
    simp [xhtPut, xhtLoad_eq_ok.mpr hb, hfind, hinsert, bind, Except.bind]
  have hvalues : table.items.map XhtItem.value =
      s.globalsTable.items.map XhtItem.value ++ [s.globals.data.length] := by
    simpa [entries, Function.comp_def] using congrArg (List.map fun e => e.2.1) hentries
  have hlength : table.items.length = s.globalsTable.items.length + 1 := by
    simpa using congrArg List.length hentries
  have hitem : ∃ item, table.items[s.globalsTable.items.length]? = some item ∧
      item.value = s.globals.data.length := by
    have hlast : (table.items.map XhtItem.value)[s.globalsTable.items.length]? =
        some s.globals.data.length := by
      rw [hvalues]
      simp
    rwa [List.getElem?_map, Option.map_eq_some_iff] at hlast
  obtain ⟨item, hi, hvalue⟩ := hitem
  refine ⟨⟨table, ⟨s.globals.data ++ [none], capacity⟩⟩, ?_, ?_, ?_, rfl⟩
  · rw [stateInternGlobal_eq hput hi, hvalue, if_pos rfl, hsmall, happend]
    rfl
  · constructor
    · exact hwf
    · rw [hlength, h.size, List.length_append, List.length_singleton]
    · rw [hvalues, h.values, hlength, List.range_succ, h.size]
    · rwa [List.length_append, List.length_singleton]
    · rwa [List.length_append, List.length_singleton]
  · simpa [names, entries, Function.comp_def] using congrArg (List.map Prod.fst) hentries

/-- With the table full a new name ends the process. -/
theorem stateInternGlobal_full (h : s.Wf) (hnew : name ∉ s.names)
    (hfull : s.globals.data.length = maxItems) :
    stateInternGlobal s name = .error (.table .panic) := by
  rw [names_eq_entries] at hnew
  obtain ⟨b, hb, hfind⟩ := h.table.find_none hnew h.fuel
  have hput : xhtPut Str.chainFuel s.globalsTable name (hashStr name)
      (s.globals.data.length % 2 ^ 32) = .error .panic := by
    simp [xhtPut, xhtLoad_eq_ok.mpr hb, hfind, insert_panics h.table (h.size.trans hfull), bind,
      Except.bind]
  simp only [stateInternGlobal, hput, ofXht, Except.mapError, bind, Except.bind]

/-- A name that is there has an item. -/
theorem exists_item (hname : name ∈ s.names) :
    ∃ (i : Nat) (item : XhtItem Nat), s.globalsTable.items[i]? = some item ∧ item.key = name := by
  obtain ⟨item, hmem, hkey⟩ := List.mem_map.mp hname
  obtain ⟨i, hi⟩ := List.mem_iff_getElem?.mp hmem
  exact ⟨i, item, hi, hkey⟩

/-- What `state_intern_global` does when it returns. -/
structure Interned (s : Globals) (name : Bytes) (idx : Nat) (t : Globals) : Prop where
  wf : t.Wf
  names : t.names = if name ∈ s.names then s.names else s.names ++ [name]
  key : t.names[idx]? = some name
  values : t.globals.data = if name ∈ s.names then s.globals.data else s.globals.data ++ [none]
  fresh : name ∉ s.names → idx = s.globals.data.length

/-- `state_intern_global` returns, unless a new name meets a full table. -/
theorem stateInternGlobal_spec (h : s.Wf) (name : Bytes) :
    (∃ idx t, stateInternGlobal s name = .ok (idx, t) ∧ Interned s name idx t) ∨
      (name ∉ s.names ∧ s.globals.data.length = maxItems ∧
        stateInternGlobal s name = .error (.table .panic)) := by
  by_cases hname : name ∈ s.names
  · left
    obtain ⟨i, item, hi, rfl⟩ := exists_item hname
    refine ⟨i, s, stateInternGlobal_known h hi, h, ?_, ?_, ?_, fun hnew => absurd hname hnew⟩
    · rw [if_pos hname]
    · rw [names, List.getElem?_map, hi, Option.map_some]
    · rw [if_pos hname]
  · by_cases hfull : s.globals.data.length = maxItems
    · right
      exact ⟨hname, hfull, stateInternGlobal_full h hname hfull⟩
    · left
      have hle := h.table.length_le
      rw [h.size] at hle
      obtain ⟨t, hrun, hwf, hnames, hdata⟩ := stateInternGlobal_new h hname (by omega)
      refine ⟨_, t, hrun, hwf, ?_, ?_, ?_, fun _ => rfl⟩
      · rw [if_neg hname, hnames]
      · rw [hnames, ← h.size, ← length_names]
        simp
      · rw [if_neg hname, hdata]

theorem Interned.of_ok (h : s.Wf) (hrun : stateInternGlobal s name = .ok (idx, t)) :
    Interned s name idx t := by
  obtain ⟨idx', t', hrun', hint⟩ | ⟨-, -, hpanic⟩ := stateInternGlobal_spec h name
  · rw [hrun, Except.ok.injEq, Prod.mk.injEq] at hrun'
    obtain ⟨rfl, rfl⟩ := hrun'
    exact hint
  · rw [hrun] at hpanic
    cases hpanic

/-- On the names `state_intern_global` does what the compiler's list of names says. -/
theorem Interned.putName (hs : s.Wf) (h : Interned s name idx t) :
    Calx.stateInternGlobal s.names name = (idx, t.names) := by
  have hkey := h.key
  rw [h.names] at hkey
  rw [Calx.stateInternGlobal, Calx.putName, h.names]
  by_cases hname : name ∈ s.names
  · rw [if_pos hname] at hkey
    rw [if_pos hname, if_pos hname]
    rw [hs.index_inj (List.getElem?_idxOf hname) hkey]
  · rw [if_neg hname, if_neg hname, h.fresh hname, ← hs.size, length_names]

theorem Interned.names_prefix (h : Interned s name idx t) : s.names <+: t.names := by
  rw [h.names]
  split
  · exact List.prefix_rfl
  · exact List.prefix_append _ _

theorem Interned.values_prefix (h : Interned s name idx t) : s.globals.data <+: t.globals.data := by
  rw [h.values]
  split
  · exact List.prefix_rfl
  · exact List.prefix_append _ _

/-! ## Messages -/

theorem indexedKey_eq_ok : xhtIndexedKey s.globalsTable idx = .ok name ↔ s.names[idx]? = some name := by
  rw [xhtIndexedKey, xhtLoad, names, List.getElem?_map]
  cases s.globalsTable.items[idx]? with
  | none => simp [bind, Except.bind]
  | some item => simp [bind, Except.bind, pure, Except.pure]

/-- The message about an undefined global. -/
def undefinedGlobal (name : Bytes) : Bytes :=
  bytesOf "undefined global '" ++ printed 8192 name ++ bytesOf "'"

theorem missingGlobal_eq (hkey : s.names[idx]? = some name) :
    missingGlobal s idx = .ok (undefinedGlobal name) := by
  have hprinted : printed (if name.length > 8192 then 8192 else name.length) name =
      printed 8192 name := by
    split
    · rfl
    · rw [printed, printed, List.take_of_length_le (by omega), List.take_of_length_le (by omega)]
  rw [missingGlobal, ofXht, indexedKey_eq_ok.mpr hkey]
  dsimp only [Except.mapError, bind, Except.bind]
  rw [hprinted]
  rfl

/-- An identifier is printed up to the bound. -/
theorem printed_identifier {n : Nat} (hname : ∀ c ∈ name, isIdentByte c = true) :
    printed n name = name.take n := by
  rw [printed, List.takeWhile_eq_self_iff]
  intro c hc
  have hident := hname c (List.mem_of_mem_take hc)
  rw [decide_eq_true_eq]
  rintro rfl
  revert hident
  decide

/-! ## Calls -/

/-- A call gives the variable with this name and index a value. -/
def GlobalCall.Assigns (name : Bytes) (idx : Nat) : GlobalCall → Prop
  | .intern _ | .load _ => False
  | .steal name' _ => name' = name
  | .store c _ | .modify _ _ _ c _ => c = idx

/-- What a call keeps: the variables there are, and the values of those that it does not assign. -/
structure Keeps (s t : Globals) (assigns : Bytes → Nat → Prop) : Prop where
  wf : t.Wf
  names : s.names <+: t.names
  values : ∀ name idx, s.names[idx]? = some name → ¬ assigns name idx →
    t.globals.data[idx]? = s.globals.data[idx]?

theorem Keeps.refl (h : s.Wf) (assigns : Bytes → Nat → Prop) : Keeps s s assigns :=
  ⟨h, List.prefix_rfl, fun _ _ _ _ => rfl⟩

theorem Keeps.trans {u : Globals} {P Q R : Bytes → Nat → Prop} (h : Keeps s t P) (h' : Keeps t u Q)
    (hP : ∀ name idx, P name idx → R name idx) (hQ : ∀ name idx, Q name idx → R name idx) :
    Keeps s u R where
  wf := h'.wf
  names := h.names.trans h'.names
  values name idx hkey hnot := by
    have hkey' := getElem?_of_isPrefix h.names hkey
    rw [h'.values name idx hkey' fun hq => hnot (hQ _ _ hq), h.values name idx hkey fun hp =>
      hnot (hP _ _ hp)]

theorem Interned.keeps (hs : s.Wf) (h : Interned s name idx t) : Keeps s t fun _ _ => False where
  wf := h.wf
  names := h.names_prefix
  values name' idx' hkey _ := by
    have hlt := hs.lt_size hkey
    rw [List.getElem?_eq_getElem hlt]
    exact getElem?_of_isPrefix h.values_prefix (List.getElem?_eq_getElem hlt)

theorem globalAt_eq_ok {o : Option Value} : globalAt s c = .ok o ↔ s.globals.data[c]? = some o := by
  rw [globalAt]
  cases s.globals.data[c]? <;> simp

theorem checkedStore_ok (hrun : checkedStore s c v = .ok t) : c < s.globals.data.length ∧
    t = { s with globals := { s.globals with data := s.globals.data.set c (some v) } } := by
  obtain ⟨o, ho, hrun⟩ := bind_ok hrun
  exact ⟨(List.getElem?_eq_some_iff.mp (globalAt_eq_ok.mp ho)).1, (Except.ok.inj hrun).symm⟩

/-- A store changes one value and no name. -/
theorem checkedStore_keeps (h : s.Wf) (hrun : checkedStore s c v = .ok t) :
    Keeps s t (fun _ idx => c = idx) ∧ t.globals.data[c]? = some (some v) := by
  obtain ⟨hc, rfl⟩ := checkedStore_ok hrun
  constructor
  · refine ⟨?_, List.prefix_rfl, fun name idx _ hne => List.getElem?_set_ne hne⟩
    constructor
    · exact h.table
    · rw [List.length_set]
      exact h.size
    · exact h.values
    · rw [List.length_set]
      exact h.capacity
    · rw [List.length_set]
      exact h.growth
  · exact List.getElem?_set_self hc

/-- `state_steal_global` gives the variable with the name its value. -/
theorem stateStealGlobal_keeps (h : s.Wf) (hrun : stateStealGlobal s name v = .ok t) :
    Keeps s t (fun name' _ => name = name') ∧
      ∃ idx : Nat, t.names[idx]? = some name ∧ t.globals.data[idx]? = some (some v) := by
  obtain ⟨⟨idx, u⟩, hint, hrun⟩ := bind_ok hrun
  have hint := Interned.of_ok h hint
  obtain ⟨hstore, hvalue⟩ := checkedStore_keeps hint.wf hrun
  obtain ⟨-, rfl⟩ := checkedStore_ok hrun
  constructor
  · refine ⟨hstore.wf, hint.names_prefix, fun name' idx' hkey hne => ?_⟩
    have hkey' := getElem?_of_isPrefix hint.names_prefix hkey
    have hidx : idx ≠ idx' := by
      rintro rfl
      exact hne (Option.some.inj (hint.key.symm.trans hkey'))
    rw [hstore.values name' idx' hkey' hidx]
    exact (hint.keeps h).values name' idx' hkey id
  · exact ⟨idx, hint.key, hvalue⟩

section

variable [Libdeci]

theorem opModifyGlobal_keeps {ntp : NumberTruncateParams} {sh : Sharing} {aop : Aop}
    {r : GlobalResult} (h : s.Wf) (hrun : opModifyGlobal ntp sh aop s c v = .ok (r, t)) :
    Keeps s t fun _ idx => c = idx := by
  obtain ⟨o, -, hrun⟩ := bind_ok hrun
  cases o with
  | none =>
      obtain ⟨message, -, hrun⟩ := bind_ok hrun
      obtain ⟨-, rfl⟩ := Prod.mk.inj (Except.ok.inj hrun)
      exact Keeps.refl h _
  | some x =>
      dsimp only at hrun
      cases haop : performAop ntp sh aop x v with
      | ok z =>
          rw [haop] at hrun
          obtain ⟨u, hstore, hrun⟩ := bind_ok hrun
          obtain ⟨-, rfl⟩ := Prod.mk.inj (Except.ok.inj hrun)
          exact (checkedStore_keeps h hstore).1
      | error e =>
          rw [haop] at hrun
          cases e with
          | prepared text =>
              obtain ⟨-, rfl⟩ := Prod.mk.inj (Except.ok.inj hrun)
              exact Keeps.refl h _
          | panic text => cases hrun

/-- A call keeps all variables, and the values of those that it does not assign. -/
theorem globalCall_keeps {call : GlobalCall} (h : s.Wf) (hrun : globalCall s call = .ok t) :
    Keeps s t fun name idx => call.Assigns name idx := by
  cases call with
  | intern name =>
      obtain ⟨⟨idx, u⟩, hint, hrun⟩ := bind_ok hrun
      obtain rfl := Except.ok.inj hrun
      exact (Interned.of_ok h hint).keeps h
  | steal name v => exact (stateStealGlobal_keeps h hrun).1
  | load c =>
      obtain ⟨r, -, hrun⟩ := bind_ok hrun
      obtain rfl := Except.ok.inj hrun
      exact Keeps.refl h _
  | store c v => exact (checkedStore_keeps h hrun).1
  | modify ntp sh aop c v =>
      obtain ⟨⟨r, u⟩, hmod, hrun⟩ := bind_ok hrun
      obtain rfl := Except.ok.inj hrun
      exact opModifyGlobal_keeps h hmod

/-- Any sequence of calls keeps all variables, and the values of those that no call assigns. -/
theorem globalRun_keeps {calls : List GlobalCall} (h : s.Wf) (hrun : globalRun s calls = .ok t) :
    Keeps s t fun name idx => ∃ call ∈ calls, call.Assigns name idx := by
  induction calls generalizing s with
  | nil =>
      obtain rfl := Except.ok.inj hrun
      exact Keeps.refl h _
  | cons call calls ih =>
      obtain ⟨u, hcall, hrun⟩ := bind_ok hrun
      have hstep := globalCall_keeps h hcall
      refine hstep.trans (ih hstep.wf hrun) ?_ ?_
      · intro name idx ha
        exact ⟨call, List.mem_cons_self, ha⟩
      · rintro name idx ⟨later, hmem, ha⟩
        exact ⟨later, List.mem_cons_of_mem _ hmem, ha⟩

theorem run_wf {calls : List GlobalCall} (hrun : globalRun stateNew calls = .ok s) : s.Wf :=
  (globalRun_keeps wf_stateNew hrun).wf

end

/-! ## Interning over whole runs -/

/-- The table has one entry for each global, entry number `i` has the value `i`, and no two entries
have one name. -/
structure Bijective (s : Globals) : Prop where
  size : xhtSize s.globalsTable = s.globals.data.length
  value : ∀ (i : Nat) (item : XhtItem Nat), s.globalsTable.items[i]? = some item → item.value = i
  distinct : ∀ (i j : Nat) (name : Bytes), xhtIndexedKey s.globalsTable i = .ok name →
    xhtIndexedKey s.globalsTable j = .ok name → i = j

theorem Wf.bijective (h : s.Wf) : s.Bijective where
  size := h.size
  value _ _ hi := h.value_eq hi
  distinct _ _ _ hi hj := h.index_inj (indexedKey_eq_ok.mp hi) (indexedKey_eq_ok.mp hj)

/-- What interning a name in `s` has done in `t`. -/
structure Fresh (s : Globals) (name : Bytes) (idx : Nat) (t : Globals) : Prop where
  /-- A new name gets the next index, and its global is undefined. -/
  undefined : (∀ i, xhtIndexedKey s.globalsTable i ≠ .ok name) →
    idx = s.globals.data.length ∧ t.globals.data[idx]? = some none
  /-- Every global keeps its value. -/
  kept : ∀ i < s.globals.data.length, t.globals.data[i]? = s.globals.data[i]?

/-- What an index and its name are to each other in a state. -/
structure Names (s : Globals) (name : Bytes) (idx : Nat) : Prop where
  lt : idx < s.globals.data.length
  key : xhtIndexedKey s.globalsTable idx = .ok name
  /-- The name gets this index again. -/
  again : stateInternGlobal s name = .ok (idx, s)
  /-- No other name gets this index. -/
  other : ∀ name' idx' s', stateInternGlobal s name' = .ok (idx', s') → name' ≠ name → idx' ≠ idx
  message : missingGlobal s idx = .ok (undefinedGlobal name)

theorem Wf.names_of_key (h : s.Wf) (hkey : s.names[idx]? = some name) : Names s name idx where
  lt := h.lt_size hkey
  key := indexedKey_eq_ok.mpr hkey
  message := missingGlobal_eq hkey
  again := by
    rw [names, List.getElem?_map, Option.map_eq_some_iff] at hkey
    obtain ⟨item, hi, rfl⟩ := hkey
    exact stateInternGlobal_known h hi
  other name' idx' s' hrun hne heq := by
    have hint := Interned.of_ok h hrun
    have hkey' := getElem?_of_isPrefix hint.names_prefix hkey
    subst heq
    exact hne (Option.some.inj (hint.key.symm.trans hkey'))

theorem Interned.isFresh (h : Interned s name idx t) : Fresh s name idx t where
  undefined hnew := by
    have hname : name ∉ s.names := by
      intro hmem
      obtain ⟨i, hi⟩ := List.mem_iff_getElem?.mp hmem
      exact hnew i (indexedKey_eq_ok.mpr hi)
    refine ⟨h.fresh hname, ?_⟩
    rw [h.values, if_neg hname, h.fresh hname]
    exact List.getElem?_concat_length
  kept i hi := by
    rw [List.getElem?_eq_getElem hi]
    exact getElem?_of_isPrefix h.values_prefix (List.getElem?_eq_getElem hi)

/-- Whatever has been called before and is called after, interning a name gives it an index that
stays its own; the name is reported up to its first 8192 bytes. -/
theorem interning_stable [Libdeci] {calls later : List GlobalCall}
    (hs : globalRun stateNew calls = .ok s) (hi : stateInternGlobal s name = .ok (idx, t))
    {s' : Globals} (hl : globalRun t later = .ok s') :
    (s.Bijective ∧ t.Bijective ∧ s'.Bijective) ∧ Fresh s name idx t ∧ Names s' name idx ∧
      ((∀ call ∈ later, ¬ call.Assigns name idx) → s'.globals.data[idx]? = t.globals.data[idx]?) ∧
      ((∀ c ∈ name, isIdentByte c = true) → printed 8192 name = name.take 8192) := by
  have hwf := run_wf hs
  have hint := Interned.of_ok hwf hi
  have hkeeps := globalRun_keeps hint.wf hl
  have hkey := getElem?_of_isPrefix hkeeps.names hint.key
  refine ⟨⟨hwf.bijective, hint.wf.bijective, hkeeps.wf.bijective⟩, hint.isFresh,
    hkeeps.wf.names_of_key hkey, fun hnone => ?_, printed_identifier⟩
  apply hkeeps.values name idx hint.key
  rintro ⟨call, hmem, ha⟩
  exact hnone call hmem ha

/-- The third variable of a program, before the first one is assigned again. -/
theorem interning_stable_of_x : ∃ s t s',
    (s.Bijective ∧ t.Bijective ∧ s'.Bijective) ∧ Fresh s (bytesOf "x") 2 t ∧
      Names s' (bytesOf "x") 2 ∧
      ((∀ call ∈ [GlobalCall.store 0 .nil, .intern (bytesOf "y")],
        ¬ call.Assigns (bytesOf "x") 2) → s'.globals.data[2]? = t.globals.data[2]?) ∧
      ((∀ c ∈ bytesOf "x", isIdentByte c = true) →
        printed 8192 (bytesOf "x") = (bytesOf "x").take 8192) := by
  let := libdeciByValue
  have hs : ∃ s, globalRun stateNew [.steal (bytesOf "a") .nil, .intern (bytesOf "b")] = .ok s ∧
      ∃ t, stateInternGlobal s (bytesOf "x") = .ok (2, t) ∧
        ∃ s', globalRun t [.store 0 .nil, .intern (bytesOf "y")] = .ok s' :=
    ⟨_, rfl, _, rfl, _, rfl⟩
  obtain ⟨s, hs, t, hi, s', hl⟩ := hs
  exact ⟨s, t, s', interning_stable hs hi hl⟩

/-- A name of more than 8192 bytes is not reported whole. -/
theorem missing_global_cuts_name : ¬ ∀ (s t : Globals) (name : Bytes) (idx : Nat),
    @globalRun libdeciByValue stateNew [] = .ok s → stateInternGlobal s name = .ok (idx, t) →
      (∀ c ∈ name, isIdentByte c = true) →
      missingGlobal t idx = .ok (bytesOf "undefined global '" ++ name ++ bytesOf "'") := by
  intro h
  obtain ⟨name, hlen, hident⟩ : ∃ name : Bytes, name.length = 8193 ∧
      ∀ c ∈ name, isIdentByte c = true := by
    refine ⟨List.replicate 8193 (ch 'a'), List.length_replicate, fun c hc => ?_⟩
    rw [List.eq_of_mem_replicate hc]
    decide
  have hnew : name ∉ stateNew.names := List.not_mem_nil
  obtain ⟨t, hrun, hwf, hnames, -⟩ := stateInternGlobal_new wf_stateNew hnew (by decide)
  have hkey : t.names[0]? = some name := by
    rw [hnames]
    rfl
  have hwhole := h stateNew t name 0 rfl hrun hident
  rw [missingGlobal_eq hkey, undefinedGlobal, printed_identifier hident] at hwhole
  have hlength := congrArg List.length (Except.ok.inj hwhole)
  simp only [List.length_append, List.length_take, hlen] at hlength
  omega

/-! ## The compiler -/

/-- Interning names one after the other. -/
theorem globalRun_intern [Libdeci] (h : s.Wf) {xs : List Bytes}
    (hrun : globalRun s (xs.map .intern) = .ok t) : t.names = putNames s.names xs := by
  induction xs generalizing s with
  | nil =>
      obtain rfl := Except.ok.inj hrun
      rfl
  | cons x xs ih =>
      obtain ⟨u, hcall, hrun⟩ := bind_ok hrun
      obtain ⟨⟨idx, u'⟩, hint, hcall⟩ := bind_ok hcall
      obtain rfl := Except.ok.inj hcall
      have hint := Interned.of_ok h hint
      have hput : u'.names = (putName s.names x).2 := congrArg Prod.snd (hint.putName h).symm
      rw [ih hint.wf hrun, hput]
      rfl

theorem walkStep_globals (idents locals : List Bytes) (w : Walk) (j : Nat) :
    ∃ xs, (walkStep idents locals w j).globals = putNames w.globals xs := by
  unfold walkStep
  cases w.code[j]? with
  | none => exact ⟨[], rfl⟩
  | some ti =>
      dsimp only
      cases ti.instr with
      | opLoadSymbolic c | opStoreSymbolic c | opModifySymbolic a c =>
          simp only [resolveSymbolic]
          split
          · exact ⟨[], rfl⟩
          · exact ⟨[idents.getD c []], rfl⟩
      | _ => exact ⟨[], rfl⟩

theorem walk_globals (idents locals : List Bytes) (l : List Nat) (w : Walk) :
    ∃ xs, (l.foldl (walkStep idents locals) w).globals = putNames w.globals xs := by
  induction l generalizing w with
  | nil => exact ⟨[], rfl⟩
  | cons j l ih =>
      obtain ⟨xs, hxs⟩ := walkStep_globals idents locals w j
      obtain ⟨ys, hys⟩ := ih (walkStep idents locals w j)
      refine ⟨xs ++ ys, ?_⟩
      rw [List.foldl_cons, hys, hxs, putNames_append]

/-- Closing a scope does to the table what interning some names in turn does. -/
theorem closeScope_interns [Libdeci] {p p' : Parser} {maxstack nlocals : Nat} (h : s.Wf)
    (hnames : p.globals = s.names) (hclose : closeScope p = .ok (maxstack, nlocals, p')) :
    ∃ xs : List Bytes, ∀ t, globalRun s (xs.map .intern) = .ok t → p'.globals = t.names := by
  obtain ⟨-, -, rfl⟩ := closeScope_ok hclose
  obtain ⟨xs, hxs⟩ := walk_globals p.idents (locals p)
    (walkedPositions (fixupLastRangeEnd p (here p)).ranges (p.scopes.length - 1))
    ⟨p.prog, p.globals, 0, 0⟩
  refine ⟨xs, fun t hrun => ?_⟩
  rw [globalRun_intern h hrun, ← hnames]
  exact hxs

end Globals

end Calx
