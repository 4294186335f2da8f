import Calx.Vm.Effects

/-!
# What running a function never does

The machine keeps to its stacks, objects, tables and code in every run in which the value
stack does not move at the wrong moment: no turn of the dispatch loop does anything that C
leaves undefined, whatever the native functions return and wherever the run ends.

## Implementation notes

`Underway` lists the functions that have been called from the last one, with the index of
their first local, as `Frames` does, and says what `Frames` does not: where each of them
goes on and that there is room for its operands.
-/

namespace Calx

open Instr Libdeci

/-! ## Functions under way -/

/-- Control can get to the instruction `ip` of the function. -/
def Func.Reaches (f : Func) (ip : Nat) : Prop := ∃ d, f.chunk.Path f.ip ip d

theorem Func.reaches_entry (f : Func) : f.Reaches (f.ip + 1) := by
  have hentry : f.chunk.Path f.ip (f.ip + 1) 0 := .entry
  exact ⟨0, by exact_mod_cast hentry⟩

theorem Func.Reaches.next {f : Func} {ip t : Nat} {instr : Instr} (h : f.Reaches ip)
    (hi : f.chunk.code[ip]? = some instr) (ht : (t : Int) ∈ f.chunk.next ip instr) :
    f.Reaches t := by
  obtain ⟨d, hpath⟩ := h
  exact ⟨_, hpath.step hi ht⟩

theorem Func.Reaches.at {f : Func} {ip : Nat} (h : f.Reaches ip) : f.At ip (f.depth ip) := by
  obtain ⟨d, hpath⟩ := h
  obtain ⟨j, hj, hown, -⟩ := f.disciplined.path hpath
  obtain rfl : ip = j := by exact_mod_cast hj
  exact ⟨hown, rfl⟩

theorem Func.Reaches.depth_le [DeciBase] {f : Func} {ip : Nat} {names : List Bytes} (h : f.Reaches ip)
    (hf : f.chunk.Sound names) : f.depth ip ≤ f.shape.maxstack := by
  obtain ⟨d, hpath⟩ := h
  obtain ⟨j, hj, -, rfl⟩ := f.disciplined.path hpath
  obtain rfl : ip = j := by exact_mod_cast hj
  exact_mod_cast hf.maxstack f.ip f.shape f.shape_eq _ _ hpath

/-- A function that has been called, and whose frame begins at `index`. -/
structure Resident [DeciBase] (x : Extent) (capacity : Nat) (f : Func) (index : Nat) : Prop where
  sound : f.chunk.Sound x.globals
  room : index + f.shape.nlocals + f.shape.maxstack ≤ capacity

theorem Resident.mono [DeciBase] {x y : Extent} {capacity capacity' index : Nat} {f : Func}
    (h : Resident x capacity f index) (hle : x.Le y) (hcapacity : capacity ≤ capacity') :
    Resident y capacity' f index := ⟨h.sound.mono hle.globals, h.room.trans hcapacity⟩

/-- The calls under way. -/
inductive Underway [DeciBase] (x : Extent) (capacity : Nat) : List CallSite → List Nat → Prop
  | main {site : CallSite} {index : Nat} (h : Resident x capacity site.callee index) :
      Underway x capacity [site] [index]
  | call {site caller : CallSite} {sites : List CallSite} {index ip : Nat} {indexes : List Nat}
      (h : Resident x capacity site.callee index) (hip : site.callIp = some ip)
      (hconsts : site.prevConsts = caller.callee.chunk.consts)
      (hreaches : caller.callee.Reaches (ip + 1))
      (hcallers : Underway x capacity (caller :: sites) indexes) :
      Underway x capacity (site :: caller :: sites) (index :: indexes)

theorem Underway.mono [DeciBase] {x y : Extent} {capacity capacity' : Nat} {sites : List CallSite}
    {indexes : List Nat} (h : Underway x capacity sites indexes) (hle : x.Le y)
    (hcapacity : capacity ≤ capacity') : Underway y capacity' sites indexes := by
  induction h with
  | main hmain => exact .main (hmain.mono hle hcapacity)
  | call hcall hip hconsts hreaches _ ih =>
      exact .call (hcall.mono hle hcapacity) hip hconsts hreaches ih

theorem Underway.resident [DeciBase] {x : Extent} {capacity index : Nat} {site : CallSite}
    {sites : List CallSite} {indexes : List Nat}
    (h : Underway x capacity (site :: sites) (index :: indexes)) :
    Resident x capacity site.callee index := by
  cases h with
  | main h => exact h
  | call h => exact h

/-! ## The invariant -/

/-- A state of the machine between two turns of the dispatch loop. -/
structure Machine.Running [DeciBase] (m : Machine) (site : CallSite) (sites : List CallSite)
    (index : Nat) (indexes : List Nat) (d : Nat) : Prop where
  intact : Intact m.vm site sites index indexes d
  underway : Underway m.store.extent m.vm.vs.capacity (site :: sites) (index :: indexes)
  consts : m.vm.consts = site.callee.chunk.consts
  reaches : site.callee.Reaches m.vm.ip
  values : ∀ v ∈ m.vm.vs.cells, v.Sound m.store.extent
  store : m.store.Sound

/-- What a turn may end with, when there are the objects and globals `x`. -/
def StepResult.Safe [DeciBase] (x : Extent) : StepResult → Prop
  | .next m => x.Le m.store.extent ∧
      ∃ site sites index indexes d, m.Running site sites index indexes d
  | .done v st => v.Sound st.extent ∧ st.Sound ∧ x.Le st.extent
  | .raised fault st => fault ≠ .illegal ∧ st.Sound ∧ x.Le st.extent

theorem StepResult.Safe.mono [DeciBase] {x y : Extent} {r : StepResult} (h : r.Safe y)
    (hle : x.Le y) : r.Safe x := by
  cases r with
  | next m => exact ⟨hle.trans h.1, h.2⟩
  | done v st => exact ⟨h.1, h.2.1, hle.trans h.2.2⟩
  | raised fault st => exact ⟨h.1, h.2.1, hle.trans h.2.2⟩

section

variable [Libdeci] {w : World} {Fair : Nat → Store → List Value → Prop} {m : Machine}
  {site : CallSite} {sites : List CallSite} {index d : Nat} {indexes : List Nat} {instr : Instr}

theorem Machine.Running.instr_eq (h : m.Running site sites index indexes d) :
    m.vm.instr? = site.callee.chunk.code[m.vm.ip]? := by
  rw [VmState.instr?, h.intact.cs]
  rfl

/-- There is an instruction to be executed, for which the compiler has cared. -/
theorem Machine.Running.exists_instr (h : m.Running site sites index indexes d) :
    ∃ instr, m.vm.instr? = some instr := by
  obtain ⟨instr, hcode, -⟩ := site.callee.disciplined.own m.vm.ip h.intact.at_ip.1
  exact ⟨instr, h.instr_eq.trans hcode⟩

/-- The operands lie on the stack. -/
theorem Machine.Running.ready (h : m.Running site sites index indexes d)
    (hi : m.vm.instr? = some instr) :
    instr.pops ≤ m.vm.vs.cells.length ∧
      Ready m site instr (m.vm.vs.cells.take (m.vm.vs.cells.length - instr.pops))
        (m.vm.vs.cells.drop (m.vm.vs.cells.length - instr.pops)) := by
  have hcode := h.instr_eq.symm.trans hi
  have hresident := h.underway.resident
  have hpops := (h.intact.disciplined hi).pops
  rw [h.intact.at_ip.2] at hpops
  have hlength := h.intact.frames.length
  refine ⟨by omega, ?_⟩
  have hlocals : (m.vm.locals - m.vm.vs.base).toNat = index := by
    rw [h.intact.locals]
    omega
  exact {
    running := by rw [h.intact.cs]; rfl
    code := hcode
    chunk := hresident.sound
    admissible := hresident.sound.admissible _ _ site.callee.shape_eq _ h.intact.at_ip.1 _ hcode
    consts := h.consts
    store := h.store
    values := h.values
    cells := (List.take_append_drop _ _).symm
    pops := by rw [List.length_drop]; omega
    base := by rw [h.intact.locals]; omega
    locals := fun k hk => by rw [List.length_take, hlocals]; omega }

/-! ## One turn -/

omit [Libdeci] in
theorem Frames.index_pos {cells : List Value}
    (h : Frames (site :: sites) cells (index :: indexes) d) : 0 < index := by
  cases h with
  | main hip hlen => exact Nat.succ_pos 0
  | call hbelow hip hreturn hoffset hlen => exact Nat.succ_pos _

omit [Libdeci] in
/-- The function without a caller lies at the bottom of the stack. -/
theorem Frames.index_main {cells : List Value}
    (h : Frames (site :: sites) cells (index :: indexes) d) (hip : site.callIp = none) :
    index = 1 := by
  cases h with
  | main hip' hlen => rfl
  | call hbelow hip' hreturn hoffset hlen =>
      rw [hip] at hip'
      cases hip'

/-- A turn leads to the state `m'`, which has these values on the stack. -/
structure Machine.Turned (m m' : Machine) (site : CallSite) (sites : List CallSite) (index : Nat)
    (indexes : List Nat) (cells : List Value) (ip : Nat) (st : Store) : Prop where
  running : ∃ d, m'.Running site sites index indexes d
  extent : m.store.extent.Le m'.store.extent
  cells : m'.vm.vs.cells = cells
  ip : m'.vm.ip = ip
  store : m'.store = st

theorem Machine.Turned.next_safe {m' : Machine} {cells : List Value} {ip : Nat} {st : Store}
    (h : m.Turned m' site sites index indexes cells ip st) :
    (StepResult.next m').Safe m.store.extent := by
  obtain ⟨d, hrunning⟩ := h.running
  exact ⟨h.extent, site, sites, index, indexes, d, hrunning⟩

/-- An instruction that is no call and no return goes on as its effect says. -/
theorem Machine.Running.plain_goes (h : m.Running site sites index indexes d) (hw : w.Lawful Fair)
    (hi : m.vm.instr? = some instr) (hcall : ∀ scatter c, instr ≠ opCall scatter c)
    (hret : instr ≠ .opReturn) {rest operands rest' results : List Value} {next : Int} {st : Store}
    (hcells : m.vm.vs.cells = rest ++ operands) (hoperands : operands.length = instr.pops)
    (heffect : m.effect w rest instr operands = .goes rest' results next st) :
    ∃ m', m.plain w instr = .next m' ∧
      m.Turned m' site sites index indexes (rest' ++ results) next.toNat st := by
  obtain ⟨hpops, hready⟩ := h.ready hi
  have hrest : m.vm.vs.cells.take (m.vm.vs.cells.length - instr.pops) = rest := by
    rw [hcells, List.length_append, hoperands, Nat.add_sub_cancel, List.take_left]
  have hdrop : m.vm.vs.cells.drop (m.vm.vs.cells.length - instr.pops) = operands := by
    rw [hcells, List.length_append, hoperands, Nat.add_sub_cancel, List.drop_left]
  rw [hrest, hdrop] at hready
  have hlegal := hready.effect_legal hw hcall hret
  rw [heffect] at hlegal
  obtain ⟨⟨hpushes, hwrite, hnext⟩, hvalues, hst, hle⟩ := hlegal
  obtain ⟨t, rfl, hown, -⟩ := (h.intact.disciplined hi).next next hnext
  have hreaches := h.reaches.next (h.instr_eq.symm.trans hi) hnext
  obtain ⟨hpops', hat⟩ := h.intact.at_next hi hnext
  obtain ⟨hlen', -⟩ := hwrite.take h.intact.locals
  have hresident := h.underway.resident
  have hdepth := hreaches.depth_le hresident.sound
  have hroom := hresident.room
  have hlength := h.intact.frames.length
  rw [hcells, List.length_append] at hlength
  rw [hat.2] at hdepth
  have hend : (rest' ++ results).length ≤ m.vm.vs.capacity := by
    rw [List.length_append]
    omega
  obtain ⟨hintact, -⟩ := h.intact.other ⟨st.lists⟩ hi hnext hcells hoperands hpushes hwrite hend
  refine ⟨⟨{ m.vm.setCells (rest' ++ results) with ip := t, heap := ⟨st.lists⟩ }, st.toEnv⟩, ?_, ?_⟩
  · rw [Machine.plain, if_pos hpops]
    dsimp only
    rw [hrest, hdrop, heffect, Machine.settle, if_pos ⟨hend, Int.natCast_nonneg t⟩]
    rfl
  · exact {
      running := ⟨_,
        { intact := hintact
          underway := h.underway.mono hle le_rfl
          consts := h.consts
          reaches := hreaches
          values := hvalues
          store := hst }⟩
      extent := hle
      cells := rfl
      ip := rfl
      store := rfl }

/-- An instruction that is no call and no return fails as its effect says. -/
theorem Machine.plain_raises {rest operands : List Value} {e : Fault} {st : Store}
    (hcells : m.vm.vs.cells = rest ++ operands) (hoperands : operands.length = instr.pops)
    (heffect : m.effect w rest instr operands = .raises e st) :
    m.plain w instr = .raised e st := by
  have hlen : m.vm.vs.cells.length = rest.length + instr.pops := by
    rw [hcells, List.length_append, hoperands]
  rw [Machine.plain, if_pos (by omega)]
  dsimp only
  rw [hlen, Nat.add_sub_cancel, hcells, List.take_left, List.drop_left, heffect]
  rfl

/-- An instruction that is no call and no return keeps the invariant. -/
theorem Machine.Running.plain (h : m.Running site sites index indexes d) (hw : w.Lawful Fair)
    (hi : m.vm.instr? = some instr) (hcall : ∀ scatter c, instr ≠ opCall scatter c)
    (hret : instr ≠ .opReturn) : (m.plain w instr).Safe m.store.extent := by
  obtain ⟨hpops, hready⟩ := h.ready hi
  have hlegal := hready.effect_legal hw hcall hret
  obtain ⟨n, hn⟩ : ∃ n, n = m.vm.vs.cells.length - instr.pops := ⟨_, rfl⟩
  have hoperands : (m.vm.vs.cells.drop n).length = instr.pops := by
    rw [List.length_drop]
    omega
  have hcells := (List.take_append_drop n m.vm.vs.cells).symm
  rw [← hn] at hlegal
  cases heffect : m.effect w (m.vm.vs.cells.take n) instr (m.vm.vs.cells.drop n) with
  | raises fault st =>
      rw [heffect] at hlegal
      rw [Machine.plain_raises hcells hoperands heffect]
      exact hlegal
  | goes rest' results next st =>
      obtain ⟨m', hplain, hturned⟩ := h.plain_goes hw hi hcall hret hcells hoperands heffect
      rw [hplain]
      exact hturned.next_safe

/-- A return takes the value on top off the stack, and the frame below it. -/
theorem Machine.Running.ret_eq (h : m.Running site sites index indexes d)
    (hi : m.vm.instr? = some .opReturn) {cells : List Value} {v : Value}
    (hcells : m.vm.vs.cells = cells ++ [v]) :
    opReturn m.vm = some (site.callIp, { m.vm.setCells (m.vm.vs.cells.take (index - 1) ++ [v]) with
        cs := sites
        consts := site.prevConsts
        locals := m.vm.vs.base + site.prevLocalsOffset }) ∧
      ¬ m.vm.vs.cells.length < site.callee.shape.nlocals + 2 := by
  have hd : d = 1 := h.intact.at_ip.2.symm.trans ((h.intact.disciplined hi).return_one rfl)
  have hlength := h.intact.frames.length
  have hpos := h.intact.frames.index_pos
  have hbelow : m.vm.vs.cells.length - 1 - (site.callee.shape.nlocals + 1) = index - 1 := by omega
  have hlast : m.vm.vs.cells.getLast? = some v := by rw [hcells, List.getLast?_concat]
  refine ⟨?_, by omega⟩
  simp only [opReturn, h.intact.cs, hlast, hbelow]

/-- The function that has no caller ends the run. -/
theorem Machine.Running.ret_done (h : m.Running site sites index indexes d)
    (hi : m.vm.instr? = some .opReturn) {cells : List Value} {v : Value}
    (hcells : m.vm.vs.cells = cells ++ [v]) (hip : site.callIp = none) :
    m.ret = .done v m.store := by
  obtain ⟨hreturn, hlen⟩ := h.ret_eq hi hcells
  obtain rfl := h.intact.frames.index_main hip
  rw [Machine.ret, h.intact.cs, List.head?_cons]
  dsimp only
  rw [if_neg hlen, hreturn, hip]
  rfl

/-- A function that has a caller gives it its value. -/
theorem Machine.Running.ret_goes (h : m.Running site sites index indexes d)
    (hi : m.vm.instr? = some .opReturn) {cells : List Value} {v : Value}
    (hcells : m.vm.vs.cells = cells ++ [v]) {ip : Nat} (hip : site.callIp = some ip) :
    ∃ caller sites' index' indexes' m', sites = caller :: sites' ∧ indexes = index' :: indexes' ∧
      m.ret = .next m' ∧ m.Turned m' caller sites' index' indexes'
        (m.vm.vs.cells.take (index - 1) ++ [v]) (ip + 1) m.store := by
  obtain ⟨hreturn, hlen⟩ := h.ret_eq hi hcells
  obtain ⟨caller, sites', index', indexes', rfl, rfl⟩ := h.intact.frames.caller hip
  obtain ⟨s, hs⟩ : ∃ s : VmState, s = { m.vm.setCells (m.vm.vs.cells.take (index - 1) ++ [v]) with
      cs := caller :: sites'
      consts := site.prevConsts
      locals := m.vm.vs.base + site.prevLocalsOffset } := ⟨_, rfl⟩
  rw [hip, ← hs] at hreturn
  obtain ⟨⟨d', hintact⟩, -, -⟩ := h.intact.ret hi hreturn
  have hret : m.ret = .next ⟨{ s with ip := ip + 1 }, m.env⟩ := by
    rw [Machine.ret, h.intact.cs, List.head?_cons]
    dsimp only
    rw [if_neg hlen, hreturn]
  refine ⟨caller, sites', index', indexes', _, rfl, rfl, hret, ?_⟩
  subst hs
  cases h.underway with
  | call hresident hip' hconsts hreaches hcallers =>
      obtain rfl := Option.some.inj (hip.symm.trans hip')
      refine ⟨⟨d', hintact, hcallers, hconsts, hreaches, fun u hu => ?_, h.store⟩, .refl _, rfl, rfl,
        rfl⟩
      apply h.values
      rcases List.mem_append.mp hu with hu | hu
      · exact List.mem_of_mem_take hu
      · rw [hcells]
        exact List.mem_append_right _ hu

/-- A return ends the run with its value, or goes on in the caller. -/
theorem Machine.Running.ret (h : m.Running site sites index indexes d)
    (hi : m.vm.instr? = some .opReturn) : m.ret.Safe m.store.extent := by
  have hlength := h.intact.frames.length
  have hpos := h.intact.frames.index_pos
  obtain ⟨cells, v, hcells⟩ : ∃ cells v, m.vm.vs.cells = cells ++ [v] := by
    have hne : m.vm.vs.cells ≠ [] := List.length_pos_iff.mp (by omega)
    exact ⟨_, _, (List.dropLast_append_getLast hne).symm⟩
  cases hip : site.callIp with
  | none =>
      rw [h.ret_done hi hcells hip]
      refine ⟨h.values v ?_, h.store, .refl _⟩
      rw [hcells]
      exact List.mem_append_right _ (List.mem_singleton_self v)
  | some ip =>
      obtain ⟨caller, sites', index', indexes', m', -, -, hret, hturned⟩ := h.ret_goes hi hcells hip
      rw [hret]
      exact hturned.next_safe

/-! ## Calls -/

section

omit [Libdeci]

variable {s s₁ s' : VmState} {scatter : Bool} {c n : Nat} {f : Func} {vs vs' : ValueStack}

theorem ensureLoop_error {fuel : Nat} {e : VmError} (h : ensureLoop n fuel vs = .error e) :
    e = .outOfMemory := by
  induction fuel generalizing vs with
  | zero => exact (Except.error.inj h).symm
  | succ fuel ih =>
      rw [ensureLoop] at h
      cases hrealloc : x2realloc vs with
      | error e' =>
          rw [hrealloc] at h
          obtain rfl := Except.error.inj h
          unfold x2realloc at hrealloc
          split at hrealloc
          · cases hrealloc
          · exact (Except.error.inj hrealloc).symm
      | ok vs₁ =>
          rw [hrealloc] at h
          simp only [bind, Except.bind] at h
          split at h
          · exact ih h
          · cases h

theorem valueStackEnsure_error {e : VmError} (h : valueStackEnsure vs n = .error e) :
    e = .outOfMemory := by
  unfold valueStackEnsure at h
  split at h
  · cases h
  · exact ensureLoop_error h

theorem ensure_error {e : VmError} (h : s.ensure n = .error e) : e = .outOfMemory := by
  rw [VmState.ensure] at h
  cases hvs : valueStackEnsure s.vs n with
  | error e' =>
      rw [hvs] at h
      obtain rfl := Except.error.inj h
      exact valueStackEnsure_error hvs
  | ok vs =>
      rw [hvs] at h
      cases h

/-- Room is wanted only where the stack would get too large. -/
theorem ensure_full {e : VmError} (h : s.ensure n = .error e) : 2 ^ 60 < s.vs.cells.length + n := by
  by_contra hle
  obtain ⟨vs, hvs⟩ := valueStackEnsure_fits (Nat.not_lt.mp hle)
  rw [VmState.ensure, hvs] at h
  cases h

/-- What is not a list cannot be scattered. -/
theorem doCallArgs_thrown {cells : List Value} {v : Value} (hcells : s.vs.cells = cells ++ [v])
    (hv : ∀ id, v ≠ .list id) :
    doCallArgs s true c = .error (.thrown ("cannot scatter " ++ valueKindName v ++
      " value (expected list)")) := by
  rw [doCallArgs, doCallScatter, hcells, List.getLast?_concat]
  cases v with
  | list id => exact absurd rfl (hv id)
  | _ => rfl

theorem doCallArgs_full {cells : List Value} {id : Nat} {e : VmError}
    (hcells : s.vs.cells = cells ++ [.list id]) (h : doCallArgs s scatter c = .error e) :
    e = .outOfMemory ∧ 2 ^ 60 < (scattered s scatter).length := by
  cases scatter with
  | false => cases h
  | true =>
      rw [doCallArgs, doCallScatter, hcells, List.getLast?_concat] at h
      cases hensure : (s.setCells (cells ++ [Value.list id]).dropLast).ensure
          ((s.heap.lists[id]?).getD []).length with
      | error e' =>
          simp only [hensure, bind, Except.bind, if_true] at h
          obtain rfl := Except.error.inj h
          refine ⟨ensure_error hensure, ?_⟩
          have hfull := ensure_full hensure
          rw [scattered, hcells, List.getLast?_concat]
          rwa [← List.length_append] at hfull
      | ok s₂ =>
          simp only [hensure, bind, Except.bind, if_true] at h
          cases h

theorem doCallArgs_error {e : VmError} (h : doCallArgs s scatter c = .error e)
    (hcells : 0 < s.vs.cells.length) : e.fault ≠ .illegal := by
  have hne : s.vs.cells ≠ [] := List.length_pos_iff.mp hcells
  have hlast := (List.dropLast_append_getLast hne).symm
  by_cases hv : ∀ id, s.vs.cells.getLast hne ≠ .list id
  · cases scatter with
    | false => cases h
    | true =>
        rw [doCallArgs_thrown hlast hv] at h
        cases h
        exact Fault.noConfusion
  · push Not at hv
    obtain ⟨id, hid⟩ := hv
    rw [hid] at hlast
    rw [(doCallArgs_full hlast h).1]
    exact Fault.noConfusion

/-- The callee lies below the arguments. -/
theorem doCallArgs_lt (h : doCallArgs s scatter c = .ok (n, s₁)) (hc : c < s.vs.cells.length)
    (hscatter : scatter = true → 0 < c) (hlen : s.vs.cells.length ≤ s.vs.capacity) :
    n < s₁.vs.cells.length := by
  have hcapacity' := hlen.trans_lt s.vs.capacity_lt
  rw [doCallArgs] at h
  split at h
  · rename_i hs
    have hpos := hscatter hs
    obtain ⟨⟨l, s₂⟩, hrun, h⟩ := bind_ok h
    obtain ⟨rfl, rfl⟩ := Prod.mk.inj (Except.ok.inj h)
    rw [doCallScatter] at hrun
    split at hrun
    · obtain ⟨s₃, hensure, hrun⟩ := bind_ok hrun
      obtain ⟨vs, hvs, hpure⟩ := bind_ok hensure
      obtain rfl := Except.ok.inj hpure
      obtain ⟨hl, rfl⟩ := Prod.mk.inj (Except.ok.inj hrun)
      obtain ⟨hcells, hroom⟩ := valueStackEnsure_ok hvs
      have hcapacity := vs.capacity_lt
      simp only [VmState.setCells] at hcells hroom
      simp only [VmState.setCells, List.length_append, hcells, List.length_dropLast, hl]
      rw [hcells, List.length_dropLast] at hroom
      omega
    · cases hrun
    · cases hrun
  · obtain ⟨rfl, rfl⟩ := Prod.mk.inj (Except.ok.inj h)
    exact hc

/-- The call of a function that takes this many arguments fails only for want of memory. -/
theorem doCallFunc_full {e : VmError} (hfits : f.Fits n) (h : doCallFunc s f n = .error e) :
    e = .outOfMemory := by
  rw [doCallFunc] at h
  cases hcoerce : doCallCoerce s f.shape.nargsEncoded n with
  | ok r =>
      obtain ⟨n', s₁⟩ := r
      rw [hcoerce] at h
      simp only [bind, Except.bind] at h
      split at h
      · rename_i hensure
        obtain rfl := Except.error.inj h
        exact ensure_error hensure
      · cases h
  | error e' =>
      rw [hcoerce] at h
      obtain rfl := Except.error.inj h
      unfold Func.Fits at hfits
      rw [doCallCoerce] at hcoerce
      cases hg : f.gathers with
      | false =>
          have hnargs : f.shape.nargsEncoded = f.nparams := by
            rw [f.nargs_eq, hg]
            rfl
          rw [hg] at hfits
          simp only [Bool.false_eq_true, if_false] at hfits
          rw [if_pos ((nargsEncoded_sign f).mpr hg), hnargs, if_neg (not_not.mpr hfits)] at hcoerce
          cases hcoerce
      | true =>
          rw [hg] at hfits
          simp only [if_true] at hfits
          rw [if_neg (by simp [nargsEncoded_sign, hg])] at hcoerce
          simp only [complement_nargsEncoded f hg, if_neg (Nat.not_lt.mpr hfits)] at hcoerce
          cases hroom : gatherRoom s (n - f.nparams) with
          | ok s₁ =>
              simp only [doCallGather, hroom, bind, Except.bind, pure, Except.pure] at hcoerce
              cases hcoerce
          | error e' =>
              simp only [doCallGather, hroom, bind, Except.bind] at hcoerce
              obtain rfl := Except.error.inj hcoerce
              rw [gatherRoom] at hroom
              split at hroom
              · exact ensure_error hroom
              · cases hroom

theorem le_grownCapacity (capacity k : Nat) : capacity ≤ grownCapacity capacity k := by
  induction k with
  | zero => exact le_rfl
  | succ k ih =>
      refine ih.trans ?_
      rw [grownCapacity, doubled]
      split <;> omega

theorem Grown.capacity_le {need : Nat} (h : Grown vs vs' need) : vs.capacity ≤ vs'.capacity := by
  obtain ⟨k, -, hcapacity, -⟩ := h
  rw [hcapacity]
  exact le_grownCapacity _ k

/-- It fails only where the frame would not fit. -/
theorem doCallFunc_overfull {below all : List Value} {e : VmError}
    (hcells : s.vs.cells = below ++ .func f :: all) (hfits : f.Fits all.length)
    (h : doCallFunc s f all.length = .error e) :
    2 ^ 60 < s.vs.cells.length + (f.shape.nlocals + f.shape.maxstack + 1) := by
  by_contra hle
  have hlen : s.vs.cells.length = below.length + (all.length + 1) := by
    rw [hcells, List.length_append, List.length_cons]
  obtain ⟨vs₁, vs₂, -, hentered⟩ := doCallFunc_spec hcells hfits (.inl (by omega))
  cases hentered.symm.trans h

/-- There is room for the operands of the function that is entered. -/
theorem doCallFunc_room {below all : List Value} (hcells : s.vs.cells = below ++ .func f :: all)
    (hfits : f.Fits all.length) (h : doCallFunc s f all.length = .ok s')
    (hlen : s.vs.cells.length ≤ s.vs.capacity) :
    s'.vs.cells.length + f.shape.maxstack ≤ s'.vs.capacity ∧ s.vs.capacity ≤ s'.vs.capacity := by
  rw [doCallFunc] at h
  obtain ⟨⟨n', s₁⟩, hcoerce, h⟩ := bind_ok h
  obtain ⟨s₂, hensure, h⟩ := bind_ok h
  obtain rfl := Except.ok.inj h
  obtain ⟨vs, hvs, hpure⟩ := bind_ok hensure
  obtain rfl := Except.ok.inj hpure
  have hgrown := doCallCoerce_grown hcoerce hlen
  have hcells' : s.vs.cells = (below ++ [.func f]) ++ all := by simpa using hcells
  obtain ⟨vs₁, hcoerce', hvs₁⟩ := doCallCoerce_spec hcells' hfits (Or.inr ⟨_, hcoerce⟩)
  obtain ⟨-, rfl⟩ := Prod.mk.inj (Except.ok.inj (hcoerce.symm.trans hcoerce'))
  have hbound : (bound f s.heap all).length ≤ all.length + (gathersNone all.length (.func f)).toNat := by
    rw [length_bound hfits]
    unfold Func.Fits at hfits
    cases hg : f.gathers with
    | false =>
        rw [hg] at hfits
        simp only [Bool.false_eq_true, if_false] at hfits
        simp only [Bool.toNat_false]
        omega
    | true =>
        rw [hg] at hfits
        simp only [if_true] at hfits
        by_cases heq : all.length = f.nparams
        · simp [gathersNone, hg, heq]
        · simp only [Bool.toNat_true]
          omega
  have hlen₁ : vs₁.cells.length ≤ vs₁.capacity := by
    have hroom := hgrown.room
    simp only at hroom
    rw [hvs₁, List.length_append]
    rw [hcells', List.length_append] at hroom
    omega
  have hgrown' := valueStackEnsure_grown hvs hlen₁
  have hroom := hgrown'.room
  refine ⟨?_, hgrown.capacity_le.trans hgrown'.capacity_le⟩
  simp only [VmState.setCells, List.length_append, List.length_replicate]
  rw [(valueStackEnsure_ok hvs).1]
  simp only at hroom ⊢
  omega

end

/-- The values that a call sees. -/
theorem Machine.Running.scattered_sound (h : m.Running site sites index indexes d) (scatter : Bool) :
    ∀ v ∈ scattered m.vm scatter, v.Sound m.store.extent := by
  intro v hv
  cases scatter with
  | false => exact h.values v hv
  | true =>
      rw [scattered] at hv
      split at hv
      · rename_i id hid
        rcases List.mem_append.mp hv with hv | hv
        · exact h.values v (List.mem_of_mem_dropLast hv)
        · cases hget : m.vm.heap.lists[id]? with
          | none =>
              rw [hget] at hv
              cases hv
          | some l =>
              rw [hget] at hv
              exact h.store.containers.lists l (List.mem_of_getElem? hget) v hv
      · exact h.values v hv

omit [Libdeci] in
/-- The locals of the function that is entered, and the store with the gather list. -/
theorem Store.Sound.gathered [DeciBase] {st : Store} (hst : st.Sound) (f : Func) {all : List Value}
    (hall : ∀ v ∈ all, v.Sound st.extent) :
    ({ st with lists := (boundHeap f ⟨st.lists⟩ all).lists } : Store).Sound ∧
      st.extent.Le ({ st with lists := (boundHeap f ⟨st.lists⟩ all).lists } : Store).extent ∧
      ∀ v ∈ frameCells f ⟨st.lists⟩ all, v.Sound
        ({ st with lists := (boundHeap f ⟨st.lists⟩ all).lists } : Store).extent := by
  have hnils : ∀ {x : Extent} {v : Value} {k : Nat}, v ∈ List.replicate k Value.nil → v.Sound x := by
    intro x v k hv
    rw [List.eq_of_mem_replicate hv]
    trivial
  cases hg : f.gathers with
  | false =>
      simp only [boundHeap, hg, Bool.false_eq_true, if_false, frameCells, bound]
      refine ⟨hst, .refl _, fun v hv => ?_⟩
      rcases List.mem_append.mp hv with hv | hv
      · exact hall v hv
      · exact hnils hv
  | true =>
      simp only [boundHeap, hg, if_true, frameCells, bound]
      obtain ⟨hst', hle⟩ := hst.newList fun v (hv : v ∈ all.drop f.nparams) =>
        hall v (List.mem_of_mem_drop hv)
      refine ⟨hst', hle, fun v hv => ?_⟩
      rcases List.mem_append.mp hv with hv | hv
      · rcases List.mem_append.mp hv with hv | hv
        · exact (hall v (List.mem_of_mem_take hv)).mono hle
        · rw [List.mem_singleton.mp hv]
          simp [Value.Sound, Store.extent]
      · exact hnils hv

/-- The arguments of the call to be made are ready. -/
structure ArgsReady (m : Machine) (scatter : Bool) (c : Nat) (vs : ValueStack) (callee : Value)
    (below all : List Value) : Prop where
  args : doCallArgs m.vm scatter c = .ok (all.length, { m.vm with vs := vs })
  below_eq : below = m.vm.vs.cells.take (m.vm.vs.cells.length - (c + 1))
  cells : vs.cells = below ++ callee :: all
  scattered : vs.cells = Calx.scattered m.vm scatter
  sound : ∀ v ∈ vs.cells, v.Sound m.store.extent
  room : vs.cells.length ≤ vs.capacity
  capacity : m.vm.vs.capacity ≤ vs.capacity

theorem Machine.Running.argsReady (h : m.Running site sites index indexes d) {scatter : Bool}
    {c n : Nat} {s₁ : VmState} (hi : m.vm.instr? = some (opCall scatter c))
    (hargs : doCallArgs m.vm scatter c = .ok (n, s₁)) :
    ∃ vs callee below all, n = all.length ∧ s₁ = { m.vm with vs := vs } ∧
      ArgsReady m scatter c vs callee below all := by
  have hcode := h.instr_eq.symm.trans hi
  have hscatter : scatter = true → 0 < c := h.underway.resident.sound.admissible _ _
    site.callee.shape_eq _ h.intact.at_ip.1 _ hcode
  have hpops := (h.intact.disciplined hi).pops
  rw [h.intact.at_ip.2, Instr.pops] at hpops
  have hlength := h.intact.frames.length
  have hn := doCallArgs_lt hargs (by omega) hscatter h.intact.in_block
  obtain ⟨vs, callee, all, rfl, rfl, hcells, hscattered, hgrown⟩ :=
    doCallArgs_frame hargs hn (by omega) h.intact.in_block
  refine ⟨vs, callee, _, all, rfl, rfl, hargs, rfl, hcells, hscattered, ?_, hgrown.room,
    hgrown.capacity_le⟩
  rw [hscattered]
  exact h.scattered_sound scatter

namespace ArgsReady

variable {scatter : Bool} {c : Nat} {vs : ValueStack} {callee : Value} {below all : List Value}

theorem below_sound (ha : ArgsReady m scatter c vs callee below all) :
    ∀ v ∈ below, v.Sound m.store.extent := by
  intro v hv
  apply ha.sound
  rw [ha.cells]
  exact List.mem_append_left _ hv

theorem callee_sound (ha : ArgsReady m scatter c vs callee below all) :
    callee.Sound m.store.extent := by
  apply ha.sound
  rw [ha.cells]
  exact List.mem_append_right _ List.mem_cons_self

theorem all_sound (ha : ArgsReady m scatter c vs callee below all) :
    ∀ v ∈ all, v.Sound m.store.extent := by
  intro v hv
  apply ha.sound
  rw [ha.cells]
  exact List.mem_append_right _ (List.mem_cons_of_mem _ hv)

/-- The callee is found below its arguments. -/
theorem callee_eq (ha : ArgsReady m scatter c vs callee below all) :
    ¬ vs.cells.length < all.length + 1 ∧
      vs.cells[vs.cells.length - all.length - 1]? = some callee := by
  have hlen : vs.cells.length = below.length + (all.length + 1) := by
    rw [ha.cells, List.length_append, List.length_cons]
  refine ⟨by omega, ?_⟩
  rw [hlen, ha.cells, show below.length + (all.length + 1) - all.length - 1 = below.length by omega]
  simp

/-- The call as the frames of the callers know it. -/
theorem doCall_eq (ha : ArgsReady m scatter c vs callee below all) (natives : Natives) :
    doCall natives m.vm scatter c = doCallValue natives { m.vm with vs := vs } all.length callee := by
  rw [doCall, ha.args]
  simp only [bind, Except.bind]
  rw [if_neg ha.callee_eq.1, ha.callee_eq.2]

theorem call_eq (ha : ArgsReady m scatter c vs callee below all) (w : World) :
    m.call w scatter c = m.callValue w { m.vm with vs := vs } all.length callee := by
  rw [Machine.call, ha.args]
  dsimp only
  rw [if_neg ha.callee_eq.1, ha.callee_eq.2]

end ArgsReady

/-- The call at hand asks for more than `2 ^ 60` values on the stack. -/
def Machine.Overfull (m : Machine) : Prop :=
  ∃ scatter c callee, m.vm.instr? = some (opCall scatter c) ∧
    m.vm.vs.cells[m.vm.vs.cells.length - (c + 1)]? = some callee ∧
      2 ^ 60 < (scattered m.vm scatter).length + frameSize callee

omit [Libdeci] in
theorem Machine.goesOn_next (h : m.vm.vs.cells.length ≤ m.vm.vs.capacity) :
    m.goesOn = .next { m with vm := { m.vm with ip := m.vm.ip + 1 } } := if_pos h

/-- A function that takes this many arguments is entered, if there is memory. -/
theorem Machine.Running.callFunc_goes (h : m.Running site sites index indexes d) {scatter : Bool}
    {c : Nat} {vs : ValueStack} {below all : List Value} {f : Func}
    (hi : m.vm.instr? = some (opCall scatter c)) (hsteady : Steady m.vm scatter c)
    (ha : ArgsReady m scatter c vs (.func f) below all) (hfits : f.Fits all.length) :
    (m.callValue w { m.vm with vs := vs } all.length (.func f) = .raised .panic m.store ∧
      2 ^ 60 < (scattered m.vm scatter).length + frameSize (.func f)) ∨
      ∃ m' site', m.callValue w { m.vm with vs := vs } all.length (.func f) = .next m' ∧
        site'.callee = f ∧ site'.callIp = some m.vm.ip ∧
        m.Turned m' site' (site :: sites) (below.length + 1) (index :: indexes)
          (below ++ .func f :: frameCells f m.vm.heap all) (f.ip + 1)
          { m.store with lists := (boundHeap f m.vm.heap all).lists } := by
  rw [Machine.callValue]
  cases hrun : doCallFunc { m.vm with vs := vs } f all.length with
  | error e =>
      left
      have hfull := doCallFunc_overfull (s := { m.vm with vs := vs }) ha.cells hfits hrun
      obtain rfl := doCallFunc_full hfits hrun
      exact ⟨rfl, ha.scattered ▸ hfull⟩
  | ok s' =>
      right
      obtain ⟨hroom, hgrows⟩ := doCallFunc_room (s := { m.vm with vs := vs }) ha.cells hfits hrun
        ha.room
      obtain ⟨vs₁, vs₂, -, hentered⟩ := doCallFunc_spec (s := { m.vm with vs := vs }) ha.cells hfits
        (Or.inr ⟨s', hrun⟩)
      have hs' := Except.ok.inj (hrun.symm.trans hentered)
      have hend := Nat.le_of_add_right_le hroom
      have hgoes := Machine.goesOn_next (m := ⟨s', m.env⟩) hend
      dsimp only
      rw [hgoes]
      have hcall : doCall (fun _ _ _ => .error "") m.vm scatter c = .ok s' :=
        (ha.doCall_eq _).trans hrun
      obtain ⟨-, -, ⟨d', hnative⟩ | ⟨site', hintact, -⟩⟩ := h.intact.call hi hsteady hcall hend
      · have hdepth := congrArg List.length hnative.cs
        simp [hs', entered, h.intact.cs] at hdepth
      · subst hs'
        obtain ⟨hst, hle, hframe⟩ := h.store.gathered f ha.all_sound
        have hsite := (List.cons.inj hintact.cs).1
        have hreaches := h.reaches.next (t := m.vm.ip + 1) (h.instr_eq.symm.trans hi)
          (by simp [Chunk.next])
        have hpops := (h.intact.disciplined hi).pops
        rw [h.intact.at_ip.2, Instr.pops] at hpops
        have hlength := h.intact.frames.length
        have hlen : m.vm.vs.cells.length - (c + 1) = below.length := by
          rw [ha.below_eq, List.length_take]
          omega
        rw [hlen] at hintact
        refine ⟨_, site', rfl, by rw [← hsite], by rw [← hsite],
          { running := ⟨0,
              { intact := hintact
                underway := .call ⟨?_, ?_⟩ ?_ ?_ hreaches
                  (h.underway.mono hle (ha.capacity.trans hgrows))
                consts := ?_
                reaches := ?_
                values := ?_
                store := hst }⟩
            extent := hle
            cells := rfl
            ip := rfl
            store := rfl }⟩
        · rw [← hsite]
          exact Value.Sound.mono ha.callee_sound hle
        · simp only [entered, List.length_append, List.length_cons, length_frameCells hfits] at hroom
          rw [← hsite]
          simp only [entered]
          omega
        · rw [← hsite]
        · rw [← hsite]
          exact h.consts
        · rw [← hsite]
          rfl
        · rw [← hsite]
          exact f.reaches_entry
        · intro v hv
          rcases List.mem_append.mp hv with hv | hv
          · exact (ha.below_sound v hv).mono hle
          · rcases List.mem_cons.mp hv with rfl | hv
            · exact ha.callee_sound.mono hle
            · exact hframe v hv

omit [Libdeci] in
theorem Machine.callFunc_unfit {vs : ValueStack} {f : Func} {n : Nat} (hfits : ¬ f.Fits n) :
    m.callValue w { m.vm with vs := vs } n (.func f) =
      .raised (.thrown (bytesOf (arityText f n))) m.store := by
  rw [Machine.callValue, doCallFunc, doCallCoerce_unfit hfits]
  rfl

/-- The call of a bytecode function. -/
theorem Machine.Running.callFunc (h : m.Running site sites index indexes d) {scatter : Bool} {c : Nat}
    {vs : ValueStack} {below all : List Value} {f : Func}
    (hi : m.vm.instr? = some (opCall scatter c)) (hsteady : Steady m.vm scatter c)
    (ha : ArgsReady m scatter c vs (.func f) below all) :
    (m.callValue w { m.vm with vs := vs } all.length (.func f)).Safe m.store.extent := by
  by_cases hfits : f.Fits all.length
  · rcases h.callFunc_goes (w := w) hi hsteady ha hfits with
      ⟨hpanic, -⟩ | ⟨m', site', hrun, -, -, hturned⟩
    · rw [hpanic]
      exact ⟨Fault.noConfusion, h.store, .refl _⟩
    · rw [hrun]
      exact hturned.next_safe
  · rw [Machine.callFunc_unfit hfits]
    exact ⟨Fault.noConfusion, h.store, .refl _⟩

/-- The instruction calls a native function. -/
def Machine.Calls (m : Machine) (id : Nat) (args : List Value) : Prop :=
  ∃ scatter c n s, m.vm.instr? = some (opCall scatter c) ∧ doCallArgs m.vm scatter c = .ok (n, s) ∧
    s.vs.cells[s.vs.cells.length - n - 1]? = some (.cfunc id) ∧
    args = (s.vs.cells.drop (s.vs.cells.length - n)).take (toUint32 n)

/-- No call moves the stack at the wrong moment, and native functions are called as `Fair` has
it. -/
structure Machine.Steady (m : Machine) (Fair : Nat → Store → List Value → Prop) : Prop where
  stack : ∀ scatter c, m.vm.instr? = some (opCall scatter c) → Calx.Steady m.vm scatter c
  calls : ∀ id args, m.Calls id args → Fair id m.store args

/-- A native function is called with the arguments that are ready. -/
theorem Machine.callNative_eq {scatter : Bool} {c : Nat} {vs : ValueStack} {below all : List Value}
    {id : Nat} (ha : ArgsReady m scatter c vs (.cfunc id) below all) :
    m.callValue w { m.vm with vs := vs } all.length (.cfunc id) =
      match w.natives id m.store (all.take (toUint32 all.length)) with
      | (.ok r, st) => goesOn ⟨{ ({ m.vm with vs := vs } : VmState).setCells (below ++ [r]) with
          heap := ⟨st.lists⟩ }, st.toEnv⟩
      | (.error fault, st) => .raised fault st := by
  have hlen : vs.cells.length - all.length = below.length + 1 := by
    rw [ha.cells, List.length_append, List.length_cons]
    omega
  have hdrop : vs.cells.drop (below.length + 1) = all := by
    rw [ha.cells, List.drop_length_add_append]
    rfl
  have htake : vs.cells.take below.length = below := by rw [ha.cells, List.take_left]
  rw [Machine.callValue, Machine.callNative]
  simp only [hlen, hdrop, Nat.add_sub_cancel, htake]
  rfl

theorem Machine.Steady.fair (hsteady : m.Steady Fair) {scatter : Bool} {c : Nat} {vs : ValueStack}
    {below all : List Value} {id : Nat} (hi : m.vm.instr? = some (opCall scatter c))
    (ha : ArgsReady m scatter c vs (.cfunc id) below all) :
    Fair id m.store (all.take (toUint32 all.length)) := by
  apply hsteady.calls
  refine ⟨scatter, c, all.length, { m.vm with vs := vs }, hi, ha.args, ha.callee_eq.2, ?_⟩
  have hlen : vs.cells.length - all.length = below.length + 1 := by
    rw [ha.cells, List.length_append, List.length_cons]
    omega
  rw [hlen, ha.cells, List.drop_length_add_append]
  rfl

/-- The result of a native function replaces the callee and its arguments. -/
theorem Machine.Running.callNative_goes (h : m.Running site sites index indexes d)
    (hw : w.Lawful Fair) {scatter : Bool} {c : Nat} {vs : ValueStack} {below all : List Value}
    {id : Nat} (hi : m.vm.instr? = some (opCall scatter c)) (hsteady : m.Steady Fair)
    (ha : ArgsReady m scatter c vs (.cfunc id) below all) {r : Value} {st : Store}
    (hnative : w.natives id m.store (all.take (toUint32 all.length)) = (.ok r, st)) :
    ∃ m', m.callValue w { m.vm with vs := vs } all.length (.cfunc id) = .next m' ∧
      m.Turned m' site sites index indexes (below ++ [r]) (m.vm.ip + 1) st := by
  have hsound := hw.native id m.store (all.take (toUint32 all.length)) ha.callee_sound h.store
    (fun v hv => ha.all_sound v (List.mem_of_mem_take hv)) (hsteady.fair hi ha)
  rw [hnative] at hsound
  obtain ⟨hr, hst, hle⟩ := hsound
  rw [Machine.callNative_eq ha, hnative]
  obtain ⟨s', hs'⟩ : ∃ s', s' = { ({ m.vm with vs := vs } : VmState).setCells (below ++ [r]) with
      heap := ⟨st.lists⟩ } := ⟨_, rfl⟩
  have hend : s'.vs.cells.length ≤ s'.vs.capacity := by
    have hroom := ha.room
    rw [ha.cells, List.length_append, List.length_cons] at hroom
    rw [hs']
    simp only [VmState.setCells, List.length_append, List.length_singleton]
    omega
  have htake : vs.cells.take below.length = below := by rw [ha.cells, List.take_left]
  have hcall : doCall (fun _ _ _ => .ok (r, ⟨st.lists⟩)) m.vm scatter c = .ok s' := by
    rw [ha.doCall_eq, doCallValue, doCallNative_spec (s := { m.vm with vs := vs }) ha.cells, hs']
    simp only [nativeReturn, VmState.setCells, htake]
  have hgoes := Machine.goesOn_next (m := ⟨s', st.toEnv⟩) hend
  dsimp only
  rw [← hs', hgoes]
  obtain ⟨-, -, ⟨d', hintact⟩ | ⟨site', hentered, -⟩⟩ :=
    h.intact.call hi (hsteady.stack _ _ hi) hcall hend
  · subst hs'
    have hreaches := h.reaches.next (t := m.vm.ip + 1) (h.instr_eq.symm.trans hi)
      (by simp [Chunk.next])
    refine ⟨_, rfl,
      { running := ⟨d',
          { intact := hintact
            underway := h.underway.mono hle ha.capacity
            consts := h.consts
            reaches := hreaches
            values := fun v hv => ?_
            store := hst }⟩
        extent := hle
        cells := rfl
        ip := rfl
        store := rfl }⟩
    rcases List.mem_append.mp hv with hv | hv
    · exact (ha.below_sound v hv).mono hle
    · rw [List.mem_singleton.mp hv]
      exact hr
  · have hdepth := congrArg List.length hentered.cs
    simp only [hs', VmState.setCells, h.intact.cs, List.length_cons] at hdepth
    omega

/-- The call of a native function. -/
theorem Machine.Running.callNative (h : m.Running site sites index indexes d) (hw : w.Lawful Fair)
    {scatter : Bool} {c : Nat} {vs : ValueStack} {below all : List Value} {id : Nat}
    (hi : m.vm.instr? = some (opCall scatter c)) (hsteady : m.Steady Fair)
    (ha : ArgsReady m scatter c vs (.cfunc id) below all) :
    (m.callValue w { m.vm with vs := vs } all.length (.cfunc id)).Safe m.store.extent := by
  rcases hnative : w.natives id m.store (all.take (toUint32 all.length)) with ⟨_ | r, st⟩
  · have hsound := hw.native id m.store (all.take (toUint32 all.length)) ha.callee_sound h.store
      (fun v hv => ha.all_sound v (List.mem_of_mem_take hv)) (hsteady.fair hi ha)
    rw [hnative] at hsound
    rw [Machine.callNative_eq ha, hnative]
    exact hsound
  · obtain ⟨m', hrun, hturned⟩ := h.callNative_goes hw hi hsteady ha hnative
    rw [hrun]
    exact hturned.next_safe

/-- A call enters its callee, or puts the result of a native function in the place of the values it
has taken. -/
theorem Machine.Running.call (h : m.Running site sites index indexes d) (hw : w.Lawful Fair)
    {scatter : Bool} {c : Nat} (hi : m.vm.instr? = some (opCall scatter c))
    (hsteady : m.Steady Fair) : (m.call w scatter c).Safe m.store.extent := by
  cases hargs : doCallArgs m.vm scatter c with
  | error e =>
      have hpops := (h.intact.disciplined hi).pops
      rw [h.intact.at_ip.2, Instr.pops] at hpops
      have hlength := h.intact.frames.length
      rw [Machine.call, hargs]
      exact ⟨doCallArgs_error hargs (by omega), h.store, .refl _⟩
  | ok r =>
      obtain ⟨n, s₁⟩ := r
      obtain ⟨vs, callee, below, all, rfl, rfl, ha⟩ := h.argsReady hi hargs
      rw [ha.call_eq]
      cases callee with
      | func f => exact h.callFunc hi (hsteady.stack _ _ hi) ha
      | cfunc id => exact h.callNative hw hi hsteady ha
      | _ => exact ⟨Fault.noConfusion, h.store, .refl _⟩

/-! ## Runs -/

/-- One turn of the dispatch loop keeps the invariant. -/
theorem Machine.Running.step (h : m.Running site sites index indexes d) (hw : w.Lawful Fair)
    (hsteady : m.Steady Fair) : (m.step w).Safe m.store.extent := by
  obtain ⟨instr, hi⟩ := h.exists_instr
  cases instr with
  | opCall scatter c =>
      rw [Machine.step, hi]
      exact h.call hw hi hsteady
  | opReturn =>
      rw [Machine.step, hi]
      exact h.ret hi
  | _ =>
      rw [Machine.step, hi]
      exact h.plain hw hi (fun _ _ => Instr.noConfusion) Instr.noConfusion

/-- A run of the dispatch loop keeps the invariant. -/
theorem Machine.Running.runFor {w : Nat → World} {Fair : Nat → Nat → Store → List Value → Prop}
    (h : m.Running site sites index indexes d) (hw : ∀ k, (w k).Lawful (Fair k)) {n : Nat}
    (hsteady : ∀ k < n, ∀ m', Calx.runFor w k m = .next m' → m'.Steady (Fair k)) :
    (Calx.runFor w n m).Safe m.store.extent := by
  induction n generalizing w Fair m site sites index indexes d with
  | zero => exact ⟨.refl _, site, sites, index, indexes, d, h⟩
  | succ n ih =>
      have hstep := h.step (hw 0) (hsteady 0 (Nat.succ_pos n) m rfl)
      rw [Calx.runFor]
      cases hrun : m.step (w 0) with
      | next m₁ =>
          rw [hrun] at hstep
          obtain ⟨hle, site₁, sites₁, index₁, indexes₁, d₁, h₁⟩ := hstep
          have hrest := ih h₁ (fun k => hw (k + 1))
          refine (hrest fun k hk m' hm' => ?_).mono hle
          apply hsteady (k + 1) (Nat.succ_lt_succ hk) m'
          rw [Calx.runFor, hrun]
          exact hm'
      | done v st =>
          rw [hrun] at hstep
          exact hstep
      | raised fault st =>
          rw [hrun] at hstep
          exact hstep

end

/-! ## Whole runs -/

section

variable [DeciBase] {base : Int} {realloc : Nat → Int} {f : Func} {st : Store} {m : Machine}

omit [DeciBase] in
theorem evalStart_store (h : evalStart base realloc f st = .ok m) : m.store = st := by
  obtain ⟨s, hs, hm⟩ := bind_ok h
  obtain rfl := Except.ok.inj hm
  unfold setupForEval at hs
  split at hs
  · cases hs
  · obtain ⟨vs, -, hs⟩ := bind_ok hs
    obtain rfl := Except.ok.inj hs
    rfl

/-- `state_eval` begins with the frame of the function it is given. -/
theorem evalStart_running (hf : f.chunk.Sound st.extent.globals) (hst : st.Sound)
    (h : evalStart base realloc f st = .ok m) : m.Running ⟨none, f, [], -1⟩ [] 1 [] 0 := by
  have hstore := evalStart_store h
  obtain ⟨s, hs, hm⟩ := bind_ok h
  obtain rfl := Except.ok.inj hm
  have hintact := setupForEval_intact rfl hs
  unfold setupForEval at hs
  split at hs
  · cases hs
  · obtain ⟨vs, hvs, hs⟩ := bind_ok hs
    obtain rfl := Except.ok.inj hs
    obtain ⟨hcells, hroom⟩ := valueStackEnsure_ok hvs
    simp only at hcells
    rw [hcells, List.length_nil] at hroom
    have hresident : Resident st.extent vs.capacity f 1 := ⟨hf, by omega⟩
    exact {
      intact := hintact
      underway := by
        rw [hstore]
        exact .main hresident
      consts := rfl
      reaches := f.reaches_entry
      values := by
        rw [hstore]
        intro v hv
        change v ∈ vs.cells ++ .func f :: List.replicate f.shape.nlocals .nil at hv
        rw [hcells, List.nil_append] at hv
        rcases List.mem_cons.mp hv with rfl | hv
        · exact hf
        · rw [List.eq_of_mem_replicate hv]
          trivial
      store := by
        rw [hstore]
        exact hst }

omit [DeciBase] in
theorem evalStart_error {e : VmError} (h : evalStart base realloc f st = .error e) :
    e.fault ≠ .illegal := by
  rw [evalStart] at h
  cases hs : setupForEval ⟨base, [], 0, realloc, by decide⟩ ⟨st.lists⟩ f with
  | ok s =>
      rw [hs] at h
      cases h
  | error e' =>
      rw [hs] at h
      obtain rfl := Except.error.inj h
      unfold setupForEval at hs
      split at hs
      · cases hs
        exact Fault.noConfusion
      · rename_i hnargs
        cases hvs : valueStackEnsure (⟨base, [], 0, realloc, by decide⟩ : ValueStack)
            (f.shape.maxstack + f.shape.nlocals + 1) with
        | ok vs =>
            simp only [hvs, bind, Except.bind] at hs
            cases hs
        | error e' =>
            simp only [hvs, bind, Except.bind] at hs
            obtain rfl := Except.error.inj hs
            rw [valueStackEnsure_error hvs]
            exact Fault.noConfusion

end

/-- In a run of a sound function on a sound store, in lawful worlds, nothing undefined happens, and
what the run leaves is sound, provided that no call moves the stack at the wrong moment and native
functions are called fairly. -/
theorem runFor_safe [Libdeci] {w : Nat → World} {Fair : Nat → Nat → Store → List Value → Prop}
    {base : Int} {realloc : Nat → Int} {f : Func} {st : Store} {m : Machine}
    (hw : ∀ k, (w k).Lawful (Fair k)) (hf : f.chunk.Sound st.extent.globals) (hst : st.Sound)
    (hstart : evalStart base realloc f st = .ok m) {n : Nat}
    (hsteady : ∀ k < n, ∀ m', runFor w k m = .next m' → m'.Steady (Fair k)) :
    (runFor w n m).Safe st.extent := by
  rw [← evalStart_store hstart]
  exact (evalStart_running hf hst hstart).runFor hw hsteady

end Calx
