import Calx.Vm.Store

/-!
# The effect of an instruction

With sound operands in front of it, an instruction that the compiler has put there does
nothing undefined: it raises an error, or it takes off the stack and puts there what the
compiler counts, writes no local but its own, and leaves a sound store in which there is
whatever there was.
-/

namespace Calx

open Libdeci

/-! ## Worlds -/

/-- A native function has done nothing undefined, and its result is sound. -/
def NativeSound [DeciBase] (st : Store) : Except Fault Value × Store → Prop
  | (.ok v, st') => v.Sound st'.extent ∧ st'.Sound ∧ st.extent.Le st'.extent
  | (.error fault, st') => fault ≠ .illegal ∧ st'.Sound ∧ st.extent.Le st'.extent

/-- What the machine relies on in the world, where native functions are called as `Fair` has it. -/
structure World.Lawful [DeciBase] (w : World) (Fair : Nat → Store → List Value → Prop) : Prop where
  native : ∀ id st args, id < nativeCount → Store.Sound st →
    (∀ v ∈ args, Value.Sound st.extent v) → Fair id st args → NativeSound st (w.natives id st args)
  /-- One object is one value. -/
  sharing : ∀ left right, (w.sharing left right).Fits left right
  /-- `mk_func` makes what it is told to make. -/
  made : ∀ c i f, w.mkFunc c i = some f → f.chunk = c ∧ f.ip = i
  makes : ∀ f : Func, ∃ f', w.mkFunc f.chunk f.ip = some f'

section

variable [Libdeci] {w : World} {Fair : Nat → Store → List Value → Prop} {m : Machine}
  {site : CallSite} {instr : Instr} {rest operands : List Value}

/-- The instruction is to be executed, with its operands on the stack. -/
structure Ready (m : Machine) (site : CallSite) (instr : Instr) (rest operands : List Value) :
    Prop where
  running : m.vm.cs.head? = some site
  code : site.callee.chunk.code[m.vm.ip]? = some instr
  chunk : site.callee.chunk.Sound m.store.extent.globals
  admissible : instr.Admissible site.callee.chunk m.store.extent.globals.length site.callee.shape.nlocals
  consts : m.vm.consts = site.callee.chunk.consts
  store : m.store.Sound
  values : ∀ v ∈ m.vm.vs.cells, v.Sound m.store.extent
  cells : m.vm.vs.cells = rest ++ operands
  pops : operands.length = instr.pops
  base : m.vm.vs.base ≤ m.vm.locals
  locals : ∀ k < site.callee.shape.nlocals, (m.vm.locals - m.vm.vs.base).toNat + k < rest.length

/-- What an instruction may do that stands in the chunk `c` over the values `rest`. -/
def Effect.Legal (m : Machine) (c : Chunk) (instr : Instr) (rest : List Value) : Effect → Prop
  | .goes rest' results next st =>
      (results.length = instr.pushes ∧ LocalWrite m.vm rest rest' instr ∧
        next ∈ c.next m.vm.ip instr) ∧
      (∀ v ∈ rest' ++ results, v.Sound st.extent) ∧ st.Sound ∧ m.store.extent.Le st.extent
  | .raises fault st => fault ≠ .illegal ∧ st.Sound ∧ m.store.extent.Le st.extent

/-- A value may be pushed, and an error is none of C. -/
def Legal (x : Extent) (r : Except Fault Value) : Prop :=
  (∀ v, r = .ok v → v.Sound x) ∧ ∀ e, r = .error e → e ≠ .illegal

theorem Legal.ok {x : Extent} {v : Value} (h : v.Sound x) : Legal x (.ok v) :=
  ⟨fun _ hv => Except.ok.inj hv ▸ h, fun _ he => nomatch he⟩

theorem Legal.mapError {x : Extent} {r : Except OperatorError Value}
    (h : ∀ v, r = .ok v → v.Sound x) : Legal x (r.mapError OperatorError.fault) := by
  cases r with
  | ok v => exact .ok (h v rfl)
  | error e =>
      constructor
      · intro v hv
        cases hv
      · rintro _ ⟨⟩
        exact e.fault_ne

/-- An instruction pushes nothing and changes the store. -/
theorem leaves_legal {rest' : List Value} {st : Store} (hpush : instr.pushes = 0)
    (hwrite : LocalWrite m.vm rest rest' instr)
    (hnext : ((m.vm.ip : Int) + 1) ∈ site.callee.chunk.next m.vm.ip instr)
    (hrest : ∀ v ∈ rest', v.Sound m.store.extent) (hst : st.Sound)
    (hle : m.store.extent.Le st.extent) :
    (m.leaves rest' st).Legal m site.callee.chunk instr rest := by
  refine ⟨⟨hpush.symm, hwrite, hnext⟩, fun u hu => ?_, hst, hle⟩
  rw [List.append_nil] at hu
  exact (hrest u hu).mono hle

namespace Ready

variable (h : Ready m site instr rest operands)

include h

theorem rest_sound : ∀ v ∈ rest, v.Sound m.store.extent := by
  intro v hv
  apply h.values
  rw [h.cells]
  exact List.mem_append_left _ hv

theorem operand_sound {v : Value} (hv : v ∈ operands) : v.Sound m.store.extent := by
  apply h.values
  rw [h.cells]
  exact List.mem_append_right _ hv

/-- A local of the function is there. -/
theorem local_eq {k : Nat} (hk : k < site.callee.shape.nlocals) :
    ∃ v, m.vm.local? k = some v ∧ v.Sound m.store.extent := by
  have hlt := h.locals k hk
  have hcells : (m.vm.locals - m.vm.vs.base).toNat + k < m.vm.vs.cells.length := by
    rw [h.cells, List.length_append]
    omega
  refine ⟨m.vm.vs.cells[(m.vm.locals - m.vm.vs.base).toNat + k], ?_, ?_⟩
  · rw [VmState.local?, if_pos h.base]
    exact List.getElem?_eq_getElem hcells
  · exact h.values _ (List.getElem_mem hcells)

/-- An error leaves the store as it is. -/
theorem raises {c : Chunk} {e : Fault} (he : e ≠ .illegal) :
    Effect.Legal m c instr rest (.raises e m.store) := ⟨he, h.store, .refl _⟩

/-- An instruction pushes a value. -/
theorem result {r : Except Fault Value} (hr : Legal m.store.extent r)
    (hpush : instr.pushes = 1) (hwrite : LocalWrite m.vm rest rest instr)
    (hnext : ((m.vm.ip : Int) + 1) ∈ site.callee.chunk.next m.vm.ip instr) :
    (m.result rest r).Legal m site.callee.chunk instr rest := by
  cases r with
  | error e => exact h.raises (hr.2 e rfl)
  | ok v =>
      refine ⟨⟨hpush.symm, hwrite, hnext⟩, fun u hu => ?_, h.store, .refl _⟩
      rcases List.mem_append.mp hu with hu | hu
      · exact h.rest_sound u hu
      · rw [List.mem_singleton.mp hu]
        exact hr.1 v rfl

/-- An instruction assigns a local. -/
theorem writeLocal {k : Nat} {r : Except Fault Value} (hr : Legal m.store.extent r)
    (hk : k < site.callee.shape.nlocals) (hpush : instr.pushes = 0)
    (hwrite : ∀ v, LocalWrite m.vm rest (rest.set ((m.vm.locals - m.vm.vs.base).toNat + k) v) instr)
    (hnext : ((m.vm.ip : Int) + 1) ∈ site.callee.chunk.next m.vm.ip instr) :
    (m.writeLocal rest k r).Legal m site.callee.chunk instr rest := by
  cases r with
  | error e => exact h.raises (hr.2 e rfl)
  | ok v =>
      rw [Machine.writeLocal, if_pos ⟨h.base, h.locals k hk⟩]
      refine leaves_legal hpush (hwrite v) hnext (fun u hu => ?_) h.store (.refl _)
      rcases List.mem_or_eq_of_mem_set hu with hu | rfl
      · exact h.rest_sound u hu
      · exact hr.1 _ rfl

/-- An instruction changes an element. -/
theorem elements {r : ElementRun} (hof : r.2.Of (Value.Sound m.store.extent))
    (hsize : m.store.containers.SameSize r.2) (hr : ∀ e, r.1 = .error e → e.fault ≠ .illegal)
    (hpush : instr.pushes = 0) (hwrite : LocalWrite m.vm rest rest instr)
    (hnext : ((m.vm.ip : Int) + 1) ∈ site.callee.chunk.next m.vm.ip instr) :
    (m.elements rest r).Legal m site.callee.chunk instr rest := by
  obtain ⟨hst, hextent⟩ := h.store.withContainers hof hsize
  have hle : m.store.extent.Le (m.store.withContainers r.2).extent := hextent ▸ .refl _
  obtain ⟨run, h'⟩ := r
  cases run with
  | ok _ => exact leaves_legal hpush hwrite hnext h.rest_sound hst hle
  | error e => exact ⟨hr e rfl, hst, hle⟩

/-! ## Globals -/

/-- A global is there, and an undefined one has a name. -/
theorem globalAt {k : Nat} (hk : k < m.store.extent.globals.length) :
    ∃ o, Globals.globalAt m.env.globals k = .ok o ∧ (∀ v ∈ o, Value.Sound m.store.extent v) ∧
      ∃ message, Globals.missingGlobal m.env.globals k = .ok message := by
  have hwf : m.env.globals.Wf := h.store.globals
  have hlt : k < m.env.globals.globals.data.length := by
    rw [← hwf.size, ← Globals.length_names]
    exact hk
  refine ⟨_, Globals.globalAt_eq_ok.mpr (List.getElem?_eq_getElem hlt), fun v hv => ?_, ?_⟩
  · exact h.store.values _ (List.getElem_mem hlt) v hv
  · exact ⟨_, Globals.missingGlobal_eq (List.getElem?_eq_getElem hk)⟩

theorem loadGlobal_legal {k : Nat} (hk : k < m.store.extent.globals.length) :
    Legal m.store.extent (m.loadGlobal k) := by
  obtain ⟨o, ho, hsound, message, hmessage⟩ := h.globalAt hk
  rw [Machine.loadGlobal, Globals.opLoadGlobal, ho]
  cases o with
  | some v => exact .ok (hsound v rfl)
  | none =>
      simp only [bind, Except.bind, hmessage, pure, Except.pure]
      constructor
      · intro v hv
        cases hv
      · rintro e ⟨⟩
        exact Fault.noConfusion

/-- An instruction assigns a global. -/
theorem assigns {r : Except GlobalFault (Globals.GlobalResult × Globals)}
    (hr : (∃ k v g, Value.Sound m.store.extent v ∧ r = .ok (.stored, g) ∧
        Globals.checkedStore m.env.globals k v = .ok g) ∨
      (∃ message, r = .ok (.thrown message, m.env.globals)) ∨
      ∃ e, r = .error e ∧ e.fault ≠ .illegal)
    (hpush : instr.pushes = 0) (hwrite : LocalWrite m.vm rest rest instr)
    (hnext : ((m.vm.ip : Int) + 1) ∈ site.callee.chunk.next m.vm.ip instr) :
    (m.assigns rest r).Legal m site.callee.chunk instr rest := by
  rcases hr with ⟨k, v, g, hv, rfl, hrun⟩ | ⟨message, rfl⟩ | ⟨e, rfl, he⟩
  · obtain ⟨hst, hextent⟩ := h.store.assigned hv hrun
    exact leaves_legal hpush hwrite hnext h.rest_sound hst (hextent ▸ .refl _)
  · exact h.raises Fault.noConfusion
  · exact h.raises he

/-- An index that is in range can be assigned. -/
theorem checkedStore {k : Nat} (hk : k < m.store.extent.globals.length) (v : Value) :
    ∃ g, Globals.checkedStore m.env.globals k v = .ok g := by
  obtain ⟨o, ho, -⟩ := h.globalAt hk
  exact ⟨_, by rw [Globals.checkedStore, ho]; rfl⟩

theorem storeGlobal {k : Nat} {v : Value} (hk : k < m.store.extent.globals.length)
    (hv : v.Sound m.store.extent) (hpush : instr.pushes = 0)
    (hwrite : LocalWrite m.vm rest rest instr)
    (hnext : ((m.vm.ip : Int) + 1) ∈ site.callee.chunk.next m.vm.ip instr) :
    (m.assigns rest ((Globals.opStoreGlobal m.env.globals k v).map fun g => (.stored, g))).Legal m
      site.callee.chunk instr rest := by
  obtain ⟨g, hg⟩ := h.checkedStore hk v
  refine h.assigns (Or.inl ⟨k, v, g, hv, ?_, hg⟩) hpush hwrite hnext
  rw [Globals.opStoreGlobal, hg]
  rfl

/-! ## Operators -/

theorem aop_legal (hw : w.Lawful Fair) (a : Aop) {left right : Value} (hl : left.Sound m.store.extent)
    (hr : right.Sound m.store.extent) :
    Legal m.store.extent (w.aop m.env.ntp a left right) := by
  obtain ⟨p, hp⟩ := h.store.ntp
  have hntp : m.env.ntp = ntpFromPrec p := hp
  rw [World.aop, hntp]
  exact .mapError fun v hv => performAop_sound hl hr (hw.sharing left right) hv

theorem modifyGlobal (hw : w.Lawful Fair) (a : Aop) {k : Nat} {v : Value}
    (hk : k < m.store.extent.globals.length) (hv : v.Sound m.store.extent) (hpush : instr.pushes = 0)
    (hwrite : LocalWrite m.vm rest rest instr)
    (hnext : ((m.vm.ip : Int) + 1) ∈ site.callee.chunk.next m.vm.ip instr) :
    (m.assigns rest (Globals.opModifyGlobal m.env.ntp (w.sharing (m.globalValue k) v) a
      m.env.globals k v)).Legal m site.callee.chunk instr rest := by
  obtain ⟨o, ho, hsound, message, hmessage⟩ := h.globalAt hk
  refine h.assigns ?_ hpush hwrite hnext
  rw [Globals.opModifyGlobal, ho]
  cases o with
  | none =>
      right; left
      simp only [bind, Except.bind, hmessage, pure, Except.pure]
      exact ⟨message, rfl⟩
  | some u =>
      have hvalue : m.globalValue k = u := by
        rw [Machine.globalValue, Globals.globalAt_eq_ok.mp ho]
        rfl
      have hu := hsound u rfl
      rw [hvalue]
      simp only [bind, Except.bind]
      cases hrun : performAop m.env.ntp (w.sharing u v) a u v with
      | ok z =>
          left
          have hz : z.Sound m.store.extent := by
            apply (h.aop_legal hw a hu hv).1
            rw [World.aop, hrun]
            rfl
          obtain ⟨g, hg⟩ := h.checkedStore hk z
          refine ⟨k, z, g, hz, ?_, hg⟩
          dsimp only
          rw [hg]
          rfl
      | error e =>
          right
          cases e with
          | prepared text => exact Or.inl ⟨_, rfl⟩
          | panic text => exact Or.inr ⟨_, rfl, Fault.noConfusion⟩

/-! ## Objects -/

/-- A container among the operands is there. -/
theorem has {c : Value} (hc : c ∈ operands) : m.store.containers.Has c := by
  have hsound := h.operand_sound hc
  cases c with
  | list id | dict id => exact hsound
  | _ => trivial

theorem storeAt {c i v : Value} (hops : operands = [c, i, v]) (hpush : instr.pushes = 0)
    (hwrite : LocalWrite m.vm rest rest instr)
    (hnext : ((m.vm.ip : Int) + 1) ∈ site.callee.chunk.next m.vm.ip instr) :
    (m.elements rest (Calx.opStoreAt m.store.containers c i v)).Legal m site.callee.chunk instr
      rest := by
  have hc := h.has (c := c) (by simp [hops])
  have hv := h.operand_sound (v := v) (by simp [hops])
  obtain ⟨hof, hsize, hr⟩ := h.store.containers.opStoreAt trivial (fun _ => Value.Sound.wf) hc i hv
  exact h.elements hof hsize hr hpush hwrite hnext

theorem modifyAt (hw : w.Lawful Fair) (a : Aop) {c i v : Value} (hops : operands = [c, i, v])
    (hpush : instr.pushes = 0) (hwrite : LocalWrite m.vm rest rest instr)
    (hnext : ((m.vm.ip : Int) + 1) ∈ site.callee.chunk.next m.vm.ip instr) :
    (m.elements rest (Calx.opModifyAt m.env.ntp (w.sharing (m.elementValue c i) v) a
      m.store.containers c i v)).Legal m site.callee.chunk instr rest := by
  have hc := h.has (c := c) (by simp [hops])
  have hv := h.operand_sound (v := v) (by simp [hops])
  obtain ⟨p, hp⟩ := h.store.ntp
  have hntp : m.env.ntp = ntpFromPrec p := hp
  have hsh : ∀ u, getElemAt m.store.containers c i = .ok u →
      (w.sharing (m.elementValue c i) v).Fits u v := by
    intro u hu
    rw [Machine.elementValue, hu]
    exact hw.sharing u v
  rw [hntp]
  obtain ⟨hof, hsize, hr⟩ := opModifyAt_of h.store.containers hc hv hsh a
  exact h.elements hof hsize hr hpush hwrite hnext

theorem newList {k : Nat} (hinstr : instr = .opList k) :
    Effect.Legal m site.callee.chunk instr rest
      (.goes rest [.list m.vm.heap.lists.length] (m.vm.ip + 1)
        { m.store with lists := m.vm.heap.lists ++ [operands] }) := by
  obtain ⟨hst, hle⟩ := h.store.newList fun v hv => h.operand_sound hv
  refine ⟨⟨?_, ?_, ?_⟩, fun v hv => ?_, hst, hle⟩
  · rw [hinstr]
    rfl
  · rw [hinstr]
    rfl
  · rw [hinstr]
    exact List.mem_singleton_self _
  · rcases List.mem_append.mp hv with hv | hv
    · exact (h.rest_sound v hv).mono hle
    · rw [List.mem_singleton.mp hv]
      simp [Value.Sound, Store.extent]

theorem newDict {k : Nat} (hinstr : instr = .opDict k) :
    (m.dict rest operands).Legal m site.callee.chunk instr rest := by
  have hlen : operands.length % 2 = 0 := by
    rw [h.pops, hinstr, Instr.pops]
    omega
  rw [Machine.dict]
  cases hkeys : checkDictKeys operands with
  | error e => exact h.raises (checkDictKeys_fault hkeys)
  | ok _ =>
      rcases dictNewSteal_spec (P := Value.Sound m.store.extent) Str.holds_new
        (fun key v hv => by simp at hv) (fun v hv => h.operand_sound hv) hlen hkeys with
        ⟨d, entries, hrun, hd, hentries⟩ | hpanic
      · obtain ⟨hst, hle⟩ := h.store.newDict hd hentries
        dsimp only
        rw [hrun]
        refine ⟨⟨?_, ?_, ?_⟩, fun v hv => ?_, hst, hle⟩
        · rw [hinstr]
          rfl
        · rw [hinstr]
          rfl
        · rw [hinstr]
          exact List.mem_singleton_self _
        · rcases List.mem_append.mp hv with hv | hv
          · exact (h.rest_sound v hv).mono hle
          · rw [List.mem_singleton.mp hv]
            simp [Value.Sound, Store.extent, Machine.store]
      · dsimp only
        rw [hpanic]
        exact h.raises Fault.noConfusion

theorem newFunction (hw : w.Lawful Fair) {k : Nat} (hinstr : instr = .opFunction k) :
    (m.function w rest k).Legal m site.callee.chunk instr rest := by
  obtain ⟨s, hs⟩ : ∃ s, site.callee.chunk.shapes[k]? = some s := by
    have hadm := h.admissible
    rw [hinstr] at hadm
    exact hadm
  have hshape : site.callee.chunk.shapeAt m.vm.ip = some s := by
    rw [Chunk.shapeAt, Calx.shapeAt, h.code, hinstr]
    exact hs
  obtain ⟨f, hchunk, hip⟩ := h.chunk.func _ _ hshape
  obtain ⟨f', hf'⟩ := hw.makes f
  rw [hchunk, hip] at hf'
  have hmade := (hw.made _ _ _ hf').1
  rw [Machine.function, h.running]
  dsimp only
  rw [hs, hf']
  refine ⟨⟨?_, ?_, ?_⟩, fun v hv => ?_, h.store, .refl _⟩
  · rw [hinstr]
    rfl
  · rw [hinstr]
    rfl
  · simp [hinstr, Chunk.next, hs]
  · rcases List.mem_append.mp hv with hv | hv
    · exact h.rest_sound v hv
    · rw [List.mem_singleton.mp hv]
      change f'.chunk.Sound _
      rw [hmade]
      exact h.chunk

theorem loadAt {c : Value} (hc : c ∈ operands) (i : Value) :
    Legal m.store.extent
      ((getElemAt m.store.containers c i).mapError ElementError.fault) := by
  obtain ⟨hok, herror⟩ := h.store.containers.getElemAt (i := i) trivial (fun _ => trivial) (h.has hc)
  cases hrun : getElemAt m.store.containers c i with
  | ok v => exact .ok (hok v hrun)
  | error e =>
      constructor
      · intro v hv
        cases hv
      · rintro _ ⟨⟩
        exact herror e hrun

/-! ## Instructions -/

/-- A comparison or another operator that can fail, but pushes no reference. -/
theorem operator {r : Except OperatorError Value} (hr : ∀ v, r = .ok v → v.Sound m.store.extent)
    (hpush : instr.pushes = 1) (hwrite : LocalWrite m.vm rest rest instr)
    (hnext : ((m.vm.ip : Int) + 1) ∈ site.callee.chunk.next m.vm.ip instr) :
    (m.result rest (r.mapError OperatorError.fault)).Legal m site.callee.chunk instr rest :=
  h.result (.mapError hr) hpush hwrite hnext

theorem jump {next : Int} (hpush : instr.pushes = 0) (hwrite : LocalWrite m.vm rest rest instr)
    (hnext : next ∈ site.callee.chunk.next m.vm.ip instr) :
    Effect.Legal m site.callee.chunk instr rest (.goes rest [] next m.store) := by
  refine ⟨⟨hpush.symm, hwrite, hnext⟩, fun v hv => ?_, h.store, .refl _⟩
  rw [List.append_nil] at hv
  exact h.rest_sound v hv

/-- Every instruction but calls and returns keeps to what the compiler counts on. -/
theorem effect_legal (hw : w.Lawful Fair) (hcall : ∀ scatter c, instr ≠ .opCall scatter c)
    (hret : instr ≠ .opReturn) :
    (m.effect w rest instr operands).Legal m site.callee.chunk instr rest := by
  have hpops := h.pops
  have hadm := h.admissible
  have hfalls : instr.isPlain = true →
      ((m.vm.ip : Int) + 1) ∈ site.callee.chunk.next m.vm.ip instr := by
    intro hplain
    rw [Chunk.next_of_isPlain hplain hret]
    exact List.mem_singleton_self _
  cases instr with
  | opLoadConst k =>
      obtain rfl := List.length_eq_zero_iff.mp hpops
      obtain ⟨v, hv, hwf⟩ := hadm
      refine h.result ?_ rfl rfl (List.mem_singleton_self _)
      rw [h.consts, hv]
      cases v with
      | num n => exact .ok hwf
      | _ => exact .ok trivial
  | opLoadLocal k =>
      obtain rfl := List.length_eq_zero_iff.mp hpops
      obtain ⟨v, hv, hsound⟩ := h.local_eq hadm
      refine h.result ?_ rfl rfl (List.mem_singleton_self _)
      rw [hv]
      exact .ok hsound
  | opLoadGlobal k =>
      obtain rfl := List.length_eq_zero_iff.mp hpops
      exact h.result (h.loadGlobal_legal hadm) rfl rfl (List.mem_singleton_self _)
  | opLoadAt =>
      obtain ⟨c, i, rfl⟩ := List.length_eq_two.mp hpops
      exact h.result (h.loadAt (by simp) i) rfl rfl (hfalls rfl)
  | opStoreLocal k =>
      obtain ⟨v, rfl⟩ := List.length_eq_one_iff.mp hpops
      have hv : v.Sound m.store.extent := h.operand_sound (by simp)
      exact h.writeLocal (.ok hv) hadm rfl (fun u => ⟨h.base, h.locals k hadm, u, rfl⟩)
        (List.mem_singleton_self _)
  | opStoreGlobal k =>
      obtain ⟨v, rfl⟩ := List.length_eq_one_iff.mp hpops
      exact h.storeGlobal hadm (h.operand_sound (by simp)) rfl rfl (List.mem_singleton_self _)
  | opStoreAt =>
      obtain ⟨c, i, v, rfl⟩ := List.length_eq_three.mp hpops
      exact h.storeAt rfl rfl rfl (hfalls rfl)
  | opModifyLocal a k =>
      obtain ⟨v, rfl⟩ := List.length_eq_one_iff.mp hpops
      obtain ⟨u, hu, hsound⟩ := h.local_eq hadm
      refine h.writeLocal ?_ hadm rfl (fun u => ⟨h.base, h.locals k hadm, u, rfl⟩)
        (List.mem_singleton_self _)
      rw [hu]
      exact h.aop_legal hw a hsound (h.operand_sound (by simp))
  | opModifyGlobal a k =>
      obtain ⟨v, rfl⟩ := List.length_eq_one_iff.mp hpops
      exact h.modifyGlobal hw a hadm (h.operand_sound (by simp)) rfl rfl (List.mem_singleton_self _)
  | opModifyAt a =>
      obtain ⟨c, i, v, rfl⟩ := List.length_eq_three.mp hpops
      exact h.modifyAt hw a rfl rfl rfl (hfalls rfl)
  | opPrint =>
      obtain ⟨v, rfl⟩ := List.length_eq_one_iff.mp hpops
      have hst : Store.Sound { m.store with
          out := m.env.out ++ valuePrint w.pointer m.store.containers v } :=
        ⟨h.store.containers, h.store.weakrefs, h.store.globals, h.store.values, h.store.ntp⟩
      exact leaves_legal rfl rfl (hfalls rfl) h.rest_sound hst (.refl _)
  | opJump k =>
      obtain rfl := List.length_eq_zero_iff.mp hpops
      exact h.jump rfl rfl (List.mem_singleton_self _)
  | opJumpUnless k =>
      obtain ⟨v, rfl⟩ := List.length_eq_one_iff.mp hpops
      refine h.jump rfl rfl ?_
      rw [Chunk.next]
      split
      · exact List.mem_cons_self
      · exact List.mem_cons_of_mem _ (List.mem_singleton_self _)
  | opFunction k =>
      obtain rfl := List.length_eq_zero_iff.mp hpops
      exact h.newFunction hw rfl
  | opNeg =>
      obtain ⟨v, rfl⟩ := List.length_eq_one_iff.mp hpops
      have hv : v.Sound m.store.extent := h.operand_sound (by simp)
      exact h.operator (fun u hu => performNeg_sound hv hu) rfl rfl (hfalls rfl)
  | opNot =>
      obtain ⟨v, rfl⟩ := List.length_eq_one_iff.mp hpops
      exact h.result (.ok (v := .flag _) trivial) rfl rfl (hfalls rfl)
  | opAop a =>
      obtain ⟨left, right, rfl⟩ := List.length_eq_two.mp hpops
      exact h.result (h.aop_legal hw a (h.operand_sound (by simp)) (h.operand_sound (by simp)))
        rfl rfl (hfalls rfl)
  | opCmp2way a =>
      obtain ⟨left, right, rfl⟩ := List.length_eq_two.mp hpops
      exact h.result (.ok (v := .flag _) trivial) rfl rfl (hfalls rfl)
  | opCmp3way a =>
      obtain ⟨left, right, rfl⟩ := List.length_eq_two.mp hpops
      exact h.operator (fun u hu => performCmp3way_sound hu) rfl rfl (hfalls rfl)
  | opLen =>
      obtain ⟨v, rfl⟩ := List.length_eq_one_iff.mp hpops
      exact h.operator (fun u hu => performLen_sound hu) rfl rfl (hfalls rfl)
  | opList k => exact h.newList rfl
  | opDict k => exact h.newDict rfl
  | opCall scatter k => exact absurd rfl (hcall scatter k)
  | opReturn => exact absurd rfl hret
  | opLoadSymbolic _ | opStoreSymbolic _ | opModifySymbolic _ _ => exact hadm.elim

end Ready

end

end Calx
