import Calx.Natives.Sound

/-!
# Sessions

A run of the interpreter from `make_state` on: sources are loaded and evaluated one after the
other, whether they are rejected, throw or return, and a source may evaluate modules while it
runs. None of this reaches outside of an object, a stack or a table, or jumps to an opcode that
there is not, except for what is known to go wrong: a call that moves the value stack at the wrong
moment, a function that is defined in the body of a `for` loop with a third clause, and `getline`
on variables that have not been set.

## Implementation notes

`Evaluates` is inductive, so that the evaluations of modules are nested to a finite depth. A
panic ends the process, after which there is no further source. Objects stay in the store for
good: nothing is said of memory that has been freed.
-/

namespace Calx

open Libdeci Stateful

section

variable [DeciBase]

/-- The store of a new state. -/
def Store.new (g : Globals) : Store := ⟨⟨[], [], g, ntpFromPrec 20, []⟩, []⟩

theorem Store.sound_new : (Store.new Globals.stateNew).Sound where
  containers := ⟨fun _ hl => (nomatch hl), fun _ hd => (nomatch hd)⟩
  weakrefs _ ho := nomatch ho
  globals := Globals.wf_stateNew
  values _ ho := nomatch ho
  ntp := ⟨20, rfl⟩

end

section

variable [Libdeci]

/-! ## Evaluations -/

/-- A turn of the machine in which nothing goes wrong that is known to. -/
structure Machine.Spared (o : Outside) (m : Machine) : Prop where
  stack : ∀ scatter c, m.vm.instr? = some (.opCall scatter c) → Calx.Steady m.vm scatter c
  sources : ∀ id args, m.Calls id args → ∀ source, o.Parses id args source → Unposted source
  lines : ∀ id args, m.Calls id args → o.ReadsLine id args → o.line ≠ .error .illegal

/-- How a run of the dispatch loop ends. -/
def Ended : Except Fault Value × Store → StepResult
  | (.ok v, st) => .done v st
  | (.error e, st) => .raised e st

/-- `state_eval` evaluates a function: how it ends, and the store that it leaves. -/
inductive Evaluates : Func → Store → Except Fault Value × Store → Prop
  | refused {base : Int} {realloc : Nat → Int} {f : Func} {st : Store} {e : VmError}
      (h : evalStart base realloc f st = .error e) : Evaluates f st (.error e.fault, st)
  | ended {base : Int} {realloc : Nat → Int} {f : Func} {st : Store} {m : Machine}
      {o : Nat → Outside} {n : Nat} {r : Except Fault Value × Store}
      (hstart : evalStart base realloc f st = .ok m) (ho : ∀ k, (o k).Lawful)
      (hspared : ∀ k < n, ∀ m', runFor (fun k => (o k).world) k m = .next m' → m'.Spared (o k))
      (hmodules : ∀ k < n, ∀ m', runFor (fun k => (o k).world) k m = .next m' →
        ∀ id args, m'.Calls id args → (o k).Numbers id "Require" → ∀ f' st',
          outcome (requireModule (o k) args) m'.store = (.ok f', st') →
            Evaluates f' st' (o k).evaluated)
      (hend : runFor (fun k => (o k).world) n m = Ended r) : Evaluates f st r

/-- A machine that has been set up for a function runs for `n` turns in these surroundings. -/
structure EvaluatesIn (o : Nat → Outside) (f : Func) (st : Store) (m : Machine) (n : Nat)
    (r : Except Fault Value × Store) : Prop where
  start : ∃ base realloc, evalStart base realloc f st = .ok m
  lawful : ∀ k, (o k).Lawful
  spared : ∀ k < n, ∀ m', runFor (fun k => (o k).world) k m = .next m' → m'.Spared (o k)
  modules : ∀ k < n, ∀ m', runFor (fun k => (o k).world) k m = .next m' →
    ∀ id args, m'.Calls id args → (o k).Numbers id "Require" → ∀ f' st',
      outcome (requireModule (o k) args) m'.store = (.ok f', st') →
        Evaluates f' st' (o k).evaluated
  ends : runFor (fun k => (o k).world) n m = Ended r

variable {f : Func} {st : Store} {r : Except Fault Value × Store}

/-- An evaluation, with the modules that are evaluated in it, stays within what there is. -/
theorem Evaluates.sound (h : Evaluates f st r) (hf : f.chunk.Sound st.extent.globals)
    (hst : st.Sound) : NativeSound st r := by
  induction h with
  | refused hstart => exact ⟨evalStart_error hstart, hst, .refl _⟩
  | @ended base realloc f st m o n r hstart ho hspared hmodules hend ih =>
      have hsteady : ∀ k < n, ∀ m', runFor (fun k => (o k).world) k m = .next m' →
          m'.Steady (o k).Fair := by
        intro k hk m' hm'
        have hturn := hspared k hk m' hm'
        refine ⟨hturn.stack, fun id args hcalls =>
          ⟨hturn.sources id args hcalls, hturn.lines id args hcalls, ?_⟩⟩
        intro hrequire f' st' hf' hst' hmodule
        exact ih k hk m' hm' id args hcalls hrequire f' st' hmodule hf' hst'
      have hsafe := runFor_safe (fun k => (ho k).world) hf hst hstart hsteady
      rw [hend] at hsafe
      rcases r with ⟨e | v, st'⟩
      · exact hsafe
      · exact hsafe

/-! ## The state at the beginning -/

/-- `state_steal_global` in turn, from the number `id` on. -/
def stealGlobals (g : Globals) : Nat → List String → Except GlobalFault Globals
  | _, [] => .ok g
  | id, name :: names => do
      let g ← Globals.stateStealGlobal g (bytesOf name) (.cfunc id)
      stealGlobals g (id + 1) names

/-- `make_state` before it evaluates the standard library. -/
def makeState (o : Outside) : Except GlobalFault Globals :=
  stealGlobals Globals.stateNew 0 ((natives o).map Prod.fst)

/-- Assigning a global by its name. -/
theorem Store.Sound.steal (hst : st.Sound) {name : Bytes} {v : Value} (hv : v.Sound st.extent)
    (hroom : st.globals.globals.data.length < maxItems) :
    ∃ g, Globals.stateStealGlobal st.globals name v = .ok g ∧
      ({ st with globals := g } : Store).Sound ∧
      g.globals.data.length ≤ st.globals.globals.data.length + 1 := by
  obtain ⟨idx, g, hrun, hint⟩ | ⟨-, hfull, -⟩ := Globals.stateInternGlobal_spec hst.globals name
  · obtain ⟨hst', hle⟩ := hst.intern hint
    have hidx : idx < g.globals.data.length := hint.wf.lt_size hint.key
    have hstore : Globals.checkedStore g idx v = .ok { g with globals := { g.globals with
        data := g.globals.data.set idx (some v) } } := by
      rw [Globals.checkedStore, Globals.globalAt, List.getElem?_eq_getElem hidx]
      rfl
    refine ⟨_, ?_, (hst'.assigned (hv.mono hle) hstore).1, ?_⟩
    · rw [Globals.stateStealGlobal, hrun]
      exact hstore
    · rw [List.length_set, hint.values]
      split
      · exact Nat.le_succ _
      · rw [List.length_append, List.length_singleton]
  · omega

theorem stealGlobals_sound {g : Globals} (hst : (Store.new g).Sound) {id : Nat}
    {names : List String} (hid : id + names.length ≤ nativeCount)
    (hroom : g.globals.data.length ≤ id) :
    ∃ g', stealGlobals g id names = .ok g' ∧ (Store.new g').Sound := by
  induction names generalizing g id with
  | nil => exact ⟨g, rfl, hst⟩
  | cons name names ih =>
      rw [List.length_cons] at hid
      have hmax : id < maxItems := by
        unfold nativeCount at hid
        unfold maxItems
        omega
      have hv : (Value.cfunc id).Sound (Store.new g).extent := by
        change id < nativeCount
        omega
      obtain ⟨g₁, hrun, hst₁, hlen⟩ : ∃ g₁, Globals.stateStealGlobal g (bytesOf name) (.cfunc id) =
          .ok g₁ ∧ (Store.new g₁).Sound ∧ g₁.globals.data.length ≤ g.globals.data.length + 1 :=
        hst.steal hv (hroom.trans_lt hmax)
      obtain ⟨g', hrest, hst'⟩ := ih hst₁ (show id + 1 + names.length ≤ nativeCount by omega)
        (hlen.trans (Nat.add_le_add_right hroom 1))
      refine ⟨g', ?_, hst'⟩
      rw [stealGlobals, hrun]
      exact hrest

/-- `make_state` registers all native functions. -/
theorem makeState_sound (o : Outside) : ∃ g, makeState o = .ok g ∧ (Store.new g).Sound :=
  stealGlobals_sound Store.sound_new le_rfl le_rfl

/-! ## Sources in turn -/

/-- The stores between the sources of a session. -/
inductive Session : Store → Prop
  | start {o : Outside} {g : Globals} (h : makeState o = .ok g) : Session (Store.new g)
  /-- A source is rejected. -/
  | rejected {o : Outside} {st st' : Store} {source : Bytes} {origin : String} (h : Session st)
      (ho : o.Lawful) (hsource : Unposted source)
      (hload : outcome (loadString o source origin) st = (.ok none, st')) : Session st'
  /-- A source is evaluated, and returns or throws. -/
  | evaluated {o : Outside} {st st' st'' : Store} {source : Bytes} {origin : String} {f : Func}
      {r : Except Fault Value} (h : Session st) (ho : o.Lawful) (hsource : Unposted source)
      (hload : outcome (loadString o source origin) st = (.ok (some f), st'))
      (heval : Evaluates f st' (r, st'')) (hr : r ≠ .error .panic) : Session st''

omit [Libdeci] in
theorem NativeSound.store [DeciBase] (h : NativeSound st r) : r.2.Sound := by
  rcases r with ⟨e | v, st'⟩
  · exact h.2.1
  · exact h.2.1

theorem loadString_sound {o : Outside} {source : Bytes} {origin : String} {st' : Store}
    {r : Option Func} (hst : st.Sound) (ho : o.Lawful) (hsource : Unposted source)
    (hload : outcome (loadString o source origin) st = (.ok r, st')) :
    st'.Sound ∧ ∀ f ∈ r, f.chunk.Sound st'.extent.globals := by
  obtain ⟨hst', -, hfunc, -⟩ := Act.Safe.loadString hst ho hsource origin
  rw [hload] at hst' hfunc
  exact ⟨hst', hfunc r rfl⟩

theorem Session.sound (h : Session st) : st.Sound := by
  induction h with
  | @start o g h =>
      obtain ⟨g', hg', hst⟩ := makeState_sound o
      rw [Except.ok.inj (h.symm.trans hg')]
      exact hst
  | rejected h ho hsource hload ih => exact (loadString_sound ih ho hsource hload).1
  | evaluated h ho hsource hload heval hr ih =>
      obtain ⟨hst', hfunc⟩ := loadString_sound ih ho hsource hload
      exact (heval.sound (hfunc _ rfl) hst').store

end

/-! ## A process without surroundings -/

open Classical in
/-- `mk_func`. -/
noncomputable def mkFunc (c : Chunk) (i : Nat) : Option Func :=
  if h : ∃ f : Func, f.chunk = c ∧ f.ip = i then some h.choose else none

/-- Nothing can be read, and no two operands are one object. -/
noncomputable def Outside.quiet : Outside where
  base :=
    { natives := fun _ st _ => (.error .illegal, st)
      sharing := fun _ _ => ⟨false, false, false⟩
      uniq := fun _ => false
      sameFunc := fun _ _ => false
      pointer := fun _ => []
      mkFunc := mkFunc }
  entered := none
  line := .ok none
  byte := none
  clock := none
  random := .error "cannot open random device"
  calxPath := none
  file := fun _ => none
  tried := []
  dead := fun _ => false
  evaluated := (.error .panic, ⟨⟨[], [], Globals.stateNew, ⟨0, 0⟩, []⟩, []⟩)

theorem Outside.quiet_lawful : Outside.quiet.Lawful where
  sharing _ _ h := nomatch h
  made c i f h := by
    change mkFunc c i = some f at h
    unfold mkFunc at h
    split at h
    · rename_i hf
      obtain rfl := Option.some.inj h
      exact hf.choose_spec
    · cases h
  makes f := ⟨_, dif_pos ⟨f, rfl, rfl⟩⟩

/-- The surroundings in which `mk_func` makes these functions. -/
noncomputable def Outside.making (fs : List Func) : Outside :=
  { Outside.quiet with
    base :=
      { Outside.quiet.base with
        mkFunc := fun c i => (fs.find? fun f => f.ip = i ∧ f.chunk = c).or (mkFunc c i) } }

theorem Outside.making_lawful (fs : List Func) : (Outside.making fs).Lawful where
  sharing := Outside.quiet_lawful.sharing
  made c i f h := by
    change (fs.find? fun f => f.ip = i ∧ f.chunk = c).or (mkFunc c i) = some f at h
    rcases Option.or_eq_some_iff.mp h with hfind | ⟨-, hmk⟩
    · have hf := List.find?_some hfind
      rw [decide_eq_true_eq] at hf
      exact ⟨hf.2, hf.1⟩
    · exact Outside.quiet_lawful.made c i f hmk
  makes f := by
    obtain ⟨f', hf'⟩ := Outside.quiet_lawful.makes f
    change ∃ f', (fs.find? fun f' => f'.ip = f.ip ∧ f'.chunk = f.chunk).or (mkFunc f.chunk f.ip) =
      some f'
    cases hfind : fs.find? fun f' => f'.ip = f.ip ∧ f'.chunk = f.chunk with
    | none => exact ⟨f', hf'⟩
    | some f'' => exact ⟨f'', rfl⟩

/-! ## Runs without native functions -/

/-- The next turn calls a function of a source at most, and the stack has the room for it. -/
def StepResult.calm : StepResult → Bool
  | .next m =>
      match m.vm.instr? with
      | some (.opCall scatter c) =>
          !scatter && decide (argsRoom m.vm scatter c ≤ m.vm.vs.capacity) &&
            (m.vm.vs.cells[m.vm.vs.cells.length - c - 1]?.bind Value.func?).isSome
      | _ => true
  | _ => true

/-- The stack is not moved where there is room. -/
theorem Steady.of_room [DeciBase] {s : VmState} {scatter : Bool} {c : Nat}
    (h : argsRoom s scatter c ≤ s.vs.capacity) : Steady s scatter c := by
  intro k hk
  cases k with
  | zero => rfl
  | succ k => exact absurd h (Nat.not_le.mpr (hk.2 0 (Nat.succ_pos k)))

theorem StepResult.spared [Libdeci] {m : Machine} (h : (StepResult.next m).calm = true)
    (o : Outside) : m.Spared o ∧ ∀ id args, ¬ m.Calls id args := by
  have hcall : ∀ scatter c, m.vm.instr? = some (.opCall scatter c) →
      scatter = false ∧ argsRoom m.vm scatter c ≤ m.vm.vs.capacity ∧
        (m.vm.vs.cells[m.vm.vs.cells.length - c - 1]?.bind Value.func?).isSome := by
    intro scatter c hi
    rw [calm, hi] at h
    simpa only [Bool.and_eq_true, Bool.not_eq_true', decide_eq_true_eq, and_assoc] using h
  have hnone : ∀ id args, ¬ m.Calls id args := by
    rintro id args ⟨scatter, c, n, s, hi, hargs, hcallee, -⟩
    obtain ⟨rfl, -, hfunc⟩ := hcall scatter c hi
    obtain ⟨rfl, rfl⟩ := Prod.mk.inj (Except.ok.inj hargs)
    rw [hcallee] at hfunc
    cases hfunc
  refine ⟨⟨fun scatter c hi => .of_room (hcall scatter c hi).2.1, ?_, ?_⟩, hnone⟩
  · intro id args hcalls
    exact absurd hcalls (hnone id args)
  · intro id args hcalls
    exact absurd hcalls (hnone id args)

/-- Calm turns, in the last of which a value is returned to the caller of `state_eval`. -/
def calmRun [Libdeci] (w : World) : Nat → Machine → Bool
  | 0, _ => false
  | n + 1, m =>
      (StepResult.next m).calm &&
        match m.step w with
        | .next m' => calmRun w n m'
        | .done _ _ => true
        | .raised _ _ => false

theorem calmRun_turns [Libdeci] {w : World} {n : Nat} {m : Machine} (h : calmRun w n m = true) :
    (∀ k < n, ∀ m', runFor (fun _ => w) k m = .next m' → (StepResult.next m').calm = true) ∧
      ∃ v st, runFor (fun _ => w) n m = .done v st := by
  induction n generalizing m with
  | zero => cases h
  | succ n ih =>
      rw [calmRun, Bool.and_eq_true] at h
      obtain ⟨hcalm, hrest⟩ := h
      have hzero : ∀ m', runFor (fun _ => w) 0 m = .next m' → (StepResult.next m').calm = true := by
        rintro _ ⟨⟩
        exact hcalm
      cases hstep : m.step w with
      | next m₁ =>
          rw [hstep] at hrest
          obtain ⟨hturns, v, st, hend⟩ := ih hrest
          have hrun : ∀ k, runFor (fun _ => w) (k + 1) m = runFor (fun _ => w) k m₁ := by
            intro k
            rw [runFor, hstep]
          refine ⟨fun k hk m' hm' => ?_, v, st, (hrun n).trans hend⟩
          cases k with
          | zero => exact hzero m' hm'
          | succ k => exact hturns k (Nat.lt_of_succ_lt_succ hk) m' ((hrun k).symm.trans hm')
      | done v st =>
          have hrun : ∀ k, runFor (fun _ => w) (k + 1) m = .done v st := by
            intro k
            rw [runFor, hstep]
          refine ⟨fun k _ m' hm' => ?_, v, st, hrun n⟩
          cases k with
          | zero => exact hzero m' hm'
          | succ k => cases (hrun k).symm.trans hm'
      | raised e st =>
          rw [hstep] at hrest
          cases hrest

theorem eq_ok_of_isOk {ε α : Type} {x : Except ε α} (a : α) (h : x.isOk = true) :
    x = .ok (x.toOption.getD a) := by
  cases x with
  | error e => cases h
  | ok b => rfl

/-- A function that calls no native function is evaluated in the same surroundings in all turns. -/
theorem evaluatesIn_of_calm [Libdeci] {o : Outside} (ho : o.Lawful) {f : Func} {st : Store}
    {n : Nat} (h : ((evalStart 0 (fun _ => 0) f st).toOption.any (calmRun o.world n)) = true) :
    ∃ m v st', EvaluatesIn (fun _ => o) f st m n (.ok v, st') := by
  cases hm : evalStart 0 (fun _ => 0) f st with
  | error e =>
      rw [hm] at h
      cases h
  | ok m =>
      rw [hm] at h
      obtain ⟨hturns, v, st', hend⟩ := calmRun_turns h
      refine ⟨m, v, st', ⟨0, fun _ => 0, hm⟩, fun _ => ho, fun k hk m' hm' => ?_,
        fun k hk m' hm' id args hcalls => ?_, hend⟩
      · exact (StepResult.spared (hturns k hk m' hm') o).1
      · exact absurd hcalls ((StepResult.spared (hturns k hk m' hm') o).2 id args)

/-! ## A source that calls its function -/

theorem Chunk.exists_depth [DeciBase] {globals g : List Bytes} {source : Bytes} {origin : String}
    {c : Chunk} (h : parse globals source origin = .ok (c, g)) {i : Nat} {s : Shape}
    (hs : c.shapeAt i = some s) (hlocals : s.nlocals ≤ uint32Max / 2) :
    ∃ depth, c.Disciplined i depth := by
  obtain ⟨f, rfl, rfl, -⟩ := exists_func h hs hlocals
  exact ⟨f.depth, f.disciplined⟩

namespace Doubling

attribute [local instance] libdeciByValue

/-- A power of two, by a function that calls itself. -/
def source : Bytes :=
  bytesOf "fun f(n) \x7b if (n < 1) \x7b return 1 \x7d return 2 * f(n - 1) \x7d x = f(3)"

theorem unposted : Unposted source := unposted_of_no_for (by decide)

/-- The globals that `make_state` makes. -/
noncomputable def start : Globals := (makeState .quiet).toOption.getD Globals.stateNew

theorem makeState_eq : makeState .quiet = .ok start :=
  eq_ok_of_isOk _ (by decide +kernel)

/-- What `parse` makes of the source, and the names that are known afterwards. -/
noncomputable def parsed : Chunk × List Bytes :=
  (parse start.names source "(input)").toOption.getD (⟨[], [], [], [], "", []⟩, [])

theorem parse_eq : parse start.names source "(input)" = .ok parsed :=
  eq_ok_of_isOk _ (by decide +kernel)

attribute [local irreducible] parsed

theorem exists_depth {i : Nat} {s : Shape} (hs : parsed.1.shapeAt i = some s)
    (hlocals : s.nlocals ≤ uint32Max / 2) : ∃ depth, parsed.1.Disciplined i depth :=
  Chunk.exists_depth (g := parsed.2) parse_eq hs hlocals

/-- A function of the source that takes `n` arguments. -/
noncomputable def funcAt {i n : Nat} {s : Shape} (hs : parsed.1.shapeAt i = some s)
    (hlocals : s.nlocals ≤ uint32Max / 2) (hnargs : s.nargsEncoded = n) (hn : n ≤ s.nlocals) :
    Func where
  chunk := parsed.1
  ip := i
  shape := s
  nparams := n
  gathers := false
  depth := (exists_depth hs hlocals).choose
  shape_eq := hs
  nargs_eq := hnargs
  nparams_le := hn
  nlocals_le := hlocals
  disciplined := (exists_depth hs hlocals).choose_spec

/-- The main function. -/
noncomputable def main : Func :=
  funcAt (i := 0) (n := 0) (s := ⟨0, 0, 25, 2⟩) (by decide +kernel) (by decide) rfl (by decide)

/-- The function `f`. -/
noncomputable def power : Func :=
  funcAt (i := 1) (n := 1) (s := ⟨1, 1, 17, 4⟩) (by decide +kernel) (by decide) rfl (by decide)

/-- The surroundings of the source. -/
noncomputable def outside : Outside := .making [main, power]

/-- The store in which the names of the source are known. -/
noncomputable def store : Store :=
  (outcome (internAll (parsed.2.drop start.names.length)) (Store.new start)).2

theorem loadString_eq :
    outcome (loadString outside source "(input)") (Store.new start) = (.ok (some main), store) := by
  have hintern : outcome (internAll (parsed.2.drop start.names.length)) (Store.new start) =
      (.ok (), store) :=
    Prod.ext (eq_ok_of_isOk () (by decide +kernel)) rfl
  have hmake : outside.base.mkFunc parsed.1 0 = some main := by
    have hfind : ([main, power].find? fun f => f.ip = 0 ∧ f.chunk = parsed.1) = some main :=
      List.find?_cons_of_pos (decide_eq_true ⟨rfl, rfl⟩)
    change ([main, power].find? fun f => f.ip = 0 ∧ f.chunk = parsed.1).or (mkFunc parsed.1 0) = _
    rw [hfind]
    rfl
  have hparse : parse start.names source "(input)" = .ok (parsed.1, parsed.2) := parse_eq
  have hglobals : (Store.new start).globals = start := rfl
  unfold loadString
  rw [outcome_bind_ok (show outcome (get : Act Store) (Store.new start) =
    (.ok (Store.new start), Store.new start) from rfl)]
  simp only [hglobals, hparse]
  rw [outcome_bind_ok hintern, hmake]
  rfl

theorem evaluatesIn :
    ∃ m v st', EvaluatesIn (fun _ => outside) main store m 60 (.ok v, st') :=
  evaluatesIn_of_calm (Outside.making_lawful _) (by decide +kernel)

end Doubling

end Calx
