import Calx.Meaning.Steps

/-!
# Calls

A call enters the frame of its callee, which goes on until it returns, and the value comes back to
the operands of the caller.

## Implementation notes

A call takes a step, so that a run in which calls are made of which more than a number of steps
is left makes more steps itself. `Worlds.Tracks` says that all calls go as they should of which
fewer steps are left.
-/

namespace Calx

open Instr Libdeci

/-- A function is under way that the compiler has made. -/
structure Activation.Runs [DeciBase] (A : Activation) (f : Func) : Prop where
  callee : A.site.callee = f
  kept : ∃ p body, f.chunk.Compiled p body ∧ p.globals ∈ A.kept

/-- The function under way is about to return a value. -/
def Activation.Returns [DeciBase] (A : Activation) (v : Value) (st : Store) (m : Machine) : Prop :=
  ∃ fr pos, m.Within A fr [v] pos ∧ A.chunk.code[pos]? = some .opReturn ∧ fr.store = st

section

variable [Libdeci] {ι : Type} {W : Worlds ι} {A : Activation} {m : Machine} {fr : Frame}
  {call : Func → List Value → Nd Store Fault Value} {names : List Bytes}
  {ops args all : List Value} {pos n N : Nat} {callee v : Value} {scatter : Bool}

/-- The machine does what a call says from where its function is entered. -/
def Worlds.Tracks (W : Worlds ι) (call : Func → List Value → Nd Store Fault Value) (N : Nat) :
    Prop :=
  ∀ n < N, ∀ (A : Activation) (f : Func) (args : List Value) (st : Store) (m : Machine),
    A.Runs f → f.Fits args.length → m.Within A (f.enter args st) [] (f.ip + 1) →
      W.stepper.Does Lost Store.Raised n m (call f args) st A.Returns

/-! ## Arguments -/

/-- The arguments that a call sees, when they are ready. -/
theorem Machine.Within.argsReady (h : m.Within A fr (ops ++ callee :: args) pos)
    (hi : A.chunk.code[pos]? = some (opCall scatter args.length)) {k : Nat} {s : VmState}
    (hargs : doCallArgs m.vm scatter args.length = .ok (k, s)) :
    ∃ vs all, k = all.length ∧ s = { m.vm with vs := vs } ∧
      Run.arguments scatter args fr (.ok all, fr) ∧
      ArgsReady m scatter args.length vs callee (A.below ++ (fr.locals ++ ops)) all := by
  obtain ⟨d, hrunning⟩ := h.running
  obtain ⟨vs, callee', below, all, rfl, rfl, ha⟩ := hrunning.argsReady (h.instr_eq hi) hargs
  have hcells : m.vm.vs.cells = (A.below ++ (fr.locals ++ ops)) ++ callee :: args := by
    rw [h.cells]
    simp only [List.append_assoc]
  obtain rfl : below = A.below ++ (fr.locals ++ ops) := by
    have hlen : m.vm.vs.cells.length - (args.length + 1) =
        (A.below ++ (fr.locals ++ ops)).length := by
      rw [hcells, List.length_append, List.length_cons, Nat.add_sub_cancel]
    rw [ha.below_eq, hlen, hcells, List.take_left]
  have hscattered := ha.cells.symm.trans ha.scattered
  cases scatter with
  | false =>
      have hsplit : callee' :: all = callee :: args :=
        List.append_cancel_left (hscattered.trans hcells)
      obtain ⟨rfl, rfl⟩ := List.cons.inj hsplit
      exact ⟨vs, all, rfl, rfl, rfl, ha⟩
  | true =>
      have hpos : 0 < args.length := h.admissible hi rfl
      have hne : args ≠ [] := List.length_pos_iff.mp hpos
      have hargs' := (List.dropLast_append_getLast hne).symm
      have hlast : m.vm.vs.cells = (A.below ++ (fr.locals ++ ops) ++ callee :: args.dropLast) ++
          [args.getLast hne] := by
        rw [hcells]
        conv_lhs => rw [hargs']
        simp only [List.append_assoc, List.cons_append]
      have hget : args.getLast?.getD .nil = args.getLast hne := by
        rw [List.getLast?_eq_getLast_of_ne_nil hne]
        rfl
      by_cases hid : ∃ id, args.getLast hne = .list id
      · obtain ⟨id, hid⟩ := hid
        rw [hid] at hlast hget
        have helems : scattered m.vm true = A.below ++ (fr.locals ++ ops) ++
            callee :: (args.dropLast ++ (fr.store.lists[id]?).getD []) := by
          have hlists : m.vm.heap.lists = fr.store.lists := congrArg Store.lists h.store
          rw [scattered, hlast, List.getLast?_concat]
          dsimp only
          rw [List.dropLast_concat, hlists, List.append_assoc, List.cons_append]
        have hsplit := List.append_cancel_left (hscattered.trans helems)
        obtain ⟨rfl, rfl⟩ := List.cons.inj hsplit
        refine ⟨vs, _, rfl, rfl, ?_, ha⟩
        rw [Run.arguments, Run.reads, Nd.lift, if_pos rfl, hget]
      · push Not at hid
        rw [doCallArgs_thrown hlast hid] at hargs
        cases hargs

/-- Without arguments to see, a call fails. -/
theorem Machine.Within.arguments_raised (h : m.Within A fr (ops ++ callee :: args) pos)
    (hi : A.chunk.code[pos]? = some (opCall scatter args.length)) {e : Fault}
    (hall : Run.arguments scatter args fr (.error e, fr)) (w : World) :
    m.step w = .raised e m.store := by
  have hcall : m.step w = m.call w scatter args.length := by rw [Machine.step, h.instr_eq hi]
  cases scatter with
  | false => cases (Prod.mk.inj hall).1
  | true =>
      have hpos : 0 < args.length := h.admissible hi rfl
      have hne : args ≠ [] := List.length_pos_iff.mp hpos
      have hlast : m.vm.vs.cells =
          (A.below ++ (fr.locals ++ (ops ++ callee :: args.dropLast))) ++ [args.getLast hne] := by
        rw [h.cells]
        conv_lhs => rw [(List.dropLast_append_getLast hne).symm]
        simp only [List.append_assoc, List.cons_append]
      rw [Run.arguments, Run.reads, Nd.lift, if_pos rfl, List.getLast?_eq_getLast_of_ne_nil hne,
        Option.getD_some] at hall
      have hlist : ∀ id, args.getLast hne ≠ .list id := by
        intro id hid
        rw [hid] at hall
        cases (Prod.mk.inj hall).1
      have he : e = .thrown (bytesOf ("cannot scatter " ++ valueKindName (args.getLast hne) ++
          " value (expected list)")) := by
        cases hv : args.getLast hne with
        | list id => exact absurd hv (hlist id)
        | _ =>
            rw [hv] at hall
            exact Except.error.inj (Prod.mk.inj hall).1
      rw [hcall, Machine.call, doCallArgs_thrown hlast hlist, he]
      rfl

/-- The callee lies below its arguments. -/
theorem Machine.Within.overfull (h : m.Within A fr (ops ++ callee :: args) pos)
    (hi : A.chunk.code[pos]? = some (opCall scatter args.length))
    (hfull : 2 ^ 60 < (scattered m.vm scatter).length + frameSize callee) : m.Overfull := by
  refine ⟨scatter, args.length, callee, h.instr_eq hi, ?_, hfull⟩
  have hcells : m.vm.vs.cells = (A.below ++ (fr.locals ++ ops)) ++ callee :: args := by
    rw [h.cells]
    simp only [List.append_assoc]
  have hlen : m.vm.vs.cells.length - (args.length + 1) =
      (A.below ++ (fr.locals ++ ops)).length := by
    rw [hcells, List.length_append, List.length_cons, Nat.add_sub_cancel]
  rw [hlen, hcells, List.getElem?_append_right (Nat.le_refl _), Nat.sub_self]
  rfl

/-- With arguments to see, a call goes on by the kind of its callee, if there is memory. -/
theorem Machine.Within.call_cases (h : m.Within A fr (ops ++ callee :: args) pos)
    (hi : A.chunk.code[pos]? = some (opCall scatter args.length))
    (hall : Run.arguments scatter args fr (.ok all, fr)) (w : World) :
    (m.Overfull ∧ m.step w = .raised .panic m.store) ∨
      ∃ vs, ArgsReady m scatter args.length vs callee (A.below ++ (fr.locals ++ ops)) all ∧
        m.step w = m.callValue w { m.vm with vs := vs } all.length callee := by
  have hcall : m.step w = m.call w scatter args.length := by rw [Machine.step, h.instr_eq hi]
  cases hargs : doCallArgs m.vm scatter args.length with
  | ok r =>
      right
      obtain ⟨k, s⟩ := r
      obtain ⟨vs, all', rfl, rfl, hall', ha⟩ := h.argsReady hi hargs
      obtain rfl : all = all' := Except.ok.inj (Prod.mk.inj (hall.trans hall'.symm)).1
      exact ⟨vs, ha, hcall.trans (ha.call_eq w)⟩
  | error e =>
      left
      have hfull : e = .outOfMemory ∧ 2 ^ 60 < (scattered m.vm scatter).length := by
        cases scatter with
        | false => cases hargs
        | true =>
            have hpos : 0 < args.length := h.admissible hi rfl
            have hne : args ≠ [] := List.length_pos_iff.mp hpos
            have hlast : m.vm.vs.cells =
                (A.below ++ (fr.locals ++ (ops ++ callee :: args.dropLast))) ++
                  [args.getLast hne] := by
              rw [h.cells]
              conv_lhs => rw [(List.dropLast_append_getLast hne).symm]
              simp only [List.append_assoc, List.cons_append]
            rw [Run.arguments, Run.reads, Nd.lift, if_pos rfl,
              List.getLast?_eq_getLast_of_ne_nil hne, Option.getD_some] at hall
            cases hlist : args.getLast hne with
            | list id =>
                rw [hlist] at hlast
                exact doCallArgs_full hlast hargs
            | _ =>
                rw [hlist] at hall
                cases (Prod.mk.inj hall).1
      refine ⟨h.overfull hi (hfull.2.trans_le (Nat.le_add_right ..)), ?_⟩
      rw [hcall, Machine.call, hargs, hfull.1]
      rfl

/-! ## Returning -/

/-- The value of a function comes to its caller. -/
theorem Activation.Returns.step {A' : Activation} {f : Func} {locals : List Value} {st : Store}
    (h : A'.Returns v st m) (hip : A'.site.callIp = some pos)
    (hsites : A'.sites = A.site :: A.sites) (hindexes : A'.indexes = A.below.length :: A.indexes)
    (hbelow : A'.below = A.below ++ (locals ++ ops) ++ [.func f])
    (hkept : ∀ names ∈ A.kept, names ∈ A'.kept)
    (hlocals : locals.length = A.site.callee.shape.nlocals) (i : ι) :
    ∃ m', W.stepper.step i m = .inl m' ∧ m'.Within A ⟨locals, st⟩ (ops ++ [v]) (pos + 1) := by
  obtain ⟨fr, pos', hwithin, hret, rfl⟩ := h
  obtain ⟨d, hrunning⟩ := hwithin.running
  have hi := hwithin.instr_eq hret
  have hcells : m.vm.vs.cells = (A'.below ++ fr.locals) ++ [v] := by
    rw [hwithin.cells, List.append_assoc]
  obtain ⟨caller, sites', index', indexes', m', hsites', hindexes', hrun, hturned⟩ :=
    hrunning.ret_goes hi hcells hip
  obtain ⟨rfl, rfl⟩ := List.cons.inj (hsites.symm.trans hsites')
  obtain ⟨rfl, rfl⟩ := List.cons.inj (hindexes.symm.trans hindexes')
  have hstep : m.step (W.world i) = .next m' := by
    rw [Machine.step, hi]
    exact hrun
  have htake : m.vm.vs.cells.take (A'.below.length - 1) = A.below ++ (locals ++ ops) := by
    rw [hwithin.cells, hbelow, List.length_append, List.length_singleton, Nat.add_sub_cancel,
      List.append_assoc, List.take_left]
  rw [htake] at hturned
  refine ⟨m', Worlds.stepper_next hstep, hturned.running, ?_, hlocals, hturned.ip, ?_, ?_⟩
  · rw [hturned.cells]
    simp only [List.append_assoc]
  · exact hturned.store.trans hwithin.store
  · intro names hnames
    exact hwithin.kept names (hkept names hnames)

/-! ## Applying -/

/-- The function is entered. -/
theorem Machine.Within.enter {f : Func} (h : m.Within A fr (ops ++ .func f :: args) pos)
    (hi : A.chunk.code[pos]? = some (opCall scatter args.length))
    (hall : Run.arguments scatter args fr (.ok all, fr)) (hfits : f.Fits all.length) {i : ι}
    (hsteady : m.Steady (W.Fair i)) :
    (∃ r, W.stepper.step i m = .inr r ∧ Lost r) ∨
      ∃ m', W.stepper.step i m = .inl m' ∧ ∃ A' : Activation, A'.Runs f ∧
        m'.Within A' (f.enter all fr.store) [] (f.ip + 1) ∧ A'.site.callIp = some pos ∧
        A'.sites = A.site :: A.sites ∧ A'.indexes = A.below.length :: A.indexes ∧
        A'.below = A.below ++ (fr.locals ++ ops) ++ [.func f] ∧
        ∀ names ∈ A.kept, names ∈ A'.kept := by
  obtain ⟨d, hrunning⟩ := h.running
  rcases h.call_cases hi hall (W.world i) with ⟨hfull, hpanic⟩ | ⟨vs, ha, hcall⟩
  · exact .inl ⟨_, Worlds.stepper_raised hpanic, hfull, _, rfl⟩
  have hinstr := h.instr_eq hi
  rcases hrunning.callFunc_goes (w := W.world i) hinstr (hsteady.stack _ _ hinstr) ha hfits with
    ⟨hpanic, hfull⟩ | ⟨m', site', hrun, hcallee, hip, hturned⟩
  · exact .inl ⟨_, Worlds.stepper_raised (hcall.trans hpanic), h.overfull hi hfull, _, rfl⟩
  have hlists : m.vm.heap = ⟨fr.store.lists⟩ := congrArg (fun st => Heap.mk st.lists) h.store
  rw [hlists, h.store] at hturned
  obtain ⟨d', hrunning'⟩ := hturned.running
  obtain ⟨p, body, hcompiled, hprefix⟩ := hrunning'.underway.resident.sound.compiled
  rw [hcallee] at hcompiled
  refine .inr ⟨m', Worlds.stepper_next (hcall.trans hrun),
    ⟨site', A.site :: A.sites, A.below ++ (fr.locals ++ ops) ++ [.func f],
      A.below.length :: A.indexes, p.globals :: A.kept⟩,
    ⟨hcallee, p, body, hcompiled, List.mem_cons_self⟩, ?_, hip.trans (congrArg some h.ip), rfl, rfl,
    rfl, fun names hnames => List.mem_cons_of_mem _ hnames⟩
  have hstore : m'.store = (f.enter all fr.store).store := hturned.store
  refine ⟨⟨d', ?_⟩, ?_, ?_, hturned.ip, hstore, ?_⟩
  · rw [List.length_append, List.length_singleton]
    exact hrunning'
  · have hcells : A.below ++ (fr.locals ++ ops) ++ .func f :: frameCells f ⟨fr.store.lists⟩ all =
        (A.below ++ (fr.locals ++ ops) ++ [.func f]) ++ frameCells f ⟨fr.store.lists⟩ all := by
      rw [List.append_assoc _ [Value.func f], List.singleton_append]
    rw [hturned.cells, List.append_nil, hcells]
    rfl
  · rw [hcallee]
    exact length_frameCells hfits
  · intro names hnames
    rcases List.mem_cons.mp hnames with rfl | hnames
    · rw [hstore] at hprefix
      exact hprefix
    · exact h.kept names hnames

/-- A call. -/
theorem Machine.Within.apply (htracks : W.Tracks call N) (hn : n ≤ N)
    (h : m.Within A fr (ops ++ callee :: args) pos)
    (hi : A.chunk.code[pos]? = some (opCall scatter args.length))
    (hall : Run.arguments scatter args fr (.ok all, fr)) :
    m.Does W n ((A.context W names call).apply callee all) fr (A.Pushed ops (pos + 1)) := by
  obtain ⟨d, hrunning⟩ := h.running
  have hthrows : ∀ (text : Bytes) (w : World), (m.Overfull ∧ m.step w = .raised .panic m.store) ∨
      m.step w = .raised (.thrown text) m.store → ∀ i : ι, w = W.world i →
      (∃ r, W.stepper.step i m = .inr r ∧ Lost r) ∨
        ∃ o, (Nd.throw (.thrown text) : Run Value) fr o ∧
          Stepper.Makes Frame.Raised (W.stepper.step i m) (A.Pushed ops (pos + 1)) o := by
    rintro text w (⟨hfull, hpanic⟩ | hthrown) i rfl
    · exact .inl ⟨_, Worlds.stepper_raised hpanic, hfull, _, rfl⟩
    · exact .inr ⟨_, rfl, _, Worlds.stepper_raised hthrown,
        congrArg (StepResult.raised _) h.store⟩
  cases callee with
  | func f =>
      by_cases hfits : f.Fits all.length
      · rw [Context.apply, if_pos hfits]
        refine Stepper.Does.step (fun i hok => h.enter hi hall hfits hok) fun n' hn' m' hm' => ?_
        obtain ⟨A', hruns, hwithin, hip, hsites, hindexes, hbelow, hkept⟩ := hm'
        have hdoes :=
          htracks n' (Nat.lt_of_lt_of_le hn' hn) A' f all fr.store m' hruns hfits hwithin
        refine (Stepper.Does.zoom hdoes fun e st r hr => hr).then_step
          fun v fr' m'' hm'' i _ => ?_
        obtain ⟨st, rfl, hreturns⟩ := hm''
        exact hreturns.step hip hsites hindexes hbelow hkept h.locals i
      · rw [Context.apply, if_neg hfits]
        refine Stepper.Does.of_step fun i _ => hthrows _ _ ?_ i rfl
        rcases h.call_cases hi hall (W.world i) with hpanic | ⟨vs, -, hcall⟩
        · exact .inl hpanic
        · right
          rw [hcall]
          exact Machine.callFunc_unfit hfits
  | cfunc id =>
      rw [Context.apply]
      refine Stepper.Does.of_step fun i hsteady => ?_
      rcases h.call_cases hi hall (W.world i) with ⟨hfull, hpanic⟩ | ⟨vs, ha, hcall⟩
      · exact .inl ⟨_, Worlds.stepper_raised hpanic, hfull, _, rfl⟩
      obtain ⟨r, hr⟩ : ∃ r, r = (W.world i).natives id fr.store (all.take (toUint32 all.length)) :=
        ⟨_, rfl⟩
      refine .inr ⟨(r.1, { fr with store := r.2 }), ⟨r, ⟨i, hr⟩, rfl⟩, ?_⟩
      rcases r with ⟨e | v, st⟩
      · refine ⟨_, Worlds.stepper_raised (hcall.trans ?_), rfl⟩
        rw [Machine.callNative_eq ha, h.store, ← hr]
      · have hnative : (W.world i).natives id m.store (all.take (toUint32 all.length)) =
            (.ok v, st) := by
          rw [h.store, ← hr]
        obtain ⟨m', hrun, hturned⟩ :=
          hrunning.callNative_goes (W.lawful i) (h.instr_eq hi) hsteady ha hnative
        refine ⟨m', Worlds.stepper_next (hcall.trans hrun), ?_⟩
        rw [h.ip] at hturned
        refine h.turned (show fr.locals.length = fr.locals.length from rfl) ?_
        have hcells : A.below ++ (fr.locals ++ (ops ++ [v])) =
            A.below ++ (fr.locals ++ ops) ++ [v] := by
          simp only [List.append_assoc]
        rw [hcells]
        exact hturned
  | _ =>
      refine Stepper.Does.of_step fun i _ => hthrows _ _ ?_ i rfl
      rcases h.call_cases hi hall (W.world i) with hpanic | ⟨vs, -, hcall⟩
      · exact .inl hpanic
      · right
        rw [hcall]
        rfl

end

end Calx
