import Calx.ControlFlow
import Calx.Meaning.Activation

/-!
# Instructions and actions

Each instruction that stands for an item of a tree's code does what the meaning of the tree
does there.
-/

namespace Calx

open LexemeKind Instr Libdeci

/-! ## Globals -/

section

variable {g : Globals} {k : Nat} {x : Bytes} {v : Value} {m : Machine} {rest : List Value}

theorem Globals.Wf.idxOf_eq (h : g.Wf) (hk : g.names[k]? = some x) : g.names.idxOf x = k := by
  have hmem : x ∈ g.names := List.mem_of_getElem? hk
  exact h.index_inj (List.getElem?_idxOf hmem) hk

theorem Globals.Wf.globalAt_eq (h : g.Wf) (hk : g.names[k]? = some x) :
    Globals.globalAt g k = .ok (g.valueOf x) := by
  have hlt := h.lt_size hk
  rw [Globals.globalAt_eq_ok, Globals.valueOf, h.idxOf_eq hk, List.getElem?_eq_getElem hlt]
  rfl

theorem Globals.Wf.checkedStore_eq (h : g.Wf) (hk : g.names[k]? = some x) (v : Value) :
    Globals.checkedStore g k v = .ok (g.assign x v) := by
  rw [Globals.checkedStore, h.globalAt_eq hk, Globals.assign, h.idxOf_eq hk]
  rfl

theorem Machine.loadGlobal_eq (h : m.env.globals.Wf) (hk : m.env.globals.names[k]? = some x) :
    m.loadGlobal k =
      match m.env.globals.valueOf x with
      | some v => .ok v
      | none => .error (.thrown (Globals.undefinedGlobal x)) := by
  rw [Machine.loadGlobal, Globals.opLoadGlobal, h.globalAt_eq hk]
  cases m.env.globals.valueOf x with
  | some v => rfl
  | none =>
      simp only [bind, Except.bind, Globals.missingGlobal_eq hk]
      rfl

theorem Machine.storeGlobal_eq (h : m.env.globals.Wf) (hk : m.env.globals.names[k]? = some x) :
    m.assigns rest ((Globals.opStoreGlobal m.env.globals k v).map fun g => (.stored, g)) =
      m.leaves rest { m.store with globals := m.env.globals.assign x v } := by
  rw [Globals.opStoreGlobal, h.checkedStore_eq hk]
  rfl

theorem Machine.modifyGlobal_eq [Libdeci] (h : m.env.globals.Wf)
    (hk : m.env.globals.names[k]? = some x) (w : World) (a : Aop) :
    m.assigns rest (Globals.opModifyGlobal m.env.ntp (w.sharing (m.globalValue k) v) a
        m.env.globals k v) =
      match m.loadGlobal k >>= fun u => w.aop m.env.ntp a u v with
      | .ok z => m.leaves rest { m.store with globals := m.env.globals.assign x z }
      | .error e => .raises e m.store := by
  rw [Machine.loadGlobal_eq h hk, Globals.opModifyGlobal, h.globalAt_eq hk, Machine.globalValue,
    ← h.idxOf_eq hk]
  cases hvalue : m.env.globals.valueOf x with
  | none =>
      simp only [bind, Except.bind, h.idxOf_eq hk, Globals.missingGlobal_eq hk]
      rfl
  | some u =>
      have hu : (m.env.globals.globals.data[m.env.globals.names.idxOf x]?).join = some u := hvalue
      simp only [bind, Except.bind, hu, Option.getD_some, World.aop]
      cases haop : performAop m.env.ntp (w.sharing u v) a u v with
      | ok z =>
          simp only [h.idxOf_eq hk, h.checkedStore_eq hk]
          rfl
      | error e => cases e <;> rfl

end

/-! ## Variables -/

/-- What the code of an activation has been made with: the tables and the names of the locals. -/
structure Activation.Made (A : Activation) (T : Tables) (names : List Bytes) : Prop where
  consts : T.consts = A.chunk.consts
  shapes : T.shapes = A.chunk.shapes
  globals : T.globals ∈ A.kept
  names : names.length = A.site.callee.shape.nlocals

/-- What the meaning of the body of the function depends on. -/
def Activation.context [DeciBase] {ι : Type} (A : Activation) (W : Worlds ι) (names : List Bytes)
    (call : Func → List Value → Nd Store Fault Value) : Context ι := ⟨W.world, A.chunk, names, call⟩

namespace Frame

variable {names : List Bytes} {x : Bytes} (fr : Frame) (v : Value)

theorem load_local (hx : x ∈ names) :
    fr.load names x = .ok (fr.locals.getD (names.idxOf x) .nil) := if_pos hx

theorem load_global (hx : x ∉ names) :
    fr.load names x =
      match fr.store.globals.valueOf x with
      | some v => .ok v
      | none => .error (.thrown (Globals.undefinedGlobal x)) := if_neg hx

theorem assign_local (hx : x ∈ names) :
    fr.assign names x v = { fr with locals := fr.locals.set (names.idxOf x) v } := if_pos hx

theorem assign_global (hx : x ∉ names) :
    fr.assign names x v =
      { fr with store := { fr.store with globals := fr.store.globals.assign x v } } := if_neg hx

end Frame

-- one equation an instruction, made once for all the proofs below
attribute [local simp] Machine.effect

section

variable [Libdeci] {ι : Type} {W : Worlds ι} {A : Activation} {T : Tables} {names : List Bytes}
  {call : Func → List Value → Nd Store Fault Value} {m : Machine} {fr : Frame} {ops : List Value}
  {pos n k : Nat} {x : Bytes} {line : Option Nat} {v : Value}

@[simp] theorem context_names : (A.context W names call).names = names := rfl

@[simp] theorem context_world : (A.context W names call).world = W.world := rfl

/-- The name of a global in the tables is that of the global in the machine. -/
theorem Machine.Within.global (h : m.Within A fr ops pos) (hA : A.Made T names)
    (hk : T.globals[k]? = some x) :
    m.env.globals.Wf ∧ m.env.globals.names[k]? = some x ∧ m.env.globals = fr.store.globals := by
  have hglobals : m.env.globals = fr.store.globals := congrArg (fun st => st.globals) h.store
  obtain ⟨d, hrunning⟩ := h.running
  refine ⟨hrunning.store.globals, ?_, hglobals⟩
  rw [hglobals]
  exact getElem?_of_isPrefix (h.kept _ hA.globals) hk

theorem Machine.Within.const {v : Const} (h : m.Within A fr ops pos) (hA : A.Made T names)
    (hs : Seg T A.chunk names pos [.mine (.const v) line]) :
    m.Does W n (pure v.value) fr (A.Pushed ops (pos + 1)) := by
  obtain ⟨instr, hi, hd⟩ := hs.head rfl
  change DenI T instr (.const v) at hd
  obtain ⟨d, hrunning⟩ := h.running
  cases hd with
  | const hc =>
      apply h.known hi rfl rfl
      intro i
      rw [Machine.effect, hrunning.consts]
      rw [hA.consts] at hc
      exact congrArg (fun o => m.result _ (orIllegal (o.map Const.value))) hc

/-- A variable is loaded. -/
theorem Machine.Within.load (h : m.Within A fr ops pos) (hA : A.Made T names)
    (hs : Seg T A.chunk names pos [.mine (.load x) line]) :
    m.Does W n ((A.context W names call).load x) fr (A.Pushed ops (pos + 1)) := by
  obtain ⟨instr, hi, hd⟩ := hs.head rfl
  have h' : m.Within A fr (ops ++ []) pos := by rwa [List.append_nil]
  by_cases hx : x ∈ names
  · rw [Item.mine_instr, resolve, if_pos hx] at hd
    cases hd with
    | plain hp =>
        apply h'.result hi rfl rfl fun _ => rfl
        intro i
        have hlt : names.idxOf x < fr.locals.length := by
          rw [h.locals, ← hA.names]
          exact List.idxOf_lt_length_of_mem hx
        rw [Machine.effect, h.local_eq hlt]
        exact congrArg (m.result _) (fr.load_local hx).symm
  · rw [Item.mine_instr, resolve, if_neg hx] at hd
    cases hd with
    | loadGlobal hk =>
        obtain ⟨hwf, hname, hglobals⟩ := h.global hA hk
        apply h'.result hi rfl rfl fun _ => rfl
        intro i
        rw [Machine.effect, Machine.loadGlobal_eq hwf hname, hglobals]
        exact congrArg (m.result _) (fr.load_global hx).symm

/-- A local is written. -/
theorem Machine.Within.writeLocal {v : Value} (h : m.Within A fr (ops ++ [v]) pos)
    (hk : k < fr.locals.length) (r : Except Fault Value) :
    m.writeLocal (A.below ++ (fr.locals ++ ops)) k r =
      match r with
      | .ok u => m.leaves (A.below ++ (fr.locals.set k u ++ ops)) fr.store
      | .error e => .raises e fr.store := by
  obtain ⟨d, hrunning⟩ := h.running
  have hlocals := hrunning.intact.locals
  have hindex : (m.vm.locals - m.vm.vs.base).toNat = A.below.length := by omega
  cases r with
  | error e => rw [Machine.writeLocal, h.store]
  | ok u =>
      have hlt : A.below.length + k < (A.below ++ (fr.locals ++ ops)).length := by
        simp only [List.length_append]
        omega
      rw [Machine.writeLocal, hindex, if_pos ⟨by omega, hlt⟩, h.store,
        List.set_append_right _ _ (by omega), Nat.add_sub_cancel_left, List.set_append_left _ _ hk]

/-- A variable gets a value. -/
theorem Machine.Within.storeVariable (h : m.Within A fr (ops ++ [v]) pos) (hA : A.Made T names)
    (hs : Seg T A.chunk names pos [.mine (.store x) line] ∨
      Seg T A.chunk names pos [.mine (.storeNew x) line]) :
    m.Does W n ((A.context W names call).store x v) fr (A.Done ops (pos + 1)) := by
  obtain ⟨instr, hi, hd⟩ : ∃ instr, A.chunk.code[pos]? = some instr ∧
      (DenI T instr (resolve names (.store x)) ∨ DenI T instr (resolve names (.storeNew x))) := by
    rcases hs with hs | hs
    · obtain ⟨instr, hi, hd⟩ := hs.head rfl
      exact ⟨instr, hi, .inl hd⟩
    · obtain ⟨instr, hi, hd⟩ := hs.head rfl
      exact ⟨instr, hi, .inr hd⟩
  have hlocal : x ∈ names → instr = .opStoreLocal (names.idxOf x) →
      m.Does W n ((A.context W names call).store x v) fr (A.Done ops (pos + 1)) := by
    rintro hx rfl
    have hlt : names.idxOf x < fr.locals.length := by
      rw [h.locals, ← hA.names]
      exact List.idxOf_lt_length_of_mem hx
    refine h.acts hi rfl rfl (fun _ => rfl) fun i => ?_
    dsimp only
    rw [Machine.effect, h.writeLocal hlt, context_names, fr.assign_local v hx]
    exact ⟨List.length_set, rfl⟩
  by_cases hx : x ∈ names
  · refine hlocal hx ?_
    rcases hd with hd | hd
    · rw [resolve, if_pos hx] at hd
      cases hd
      rfl
    · cases hd
      rfl
  · rcases hd with hd | hd
    · rw [resolve, if_neg hx] at hd
      cases hd with
      | storeGlobal hk =>
          obtain ⟨hwf, hname, hglobals⟩ := h.global hA hk
          refine h.acts hi rfl rfl (fun _ => rfl) fun i => ?_
          dsimp only
          rw [Machine.effect, Machine.storeGlobal_eq hwf hname, context_names,
            fr.assign_global v hx, hglobals, h.store]
          exact ⟨rfl, rfl⟩
    · cases hd
      have hlt : names.idxOf x < names.length := by
        rw [hA.names]
        exact h.admissible hi
      exact absurd (List.idxOf_lt_length_iff.mp hlt) hx

/-- A variable is modified. -/
theorem Machine.Within.modifyVariable {a : Aop} (h : m.Within A fr (ops ++ [v]) pos)
    (hA : A.Made T names) (hs : Seg T A.chunk names pos [.mine (.modify a x) line]) :
    m.Does W n ((A.context W names call).modify a x v) fr (A.Done ops (pos + 1)) := by
  obtain ⟨instr, hi, hd⟩ := hs.head rfl
  rw [Item.mine_instr] at hd
  by_cases hx : x ∈ names
  · rw [resolve, if_pos hx] at hd
    cases hd with
    | plain hp =>
        have hlt : names.idxOf x < fr.locals.length := by
          rw [h.locals, ← hA.names]
          exact List.idxOf_lt_length_of_mem hx
        refine h.acts hi rfl rfl (fun i => ⟨i, rfl⟩) fun i => ?_
        dsimp only
        have hntp : m.env.ntp = fr.store.ntp := congrArg (fun st => st.ntp) h.store
        rw [Machine.effect, h.writeLocal hlt, h.local_eq hlt, context_names, fr.load_local hx, hntp]
        simp only [orIllegal, bind, Except.bind, context_world]
        cases haop : (W.world i).aop fr.store.ntp a (fr.locals.getD (names.idxOf x) .nil) v with
        | error e => rfl
        | ok z =>
            dsimp only
            rw [fr.assign_local z hx]
            exact ⟨List.length_set, rfl⟩
  · rw [resolve, if_neg hx] at hd
    cases hd with
    | @modifyGlobal _ k _ hk =>
        obtain ⟨hwf, hname, hglobals⟩ := h.global hA hk
        refine h.acts hi rfl rfl (fun i => ⟨i, rfl⟩) fun i => ?_
        dsimp only
        have hload : fr.load names x = m.loadGlobal k := by
          rw [Machine.loadGlobal_eq hwf hname, hglobals]
          exact fr.load_global hx
        have hntp : m.env.ntp = fr.store.ntp := congrArg (fun st => st.ntp) h.store
        rw [Machine.effect, Machine.modifyGlobal_eq hwf hname, context_names, context_world, hload,
          hntp]
        cases m.loadGlobal k >>= fun u => (W.world i).aop fr.store.ntp a u v with
        | error e => exact congrArg (Effect.raises e) h.store
        | ok z =>
            dsimp only
            rw [fr.assign_global z hx, hglobals, h.store]
            exact ⟨rfl, rfl⟩

/-! ## Objects -/

omit [Libdeci] in
theorem Seg.plain {c : Chunk} {instr : Instr} (hs : Seg T c names pos [.mine (.plain instr) line]) :
    c.code[pos]? = some instr := by
  obtain ⟨instr', hi, hd⟩ := hs.head rfl
  cases hd with
  | plain hp => exact hi

theorem Machine.Within.containers (h : m.Within A fr ops pos) :
    m.store.containers = fr.store.containers := congrArg Store.containers h.store

/-- A list is made of the operands. -/
theorem Machine.Within.newList {vs : List Value} (h : m.Within A fr (ops ++ vs) pos)
    (hs : Seg T A.chunk names pos [.mine (.plain (opList vs.length)) line]) :
    m.Does W n (Run.newList vs) fr (A.Pushed ops (pos + 1)) := by
  refine h.performs (fun v => [v]) hs.plain rfl rfl (fun _ => rfl) fun i => ⟨rfl, ?_⟩
  have hlists : m.vm.heap.lists = fr.store.lists := congrArg Store.lists h.store
  rw [Machine.effect, hlists, h.store]

/-- A dict is made of the operands. -/
theorem Machine.Within.newDict {kv : List Value} {k : Nat} (h : m.Within A fr (ops ++ kv) pos)
    (hk : kv.length = 2 * k) (hs : Seg T A.chunk names pos [.mine (.plain (opDict k)) line]) :
    m.Does W n (Run.newDict kv) fr (A.Pushed ops (pos + 1)) := by
  refine h.performs (fun v => [v]) hs.plain rfl hk (fun _ => rfl) fun i => ?_
  dsimp only
  have hdicts : m.env.dicts = fr.store.dicts := congrArg (fun st => st.dicts) h.store
  rw [Machine.effect, Machine.dict, Run.makeDict, hdicts, h.store]
  cases hkeys : checkDictKeys kv with
  | error e => rfl
  | ok u =>
      simp only [bind, Except.bind]
      cases dictNewSteal (xhtNew 0) kv with
      | error e => rfl
      | ok d => exact ⟨rfl, rfl⟩

/-- An element is loaded. -/
theorem Machine.Within.element {c i : Value} (h : m.Within A fr (ops ++ [c, i]) pos)
    (hs : Seg T A.chunk names pos [.mine (.plain opLoadAt) line]) :
    m.Does W n (Run.element c i) fr (A.Pushed ops (pos + 1)) := by
  refine h.result hs.plain rfl rfl (fun _ => rfl) fun j => ?_
  rw [Machine.effect, h.containers]

/-- What an instruction has made of an element. -/
theorem Machine.Within.elements {c : Run Unit} {f : ι → ElementRun} {operands : List Value}
    {instr : Instr} (h : m.Within A fr (ops ++ operands) pos)
    (hi : A.chunk.code[pos]? = some instr) (hstays : instr.stays = true)
    (hpops : operands.length = instr.pops) (hc : ∀ j, c fr (fr.elements (f j)))
    (heffect : ∀ j, m.effect (W.world j) (A.below ++ (fr.locals ++ ops)) instr operands =
      m.elements (A.below ++ (fr.locals ++ ops)) (f j)) :
    m.Does W n c fr (A.Done ops (pos + 1)) := by
  refine h.acts hi hstays hpops hc fun j => ?_
  rw [heffect]
  rcases f j with ⟨e | u, containers⟩
  · exact congrArg (fun st => Effect.raises e.fault (st.withContainers containers)) h.store
  · refine ⟨rfl, ?_⟩
    rw [Machine.elements, h.store]
    rfl

/-- An element is stored. -/
theorem Machine.Within.storeElement {c i : Value} (h : m.Within A fr (ops ++ [c, i, v]) pos)
    (hs : Seg T A.chunk names pos [.mine (.plain .opStoreAt) line]) :
    m.Does W n (Run.storeElement c i v) fr (A.Done ops (pos + 1)) := by
  refine h.elements hs.plain rfl rfl (fun _ => rfl) fun j => ?_
  rw [Machine.effect, h.containers]

/-- An element is modified. -/
theorem Machine.Within.modifyElement {a : Aop} {c i : Value}
    (h : m.Within A fr (ops ++ [c, i, v]) pos)
    (hs : Seg T A.chunk names pos [.mine (.plain (.opModifyAt a)) line]) :
    m.Does W n ((A.context W names call).modifyElement a c i v) fr (A.Done ops (pos + 1)) := by
  refine h.elements hs.plain rfl rfl (fun j => ⟨j, rfl⟩) fun j => ?_
  have hntp : m.env.ntp = fr.store.ntp := congrArg (fun st => st.ntp) h.store
  rw [Machine.effect, Machine.elementValue, h.containers, hntp]
  rfl

/-- A value is printed. -/
theorem Machine.Within.print (h : m.Within A fr (ops ++ [v]) pos)
    (hs : Seg T A.chunk names pos [.mine (.plain opPrint) line]) :
    m.Does W n ((A.context W names call).print v) fr (A.Done ops (pos + 1)) := by
  refine h.acts hs.plain rfl rfl (fun i => ⟨i, rfl⟩) fun i => ⟨rfl, ?_⟩
  have hout : m.env.out = fr.store.out := congrArg (fun st => st.out) h.store
  rw [Machine.effect, h.containers, hout, h.store]
  rfl

/-! ## Operators -/

/-- The prefix operators. -/
theorem Machine.Within.prefixOp {k : LexemeKind} (hk : (unaryProps k).isSome = true)
    (h : m.Within A fr (ops ++ [v]) pos)
    (hs : Seg T A.chunk names pos [.mine (.plain (unaryInstr k)) line]) :
    m.Does W n ((A.context W names call).prefixOp k v) fr (A.Pushed ops (pos + 1)) := by
  have hkinds : k = lkMinus ∨ k = lkBang ∨ k = lkAt := by
    cases k <;> first
      | exact .inl rfl
      | exact .inr (.inl rfl)
      | exact .inr (.inr rfl)
      | exact absurd hk (by decide)
  rcases hkinds with rfl | rfl | rfl
  · exact h.result hs.plain rfl rfl (fun i => ⟨i, rfl⟩) fun i => rfl
  · exact h.result hs.plain rfl rfl (fun i => ⟨i, rfl⟩) fun i => rfl
  · refine h.result hs.plain rfl rfl (fun i => ⟨i, rfl⟩) fun i => ?_
    change m.result _ ((performLen m.store.containers v).mapError OperatorError.fault) = _
    rw [h.containers]

omit [Libdeci] in
/-- What an infix operator is compiled to. -/
theorem binaryInstr_cases {k : LexemeKind} (hk : (binaryProps k).isSome = true) :
    (∃ a, Context.aopOf k = some a ∧ binaryInstr k = opAop a) ∨
      Context.aopOf k = none ∧ (k = lkEqEq ∨ k = lkBangEq ∨
        (k ≠ lkEqEq ∧ k ≠ lkBangEq ∧ binaryInstr k = opCmp3way (Context.comparison k))) := by
  cases k <;> first
    | exact .inl ⟨_, rfl, rfl⟩
    | exact .inr ⟨rfl, .inl rfl⟩
    | exact .inr ⟨rfl, .inr (.inl rfl)⟩
    | exact .inr ⟨rfl, .inr (.inr ⟨LexemeKind.noConfusion, LexemeKind.noConfusion, rfl⟩)⟩
    | exact absurd hk (by decide)

/-- The infix operators. -/
theorem Machine.Within.infixOp {k : LexemeKind} {left right : Value}
    (hk : (binaryProps k).isSome = true) (h : m.Within A fr (ops ++ [left, right]) pos)
    (hs : Seg T A.chunk names pos [.mine (.plain (binaryInstr k)) line]) :
    m.Does W n ((A.context W names call).infixOp k left right) fr (A.Pushed ops (pos + 1)) := by
  have hntp : m.env.ntp = fr.store.ntp := congrArg (fun st => st.ntp) h.store
  have hcode := hs.plain
  rcases binaryInstr_cases hk with ⟨a, haop, hinstr⟩ | ⟨haop, rfl | rfl | ⟨hne, hne', hinstr⟩⟩
  · rw [hinstr] at hcode
    refine h.result hcode rfl rfl (fun i => ⟨i, rfl⟩) fun i => ?_
    rw [Machine.effect, hntp, haop]
    rfl
  · refine h.result hcode rfl rfl (fun i => ⟨i, rfl⟩) fun i => ?_
    change m.result _ (.ok (.flag (_ == true))) = _
    rw [beq_true]
    rfl
  · refine h.result hcode rfl rfl (fun i => ⟨i, rfl⟩) fun i => ?_
    change m.result _ (.ok (.flag (_ == false))) = _
    rw [beq_false]
    rfl
  · rw [hinstr] at hcode
    refine h.result hcode rfl rfl (fun i => ⟨i, rfl⟩) fun i => ?_
    rw [Machine.effect, haop]
    cases k <;> first | rfl | exact absurd rfl hne | exact absurd rfl hne'

/-! ## Assignments -/

/-- What is assigned to a variable. -/
theorem Machine.Within.assignVariable {k : LexemeKind} {a : AInstr}
    (ha : assignInstr k (.load x) = some a) (h : m.Within A fr (ops ++ [v]) pos)
    (hA : A.Made T names) (hs : Seg T A.chunk names pos [.mine a line]) :
    m.Does W n ((A.context W names call).assignVariable k x v) fr (A.Done ops (pos + 1)) := by
  unfold assignInstr at ha
  dsimp only at ha
  split_ifs at ha with heq hcolon
  · obtain rfl := Option.some.inj ha
    rw [heq]
    exact h.storeVariable hA (.inl hs)
  · obtain rfl := Option.some.inj ha
    rw [hcolon]
    exact h.storeVariable hA (.inr hs)
  · obtain ⟨aop, haop, rfl⟩ := Option.map_eq_some_iff.mp ha
    rw [Context.assignVariable, haop]
    exact h.modifyVariable hA hs

/-- What is assigned to an element. -/
theorem Machine.Within.assignElement {k : LexemeKind} {a : AInstr} {c i : Value}
    (ha : assignInstr k (.plain opLoadAt) = some a) (h : m.Within A fr (ops ++ [c, i, v]) pos)
    (hs : Seg T A.chunk names pos [.mine a line]) :
    m.Does W n ((A.context W names call).assignElement k c i v) fr (A.Done ops (pos + 1)) := by
  unfold assignInstr at ha
  dsimp only at ha
  split_ifs at ha with heq hcolon
  · obtain rfl := Option.some.inj ha
    rw [heq]
    exact h.storeElement hs
  · obtain ⟨aop, haop, rfl⟩ := Option.map_eq_some_iff.mp ha
    rw [Context.assignElement, haop]
    exact h.modifyElement hs

/-! ## Functions and jumps -/

/-- A function is made. -/
theorem Machine.Within.newFunction {q : Option Params × Stmts} {s : Shape}
    (h : m.Within A fr ops pos) (hi : A.chunk.code[pos]? = some (opFunction k))
    (hs : A.chunk.shapes[k]? = some s)
    (hof : ∀ f : Func, f.chunk = A.chunk → f.ip = pos → f.Of q) :
    m.Does W n ((A.context W names call).newFunction q) fr (A.Pushed ops (pos + s.offset)) := by
  have h' : m.Within A fr (ops ++ []) pos := by rwa [List.append_nil]
  obtain ⟨d, hrunning⟩ := h.running
  have hshape : A.chunk.shapeAt pos = some s := by
    rw [Chunk.shapeAt, Calx.shapeAt, hi]
    exact hs
  obtain ⟨f, hchunk, hip⟩ := hrunning.underway.resident.sound.func _ _ hshape
  apply Stepper.Does.of_step
  intro i _
  obtain ⟨f', hf'⟩ := (W.lawful i).makes f
  rw [hchunk, hip] at hf'
  obtain ⟨hchunk', hip'⟩ := (W.lawful i).made _ _ _ hf'
  have heffect : m.effect (W.world i) (A.below ++ (fr.locals ++ ops)) (opFunction k) [] =
      .goes (A.below ++ (fr.locals ++ ops)) [.func f'] (m.vm.ip + s.offset) m.store := by
    have hs' : A.site.callee.chunk.shapes[k]? = some s := hs
    rw [Machine.effect, Machine.function, hrunning.intact.cs, List.head?_cons]
    dsimp only
    rw [hs', h.ip, hf']
  obtain ⟨m', hstep, hwithin⟩ := h'.goes hi rfl rfl rfl heffect
  rw [h.ip, h.store] at hwithin
  exact .inr ⟨(.ok (.func f'), fr), ⟨.func f', ⟨f', rfl, hchunk', hof f' hchunk' hip'⟩, rfl⟩, m',
    hstep, hwithin⟩

/-- A jump. -/
theorem Machine.Within.jump {t dst : Nat} (h : m.Within A fr ops pos)
    (hi : A.chunk.code[pos]? = some (opJump t)) (hdst : (pos : Int) + toInt32 t = dst) (i : ι) :
    ∃ m', W.stepper.step i m = .inl m' ∧ m'.Within A fr ops dst := by
  have h' : m.Within A fr (ops ++ []) pos := by rwa [List.append_nil]
  have heffect : m.effect (W.world i) (A.below ++ (fr.locals ++ ops)) (opJump t) [] =
      .goes (A.below ++ (fr.locals ++ ops)) [] dst m.store := by
    rw [Machine.effect, h.ip, hdst]
  obtain ⟨m', hstep, hwithin⟩ := h'.goes hi rfl rfl rfl heffect
  rw [h.store, List.append_nil] at hwithin
  exact ⟨m', hstep, hwithin⟩

/-- A jump unless the value on top is true. -/
theorem Machine.Within.jumpUnless {t dst : Nat} (h : m.Within A fr (ops ++ [v]) pos)
    (hi : A.chunk.code[pos]? = some (opJumpUnless t)) (hdst : (pos : Int) + toInt32 t = dst)
    (i : ι) :
    ∃ m', W.stepper.step i m = .inl m' ∧
      m'.Within A fr ops (if valueIsTruthy v then pos + 1 else dst) := by
  have heffect : m.effect (W.world i) (A.below ++ (fr.locals ++ ops)) (opJumpUnless t) [v] =
      .goes (A.below ++ (fr.locals ++ ops)) []
        ((if valueIsTruthy v then pos + 1 else dst : Nat) : Int) m.store := by
    rw [Machine.effect, h.ip, hdst]
    split
    · rfl
    · rfl
  obtain ⟨m', hstep, hwithin⟩ := h.goes hi rfl rfl rfl heffect
  rw [h.store, List.append_nil] at hwithin
  exact ⟨m', hstep, hwithin⟩

end

end Calx
