import Calx.Lib.Simulation
import Calx.Meaning
import Calx.Vm.Safety

/-!
# A function under way

The machine as the meaning of a function's body sees it: locals and operands over what the
callers have on the stack, and a store. Each instruction changes these as the meaning does.
-/

namespace Calx

open Instr Libdeci

/-! ## Worlds and views -/

/-- The worlds in which the machine may make a step, and when native functions are called fairly
there. -/
structure Worlds [DeciBase] (ι : Type) where
  world : ι → World
  Fair : ι → Nat → Store → List Value → Prop
  lawful : ∀ i, (world i).Lawful (Fair i)

/-- A call under way: its call sites, what lies below its locals, the indexes of the locals of its
callers, and lists of names that the globals begin with. -/
structure Activation where
  site : CallSite
  sites : List CallSite
  below : List Value
  indexes : List Nat
  kept : List (List Bytes)

/-- The code of the function that has been called. -/
def Activation.chunk (A : Activation) : Chunk := A.site.callee.chunk

/-- The machine is about to execute the instruction at `pos` of an activation with these
operands. -/
structure Machine.Within [DeciBase] (m : Machine) (A : Activation) (fr : Frame)
    (operands : List Value) (pos : Nat) : Prop where
  running : ∃ d, m.Running A.site A.sites A.below.length A.indexes d
  cells : m.vm.vs.cells = A.below ++ (fr.locals ++ operands)
  locals : fr.locals.length = A.site.callee.shape.nlocals
  ip : m.vm.ip = pos
  store : m.store = fr.store
  kept : ∀ names ∈ A.kept, names <+: fr.store.globals.names

/-- How a run has ended, and the machine that has made its last step. -/
abbrev Halt [DeciBase] := Machine × StepResult

/-- The run has ended at a call for which the value stack cannot have the room. -/
def Lost [Libdeci] (r : Halt) : Prop := r.1.Overfull ∧ ∃ st, r.2 = .raised .panic st

/-- The run has ended with an error. -/
def Store.Raised [DeciBase] (e : Fault) (st : Store) (r : Halt) : Prop := r.2 = .raised e st

/-- The run has ended with an error in a frame. -/
def Frame.Raised [DeciBase] (e : Fault) (fr : Frame) (r : Halt) : Prop :=
  r.2 = .raised e fr.store

/-- An instruction that stays in its function. -/
def Instr.stays : Instr → Bool
  | .opCall .. | .opReturn => false
  | _ => true

section

variable [Libdeci] {ι : Type}

/-- The dispatch loop in steady turns. -/
def Worlds.stepper (W : Worlds ι) : Stepper ι Machine Halt where
  step i m :=
    match m.step (W.world i) with
    | .next m' => .inl m'
    | r => .inr (m, r)
  ok i m := m.Steady (W.Fair i)

/-- From the machine, a computation on the frame is done in at most `n` steps. -/
abbrev Machine.Does {α : Type} (W : Worlds ι) (n : Nat) (m : Machine) (c : Run α) (fr : Frame)
    (After : α → Frame → Machine → Prop) : Prop :=
  W.stepper.Does Lost Frame.Raised n m c fr After

variable {W : Worlds ι} {i : ι} {m m' : Machine} {A : Activation} {fr : Frame}
  {operands ops : List Value} {pos : Nat} {instr : Instr}

theorem Worlds.stepper_next (h : m.step (W.world i) = .next m') : W.stepper.step i m = .inl m' := by
  simp only [Worlds.stepper, h]

theorem Worlds.stepper_done {v : Value} {st : Store} (h : m.step (W.world i) = .done v st) :
    W.stepper.step i m = .inr (m, .done v st) := by
  simp only [Worlds.stepper, h]

theorem Worlds.stepper_raised {e : Fault} {st : Store} (h : m.step (W.world i) = .raised e st) :
    W.stepper.step i m = .inr (m, .raised e st) := by
  simp only [Worlds.stepper, h]

namespace Machine.Within

variable (h : m.Within A fr ops pos)

include h

theorem instr_eq (hi : A.chunk.code[pos]? = some instr) : m.vm.instr? = some instr := by
  obtain ⟨d, hrunning⟩ := h.running
  rw [VmState.instr?, hrunning.intact.cs, h.ip]
  exact hi

/-- The compiler has cared for the instruction. -/
theorem admissible (hi : A.chunk.code[pos]? = some instr) :
    instr.Admissible A.chunk fr.store.globals.names.length A.site.callee.shape.nlocals := by
  obtain ⟨d, hrunning⟩ := h.running
  have hown := hrunning.intact.at_ip.1
  rw [h.ip] at hown
  have hadm := hrunning.underway.resident.sound.admissible _ _ A.site.callee.shape_eq _ hown _ hi
  rw [h.store] at hadm
  exact hadm

theorem local_eq {k : Nat} (hk : k < fr.locals.length) :
    m.vm.local? k = some (fr.locals.getD k .nil) := by
  obtain ⟨d, hrunning⟩ := h.running
  have hlocals := hrunning.intact.locals
  have hindex : (m.vm.locals - m.vm.vs.base).toNat = A.below.length := by omega
  rw [VmState.local?, if_pos (by omega), hindex, h.cells, List.getElem?_append_right (by omega),
    Nat.add_sub_cancel_left, List.getElem?_append_left hk, List.getD_eq_getElem?_getD,
    List.getElem?_eq_getElem hk, Option.getD_some]

/-- The activation goes on with other locals, operands and objects. -/
theorem turned {locals' ops' : List Value} {ip : Nat} {st : Store}
    (hlen : locals'.length = fr.locals.length)
    (ht : m.Turned m' A.site A.sites A.below.length A.indexes (A.below ++ (locals' ++ ops'))
      ip st) :
    m'.Within A ⟨locals', st⟩ ops' ip where
  running := ht.running
  cells := ht.cells
  locals := hlen.trans h.locals
  ip := ht.ip
  store := ht.store
  kept names hnames := by
    have hle := ht.extent.globals
    rw [h.store, ht.store] at hle
    exact (h.kept names hnames).trans hle

end Machine.Within

/-- The instruction is executed outside of calls and returns. -/
theorem Machine.Within.step_eq (h : m.Within A fr ops pos) (hi : A.chunk.code[pos]? = some instr)
    (hstays : instr.stays = true) (w : World) : m.step w = m.plain w instr := by
  rw [Machine.step, h.instr_eq hi]
  cases instr with
  | opCall scatter c => cases hstays
  | opReturn => cases hstays
  | _ => rfl

/-- An instruction that goes on as its effect says. -/
theorem Machine.Within.goes (h : m.Within A fr (ops ++ operands) pos)
    (hi : A.chunk.code[pos]? = some instr) (hstays : instr.stays = true)
    (hpops : operands.length = instr.pops) {locals' results : List Value} {next : Int} {st : Store}
    (hlen : locals'.length = fr.locals.length)
    (heffect : m.effect (W.world i) (A.below ++ (fr.locals ++ ops)) instr operands =
      .goes (A.below ++ (locals' ++ ops)) results next st) :
    ∃ m', W.stepper.step i m = .inl m' ∧ m'.Within A ⟨locals', st⟩ (ops ++ results) next.toNat := by
  obtain ⟨d, hrunning⟩ := h.running
  have hcells : m.vm.vs.cells = (A.below ++ (fr.locals ++ ops)) ++ operands := by
    rw [h.cells]
    simp only [List.append_assoc]
  have hcall : ∀ scatter c, instr ≠ opCall scatter c := by
    rintro scatter c rfl
    cases hstays
  have hret : instr ≠ .opReturn := by
    rintro rfl
    cases hstays
  obtain ⟨m', hplain, hturned⟩ := hrunning.plain_goes (W.lawful i) (h.instr_eq hi) hcall hret hcells
    hpops heffect
  refine ⟨m', Worlds.stepper_next ((h.step_eq hi hstays _).trans hplain), h.turned hlen ?_⟩
  have hcells' : A.below ++ (locals' ++ (ops ++ results)) =
      A.below ++ (locals' ++ ops) ++ results := by
    simp only [List.append_assoc]
  rw [hcells']
  exact hturned

/-- An instruction that fails as its effect says. -/
theorem Machine.Within.raises (h : m.Within A fr (ops ++ operands) pos)
    (hi : A.chunk.code[pos]? = some instr) (hstays : instr.stays = true)
    (hpops : operands.length = instr.pops) {e : Fault} {st : Store}
    (heffect : m.effect (W.world i) (A.below ++ (fr.locals ++ ops)) instr operands =
      .raises e st) : W.stepper.step i m = .inr (m, .raised e st) := by
  apply Worlds.stepper_raised
  rw [h.step_eq hi hstays]
  refine Machine.plain_raises ?_ hpops heffect
  rw [h.cells]
  simp only [List.append_assoc]

/-! ## Actions -/

/-- The value is on top of the operands, and the instruction at `pos` is next. -/
def Activation.Pushed (A : Activation) (ops : List Value) (pos : Nat) (v : Value)
    (fr : Frame) (m : Machine) : Prop := m.Within A fr (ops ++ [v]) pos

/-- The operands are there, and the instruction at `pos` is next. -/
def Activation.Done (A : Activation) (ops : List Value) (pos : Nat) (_ : Unit)
    (fr : Frame) (m : Machine) : Prop := m.Within A fr ops pos

/-- The effect of an instruction is what an action has made of the frame, with its results. -/
def Activation.Effect {α : Type} (A : Activation) (results : α → List Value) (m : Machine)
    (fr : Frame) (ops : List Value) (x : Calx.Effect) : Except Fault α × Frame → Prop
  | (.ok a, fr') => fr'.locals.length = fr.locals.length ∧
      x = .goes (A.below ++ (fr'.locals ++ ops)) (results a) (m.vm.ip + 1) fr'.store
  | (.error e, fr') => x = .raises e fr'.store

/-- An instruction that does what a computation may do. -/
theorem Machine.Within.performs {α : Type} {c : Run α} {f : ι → Except Fault α × Frame}
    (results : α → List Value) {n : Nat} (h : m.Within A fr (ops ++ operands) pos)
    (hi : A.chunk.code[pos]? = some instr) (hstays : instr.stays = true)
    (hpops : operands.length = instr.pops) (hc : ∀ i, c fr (f i))
    (heffect : ∀ i, A.Effect results m fr ops
      (m.effect (W.world i) (A.below ++ (fr.locals ++ ops)) instr operands) (f i)) :
    m.Does W n c fr fun a fr' m' => m'.Within A fr' (ops ++ results a) (pos + 1) := by
  apply Stepper.Does.of_step
  intro i _
  have heffect' := heffect i
  refine .inr ⟨f i, hc i, ?_⟩
  rcases hf : f i with ⟨e | a, fr'⟩
  · rw [hf] at heffect'
    exact ⟨_, h.raises hi hstays hpops heffect', rfl⟩
  · rw [hf] at heffect'
    obtain ⟨hlen, heffect'⟩ := heffect'
    obtain ⟨m', hstep, hwithin⟩ := h.goes hi hstays hpops hlen heffect'
    rw [h.ip] at hwithin
    exact ⟨m', hstep, hwithin⟩

/-- An instruction with a result. -/
theorem Machine.Within.result {c : Run Value} {f : ι → Except Fault Value} {n : Nat}
    (h : m.Within A fr (ops ++ operands) pos) (hi : A.chunk.code[pos]? = some instr)
    (hstays : instr.stays = true) (hpops : operands.length = instr.pops)
    (hc : ∀ i, c fr (f i, fr))
    (heffect : ∀ i, m.effect (W.world i) (A.below ++ (fr.locals ++ ops)) instr operands =
      m.result (A.below ++ (fr.locals ++ ops)) (f i)) :
    m.Does W n c fr (A.Pushed ops (pos + 1)) := by
  refine h.performs (fun v => [v]) hi hstays hpops hc fun i => ?_
  rw [heffect]
  cases f i with
  | ok v => exact ⟨rfl, congrArg (Effect.goes _ _ _) h.store⟩
  | error e => exact congrArg (Effect.raises e) h.store

/-- An instruction that changes the frame. -/
theorem Machine.Within.acts {c : Run Unit} {f : ι → Except Fault Unit × Frame} {n : Nat}
    (h : m.Within A fr (ops ++ operands) pos) (hi : A.chunk.code[pos]? = some instr)
    (hstays : instr.stays = true) (hpops : operands.length = instr.pops) (hc : ∀ i, c fr (f i))
    (heffect : ∀ i, A.Effect (fun _ => []) m fr ops
      (m.effect (W.world i) (A.below ++ (fr.locals ++ ops)) instr operands) (f i)) :
    m.Does W n c fr (A.Done ops (pos + 1)) := by
  refine (h.performs (fun _ => []) hi hstays hpops hc heffect).imp fun _ fr' m' hm' => ?_
  rwa [List.append_nil] at hm'

/-- An instruction whose result is known. -/
theorem Machine.Within.known {v : Value} {n : Nat} (h : m.Within A fr ops pos)
    (hi : A.chunk.code[pos]? = some instr) (hstays : instr.stays = true) (hpops : instr.pops = 0)
    (heffect : ∀ i, m.effect (W.world i) (A.below ++ (fr.locals ++ ops)) instr [] =
      m.result (A.below ++ (fr.locals ++ ops)) (.ok v)) :
    m.Does W n (pure v) fr (A.Pushed ops (pos + 1)) := by
  have h' : m.Within A fr (ops ++ []) pos := by rwa [List.append_nil]
  refine Stepper.Does.step (P := fun m' => m'.Within A fr (ops ++ [v]) (pos + 1)) (fun i _ => ?_)
    fun n' _ m' hm' => Stepper.Does.pure hm'
  obtain ⟨m', hstep, hwithin⟩ := h'.goes hi hstays hpops.symm rfl (heffect i)
  rw [h.ip, h.store] at hwithin
  exact .inr ⟨m', hstep, hwithin⟩

end

end Calx
