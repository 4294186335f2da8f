import Calx.Vm.Call
import Mathlib.Logic.Relation

/-!
# The frames of the callers

While functions call each other, each call site knows where the locals of its
caller are, and what the caller has on the stack stays as it is, provided that
no reallocation moves the stack at the wrong moment: `do_call` turns the pointer
to the locals into an offset after the arguments have been made ready.

## Implementation notes

`VmStep` runs the compiled code. Of the instructions other than `OP_CALL` and
`OP_RETURN` only what they take off the stack, what they put there and which
local they assign matters; the values are arbitrary, and so is what happens to
the heap. A step that would write past the end of the stack is none. `Frames`
lists the calls under way from the last one, with the index of the first local of
each function.
-/

namespace Calx

open Instr Relation

namespace VmState

/-- The instruction to be executed. -/
def instr? (s : VmState) : Option Instr := s.cs.head?.bind fun site => site.callee.chunk.code[s.ip]?

end VmState

/-- What an instruction does to the values that it leaves on the stack. -/
def LocalWrite (s : VmState) (rest rest' : List Value) : Instr → Prop
  | opStoreLocal c | opModifyLocal _ c =>
      s.vs.base ≤ s.locals ∧ (s.locals - s.vs.base).toNat + c < rest.length ∧
        ∃ v, rest' = rest.set ((s.locals - s.vs.base).toNat + c) v
  | _ => rest' = rest

/-- An instruction of the code is executed. -/
inductive VmStep (natives : Natives) (s : VmState) : VmState → Prop
  | call {s' : VmState} {scatter : Bool} {c : Nat} (hi : s.instr? = some (opCall scatter c))
      (h : doCall natives s scatter c = .ok s') (hend : s'.vs.cells.length ≤ s'.vs.capacity) :
      VmStep natives s { s' with ip := s'.ip + 1 }
  | ret {s' : VmState} {ip : Nat} (hi : s.instr? = some .opReturn)
      (h : opReturn s = some (some ip, s')) : VmStep natives s { s' with ip := ip + 1 }
  | other {site : CallSite} {instr : Instr} {t : Nat} {rest rest' operands results : List Value}
      {heap : Heap} (hsite : s.cs.head? = some site) (hi : s.instr? = some instr)
      (hcall : ∀ scatter c, instr ≠ opCall scatter c) (hret : instr ≠ .opReturn)
      (ht : (t : Int) ∈ site.callee.chunk.next s.ip instr)
      (hcells : s.vs.cells = rest ++ operands) (hpops : operands.length = instr.pops)
      (hpushes : results.length = instr.pushes) (hwrite : LocalWrite s rest rest' instr)
      (hend : (rest' ++ results).length ≤ s.vs.capacity) :
      VmStep natives s { s.setCells (rest' ++ results) with ip := t, heap := heap }

/-- The capacity after `k` reallocations. -/
def grownCapacity (capacity : Nat) : Nat → Nat
  | 0 => capacity
  | k + 1 => doubled (grownCapacity capacity k)

/-- The address of the stack after `k` reallocations. -/
def ValueStack.address (vs : ValueStack) : Nat → Int
  | 0 => vs.base
  | k + 1 => vs.realloc k

/-- Room for `need` values takes `k` reallocations. -/
def RoomAfter (capacity need k : Nat) : Prop :=
  need ≤ grownCapacity capacity k ∧ ∀ j < k, grownCapacity capacity j < need

/-- The values on the stack with those of the list to scatter in its place. -/
def scattered (s : VmState) : Bool → List Value
  | false => s.vs.cells
  | true =>
      match s.vs.cells.getLast? with
      | some (.list id) => s.vs.cells.dropLast ++ (s.heap.lists[id]?).getD []
      | _ => s.vs.cells

/-- The callee has a gathering parameter for which no argument is left. -/
def gathersNone (n : Nat) : Value → Bool
  | .func f => f.gathers && n == f.nparams
  | _ => false

/-- How many values a call has on the stack when the arguments are ready; the list of a gathering
parameter takes a place of its own when it is empty. -/
def argsRoom (s : VmState) (scatter : Bool) (c : Nat) : Nat :=
  let cells := scattered s scatter
  let n := cells.length - (s.vs.cells.length - c)
  cells.length + (cells[s.vs.cells.length - (c + 1)]?.any (gathersNone n)).toNat

/-- The room for the arguments is there, or the stack grows in its place. -/
def Steady (s : VmState) (scatter : Bool) (c : Nat) : Prop :=
  ∀ k, RoomAfter s.vs.capacity (argsRoom s scatter c) k → s.vs.address k = s.vs.base

/-- A step that does not move the stack at the wrong moment. -/
def SteadyStep (natives : Natives) (s s' : VmState) : Prop :=
  VmStep natives s s' ∧ ∀ scatter c, s.instr? = some (opCall scatter c) → Steady s scatter c

/-- The function has `d` operands at its own instruction `ip`. -/
def Func.At (f : Func) (ip d : Nat) : Prop := f.chunk.Own f.ip ip ∧ f.depth ip = d

/-- The stack holds the frames of the calls under way; `d` operands belong to the last one. -/
inductive Frames : List CallSite → List Value → List Nat → Nat → Prop
  | main {site : CallSite} {frame : List Value} {d : Nat} (hip : site.callIp = none)
      (hlen : frame.length = site.callee.shape.nlocals + d) :
      Frames [site] (.func site.callee :: frame) [1] d
  | call {site caller : CallSite} {sites : List CallSite} {below frame : List Value}
      {index : Nat} {indexes : List Nat} {d e ip : Nat}
      (hbelow : Frames (caller :: sites) below (index :: indexes) e)
      (hip : site.callIp = some ip) (hreturn : caller.callee.At (ip + 1) (e + 1))
      (hoffset : site.prevLocalsOffset = index)
      (hlen : frame.length = site.callee.shape.nlocals + d) :
      Frames (site :: caller :: sites) (below ++ .func site.callee :: frame)
        ((below.length + 1) :: index :: indexes) d

/-- The frames of a state: the pointer to the locals points to those of the running function. -/
structure Intact (s : VmState) (site : CallSite) (sites : List CallSite) (index : Nat)
    (indexes : List Nat) (d : Nat) : Prop where
  cs : s.cs = site :: sites
  frames : Frames (site :: sites) s.vs.cells (index :: indexes) d
  locals : s.locals = s.vs.base + index
  at_ip : site.callee.At s.ip d
  in_block : s.vs.cells.length ≤ s.vs.capacity

variable {natives : Natives} {s s' : VmState} {site : CallSite} {sites : List CallSite}
  {index d d' : Nat} {indexes : List Nat} {cells cells' : List Value}

theorem Frames.length (h : Frames (site :: sites) cells (index :: indexes) d) :
    cells.length = index + site.callee.shape.nlocals + d := by
  cases h with
  | main hip hlen =>
      rw [List.length_cons]
      omega
  | call hbelow hip hreturn hoffset hlen =>
      rw [List.length_append, List.length_cons]
      omega

/-- The frame of the running function has other values. -/
theorem Frames.update (h : Frames (site :: sites) cells (index :: indexes) d)
    (htake : cells'.take index = cells.take index)
    (hlen : cells'.length = index + site.callee.shape.nlocals + d') :
    Frames (site :: sites) cells' (index :: indexes) d' := by
  cases h with
  | main hip hlen' =>
      have hsplit : cells' = .func site.callee :: cells'.drop 1 := by
        conv_lhs => rw [← List.take_append_drop 1 cells', htake]
        rfl
      rw [hsplit]
      refine .main hip ?_
      rw [List.length_drop]
      omega
  | @call _ _ _ below frame _ _ _ _ _ hbelow hip hreturn hoffset hlen' =>
      have hsplit : cells' = below ++ .func site.callee :: cells'.drop (below.length + 1) := by
        conv_lhs => rw [← List.take_append_drop (below.length + 1) cells', htake]
        rw [List.take_length_add_append]
        simp
      rw [hsplit]
      refine .call hbelow hip hreturn hoffset ?_
      rw [List.length_drop]
      omega

/-! ## One step -/

/-- What the compiler guarantees of the instruction to be executed. -/
theorem Intact.disciplined (h : Intact s site sites index indexes d) {instr : Instr}
    (hi : s.instr? = some instr) :
    site.callee.chunk.DisciplinedAt site.callee.ip site.callee.depth s.ip instr := by
  obtain ⟨instr', hcode, hd⟩ := site.callee.disciplined.own s.ip h.at_ip.1
  rw [VmState.instr?, h.cs] at hi
  obtain rfl := Option.some.inj (hcode.symm.trans hi)
  exact hd

theorem Intact.at_next (h : Intact s site sites index indexes d) {instr : Instr}
    (hi : s.instr? = some instr) {t : Nat} (ht : (t : Int) ∈ site.callee.chunk.next s.ip instr) :
    instr.pops ≤ d ∧ site.callee.At t (d - instr.pops + instr.pushes) := by
  have hd := h.disciplined hi
  obtain ⟨j, hj, hown, hdepth⟩ := hd.next t ht
  obtain rfl : t = j := by exact_mod_cast hj
  have hpops := hd.pops
  rw [h.at_ip.2] at hpops hdepth
  exact ⟨hpops, hown, hdepth⟩

theorem LocalWrite.take {rest rest' : List Value} {instr : Instr}
    (h : LocalWrite s rest rest' instr) (hlocals : s.locals = s.vs.base + index) :
    rest'.length = rest.length ∧ rest'.take index = rest.take index := by
  have hset : ∀ c : Nat, ∀ v, (rest.set ((s.locals - s.vs.base).toNat + c) v).take index =
      rest.take index := fun c v => by
    rw [hlocals, show (s.vs.base + index - s.vs.base).toNat = index by omega]
    exact List.take_set_of_le (by omega)
  unfold LocalWrite at h
  split at h
  · obtain ⟨-, -, v, rfl⟩ := h
    exact ⟨List.length_set, hset _ v⟩
  · obtain ⟨-, -, v, rfl⟩ := h
    exact ⟨List.length_set, hset _ v⟩
  · obtain rfl := h
    exact ⟨rfl, rfl⟩

/-- An instruction that is neither a call nor a return keeps to the frame of its function. -/
theorem Intact.other (h : Intact s site sites index indexes d) {instr : Instr} {t : Nat}
    {rest rest' operands results : List Value} (heap : Heap) (hi : s.instr? = some instr)
    (ht : (t : Int) ∈ site.callee.chunk.next s.ip instr) (hcells : s.vs.cells = rest ++ operands)
    (hpops : operands.length = instr.pops) (hpushes : results.length = instr.pushes)
    (hwrite : LocalWrite s rest rest' instr) (hend : (rest' ++ results).length ≤ s.vs.capacity) :
    Intact { s.setCells (rest' ++ results) with ip := t, heap := heap } site sites index indexes
        (d - instr.pops + instr.pushes) ∧
      (rest' ++ results).take index = s.vs.cells.take index := by
  obtain ⟨hle, hat⟩ := h.at_next hi ht
  obtain ⟨hlen', htake'⟩ := hwrite.take h.locals
  have hlen := h.frames.length
  rw [hcells, List.length_append] at hlen
  have htake : (rest' ++ results).take index = s.vs.cells.take index := by
    rw [hcells, List.take_append_of_le_length (by omega), List.take_append_of_le_length (by omega),
      htake']
  have hnew : (rest' ++ results).length =
      index + site.callee.shape.nlocals + (d - instr.pops + instr.pushes) := by
    rw [List.length_append]
    omega
  exact ⟨⟨h.cs, h.frames.update htake hnew, h.locals, hat, hend⟩, htake⟩

/-- A return gives the caller its registers back. -/
theorem Intact.ret {caller : CallSite} {index' ip : Nat}
    (h : Intact s site (caller :: sites) index (index' :: indexes) d)
    (hi : s.instr? = some .opReturn) (hret : opReturn s = some (some ip, s')) :
    (∃ d', Intact { s' with ip := ip + 1 } caller sites index' indexes d') ∧
      s'.vs.cells.take (index - 1) = s.vs.cells.take (index - 1) ∧ index' < index := by
  have hd : d = 1 := h.at_ip.2.symm.trans ((h.disciplined hi).return_one rfl)
  have hframes := h.frames
  have hblock := h.in_block
  generalize hcells : s.vs.cells = cells at hframes hblock
  cases hframes with
  | @call _ _ _ below frame _ _ _ e _ hbelow hip hreturn hoffset hlen =>
      obtain ⟨v, hv⟩ : ∃ v, (below ++ .func site.callee :: frame).getLast? = some v :=
        Option.ne_none_iff_exists'.mp (by simp [List.getLast?_eq_none_iff])
      have hbelow' : (below ++ Value.func site.callee :: frame).length - 1 -
          (site.callee.shape.nlocals + 1) = below.length := by
        rw [List.length_append, List.length_cons]
        omega
      have hrun : opReturn s = some (site.callIp, { s.setCells (below ++ [v]) with
          cs := caller :: sites
          consts := site.prevConsts
          locals := s.vs.base + site.prevLocalsOffset }) := by
        simp only [opReturn, h.cs, hcells, hv, hbelow', List.take_left]
      rw [hrun, Option.some.injEq, Prod.mk.injEq, hip, Option.some.injEq] at hret
      obtain ⟨rfl, rfl⟩ := hret
      have hlength := hbelow.length
      refine ⟨⟨e + 1, rfl, ?_, ?_, hreturn, ?_⟩, ?_, by omega⟩
      · refine hbelow.update ?_ ?_
        · simp only [VmState.setCells]
          rw [List.take_append_of_le_length (by omega)]
        · simp only [VmState.setCells, List.length_append, List.length_singleton]
          omega
      · simp only [VmState.setCells, hoffset]
      · simp only [VmState.setCells, List.length_append, List.length_cons] at hblock ⊢
        simp only [List.length_nil]
        omega
      · simp only [VmState.setCells, Nat.add_sub_cancel, List.take_left]

/-- `vs'` is the block of `vs` grown to have room for `need` values. -/
def Grown (vs vs' : ValueStack) (need : Nat) : Prop :=
  ∃ k, RoomAfter vs.capacity need k ∧ vs'.capacity = grownCapacity vs.capacity k ∧
    ∀ j, vs'.address j = vs.address (k + j)

theorem grownCapacity_add (capacity k j : Nat) :
    grownCapacity capacity (k + j) = grownCapacity (grownCapacity capacity k) j := by
  induction j with
  | zero => rfl
  | succ j ih => rw [Nat.add_succ, grownCapacity, ih, grownCapacity]

theorem Grown.room {vs vs' : ValueStack} {need : Nat} (h : Grown vs vs' need) :
    need ≤ vs'.capacity := by
  obtain ⟨k, hroom, hcapacity, -⟩ := h
  exact hcapacity ▸ hroom.1

theorem Grown.refl {vs vs' : ValueStack} {need : Nat} (h : need ≤ vs.capacity)
    (hcapacity : vs'.capacity = vs.capacity) (haddress : ∀ j, vs'.address j = vs.address j) :
    Grown vs vs' need :=
  ⟨0, ⟨h, fun _ hj => absurd hj (Nat.not_lt_zero _)⟩, hcapacity, fun j => by rw [haddress, Nat.zero_add]⟩

theorem Grown.trans {vs vs₁ vs₂ : ValueStack} {need need' : Nat} (h : Grown vs vs₁ need)
    (h' : Grown vs₁ vs₂ need') (hle : need ≤ need') : Grown vs vs₂ need' := by
  obtain ⟨k, ⟨hroom, hless⟩, hcapacity, haddress⟩ := h
  obtain ⟨k', ⟨hroom', hless'⟩, hcapacity', haddress'⟩ := h'
  rw [hcapacity, ← grownCapacity_add] at hroom' hcapacity'
  refine ⟨k + k', ⟨hroom', fun j hj => ?_⟩, hcapacity', fun j => ?_⟩
  · by_cases hjk : j < k
    · exact Nat.lt_of_lt_of_le (hless j hjk) hle
    · have hj' := hless' (j - k) (by omega)
      rwa [hcapacity, ← grownCapacity_add, Nat.add_sub_cancel' (Nat.not_lt.mp hjk)] at hj'
  · rw [haddress', haddress, Nat.add_assoc]

theorem x2realloc_lt {vs vs' : ValueStack} (h : x2realloc vs = .ok vs') :
    vs.capacity < vs'.capacity := by
  unfold x2realloc at h
  split at h
  · cases h
    simp only [doubled]
    split <;> omega
  · cases h

theorem x2realloc_grown {vs vs' : ValueStack} {need : Nat} (h : x2realloc vs = .ok vs')
    (hneed : vs.capacity < need) (hroom : need ≤ vs'.capacity) : Grown vs vs' need := by
  unfold x2realloc at h
  split at h
  · cases h
    refine ⟨1, ⟨hroom, fun j hj => ?_⟩, rfl, fun j => ?_⟩
    · obtain rfl : j = 0 := by omega
      exact hneed
    · rw [Nat.add_comm]
      cases j <;> rfl
  · cases h

theorem ensureLoop_grown {n fuel : Nat} {vs vs' : ValueStack} (h : ensureLoop n fuel vs = .ok vs')
    (hn : 0 < n) (hless : vs.capacity < vs.cells.length + n) :
    Grown vs vs' (vs.cells.length + n) := by
  induction fuel generalizing vs with
  | zero => cases h
  | succ fuel ih =>
      rw [ensureLoop] at h
      obtain ⟨vs₁, hrealloc, h⟩ := bind_ok h
      have hcells := x2realloc_ok hrealloc
      split at h
      · have hless₁ : vs₁.capacity < vs₁.cells.length + n := by omega
        have hgrown := ih h hless₁
        rw [hcells] at hgrown hless₁
        exact (x2realloc_grown hrealloc (x2realloc_lt hrealloc) le_rfl).trans hgrown
          (Nat.le_of_lt hless₁)
      · rename_i hroom
        cases h
        rw [hcells] at hroom
        exact x2realloc_grown hrealloc hless (by omega)

theorem valueStackEnsure_grown {n : Nat} {vs vs' : ValueStack}
    (h : valueStackEnsure vs n = .ok vs') (hlen : vs.cells.length ≤ vs.capacity) :
    Grown vs vs' (vs.cells.length + n) := by
  unfold valueStackEnsure at h
  split at h
  · cases h
    exact .refl (by omega) rfl fun _ => rfl
  · exact ensureLoop_grown h (by omega) (by omega)

/-- The arguments lie where the call has found them, over what it leaves to the caller. -/
theorem doCallArgs_frame {scatter : Bool} {c n : Nat} {s₁ : VmState}
    (h : doCallArgs s scatter c = .ok (n, s₁)) (hn : n < s₁.vs.cells.length)
    (hc : c < s.vs.cells.length) (hlen : s.vs.cells.length ≤ s.vs.capacity) :
    ∃ vs callee all, s₁ = { s with vs := vs } ∧ all.length = n ∧
      vs.cells = s.vs.cells.take (s.vs.cells.length - (c + 1)) ++ callee :: all ∧
      vs.cells = scattered s scatter ∧ Grown s.vs vs vs.cells.length := by
  have hsplit : ∀ (cells : List Value) (k : Nat), k + (n + 1) = cells.length →
      ∃ callee all, all.length = n ∧ cells = cells.take k ++ callee :: all := by
    intro cells k hk
    have hdrop : (cells.drop k).length = n + 1 := by rw [List.length_drop]; omega
    obtain ⟨callee, all, hall⟩ := List.exists_cons_of_length_eq_add_one hdrop
    refine ⟨callee, all, ?_, ?_⟩
    · rw [hall, List.length_cons] at hdrop
      omega
    · rw [← hall, List.take_append_drop]
  unfold doCallArgs at h
  split at h
  · rename_i hscatter'
    obtain ⟨⟨l, s₂⟩, hscatter, h⟩ := bind_ok h
    obtain ⟨rfl, rfl⟩ := Prod.mk.inj (Except.ok.inj h)
    unfold doCallScatter at hscatter
    split at hscatter
    · rename_i id hid
      obtain ⟨init, hinit⟩ := List.getLast?_eq_some_iff.mp hid
      obtain ⟨s₃, hensure, hscatter⟩ := bind_ok hscatter
      obtain ⟨vs, hvs, hpure⟩ := bind_ok hensure
      obtain rfl := Except.ok.inj hpure
      obtain ⟨hl, rfl⟩ := Prod.mk.inj (Except.ok.inj hscatter)
      obtain ⟨elems, helems⟩ : ∃ elems, elems = (s.heap.lists[id]?).getD [] := ⟨_, rfl⟩
      rw [← helems] at hvs hl hn
      obtain ⟨hcells, hroom⟩ := valueStackEnsure_ok hvs
      simp only [VmState.setCells, hinit, List.dropLast_concat] at hcells
      simp only [VmState.setCells, hcells, List.length_append] at hn
      rw [hinit, List.length_append, List.length_singleton] at hc hlen
      have hgrown := valueStackEnsure_grown hvs (by
        simp only [VmState.setCells, hinit, List.dropLast_concat]
        omega)
      simp only [VmState.setCells, hinit, List.dropLast_concat] at hgrown
      have hcapacity := vs.capacity_lt
      have hcapacity' := s.vs.capacity_lt
      have hsum : (init ++ elems).length = init.length + l := by rw [List.length_append, hl]
      obtain ⟨callee, all, hall, hargs⟩ := hsplit (init ++ elems) (init.length - c) (by omega)
      rw [List.take_append_of_le_length (by omega)] at hargs
      refine ⟨{ vs with cells := init ++ elems }, callee, all, ?_, hall, ?_, ?_, ?_⟩
      · simp only [VmState.setCells, hcells, ← helems]
      · rw [hinit, List.length_append, List.length_singleton,
          List.take_append_of_le_length (by omega),
          show init.length + 1 - (c + 1) = init.length - c by omega]
        exact hargs
      · rw [hscatter']
        simp only [scattered, hid]
        rw [hinit, List.dropLast_concat, helems]
      · rw [← List.length_append] at hgrown
        exact hgrown
    · cases hscatter
    · cases hscatter
  · obtain ⟨rfl, rfl⟩ := Prod.mk.inj (Except.ok.inj h)
    obtain ⟨callee, all, hall, hcells⟩ := hsplit s.vs.cells (s.vs.cells.length - (c + 1)) (by omega)
    exact ⟨s.vs, callee, all, rfl, hall, hcells, by cases scatter <;> trivial, .refl hlen rfl fun _ => rfl⟩

/-- Binding the parameters grows the stack for an empty gather list only. -/
theorem doCallCoerce_grown {f : Func} {n n' : Nat}
    (h : doCallCoerce s f.shape.nargsEncoded n = .ok (n', s'))
    (hlen : s.vs.cells.length ≤ s.vs.capacity) :
    Grown s.vs s'.vs (s.vs.cells.length + (gathersNone n (.func f)).toNat) := by
  unfold doCallCoerce at h
  cases hg : f.gathers with
  | false =>
      rw [if_pos ((nargsEncoded_sign f).mpr hg)] at h
      split at h
      · cases h
      · cases h
        exact .refl (by simpa [gathersNone, hg] using hlen) rfl fun _ => rfl
  | true =>
      rw [if_neg (by simp [nargsEncoded_sign, hg])] at h
      simp only [complement_nargsEncoded f hg] at h
      split at h
      · cases h
      · rename_i hn
        obtain ⟨s₁, hgather, hpure⟩ := bind_ok h
        cases hpure
        obtain ⟨s₂, hroom, hpure⟩ := bind_ok hgather
        cases hpure
        unfold gatherRoom at hroom
        split at hroom
        · obtain ⟨vs, hvs, hpure⟩ := bind_ok hroom
          cases hpure
          have hnone : gathersNone n (.func f) = true := by
            simp only [gathersNone, hg, Bool.true_and, beq_iff_eq]
            omega
          rw [hnone]
          have hgrown := valueStackEnsure_grown hvs hlen
          exact hgrown
        · cases hroom
          have hnone : gathersNone n (.func f) = false := by
            simp only [gathersNone, hg, Bool.true_and, beq_eq_false_iff_ne]
            omega
          rw [hnone]
          exact .refl hlen rfl fun _ => rfl

theorem Steady.base {scatter : Bool} {c : Nat} {vs : ValueStack} (h : Steady s scatter c)
    (hgrown : Grown s.vs vs (argsRoom s scatter c)) : vs.base = s.vs.base := by
  obtain ⟨k, hroom, -, haddress⟩ := hgrown
  exact (haddress 0).trans (h k hroom)

/-- A call enters the frame of its callee, or puts the result of a native function in its place. -/
theorem Intact.call (h : Intact s site sites index indexes d) {scatter : Bool} {c : Nat}
    (hi : s.instr? = some (opCall scatter c)) (hsteady : Steady s scatter c)
    (hcall : doCall natives s scatter c = .ok s') (hend : s'.vs.cells.length ≤ s'.vs.capacity) :
    s'.vs.cells.take (s.vs.cells.length - (c + 1)) =
        s.vs.cells.take (s.vs.cells.length - (c + 1)) ∧
      index ≤ s.vs.cells.length - (c + 1) ∧
      ((∃ d', Intact { s' with ip := s'.ip + 1 } site sites index indexes d') ∨
        ∃ site', Intact { s' with ip := s'.ip + 1 } site' (site :: sites)
          (s.vs.cells.length - (c + 1) + 1) (index :: indexes) 0 ∧
          site'.prevLocalsOffset = index) := by
  obtain ⟨hpops, hnext⟩ := h.at_next hi (t := s.ip + 1) (by simp [Chunk.next])
  have hlength := h.frames.length
  have hblock := h.in_block
  have hcapacity := s.vs.capacity_lt
  simp only [Instr.pops, Instr.pushes] at hpops hnext
  obtain ⟨⟨n, s₁⟩, hargs, hcall⟩ := bind_ok hcall
  simp only at hcall
  split at hcall
  · cases hcall
  obtain ⟨vs, callee, all, rfl, rfl, hcells, hscattered, hgrown⟩ :=
    doCallArgs_frame hargs (by omega) (by omega) hblock
  obtain ⟨below, hbelow⟩ : ∃ below, below = s.vs.cells.take (s.vs.cells.length - (c + 1)) := ⟨_, rfl⟩
  have hlen : below.length = s.vs.cells.length - (c + 1) := by
    rw [hbelow, List.length_take]
    omega
  rw [← hbelow] at hcells
  have hindex : index ≤ below.length := by omega
  have hframes : Frames (site :: sites) below (index :: indexes) (d - (c + 1)) := by
    refine h.frames.update ?_ (by omega)
    rw [hbelow, List.take_take, Nat.min_eq_left (by omega)]
  have hcallee : vs.cells[vs.cells.length - all.length - 1]? = some callee := by
    rw [hcells, List.length_append, List.length_cons,
      show below.length + (all.length + 1) - all.length - 1 = below.length by omega]
    simp
  simp only [hcallee] at hcall
  have hvslen : vs.cells.length = below.length + (all.length + 1) := by
    rw [hcells, List.length_append, List.length_cons]
  have hneed : argsRoom s scatter c =
      vs.cells.length + (gathersNone all.length callee).toNat := by
    have hn : vs.cells.length - (s.vs.cells.length - c) = all.length := by omega
    have hat : vs.cells[s.vs.cells.length - (c + 1)]? = some callee := by
      rw [hcells, ← hlen]
      simp
    rw [argsRoom, ← hscattered, hn, hat, Option.any_some]
  rw [← hbelow, ← hlen]
  cases callee with
  | func f =>
      have hfits : f.Fits all.length := by
        by_contra hfits
        rw [doCallValue, doCallFunc, doCallCoerce_unfit hfits] at hcall
        cases hcall
      obtain ⟨vs₁, vs₂, hcoerce, hrun⟩ := doCallFunc_spec (s := { s with vs := vs }) hcells hfits
        (Or.inr ⟨s', hcall⟩)
      obtain rfl := Except.ok.inj (hrun.symm.trans hcall)
      have hoffset : s.locals - vs₁.base = index := by
        have hvs₁ : vs₁.base = s.vs.base := hsteady.base (by
          rw [hneed]
          exact hgrown.trans (doCallCoerce_grown hcoerce hgrown.room) (Nat.le_add_right _ _))
        rw [hvs₁, h.locals]
        omega
      have hentry := f.disciplined.entry
      refine ⟨?_, hindex, Or.inr ⟨⟨some s.ip, f, s.consts, s.locals - vs₁.base⟩,
        ⟨?_, ?_, rfl, hentry, hend⟩, hoffset⟩⟩
      · exact List.take_left
      · exact congrArg (_ :: ·) h.cs
      · exact .call hframes rfl hnext hoffset (length_frameCells hfits)
  | cfunc id =>
      rw [doCallValue, doCallNative_spec (s := { s with vs := vs }) hcells] at hcall
      cases hnative : natives id s.heap (all.take (toUint32 all.length)) with
      | error text =>
          rw [hnative] at hcall
          cases hcall
      | ok result =>
          obtain ⟨r, heap⟩ := result
          rw [hnative] at hcall
          obtain rfl := Except.ok.inj hcall
          have htake : vs.cells.take below.length = below := by rw [hcells, List.take_left]
          simp only [VmState.setCells, htake] at hend ⊢
          refine ⟨List.take_left, hindex, Or.inl ⟨d - (c + 1) + 1, h.cs, ?_, ?_, hnext, hend⟩⟩
          · refine hframes.update ?_ ?_
            · exact List.take_append_of_le_length hindex
            · rw [List.length_append, List.length_singleton]
              omega
          · have hbase : vs.base = s.vs.base := by
              refine hsteady.base ?_
              rw [hneed]
              exact hgrown
            rw [h.locals, ← hbase]
  | _ => cases hcall

/-! ## Runs -/

/-- The frames of the callers lie below those of their callees. -/
theorem Frames.sorted {sites : List CallSite} {indexes : List Nat}
    (h : Frames sites cells indexes d) : indexes.Pairwise (· > ·) := by
  induction h with
  | main hip hlen => exact List.pairwise_singleton _ _
  | @call site caller sites below frame index indexes d e ip hbelow hip hreturn hoffset hlen ih =>
      have hlength := hbelow.length
      refine List.pairwise_cons.mpr ⟨fun i hi => ?_, ih⟩
      rcases List.mem_cons.mp hi with rfl | hi
      · omega
      · have := (List.pairwise_cons.mp ih).1 i hi
        omega

/-- A function that returns to an instruction has a caller. -/
theorem Frames.caller {ip : Nat} (h : Frames (site :: sites) cells (index :: indexes) d)
    (hip : site.callIp = some ip) :
    ∃ caller sites' index' indexes', sites = caller :: sites' ∧ indexes = index' :: indexes' := by
  cases h with
  | main hip' hlen =>
      rw [hip'] at hip
      cases hip
  | call hbelow hip' hreturn hoffset hlen => exact ⟨_, _, _, _, rfl, rfl⟩

/-- A step leaves the frames of the callers alone; only a return leaves its own frame. -/
theorem Intact.step (h : Intact s site sites index indexes d) (hstep : SteadyStep natives s s') :
    ∃ site' sites' index' indexes' d', Intact s' site' sites' index' indexes' d' ∧
      ((site' :: sites' = site :: sites ∧ index' :: indexes' = index :: indexes ∧
          s'.vs.cells.take index = s.vs.cells.take index) ∨
        (sites' = site :: sites ∧ indexes' = index :: indexes ∧
          s'.vs.cells.take index = s.vs.cells.take index) ∨
        (site' :: sites' = sites ∧ index' :: indexes' = indexes ∧
          s'.vs.cells.take (index - 1) = s.vs.cells.take (index - 1))) := by
  obtain ⟨hstep, hsteady⟩ := hstep
  cases hstep with
  | @call s' scatter c hi hcall hend =>
      obtain ⟨htake, hindex, ⟨d', h'⟩ | ⟨site', h', -⟩⟩ := h.call hi (hsteady _ _ hi) hcall hend
      · have htake' := congrArg (List.take index) htake
        rw [List.take_take, List.take_take, Nat.min_eq_left hindex] at htake'
        exact ⟨site, sites, index, indexes, d', h', Or.inl ⟨rfl, rfl, htake'⟩⟩
      · have htake' := congrArg (List.take index) htake
        rw [List.take_take, List.take_take, Nat.min_eq_left hindex] at htake'
        exact ⟨site', _, _, _, 0, h', Or.inr (Or.inl ⟨rfl, rfl, htake'⟩)⟩
  | @ret s' ip hi hret =>
      have hip : site.callIp = some ip := by
        simp only [opReturn, h.cs] at hret
        split at hret
        · rename_i hcs hlast
          obtain ⟨rfl, -⟩ := List.cons.inj hcs
          exact (Prod.mk.inj (Option.some.inj hret)).1
        · cases hret
      obtain ⟨caller, sites', index', indexes', rfl, rfl⟩ := h.frames.caller hip
      obtain ⟨⟨d', h'⟩, htake, -⟩ := h.ret hi hret
      exact ⟨_, _, _, _, d', h', Or.inr (Or.inr ⟨rfl, rfl, htake⟩)⟩
  | @other site₁ instr t rest rest' operands results heap hsite hi hcall hret ht hcells hpops hpushes
      hwrite hend =>
      rw [h.cs] at hsite
      obtain rfl := Option.some.inj hsite
      obtain ⟨h', htake⟩ := h.other heap hi ht hcells hpops hpushes hwrite hend
      exact ⟨_, _, _, _, _, h', Or.inl ⟨rfl, rfl, htake⟩⟩

/-- A step that does not leave a frame with `n` callers. -/
def StepOver (step : VmState → VmState → Prop) (n : Nat) (s s' : VmState) : Prop :=
  step s s' ∧ n < s'.cs.length

/-- What a run over a frame leaves as it is: the call sites below and the values of the callers. -/
theorem Intact.run_over {s₂ : VmState} (h : Intact s site sites index indexes d)
    (hrun : ReflTransGen (StepOver (SteadyStep natives) sites.length) s s₂) :
    ∃ site' sites' index' indexes' d', Intact s₂ site' sites' index' indexes' d' ∧
      (∃ pre preIndexes, site' :: sites' = pre ++ site :: sites ∧
        index' :: indexes' = preIndexes ++ index :: indexes ∧ pre.length = preIndexes.length) ∧
      s₂.vs.cells.take (index - 1) = s.vs.cells.take (index - 1) := by
  induction hrun with
  | refl => exact ⟨site, sites, index, indexes, d, h, ⟨[], [], rfl, rfl, rfl⟩, rfl⟩
  | @tail a b hrun hstep ih =>
      obtain ⟨siteA, sitesA, indexA, indexesA, dA, hA, ⟨pre, preI, hpre, hpreI, hlen⟩, htake⟩ := ih
      obtain ⟨siteB, sitesB, indexB, indexesB, dB, hB, hmoved⟩ := hA.step hstep.1
      have hdeep := hstep.2
      rw [hB.cs] at hdeep
      have hsorted := hA.frames.sorted
      -- The frame lies below the running one.
      have hindex : index ≤ indexA := by
        rcases preI with _ | ⟨i, preI⟩
        · exact le_of_eq (List.cons.inj hpreI).1.symm
        · obtain ⟨rfl, rfl⟩ := List.cons.inj hpreI
          exact le_of_lt ((List.pairwise_cons.mp hsorted).1 index (by simp))
      have hcut : ∀ n, index - 1 ≤ n → b.vs.cells.take n = a.vs.cells.take n →
          b.vs.cells.take (index - 1) = s.vs.cells.take (index - 1) := fun n hn heq => by
        have heq' := congrArg (List.take (index - 1)) heq
        rwa [List.take_take, List.take_take, Nat.min_eq_left hn, htake] at heq'
      refine ⟨siteB, sitesB, indexB, indexesB, dB, hB, ?_⟩
      rcases hmoved with ⟨hsites, hindexes, hcells⟩ | ⟨rfl, rfl, hcells⟩ | ⟨hsites, hindexes, hcells⟩
      · exact ⟨⟨pre, preI, hsites.trans hpre, hindexes.trans hpreI, hlen⟩, hcut _ (by omega) hcells⟩
      · refine ⟨⟨siteB :: pre, indexB :: preI, ?_, ?_, by simp [hlen]⟩, hcut _ (by omega) hcells⟩
        · rw [hpre, List.cons_append]
        · rw [hpreI, List.cons_append]
      · cases pre with
        | nil =>
            obtain ⟨rfl, rfl⟩ := List.cons.inj hpre
            rw [hsites] at hdeep
            exact absurd hdeep (Nat.lt_irrefl _)
        | cons p pre =>
            cases preI with
            | nil => simp at hlen
            | cons i preI =>
                obtain ⟨-, rfl⟩ := List.cons.inj hpre
                obtain ⟨-, rfl⟩ := List.cons.inj hpreI
                exact ⟨⟨pre, preI, hsites, hindexes, by simpa using hlen⟩, hcut _ (by omega) hcells⟩

/-- A call that was made in a state has returned in another one. -/
inductive CallReturns (step : VmState → VmState → Prop) (s : VmState) : VmState → Prop
  | native {s' : VmState} (h : step s s') (hdepth : s'.cs.length = s.cs.length) :
      CallReturns step s s'
  | bytecode {s₁ s₂ s' : VmState} (h : step s s₁) (hover : s.cs.length < s₁.cs.length)
      (hrun : ReflTransGen (StepOver step s.cs.length) s₁ s₂) (hret : step s₂ s')
      (hdepth : s'.cs.length = s.cs.length) : CallReturns step s s'

theorem Intact.call_step (h : Intact s site sites index indexes d) {scatter : Bool} {c : Nat}
    (hi : s.instr? = some (opCall scatter c)) (hstep : SteadyStep natives s s') :
    s'.vs.cells.take (s.vs.cells.length - (c + 1)) =
        s.vs.cells.take (s.vs.cells.length - (c + 1)) ∧
      ((∃ d', Intact s' site sites index indexes d') ∨
        ∃ site', Intact s' site' (site :: sites)
          (s.vs.cells.length - (c + 1) + 1) (index :: indexes) 0) := by
  obtain ⟨hstep, hsteady⟩ := hstep
  cases hstep with
  | @call s' scatter' c' hi' hcall hend =>
      obtain ⟨rfl, rfl⟩ : scatter = scatter' ∧ c = c' := by
        have heq := Option.some.inj (hi.symm.trans hi')
        exact Instr.opCall.inj heq
      obtain ⟨htake, -, hnative | ⟨site', h', -⟩⟩ := h.call hi (hsteady _ _ hi) hcall hend
      · exact ⟨htake, Or.inl hnative⟩
      · exact ⟨htake, Or.inr ⟨site', h'⟩⟩
  | ret hi' hret =>
      rw [hi] at hi'
      cases hi'
  | other hsite hi' hcall hret ht hcells hpops hpushes hwrite hend =>
      exact absurd (Option.some.inj (hi'.symm.trans hi)) (hcall _ _)

/-- What the caller has when a call has returned. -/
theorem Intact.returned (h : Intact s site sites index indexes d) {scatter : Bool} {c : Nat}
    (hi : s.instr? = some (opCall scatter c)) (hcall : CallReturns (SteadyStep natives) s s') :
    s'.locals - s'.vs.base = index ∧
      s'.vs.cells.take (s.vs.cells.length - (c + 1)) =
        s.vs.cells.take (s.vs.cells.length - (c + 1)) := by
  have hdepth : s.cs.length = sites.length + 1 := by rw [h.cs, List.length_cons]
  cases hcall with
  | native hstep hdepth' =>
      obtain ⟨htake, ⟨d', h'⟩ | ⟨site', h'⟩⟩ := h.call_step hi hstep
      · exact ⟨by rw [h'.locals]; omega, htake⟩
      · rw [h'.cs, List.length_cons, List.length_cons] at hdepth'
        omega
  | @bytecode s₁ s₂ _ hstep hover hrun hret hdepth' =>
      obtain ⟨htake, ⟨d', h'⟩ | ⟨site₁, h₁⟩⟩ := h.call_step hi hstep
      · rw [h'.cs, List.length_cons] at hover
        omega
      rw [hdepth] at hrun
      obtain ⟨site₂, sites₂, index₂, indexes₂, d₂, h₂, ⟨pre, preI, hpre, hpreI, hlen⟩, htake₂⟩ :=
        h₁.run_over hrun
      obtain ⟨site₃, sites₃, index₃, indexes₃, d₃, h₃, hmoved⟩ := h₂.step hret
      rw [h₃.cs, List.length_cons, hdepth] at hdepth'
      have hlength := congrArg List.length hpre
      simp only [List.length_append, List.length_cons] at hlength
      rcases hmoved with ⟨hsites, -⟩ | ⟨rfl, -⟩ | ⟨hsites, hindexes, hcells⟩
      · have := congrArg List.length hsites
        simp only [List.length_cons] at this
        omega
      · simp only [List.length_cons] at hdepth'
        omega
      · have := congrArg List.length hsites
        simp only [List.length_cons] at this
        obtain rfl : pre = [] := List.length_eq_zero_iff.mp (by omega)
        obtain rfl : preI = [] := List.length_eq_zero_iff.mp hlen.symm
        obtain ⟨rfl, rfl⟩ := List.cons.inj hpreI
        obtain ⟨rfl, rfl⟩ := List.cons.inj hindexes
        refine ⟨by rw [h₃.locals]; omega, ?_⟩
        rw [Nat.add_sub_cancel] at hcells htake₂
        rw [hcells, htake₂, htake]

theorem setupForEval_intact {vs : ValueStack} {heap : Heap} {f : Func} (hvs : vs.cells = [])
    (h : setupForEval vs heap f = .ok s) :
    Intact s ⟨none, f, [], -1⟩ [] 1 [] 0 := by
  unfold setupForEval at h
  split at h
  · cases h
  · obtain ⟨vs', hensure, h⟩ := bind_ok h
    obtain rfl := Except.ok.inj h
    obtain ⟨hcells, hroom⟩ := valueStackEnsure_ok hensure
    have hcells' : vs'.cells = [] := hcells.trans hvs
    refine ⟨rfl, ?_, rfl, f.disciplined.entry, ?_⟩
    · simp only [hcells', List.nil_append]
      exact .main rfl (by simp)
    · rw [hcells'] at hroom
      simp only [hcells', List.nil_append, List.length_cons, List.length_replicate,
        List.length_nil] at hroom ⊢
      omega

/-- The state is reached by running a function. -/
def Reached (step : VmState → VmState → Prop) (f : Func) (s : VmState) : Prop :=
  ∃ vs heap s₀, vs.cells = [] ∧ setupForEval vs heap f = .ok s₀ ∧ ReflTransGen step s₀ s

theorem Reached.intact {f : Func} (h : Reached (SteadyStep natives) f s) :
    ∃ site sites index indexes d, Intact s site sites index indexes d := by
  obtain ⟨vs, heap, s₀, hvs, hstart, hrun⟩ := h
  induction hrun with
  | refl => exact ⟨_, _, _, _, _, setupForEval_intact hvs hstart⟩
  | tail hrun hstep ih =>
      obtain ⟨site, sites, index, indexes, d, h⟩ := ih
      obtain ⟨site', sites', index', indexes', d', h', -⟩ := h.step hstep
      exact ⟨site', sites', index', indexes', d', h'⟩

/-- The pointer to the locals and the offsets recorded at the call sites are those of the frames,
and after a call the caller's locals are where they were and what they were. -/
def CallersSurvive (step : VmState → VmState → Prop) (s : VmState) : Prop :=
  (∃ index indexes d, Frames s.cs s.vs.cells (index :: indexes) d ∧
      s.locals = s.vs.base + index) ∧
    ∀ scatter c s', s.instr? = some (opCall scatter c) → CallReturns step s s' →
      s'.locals - s'.vs.base = s.locals - s.vs.base ∧
        s'.vs.cells.take (s.vs.cells.length - (c + 1)) =
          s.vs.cells.take (s.vs.cells.length - (c + 1)) ∧
        ∀ site ∈ s.cs.head?, ∀ i < site.callee.shape.nlocals, s'.local? i = s.local? i

/-- Callers keep their locals in every run in which the stack does not move at the wrong moment. -/
theorem callers_survive {f : Func} (h : Reached (SteadyStep natives) f s) :
    CallersSurvive (SteadyStep natives) s := by
  obtain ⟨site, sites, index, indexes, d, h⟩ := h.intact
  refine ⟨⟨index, indexes, d, by rw [h.cs]; exact h.frames, h.locals⟩, fun scatter c s' hi hcall => ?_⟩
  obtain ⟨hlocals, htake⟩ := h.returned hi hcall
  have hsame : s'.locals - s'.vs.base = s.locals - s.vs.base := by
    rw [hlocals, h.locals]
    omega
  refine ⟨hsame, htake, fun site' hsite i hlt => ?_⟩
  rw [h.cs] at hsite
  obtain rfl := Option.some.inj hsite
  have hlength := h.frames.length
  have hpops := (h.at_next hi (t := s.ip + 1) (by simp [Chunk.next])).1
  simp only [Instr.pops] at hpops
  have hget : s'.vs.cells[index + i]? = s.vs.cells[index + i]? := by
    have hget' := congrArg (·[index + i]?) htake
    simpa only [List.getElem?_take_of_lt (show index + i < s.vs.cells.length - (c + 1) by omega)]
      using hget'
  have hindex : (s.locals - s.vs.base).toNat = index := by rw [h.locals]; omega
  unfold VmState.local?
  rw [hsame, hindex, hget, if_pos (by omega), if_pos (by rw [h.locals]; omega)]

/-! ## A native function called with a list -/

/-- A function that calls a native function with the elements of a list. -/
theorem exists_scattering : ∃ f : Func, f.shape = ⟨0, 1, 9, 2⟩ ∧ f.ip = 0 ∧
    f.chunk.code = [opFunction 0, opLoadGlobal 0, opLoadGlobal 1, opCall true 1, opPrint,
      opLoadConst 0, opStoreLocal 0, opLoadConst 1, .opReturn] := by
  obtain ⟨c, g, hp, hs, hcode⟩ : ∃ c g, @parse deciBase64 [] (bytesOf "F(*L);a:=1") "" = .ok (c, g) ∧
      c.shapeAt 0 = some ⟨0, 1, 9, 2⟩ ∧ c.code = [opFunction 0, opLoadGlobal 0, opLoadGlobal 1,
        opCall true 1, opPrint, opLoadConst 0, opStoreLocal 0, opLoadConst 1, .opReturn] :=
    ⟨_, _, rfl, rfl, rfl⟩
  obtain ⟨f, rfl, hip, hshape⟩ := @exists_func deciBase64 _ _ _ _ _ hp _ _ hs (by decide)
  exact ⟨f, hshape, hip, hcode⟩

/-- The state of the function `f` in front of the instruction `ip`, with a list of three nils in the
heap and the next block of the stack elsewhere. -/
def scattering (f : Func) (ip : Nat) (operands : List Value) : VmState where
  vs := ⟨0, .func f :: .nil :: operands, 4, fun _ => 100, by decide⟩
  cs := [⟨none, f, [], -1⟩]
  ip := ip
  locals := 1
  consts := f.chunk.consts
  heap := ⟨[[.nil, .nil, .nil]]⟩

/-- The native function of `scattering`. -/
def returnsNil : Natives := fun _ heap _ => .ok (.nil, heap)

/-- The state after the call, with the stack in its new place. -/
def scatteringMoved (f : Func) : VmState :=
  { scattering f 4 [.nil] with
    vs := ⟨100, [.func f, .nil, .nil], 8, fun _ => 100, by decide⟩ }

/-- A global is loaded. -/
theorem scattering_load {f : Func} {ip c : Nat} {operands : List Value} (v : Value)
    (hcode : f.chunk.code[ip]? = some (opLoadGlobal c)) (hlen : operands.length < 2) :
    VmStep returnsNil (scattering f ip operands) (scattering f (ip + 1) (operands ++ [v])) := by
  refine @VmStep.other returnsNil (scattering f ip operands) ⟨none, f, [], -1⟩ (opLoadGlobal c)
    (ip + 1) (.func f :: .nil :: operands) _ [] [v] ⟨[[.nil, .nil, .nil]]⟩ rfl hcode
    (fun _ _ => Instr.noConfusion) Instr.noConfusion (List.mem_singleton_self _)
    (List.append_nil _).symm rfl rfl rfl ?_
  simp only [List.length_append, List.length_cons, List.length_nil, scattering]
  omega

theorem scattering_start {f : Func} (hshape : f.shape = ⟨0, 1, 9, 2⟩) (hip : f.ip = 0) :
    setupForEval ⟨0, [], 4, fun _ => 100, by decide⟩ ⟨[[.nil, .nil, .nil]]⟩ f =
      .ok (scattering f 1 []) := by
  simp only [setupForEval, hshape, hip]
  rfl

/-- The state of `scattering` on a larger block. -/
def roomy (f : Func) (ip : Nat) (operands : List Value) : VmState :=
  { scattering f ip operands with
    vs := ⟨0, .func f :: .nil :: operands, 16, fun _ => 100, by decide⟩ }

theorem roomy_load {f : Func} {ip c : Nat} {operands : List Value} (v : Value)
    (hcode : f.chunk.code[ip]? = some (opLoadGlobal c)) (hlen : operands.length < 2) :
    SteadyStep returnsNil (roomy f ip operands) (roomy f (ip + 1) (operands ++ [v])) := by
  refine ⟨?_, fun scatter c' hi => absurd (hcode.symm.trans hi) (by simp)⟩
  refine @VmStep.other returnsNil (roomy f ip operands) ⟨none, f, [], -1⟩ (opLoadGlobal c)
    (ip + 1) (.func f :: .nil :: operands) _ [] [v] ⟨[[.nil, .nil, .nil]]⟩ rfl hcode
    (fun _ _ => Instr.noConfusion) Instr.noConfusion (List.mem_singleton_self _)
    (List.append_nil _).symm rfl rfl rfl ?_
  simp only [List.length_append, List.length_cons, List.length_nil, roomy]
  omega

theorem roomy_start {f : Func} (hshape : f.shape = ⟨0, 1, 9, 2⟩) (hip : f.ip = 0) :
    setupForEval ⟨0, [], 16, fun _ => 100, by decide⟩ ⟨[[.nil, .nil, .nil]]⟩ f =
      .ok (roomy f 1 []) := by
  simp only [setupForEval, hshape, hip]
  rfl

/-- The state of `g`, called with the list of three nils: the last two are in a list. -/
def gathering (f g : Func) (ip : Nat) (operands : List Value) : VmState where
  vs := ⟨0, .func f :: .nil :: .func g :: .nil :: .list 1 :: operands, 16, fun _ => 100, by decide⟩
  cs := [⟨some 3, g, f.chunk.consts, 1⟩, ⟨none, f, [], -1⟩]
  ip := ip
  locals := 3
  consts := g.chunk.consts
  heap := ⟨[[.nil, .nil, .nil], [.nil, .nil]]⟩

theorem gathering_call {f g : Func} (hcode : f.chunk.code[3]? = some (opCall true 1))
    (hshape : g.shape = ⟨4294967294, 2, 5, 1⟩) (hip : g.ip = 1) :
    SteadyStep returnsNil (roomy f 3 [.func g, .list 0]) (gathering f g 2 []) := by
  constructor
  · have hscatter : doCallScatter (roomy f 3 [.func g, .list 0]) =
        .ok (3, roomy f 3 [.func g, .nil, .nil, .nil]) := rfl
    have hcall : doCall returnsNil (roomy f 3 [.func g, .list 0]) true 1 =
        .ok { gathering f g 2 [] with ip := 1 } := by
      rw [doCall, doCallArgs, if_pos rfl, hscatter]
      change doCallFunc (roomy f 3 [.func g, .nil, .nil, .nil]) g 3 = _
      rw [doCallFunc, hshape, hip]
      rfl
    exact @VmStep.call returnsNil (roomy f 3 [.func g, .list 0]) _ true 1 hcode hcall
      (by simp [gathering])
  · intro scatter c hi k hk
    obtain ⟨rfl, rfl⟩ := Instr.opCall.inj (Option.some.inj (hcode.symm.trans hi))
    have hroom : argsRoom (roomy f 3 [.func g, .list 0]) true 1 ≤ 16 := by
      change 6 + (gathersNone 3 (.func g)).toNat ≤ 16
      have hle := (gathersNone 3 (.func g)).toNat_le
      omega
    cases k with
    | zero => rfl
    | succ k => exact absurd (hk.2 0 (Nat.succ_pos k)) (Nat.not_lt.mpr hroom)

theorem gathering_load {f g : Func} (hcode : g.chunk.code[2]? = some (opLoadLocal 0)) :
    SteadyStep returnsNil (gathering f g 2 []) (gathering f g 3 [.nil]) := by
  refine ⟨?_, fun scatter c hi => absurd (hcode.symm.trans hi) (by simp)⟩
  exact @VmStep.other returnsNil (gathering f g 2 []) ⟨some 3, g, f.chunk.consts, 1⟩ (opLoadLocal 0)
    3 (gathering f g 2 []).vs.cells _ [] [.nil] ⟨[[.nil, .nil, .nil], [.nil, .nil]]⟩ rfl hcode
    (fun _ _ => Instr.noConfusion) Instr.noConfusion (List.mem_singleton_self _)
    (List.append_nil _).symm rfl rfl rfl (by simp [gathering])

/-- The caller goes on with the value that has been returned. -/
theorem gathering_return {f g : Func} (hcode : g.chunk.code[3]? = some .opReturn)
    (hshape : g.shape = ⟨4294967294, 2, 5, 1⟩) :
    SteadyStep returnsNil (gathering f g 3 [.nil])
      { roomy f 4 [.nil] with heap := ⟨[[.nil, .nil, .nil], [.nil, .nil]]⟩ } := by
  refine ⟨?_, fun scatter c hi => absurd (hcode.symm.trans hi) (by simp)⟩
  have hreturn : opReturn (gathering f g 3 [.nil]) = some (some 3, { roomy f 3 [.nil] with
      heap := ⟨[[.nil, .nil, .nil], [.nil, .nil]]⟩ }) := by
    change some (some 3, { (gathering f g 3 [.nil]).setCells
      ((gathering f g 3 [.nil]).vs.cells.take (6 - 1 - (g.shape.nlocals + 1)) ++ [.nil]) with
        cs := [⟨none, f, [], -1⟩]
        consts := f.chunk.consts
        locals := 0 + 1 }) = _
    rw [hshape]
    rfl
  exact @VmStep.ret returnsNil (gathering f g 3 [.nil]) _ 3 hcode hreturn

/-- `callers_survive` in front of a call that returns. -/
theorem callers_survive_returned : ∃ (f : Func) (s s' : VmState), s.instr? = some (opCall true 1) ∧
    CallReturns (SteadyStep returnsNil) s s' ∧ s.cs.head?.map CallSite.callee = some f ∧
      f.shape.nlocals = 1 ∧ s'.local? 0 = s.local? 0 ∧ CallersSurvive (SteadyStep returnsNil) s := by
  obtain ⟨f, hshape, hip, hcode⟩ := exists_scattering
  obtain ⟨g, hgshape, hgip, hgcode⟩ := exists_gathering
  have hload : f.chunk.code[1]? = some (opLoadGlobal 0) := by
    rw [hcode]
    rfl
  have hload' : f.chunk.code[2]? = some (opLoadGlobal 1) := by
    rw [hcode]
    rfl
  have hcall : f.chunk.code[3]? = some (opCall true 1) := by
    rw [hcode]
    rfl
  have hreached : Reached (SteadyStep returnsNil) f (roomy f 3 [.func g, .list 0]) :=
    ⟨_, _, _, rfl, roomy_start hshape hip,
      .tail (.single (roomy_load (.func g) hload Nat.zero_lt_two))
        (roomy_load (.list 0) hload' Nat.one_lt_two)⟩
  have hreturns : CallReturns (SteadyStep returnsNil) (roomy f 3 [.func g, .list 0])
      { roomy f 4 [.nil] with heap := ⟨[[.nil, .nil, .nil], [.nil, .nil]]⟩ } := by
    refine .bytecode (gathering_call hcall hgshape hgip) Nat.one_lt_two
      (.single ⟨gathering_load ?_, Nat.one_lt_two⟩) (gathering_return ?_ hgshape) rfl
    · rw [hgcode]
      rfl
    · rw [hgcode]
      rfl
  have hsurvive := callers_survive hreached
  refine ⟨f, roomy f 3 [.func g, .list 0], _, hcall, hreturns, rfl, by rw [hshape], ?_, hsurvive⟩
  exact (hsurvive.2 true 1 _ hcall hreturns).2.2 _ rfl 0 (by simp [hshape])

/-- The list does not fit on the stack, which moves. -/
theorem scattering_call {f : Func} (hcode : f.chunk.code[3]? = some (opCall true 1)) :
    VmStep returnsNil (scattering f 3 [.cfunc 0, .list 0]) (scatteringMoved f) := by
  have hscatter : doCallScatter (scattering f 3 [.cfunc 0, .list 0]) =
      .ok (3, { scattering f 3 [] with
        vs := ⟨100, [.func f, .nil, .cfunc 0, .nil, .nil, .nil], 8, fun _ => 100, by decide⟩ }) := rfl
  refine @VmStep.call returnsNil (scattering f 3 [.cfunc 0, .list 0])
    { scatteringMoved f with ip := 3 } true 1 hcode ?_ (by simp [scatteringMoved])
  rw [doCall, doCallArgs, if_pos rfl, hscatter]
  rfl

/-- Without the condition the caller can lose its locals in a call. -/
theorem callers_lost : ¬ ∀ (natives : Natives) (f : Func) (s : VmState),
    Reached (VmStep natives) f s → CallersSurvive (VmStep natives) s := by
  intro h
  obtain ⟨f, hshape, hip, hcode⟩ := exists_scattering
  have hreached : Reached (VmStep returnsNil) f (scattering f 3 [.cfunc 0, .list 0]) := by
    refine ⟨_, _, _, rfl, scattering_start hshape hip, ?_⟩
    have hload : f.chunk.code[1]? = some (opLoadGlobal 0) := by
      rw [hcode]
      rfl
    have hload' : f.chunk.code[2]? = some (opLoadGlobal 1) := by
      rw [hcode]
      rfl
    exact ReflTransGen.tail (ReflTransGen.single (scattering_load (.cfunc 0) hload (by decide)))
      (scattering_load (.list 0) hload' (by decide))
  have hi : f.chunk.code[3]? = some (opCall true 1) := by
    rw [hcode]
    rfl
  obtain ⟨hlocals, -⟩ := (h _ _ _ hreached).2 true 1 _ hi (.native (scattering_call hi) rfl)
  -- The pointer is still 1, and the stack begins at 100.
  simp only [scatteringMoved, scattering] at hlocals
  omega

end Calx
