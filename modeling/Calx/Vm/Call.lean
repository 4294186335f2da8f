import Calx.Vm.Basic

/-!
# What a call binds

`do_call` puts the arguments where the callee looks for them: the explicit ones,
then the elements of a scatter list, bound to the parameters in order, the rest
in a fresh gather list, nils in the other locals.

## Implementation notes

`Calling` describes the stack in front of an `OP_CALL`: the values of the caller,
the callee, the explicit arguments and perhaps a list to scatter. What the call
needs is bounded by the 2^60 values of eight bytes that one block of memory can
hold at most; this excludes the outcome `outOfMemory` and nothing else.
-/

namespace Calx

/-! ## Compiled functions -/

/-- The functions of an accepted source are functions of the machine. -/
theorem exists_func [DeciBase] {globals g : List Bytes} {source : Bytes} {origin : String}
    {c : Chunk} (h : parse globals source origin = .ok (c, g)) {i : Nat} {s : Shape}
    (hs : c.shapeAt i = some s) (hlocals : s.nlocals ≤ uint32Max / 2) :
    ∃ f : Func, f.chunk = c ∧ f.ip = i ∧ f.shape = s := by
  obtain ⟨_, -, -, hfuncs⟩ := operand_discipline h
  obtain ⟨⟨⟨ps, body⟩, -, T, -, hplaced⟩, depth, hdisciplined, -⟩ := hfuncs i s hs
  have hnargs : s.nargsEncoded = nargsEncoded ps := hplaced.agrees.nargs
  have hlen : (paramNames ps).length ≤ s.nlocals := by
    rw [hplaced.agrees.nlocals]
    exact (putNames_isPrefix (paramNames ps) body.decls).length_le
  cases ps with
  | none =>
      exact ⟨⟨c, i, s, 0, false, depth, hs, hnargs, Nat.zero_le _, hlocals, hdisciplined⟩, rfl, rfl,
        rfl⟩
  | some ps =>
      have hpos : 0 < ps.names.length := by cases ps <;> simp [Params.names]
      have hlen' : ps.names.length ≤ s.nlocals := hlen
      cases hg : ps.gathers with
      | false =>
          refine ⟨⟨c, i, s, ps.names.length, false, depth, hs, ?_, hlen', hlocals, hdisciplined⟩, rfl,
            rfl, rfl⟩
          simpa [nargsEncoded, hg] using hnargs
      | true =>
          refine ⟨⟨c, i, s, ps.names.length - 1, true, depth, hs, ?_, ?_, hlocals, hdisciplined⟩, rfl,
            rfl, rfl⟩
          · simpa [nargsEncoded, hg] using hnargs
          · simp only [Bool.toNat_true]
            omega

/-! ## Room on the stack -/

theorem x2realloc_fits (vs : ValueStack) (h : doubled vs.capacity < 2 ^ 61) :
    ∃ vs', x2realloc vs = .ok vs' ∧ vs'.cells = vs.cells ∧ vs'.capacity = doubled vs.capacity :=
  ⟨_, dif_pos h, rfl, rfl⟩

theorem x2realloc_ok {vs vs' : ValueStack} (h : x2realloc vs = .ok vs') : vs'.cells = vs.cells := by
  unfold x2realloc at h
  split at h
  · cases h
    rfl
  · cases h

theorem ensureLoop_ok {n fuel : Nat} {vs vs' : ValueStack} (h : ensureLoop n fuel vs = .ok vs') :
    vs'.cells = vs.cells ∧ n ≤ vs'.capacity - vs'.cells.length := by
  induction fuel generalizing vs with
  | zero => cases h
  | succ fuel ih =>
      rw [ensureLoop] at h
      obtain ⟨vs₁, hrealloc, h⟩ := bind_ok h
      have hcells := x2realloc_ok hrealloc
      split at h
      · obtain ⟨hcells', hroom⟩ := ih h
        exact ⟨hcells'.trans hcells, hroom⟩
      · cases h
        exact ⟨hcells, by omega⟩

theorem ensureLoop_fits {n fuel : Nat} {vs : ValueStack}
    (hcap : vs.capacity < vs.cells.length + n) (hmem : vs.cells.length + n ≤ 2 ^ 60)
    (hfuel : vs.cells.length + n ≤ doubled vs.capacity * 2 ^ fuel) :
    ∃ vs', ensureLoop n (fuel + 1) vs = .ok vs' := by
  induction fuel generalizing vs with
  | zero =>
      obtain ⟨vs₁, hrealloc, hcells, hcap₁⟩ := x2realloc_fits vs (by unfold doubled; split <;> omega)
      refine ⟨vs₁, ?_⟩
      rw [ensureLoop, hrealloc]
      simp only [bind, Except.bind]
      rw [if_neg (by rw [hcells, hcap₁]; omega)]
  | succ fuel ih =>
      obtain ⟨vs₁, hrealloc, hcells, hcap₁⟩ := x2realloc_fits vs (by unfold doubled; split <;> omega)
      rw [ensureLoop, hrealloc]
      simp only [bind, Except.bind]
      split
      · rename_i hless
        have hpos : doubled vs.capacity ≠ 0 := by unfold doubled; split <;> omega
        have hdouble : doubled vs₁.capacity = doubled vs.capacity * 2 := by
          rw [doubled, hcap₁, if_neg hpos]
        refine ih (by omega) (by rwa [hcells]) ?_
        rw [hcells, hdouble, Nat.mul_assoc, ← Nat.pow_succ']
        exact hfuel
      · exact ⟨vs₁, rfl⟩

/-- `value_stack_ensure` leaves the values alone and makes room. -/
theorem valueStackEnsure_ok {n : Nat} {vs vs' : ValueStack} (h : valueStackEnsure vs n = .ok vs') :
    vs'.cells = vs.cells ∧ n ≤ vs'.capacity - vs'.cells.length := by
  unfold valueStackEnsure at h
  split at h
  · cases h
    exact ⟨rfl, ‹_›⟩
  · exact ensureLoop_ok h

theorem valueStackEnsure_fits {n : Nat} {vs : ValueStack} (hmem : vs.cells.length + n ≤ 2 ^ 60) :
    ∃ vs', valueStackEnsure vs n = .ok vs' := by
  unfold valueStackEnsure
  split
  · exact ⟨vs, rfl⟩
  · refine ensureLoop_fits (by omega) hmem (Nat.le_trans hmem ?_)
    have hpos : 1 ≤ doubled vs.capacity := by unfold doubled; split <;> omega
    calc 2 ^ 60 ≤ 1 * 2 ^ 61 := by decide
      _ ≤ doubled vs.capacity * 2 ^ 61 := Nat.mul_le_mul_right _ hpos

/-- Making room succeeds when memory suffices, and where what it is part of has succeeded. -/
theorem ensured {α : Type} {n : Nat} (vs : ValueStack) {k : ValueStack → Except VmError α}
    (h : vs.cells.length + n ≤ 2 ^ 60 ∨ ∃ a, (valueStackEnsure vs n >>= k) = .ok a) :
    ∃ vs', valueStackEnsure vs n = .ok vs' ∧ vs'.cells = vs.cells ∧ n < 2 ^ 61 := by
  obtain ⟨vs', hvs'⟩ : ∃ vs', valueStackEnsure vs n = .ok vs' := by
    obtain hmem | ⟨a, ha⟩ := h
    · exact valueStackEnsure_fits hmem
    · obtain ⟨vs', hvs', -⟩ := bind_ok ha
      exact ⟨vs', hvs'⟩
  obtain ⟨hcells, hroom⟩ := valueStackEnsure_ok hvs'
  have hcapacity := vs'.capacity_lt
  exact ⟨vs', hvs', hcells, by omega⟩

/-! ## The arguments -/

section

variable {s : VmState} {below args all : List Value} {callee : Value} {tail : Option Nat} {f : Func}

/-- The values that are passed: the explicit ones, then the elements of a scatter list. -/
def allArgs (s : VmState) (args : List Value) : Option Nat → List Value
  | none => args
  | some id => args ++ (s.heap.lists[id]?).getD []

/-- The stack in front of an `OP_CALL`. -/
structure Calling (s : VmState) (below : List Value) (callee : Value) (args : List Value)
    (tail : Option Nat) : Prop where
  cells : s.vs.cells = below ++ callee :: (args ++ (tail.map Value.list).toList)

/-- The operand `c` of the `OP_CALL`: a list to scatter counts as one argument. -/
def nargsOperand (args : List Value) (tail : Option Nat) : Nat := args.length + tail.toList.length

/-- The expansion of the scatter list. -/
theorem doCallArgs_spec (hs : Calling s below callee args tail) (hargs : args.length < 2 ^ 61)
    (h : below.length + (allArgs s args tail).length + 1 ≤ 2 ^ 60 ∨
      ∃ a, doCallArgs s tail.isSome (nargsOperand args tail) = .ok a) :
    ∃ vs, doCallArgs s tail.isSome (nargsOperand args tail) =
        .ok ((allArgs s args tail).length, { s with vs := vs }) ∧
      vs.cells = below ++ callee :: allArgs s args tail := by
  cases tail with
  | none =>
      exact ⟨s.vs, rfl, by simpa [allArgs] using hs.cells⟩
  | some id =>
      obtain ⟨elems, helems⟩ : ∃ elems, elems = (s.heap.lists[id]?).getD [] := ⟨_, rfl⟩
      have hcells : s.vs.cells = (below ++ callee :: args) ++ [.list id] := by
        simpa using hs.cells
      have hall : allArgs s args (some id) = args ++ elems := by rw [helems]; rfl
      have hscatter : doCallScatter s = (do
          let vs ← valueStackEnsure { s.vs with cells := below ++ callee :: args } elems.length
          pure (elems.length, { s with vs := { vs with cells := vs.cells ++ elems } })) := by
        rw [doCallScatter, hcells, List.getLast?_concat, List.dropLast_concat, helems]
        simp only [VmState.ensure, VmState.setCells, bind_assoc, pure_bind]
      have hrun : doCallArgs s true (args.length + 1) = (do
          let vs ← valueStackEnsure { s.vs with cells := below ++ callee :: args } elems.length
          pure ((args.length + 1 + (elems.length + (2 ^ 64 - 1)) % 2 ^ 64) % 2 ^ 64,
            { s with vs := { vs with cells := vs.cells ++ elems } })) := by
        rw [doCallArgs, if_pos rfl, hscatter]
        simp only [bind_assoc, pure_bind]
      rw [hall] at h ⊢
      rw [List.length_append] at h
      simp only [Option.isSome_some, nargsOperand, Option.toList_some, List.length_singleton] at h ⊢
      rw [hrun] at h ⊢
      obtain ⟨vs, hensure, hvs, hlt⟩ := ensured
        { s.vs with cells := below ++ callee :: args } (h.imp_left fun h => by
          simp only [List.length_append, List.length_cons]
          omega)
      rw [hensure]
      have hnargs : (args.length + 1 + (elems.length + (2 ^ 64 - 1)) % 2 ^ 64) % 2 ^ 64 =
          args.length + elems.length := by omega
      refine ⟨{ vs with cells := vs.cells ++ elems }, ?_, ?_⟩
      · simp only [bind, Except.bind, hnargs, List.length_append]
        rfl
      · simp [hvs]

/-! ## Binding the parameters -/

/-- The number of arguments is one the function accepts. -/
def Func.Fits (f : Func) (n : Nat) : Prop :=
  if f.gathers then f.nparams ≤ n else n = f.nparams

instance (f : Func) (n : Nat) : Decidable (f.Fits n) := by
  unfold Func.Fits
  infer_instance

/-- The error message for any other number. -/
def arityText (f : Func) (n : Nat) : String :=
  (if f.gathers then "wrong number of arguments: expected at least "
    else "wrong number of arguments: expected ") ++ toString f.nparams ++ ", got " ++ toString n

/-- What the parameters are bound to, the gathering one to the next list of the heap. -/
def bound (f : Func) (heap : Heap) (all : List Value) : List Value :=
  if f.gathers then all.take f.nparams ++ [.list heap.lists.length] else all

/-- The heap with the gather list. -/
def boundHeap (f : Func) (heap : Heap) (all : List Value) : Heap :=
  if f.gathers then ⟨heap.lists ++ [all.drop f.nparams]⟩ else heap

theorem length_bound {heap : Heap} (h : f.Fits all.length) :
    (bound f heap all).length = f.nparams + f.gathers.toNat := by
  unfold Func.Fits at h
  unfold bound
  split at h <;> simp_all

theorem nparams_lt (f : Func) : f.nparams < 2147483648 := by
  have h := f.nparams_le
  have h' := f.nlocals_le
  simp only [uint32Max] at h'
  omega

/-- The sign of `nargs_encoded` tells whether there is a gathering parameter. -/
theorem nargsEncoded_sign (f : Func) : 0 ≤ toInt32 f.shape.nargsEncoded ↔ f.gathers = false := by
  have hlt := nparams_lt f
  have hle := f.nparams_le
  have hle' := f.nlocals_le
  rw [f.nargs_eq]
  simp only [uint32Max] at hle'
  unfold toInt32 complement32 uint32Max
  cases hg : f.gathers
  · simp only [Bool.false_eq_true, if_false, if_pos hlt, iff_true]
    omega
  · simp only [hg, Bool.toNat_true] at hle
    rw [if_pos rfl, if_neg (by omega)]
    simp only [Bool.true_eq_false, iff_false]
    omega

theorem complement_nargsEncoded (f : Func) (h : f.gathers = true) :
    complement32 f.shape.nargsEncoded = f.nparams := by
  have hlt := nparams_lt f
  rw [f.nargs_eq, if_pos h]
  unfold complement32 uint32Max
  omega

theorem doCallCoerce_unfit {n : Nat} (h : ¬ f.Fits n) :
    doCallCoerce s f.shape.nargsEncoded n = .error (.thrown (arityText f n)) := by
  unfold doCallCoerce
  unfold Func.Fits at h
  cases hg : f.gathers
  · rw [hg] at h
    have hn : f.shape.nargsEncoded = f.nparams := by rw [f.nargs_eq, hg]; rfl
    rw [if_pos ((nargsEncoded_sign f).mpr hg), hn, if_pos (by simpa using h), arityText, hg]
    rfl
  · rw [hg] at h
    have hneg : ¬ 0 ≤ toInt32 f.shape.nargsEncoded := fun hle => by
      simp [hg, nargsEncoded_sign] at hle
    rw [if_neg hneg, complement_nargsEncoded f hg, if_pos (by simpa using h), arityText, hg]
    rfl

theorem gatherRoom_spec {α : Type} {n : Nat} {k : VmState → Except VmError α}
    (h : s.vs.cells.length + 1 ≤ 2 ^ 60 ∨ ∃ a, (gatherRoom s n >>= k) = .ok a) :
    ∃ vs, gatherRoom s n = .ok { s with vs := vs } ∧ vs.cells = s.vs.cells := by
  unfold gatherRoom at h ⊢
  split at h
  · rw [if_pos ‹_›]
    simp only [VmState.ensure, bind_assoc] at h
    obtain ⟨vs, hvs, hcells, -⟩ := ensured _ h
    refine ⟨vs, ?_, hcells⟩
    rw [VmState.ensure, hvs]
    rfl
  · rw [if_neg ‹_›]
    exact ⟨s.vs, rfl, rfl⟩

theorem doCallGather_spec {α : Type} {pre : List Value} {n : Nat} {k : VmState → Except VmError α}
    (hcells : s.vs.cells = pre ++ all) (hn : n ≤ all.length)
    (h : pre.length + all.length + 1 ≤ 2 ^ 60 ∨ ∃ a, (doCallGather s (all.length - n) >>= k) = .ok a) :
    ∃ vs, doCallGather s (all.length - n) =
        .ok { s with vs := vs, heap := ⟨s.heap.lists ++ [all.drop n]⟩ } ∧
      vs.cells = pre ++ (all.take n ++ [.list s.heap.lists.length]) := by
  simp only [doCallGather, bind_assoc] at h
  obtain ⟨vs, hroom, hvs⟩ := gatherRoom_spec (s := s) (h.imp_left fun h => by
    rw [hcells, List.length_append]
    exact h)
  have hbelow : pre.length + all.length - (all.length - n) = pre.length + n := by omega
  refine ⟨{ vs with cells := pre ++ (all.take n ++ [.list s.heap.lists.length]) }, ?_, rfl⟩
  rw [doCallGather, hroom]
  simp only [bind, Except.bind, VmState.setCells, hvs, hcells, List.length_append, hbelow,
    List.take_length_add_append, List.drop_length_add_append, List.append_assoc]
  rfl

theorem doCallCoerce_spec {pre : List Value} (hcells : s.vs.cells = pre ++ all)
    (hfits : f.Fits all.length)
    (h : pre.length + all.length + 1 ≤ 2 ^ 60 ∨
      ∃ a, doCallCoerce s f.shape.nargsEncoded all.length = .ok a) :
    ∃ vs, doCallCoerce s f.shape.nargsEncoded all.length =
        .ok ((bound f s.heap all).length, { s with vs := vs, heap := boundHeap f s.heap all }) ∧
      vs.cells = pre ++ bound f s.heap all := by
  have hlen : (bound f s.heap all).length = _ := length_bound hfits
  unfold Func.Fits at hfits
  unfold doCallCoerce at h ⊢
  cases hg : f.gathers
  · have hn : f.shape.nargsEncoded = f.nparams := by rw [f.nargs_eq, hg]; rfl
    rw [hg] at hfits hlen
    rw [if_pos ((nargsEncoded_sign f).mpr hg), hn, if_neg (not_not_intro (by simpa using hfits))]
    refine ⟨s.vs, ?_, ?_⟩
    · simp [bound, boundHeap, hg]
    · simp [bound, hg, hcells]
  · have hneg : ¬ 0 ≤ toInt32 f.shape.nargsEncoded := fun hle => by
      simp [hg, nargsEncoded_sign] at hle
    rw [hg] at hfits hlen
    simp only [if_true] at hfits
    rw [if_neg hneg, complement_nargsEncoded f hg] at h ⊢
    simp only [if_neg (Nat.not_lt.mpr hfits)] at h ⊢
    obtain ⟨vs, hgather, hvs⟩ := doCallGather_spec hcells hfits h
    refine ⟨vs, ?_, ?_⟩
    · rw [hgather, hlen, boundHeap, if_pos hg]
      rfl
    · rw [hvs, bound, if_pos hg]

/-! ## The call -/

/-- The locals of the function when it is entered. -/
def frameCells (f : Func) (heap : Heap) (all : List Value) : List Value :=
  bound f heap all ++ List.replicate (f.shape.nlocals - (bound f heap all).length) .nil

theorem length_frameCells {heap : Heap} (h : f.Fits all.length) :
    (frameCells f heap all).length = f.shape.nlocals := by
  have hle := f.nparams_le
  rw [frameCells, List.length_append, List.length_replicate, length_bound h]
  omega

/-- The state at the first instruction of a function, but one; `offset` is what the call site
records of the caller's locals. -/
def entered (s : VmState) (f : Func) (vs : ValueStack) (below all : List Value) (offset : Int) :
    VmState :=
  { vs := { vs with cells := below ++ .func f :: frameCells f s.heap all }
    cs := ⟨some s.ip, f, s.consts, offset⟩ :: s.cs
    ip := f.ip
    locals := vs.base + (below.length + 1 : Nat)
    consts := f.chunk.consts
    heap := boundHeap f s.heap all }

theorem doCallFunc_spec (hcells : s.vs.cells = below ++ .func f :: all) (hfits : f.Fits all.length)
    (h : below.length + all.length + f.shape.nlocals + f.shape.maxstack + 2 ≤ 2 ^ 60 ∨
      ∃ a, doCallFunc s f all.length = .ok a) :
    ∃ vs₁ vs₂, doCallCoerce s f.shape.nargsEncoded all.length =
        .ok ((bound f s.heap all).length, { s with vs := vs₁, heap := boundHeap f s.heap all }) ∧
      doCallFunc s f all.length = .ok (entered s f vs₂ below all (s.locals - vs₁.base)) := by
  have hcells' : s.vs.cells = (below ++ [.func f]) ++ all := by simpa using hcells
  have hlen : (bound f s.heap all).length = _ := length_bound hfits
  have hle := f.nparams_le
  have hle' := f.nlocals_le
  simp only [uint32Max] at hle'
  obtain ⟨vs₁, hcoerce, hvs₁⟩ := doCallCoerce_spec hcells' hfits (by
    rcases h with h | ⟨a, ha⟩
    · left
      rw [List.length_append, List.length_singleton]
      omega
    · obtain ⟨b, hb, -⟩ := bind_ok ha
      exact Or.inr ⟨b, hb⟩)
  have hnvars : toUint32 ((f.shape.nlocals : Int) - (bound f s.heap all).length) =
      f.shape.nlocals - (bound f s.heap all).length := by
    unfold toUint32
    omega
  have hrun : doCallFunc s f all.length = (do
      let vs ← valueStackEnsure vs₁
        (f.shape.maxstack + (f.shape.nlocals - (bound f s.heap all).length))
      pure (entered s f vs below all (s.locals - vs₁.base))) := by
    rw [doCallFunc, hcoerce]
    simp only [bind, Except.bind, pure, Except.pure, VmState.ensure, VmState.setCells, hnvars]
    cases hensure : valueStackEnsure vs₁
      (f.shape.maxstack + (f.shape.nlocals - (bound f s.heap all).length)) with
    | error e => rfl
    | ok vs =>
        have hvs : vs.cells ++ List.replicate (f.shape.nlocals - (bound f s.heap all).length) .nil =
            below ++ .func f :: frameCells f s.heap all := by
          rw [(valueStackEnsure_ok hensure).1, hvs₁, frameCells]
          simp
        have hlocals : vs.base + ((below ++ Value.func f :: frameCells f s.heap all).length : Int) -
            f.shape.nlocals = vs.base + (below.length + 1 : Nat) := by
          rw [List.length_append, List.length_cons, length_frameCells hfits]
          omega
        simp only [hvs, hlocals]
        rfl
  rw [hrun] at h ⊢
  obtain ⟨vs₂, hensure, -⟩ := ensured _ (h.imp_left fun h => by
    rw [hvs₁]
    simp only [List.length_append, List.length_singleton]
    omega)
  exact ⟨vs₁, vs₂, hcoerce, by rw [hensure]; rfl⟩

variable {natives : Natives}

/-- `do_call` up to the choice by the kind of the callee. -/
theorem doCall_eq (hs : Calling s below callee args tail) (hargs : args.length < 2 ^ 61)
    (h : below.length + (allArgs s args tail).length + 1 ≤ 2 ^ 60 ∨
      ∃ a, doCallArgs s tail.isSome (nargsOperand args tail) = .ok a) (natives : Natives) :
    ∃ vs, doCallArgs s tail.isSome (nargsOperand args tail) =
        .ok ((allArgs s args tail).length, { s with vs := vs }) ∧
      vs.cells = below ++ callee :: allArgs s args tail ∧
      doCall natives s tail.isSome (nargsOperand args tail) =
        doCallValue natives { s with vs := vs } (allArgs s args tail).length callee := by
  obtain ⟨vs, hrun, hvs⟩ := doCallArgs_spec hs hargs h
  refine ⟨vs, hrun, hvs, ?_⟩
  have hlen : vs.cells.length = below.length + ((allArgs s args tail).length + 1) := by
    rw [hvs, List.length_append, List.length_cons]
  have hcallee : vs.cells[vs.cells.length - (allArgs s args tail).length - 1]? = some callee := by
    rw [hlen, hvs, show below.length + ((allArgs s args tail).length + 1) -
      (allArgs s args tail).length - 1 = below.length by omega]
    simp
  rw [doCall, hrun]
  simp only [bind, Except.bind]
  rw [if_neg (by omega), hcallee]

theorem doCallNative_spec {id : Nat} (hcells : s.vs.cells = below ++ .cfunc id :: all)
    (natives : Natives) :
    doCallNative natives s id all.length =
      nativeReturn s below.length (natives id s.heap (all.take (toUint32 all.length))) := by
  have hlen : s.vs.cells.length - all.length = below.length + 1 := by
    rw [hcells, List.length_append, List.length_cons]
    omega
  have hdrop : s.vs.cells.drop (below.length + 1) = all := by
    rw [hcells, List.drop_length_add_append]
    rfl
  rw [doCallNative]
  simp only [hlen, hdrop, Nat.add_sub_cancel]

/-! ## What the callee sees -/

/-- What holds when the bytecode function `f` is entered with the arguments `all`. -/
structure Entered (s s' : VmState) (f : Func) (below all : List Value) : Prop where
  params : ∀ i < f.nparams, s'.local? i = all[i]?
  gathered : f.gathers = true → ∃ id, s.heap.lists[id]? = none ∧
    s'.local? f.nparams = some (.list id) ∧ s'.heap.lists[id]? = some (all.drop f.nparams)
  others : ∀ i, f.nparams + f.gathers.toNat ≤ i → i < f.shape.nlocals → s'.local? i = some .nil
  /-- The callee lies below its locals, and what the caller had lies below the callee. -/
  cells : ∃ locals, s'.vs.cells = below ++ .func f :: locals ∧ locals.length = f.shape.nlocals
  locals : s'.locals = s'.vs.base + (below.length + 1 : Nat)
  callee : s'.cs.head?.map CallSite.callee = some f
  heap : ∀ (id : Nat) (list : List Value), s.heap.lists[id]? = some list → s'.heap.lists[id]? = some list

/-- The call of `f` with all of the arguments either fails with the error about their number or
enters the function. -/
def FuncCalled (natives : Natives) (s : VmState) (f : Func) (below args : List Value)
    (tail : Option Nat) : Prop :=
  (f.Fits (allArgs s args tail).length →
      ∃ s', doCall natives s tail.isSome (nargsOperand args tail) = .ok s' ∧
        Entered s s' f below (allArgs s args tail)) ∧
    (¬ f.Fits (allArgs s args tail).length →
      doCall natives s tail.isSome (nargsOperand args tail) =
        .error (.thrown (arityText f (allArgs s args tail).length)))

/-- The native function sees all of the arguments, and its result replaces them and the callee. -/
def NativeCalled (natives : Natives) (s : VmState) (id : Nat) (below args : List Value)
    (tail : Option Nat) : Prop :=
  (∀ text, natives id s.heap (allArgs s args tail) = .error text →
      doCall natives s tail.isSome (nargsOperand args tail) = .error (.thrown text)) ∧
    ∀ r heap, natives id s.heap (allArgs s args tail) = .ok (r, heap) →
      ∃ s', doCall natives s tail.isSome (nargsOperand args tail) = .ok s' ∧
        s'.vs.cells = below ++ [r] ∧ s'.heap = heap

theorem entered_local (vs : ValueStack) (offset : Int) (i : Nat) :
    (entered s f vs below all offset).local? i = (frameCells f s.heap all)[i]? := by
  have hle : vs.base ≤ vs.base + (below.length + 1 : Nat) := by omega
  have hindex : (vs.base + (below.length + 1 : Nat) - vs.base).toNat + i = below.length + (i + 1) := by
    omega
  simp only [VmState.local?, entered, if_pos hle, hindex]
  rw [List.getElem?_append_right (by omega), show below.length + (i + 1) - below.length = i + 1 by
    omega, List.getElem?_cons_succ]

theorem entered_spec (vs : ValueStack) (offset : Int) (hfits : f.Fits all.length) :
    Entered s (entered s f vs below all offset) f below all := by
  have hlen : (bound f s.heap all).length = _ := length_bound hfits
  have hle := f.nparams_le
  unfold Func.Fits at hfits
  refine ⟨fun i hi => ?_, fun hg => ⟨s.heap.lists.length, by simp, ?_, ?_⟩, fun i hi hi' => ?_,
    ⟨_, rfl, ?_⟩, rfl, rfl, fun id list hid => ?_⟩
  · rw [entered_local, frameCells, List.getElem?_append_left (by omega), bound]
    split
    · rename_i hg
      rw [if_pos hg] at hfits
      rw [List.getElem?_append_left (by rw [List.length_take]; omega), List.getElem?_take_of_lt hi]
    · rfl
  · rw [if_pos hg] at hfits
    have htake : (all.take f.nparams).length = f.nparams := by rw [List.length_take]; omega
    rw [entered_local, frameCells, List.getElem?_append_left (by rw [hlen, hg]; exact Nat.lt_succ_self _),
      bound, if_pos hg, List.getElem?_append_right (by omega), htake, Nat.sub_self]
    rfl
  · simp [entered, boundHeap, hg]
  · rw [entered_local, frameCells, List.getElem?_append_right (by omega), List.getElem?_replicate,
      if_pos (by omega)]
  · exact length_frameCells hfits
  · simp only [entered, boundHeap]
    split
    · rw [List.getElem?_append_left (List.getElem?_eq_some_iff.mp hid).1]
      exact hid
    · exact hid

/-- What a call needs on the stack besides the values of the caller. -/
def frameSize : Value → Nat
  | .func f => f.shape.nlocals + f.shape.maxstack + 1
  | _ => 0

theorem funcCalled (hs : Calling s below (.func f) args tail)
    (hmem : below.length + (allArgs s args tail).length + frameSize (.func f) + 1 ≤ 2 ^ 60)
    (natives : Natives) : FuncCalled natives s f below args tail := by
  have hargs : args.length ≤ (allArgs s args tail).length := by
    cases tail <;> simp [allArgs]
  obtain ⟨vs, -, hvs, hcall⟩ := doCall_eq hs (by omega) (Or.inl (by omega)) natives
  rw [FuncCalled, hcall]
  constructor
  · intro hfits
    simp only [frameSize] at hmem
    obtain ⟨vs₁, vs₂, -, hrun⟩ := doCallFunc_spec (s := { s with vs := vs }) hvs hfits
      (Or.inl (by omega))
    exact ⟨_, hrun, entered_spec vs₂ _ hfits⟩
  · intro hfits
    rw [doCallValue, doCallFunc, doCallCoerce_unfit hfits]
    rfl

/-- Up to 2^32 arguments a native function sees as they are. -/
theorem nativeCalled_iff {id : Nat} (hs : Calling s below (.cfunc id) args tail)
    (hmem : below.length + (allArgs s args tail).length + 1 ≤ 2 ^ 60) :
    (∀ natives, NativeCalled natives s id below args tail) ↔
      (allArgs s args tail).length < 2 ^ 32 := by
  have hargs : args.length ≤ (allArgs s args tail).length := by
    cases tail <;> simp [allArgs]
  have hcall : ∀ natives : Natives, ∃ vs, vs.cells = below ++ .cfunc id :: allArgs s args tail ∧
      doCall natives s tail.isSome (nargsOperand args tail) =
        nativeReturn { s with vs := vs } below.length (natives id s.heap
          ((allArgs s args tail).take (toUint32 (allArgs s args tail).length))) := fun natives => by
    obtain ⟨vs, -, hvs, hcall⟩ := doCall_eq hs (by omega) (Or.inl (by omega)) natives
    exact ⟨vs, hvs, by rw [hcall, doCallValue, doCallNative_spec (s := { s with vs := vs }) hvs]⟩
  constructor
  · intro h
    -- A native function that looks at the number of its arguments.
    obtain ⟨natives, hnatives⟩ : ∃ natives : Natives, ∀ id heap args, natives id heap args =
        .ok (.flag (decide (args.length < 2 ^ 32)), heap) := ⟨_, fun _ _ _ => rfl⟩
    obtain ⟨vs, hvs, hrun⟩ := hcall natives
    obtain ⟨s', hrun', hcells, -⟩ := (h natives).2 _ _ (hnatives _ _ _)
    rw [hrun, hnatives] at hrun'
    obtain rfl := Except.ok.inj hrun'
    have hflag := List.append_inj_right' hcells rfl
    rw [List.cons_eq_cons, Value.flag.injEq, decide_eq_decide] at hflag
    refine hflag.1.mp ?_
    rw [List.length_take]
    unfold toUint32
    omega
  · intro hlt natives
    obtain ⟨vs, hvs, hrun⟩ := hcall natives
    have htake : (allArgs s args tail).take (toUint32 (allArgs s args tail).length) =
        allArgs s args tail := by
      refine List.take_of_length_le ?_
      unfold toUint32
      omega
    rw [htake] at hrun
    rw [NativeCalled, hrun]
    refine ⟨fun text htext => by rw [htext]; rfl, fun r heap hr => ⟨_, by rw [hr]; rfl, ?_, rfl⟩⟩
    simp [VmState.setCells, hvs]

/-- A value that can be called. -/
inductive Callee
  | func (f : Func)
  | cfunc (id : Nat)

/-- The callee on the stack. -/
def Callee.value : Callee → Value
  | .func f => .func f
  | .cfunc id => .cfunc id

/-- The call does with the arguments what it is written to do. -/
def Called (natives : Natives) (s : VmState) (below args : List Value) (tail : Option Nat) :
    Callee → Prop
  | .func f => FuncCalled natives s f below args tail
  | .cfunc id => NativeCalled natives s id below args tail

/-- Calls bind the arguments as written but where a native function is given 2^32 or more. -/
theorem call_binds_iff (callee : Callee) (hs : Calling s below callee.value args tail)
    (hmem : below.length + (allArgs s args tail).length + frameSize callee.value + 1 ≤ 2 ^ 60) :
    (∀ natives, Called natives s below args tail callee) ↔
      ∀ id, callee = .cfunc id → (allArgs s args tail).length < 2 ^ 32 := by
  cases callee with
  | func f =>
      refine iff_of_true (fun natives => funcCalled hs hmem natives) fun id hid => ?_
      cases hid
  | cfunc id =>
      rw [show (∀ natives, Called natives s below args tail (.cfunc id)) ↔
        ∀ natives, NativeCalled natives s id below args tail from Iff.rfl, nativeCalled_iff hs hmem]
      exact ⟨fun h _ _ => h, fun h => h id rfl⟩

end

/-- A native function is about to be called with the elements of a list of `n` nils. -/
def scatterNils (n : Nat) : VmState where
  vs := ⟨0, [.cfunc 0, .list 0], 2, fun _ => 0, by decide⟩
  cs := []
  ip := 0
  locals := 0
  consts := []
  heap := ⟨[List.replicate n .nil]⟩

theorem scatterNils_calling (n : Nat) :
    Calling (scatterNils n) [] (Callee.cfunc 0).value [] (some 0) := ⟨rfl⟩

theorem length_allArgs_scatterNils (n : Nat) :
    (allArgs (scatterNils n) [] (some 0)).length = n := by
  simp [allArgs, scatterNils]

open Instr in
/-- A function with a gathering parameter that returns its first argument. -/
theorem exists_gathering : ∃ g : Func, g.shape = ⟨4294967294, 2, 5, 1⟩ ∧ g.ip = 1 ∧
    g.chunk.code = [opFunction 0, opFunction 1, opLoadLocal 0, .opReturn, opLoadConst 0, .opReturn,
      opStoreGlobal 0, opLoadConst 1, .opReturn] := by
  obtain ⟨c, g, hp, hs, hcode⟩ : ∃ c g,
      @parse deciBase64 [] (bytesOf "fun g(x,*y){return x}") "" = .ok (c, g) ∧
        c.shapeAt 1 = some ⟨4294967294, 2, 5, 1⟩ ∧ c.code = [opFunction 0, opFunction 1,
          opLoadLocal 0, .opReturn, opLoadConst 0, .opReturn, opStoreGlobal 0, opLoadConst 1,
          .opReturn] := ⟨_, _, rfl, rfl, rfl⟩
  obtain ⟨f, rfl, hip, hshape⟩ := @exists_func deciBase64 _ _ _ _ _ hp _ _ hs (by decide)
  exact ⟨f, hshape, hip, hcode⟩

/-- A function is about to be called with the elements of a list of three nils. -/
def scatterTo (f : Func) : VmState :=
  { scatterNils 3 with vs := ⟨0, [.func f, .list 0], 2, fun _ => 0, by decide⟩ }

/-- `call_binds_iff` for a native function, and for one with a gathering parameter. -/
theorem call_binds_iff_three : (allArgs (scatterNils 3) [] (some 0)).length = 3 ∧
    (∀ natives, Called natives (scatterNils 3) [] [] (some 0) (.cfunc 0)) ∧
    ∃ g : Func, g.gathers = true ∧ g.Fits (allArgs (scatterTo g) [] (some 0)).length ∧
      ∀ natives, Called natives (scatterTo g) [] [] (some 0) (.func g) := by
  refine ⟨rfl, (call_binds_iff (.cfunc 0) (scatterNils_calling 3) (by decide)).mpr
    fun _ _ => by decide, ?_⟩
  obtain ⟨g, hshape, -, -⟩ := exists_gathering
  have hgathers : g.gathers = true := by
    rw [← Bool.not_eq_false, ← nargsEncoded_sign, hshape]
    decide
  have hparams : g.nparams = 1 := by
    rw [← complement_nargsEncoded g hgathers, hshape]
    rfl
  have hcalling : Calling (scatterTo g) [] (Callee.func g).value [] (some 0) := ⟨rfl⟩
  have hlen : (allArgs (scatterTo g) [] (some 0)).length = 3 := rfl
  refine ⟨g, hgathers, ?_, (call_binds_iff (.func g) hcalling ?_).mpr fun id hid => ?_⟩
  · rw [Func.Fits, if_pos hgathers, hparams, hlen]
    decide
  · rw [hlen, Callee.value, frameSize, hshape]
    decide
  · cases hid

/-- A native function sees none of 2^32 arguments. -/
theorem call_drops_arguments :
    ¬ ∀ natives, Called natives (scatterNils (2 ^ 32)) [] [] (some 0) (.cfunc 0) := by
  intro h
  have hlen := length_allArgs_scatterNils (2 ^ 32)
  have hlt := (nativeCalled_iff (scatterNils_calling (2 ^ 32)) (by rw [hlen]; decide)).mp h
  rw [hlen] at hlt
  exact Nat.lt_irrefl _ hlt

end Calx
