import Mathlib.Logic.Function.Basic

/-!
# Weak references

`wref.h` on a heap: the weak references to a list or a dict form a doubly linked
list that starts at the target's `wref_first`. Destroying a target clears the
`target` pointers and leaves the references linked to each other.

## Implementation notes

A heap maps the addresses in use to what is stored there; an access through any
other address is the fault `dangling`. `malloc` may return any address that is
not in use, also one that has been freed. Of a list or a dict only `wref_first`
is kept. `list_destroy` and `dict_destroy` release the elements between
`wrefable_invalidate` and `free`; whatever that destroys is a step of its own, so
that they are the two steps `destroy` and `free`.
-/

namespace Calx

/-- What an access to the heap can run into. -/
inductive WrefFault
  | dangling
  /-- The loop of `wrefable_invalidate` has been run as often as the fuel allows. -/
  | exhausted
deriving DecidableEq

/-- `WeakRef`. -/
structure WeakRef (Addr : Type) where
  target : Option Addr
  next : Option Addr
  prev : Option Addr

/-- The weak references, and `wref_first` of the lists and dicts. -/
structure WrefHeap (Addr : Type) where
  wrefs : Addr → Option (WeakRef Addr)
  firsts : Addr → Option (Option Addr)

variable {Addr : Type}

namespace WrefHeap

/-- `*w`. -/
def wref (h : WrefHeap Addr) (w : Addr) : Except WrefFault (WeakRef Addr) :=
  match h.wrefs w with
  | some r => .ok r
  | none => .error .dangling

/-- `x->wref_first`. -/
def first (h : WrefHeap Addr) (x : Addr) : Except WrefFault (Option Addr) :=
  match h.firsts x with
  | some first => .ok first
  | none => .error .dangling

variable [DecidableEq Addr]

/-- Assigning a field of `*w`. -/
def modify (h : WrefHeap Addr) (w : Addr) (f : WeakRef Addr → WeakRef Addr) :
    Except WrefFault (WrefHeap Addr) := do
  let r ← h.wref w
  pure { h with wrefs := Function.update h.wrefs w (some (f r)) }

/-- `x->wref_first = first`. -/
def setFirst (h : WrefHeap Addr) (x : Addr) (first : Option Addr) :
    Except WrefFault (WrefHeap Addr) := do
  let _ ← h.first x
  pure { h with firsts := Function.update h.firsts x (some first) }

end WrefHeap

variable [DecidableEq Addr]

/-- The loop of `wrefable_invalidate`. -/
def invalidateFrom : Nat → WrefHeap Addr → Option Addr → Except WrefFault (WrefHeap Addr)
  | _, h, none => .ok h
  | 0, _, some _ => .error .exhausted
  | fuel + 1, h, some w => do
      let h ← h.modify w fun r => { r with target := none }
      let r ← h.wref w
      invalidateFrom fuel h r.next

/-- `wrefable_invalidate`. -/
def wrefableInvalidate (fuel : Nat) (h : WrefHeap Addr) (x : Addr) :
    Except WrefFault (WrefHeap Addr) := do
  let first ← h.first x
  invalidateFrom fuel h first

/-- `if (old_first) old_first->prev = w`. -/
def linkBack (h : WrefHeap Addr) (oldFirst : Option Addr) (w : Addr) :
    Except WrefFault (WrefHeap Addr) :=
  match oldFirst with
  | some f => h.modify f fun r => { r with prev := some w }
  | none => .ok h

/-- `wref_new`; `w` is the address that `malloc` returns. -/
def wrefNew (h : WrefHeap Addr) (w target : Addr) : Except WrefFault (WrefHeap Addr) := do
  let oldFirst ← h.first target
  let node : WeakRef Addr := { target := some target, next := oldFirst, prev := none }
  let h ← linkBack { h with wrefs := Function.update h.wrefs w (some node) } oldFirst w
  h.setFirst target (some w)

/-- What `wref_destroy` does with the link to `*w`. -/
def skipForward (h : WrefHeap Addr) (r : WeakRef Addr) : Except WrefFault (WrefHeap Addr) :=
  match r.prev with
  | some p => h.modify p fun q => { q with next := r.next }
  | none =>
      match r.target with
      | some target => h.setFirst target r.next
      | none => .ok h

/-- `if (next) next->prev = prev`. -/
def skipBackward (h : WrefHeap Addr) (r : WeakRef Addr) : Except WrefFault (WrefHeap Addr) :=
  match r.next with
  | some n => h.modify n fun q => { q with prev := r.prev }
  | none => .ok h

/-- `wref_destroy`. -/
def wrefDestroy (h : WrefHeap Addr) (w : Addr) : Except WrefFault (WrefHeap Addr) := do
  let r ← h.wref w
  let h ← skipForward h r
  let h ← skipBackward h r
  let _ ← h.wref w
  pure { h with wrefs := Function.update h.wrefs w none }

/-- What happens to lists, dicts and weak references. -/
inductive WrefOp (Addr : Type)
  /-- `list_new_steal` or `dict_new`, at the address that `malloc` returns. -/
  | create (x : Addr)
  | wrefNew (w target : Addr)
  | wrefDestroy (w : Addr)
  /-- `list_destroy` or `dict_destroy` up to the release of the elements. -/
  | destroy (x : Addr)
  /-- The `free` at their end. -/
  | free (x : Addr)

/-- One step. -/
def wrefStep (fuel : Nat) (h : WrefHeap Addr) : WrefOp Addr → Except WrefFault (WrefHeap Addr)
  | .create x => .ok { h with firsts := Function.update h.firsts x (some none) }
  | .wrefNew w target => wrefNew h w target
  | .wrefDestroy w => wrefDestroy h w
  | .destroy x => wrefableInvalidate fuel h x
  | .free x => do
      let _ ← h.first x
      pure { h with firsts := Function.update h.firsts x none }

/-- The steps in turn. -/
def wrefRun (fuel : Nat) (h : WrefHeap Addr) : List (WrefOp Addr) → Except WrefFault (WrefHeap Addr)
  | [] => .ok h
  | op :: ops => do
      let h ← wrefStep fuel h op
      wrefRun fuel h ops

/-- The heap of a new process. -/
def wrefHeap₀ : WrefHeap Addr := ⟨fun _ => none, fun _ => none⟩

/-! ## Steps without faults -/

namespace WrefHeap

variable {h : WrefHeap Addr} {w x : Addr} {r : WeakRef Addr} {first : Option Addr}

omit [DecidableEq Addr] in
theorem wref_eq_ok : h.wref w = .ok r ↔ h.wrefs w = some r := by
  unfold wref
  cases h.wrefs w <;> simp

omit [DecidableEq Addr] in
theorem first_eq_ok : h.first x = .ok first ↔ h.firsts x = some first := by
  unfold WrefHeap.first
  cases h.firsts x <;> simp

theorem modify_eq (hw : h.wrefs w = some r) (f : WeakRef Addr → WeakRef Addr) :
    h.modify w f = .ok { h with wrefs := Function.update h.wrefs w (some (f r)) } := by
  rw [modify, wref_eq_ok.mpr hw]
  rfl

theorem setFirst_eq (hx : h.firsts x = some first) (v : Option Addr) :
    h.setFirst x v = .ok { h with firsts := Function.update h.firsts x (some v) } := by
  rw [setFirst, first_eq_ok.mpr hx]
  rfl

end WrefHeap

open WrefHeap

variable {h : WrefHeap Addr} {w x : Addr} {r : WeakRef Addr} {first : Option Addr}

theorem linkBack_spec (hfirst : ∀ f, first = some f → h.wrefs f ≠ none) (w : Addr) :
    ∃ h', linkBack h first w = .ok h' ∧ h'.firsts = h.firsts ∧
      ∀ b, h'.wrefs b = (h.wrefs b).map fun q =>
        { q with prev := if first = some b then some w else q.prev } := by
  cases first with
  | none => exact ⟨h, rfl, rfl, fun b => by simp⟩
  | some f =>
      obtain ⟨q, hq⟩ := Option.ne_none_iff_exists'.mp (hfirst f rfl)
      refine ⟨_, modify_eq hq _, rfl, fun b => ?_⟩
      rcases eq_or_ne b f with rfl | hne
      · simp [hq]
      · simp [hne, hne.symm]

theorem skipBackward_spec (hnext : ∀ n, r.next = some n → h.wrefs n ≠ none) :
    ∃ h', skipBackward h r = .ok h' ∧ h'.firsts = h.firsts ∧
      ∀ b, h'.wrefs b = (h.wrefs b).map fun q =>
        { q with prev := if r.next = some b then r.prev else q.prev } := by
  unfold skipBackward
  cases hn : r.next with
  | none => exact ⟨h, rfl, rfl, fun b => by simp⟩
  | some n =>
      obtain ⟨q, hq⟩ := Option.ne_none_iff_exists'.mp (hnext n hn)
      refine ⟨_, modify_eq hq _, rfl, fun b => ?_⟩
      rcases eq_or_ne b n with rfl | hne
      · simp [hq]
      · simp [hne, hne.symm]

theorem skipForward_spec (hprev : ∀ p, r.prev = some p → h.wrefs p ≠ none)
    (hfirst : r.prev = none → ∀ x, r.target = some x → h.firsts x ≠ none) :
    ∃ h', skipForward h r = .ok h' ∧
      (∀ x, h'.firsts x =
        if r.prev = none ∧ r.target = some x then some r.next else h.firsts x) ∧
      ∀ b, h'.wrefs b = (h.wrefs b).map fun q =>
        { q with next := if r.prev = some b then r.next else q.next } := by
  unfold skipForward
  cases hp : r.prev with
  | some p =>
      obtain ⟨q, hq⟩ := Option.ne_none_iff_exists'.mp (hprev p hp)
      refine ⟨_, modify_eq hq _, fun x => by simp, fun b => ?_⟩
      rcases eq_or_ne b p with rfl | hne
      · simp [hq]
      · simp [hne, hne.symm]
  | none =>
      cases ht : r.target with
      | none => exact ⟨h, rfl, fun x => by simp, fun b => by simp⟩
      | some x =>
          obtain ⟨first, hx⟩ := Option.ne_none_iff_exists'.mp (hfirst hp x ht)
          refine ⟨_, setFirst_eq hx _, fun y => ?_, fun b => by simp⟩
          rcases eq_or_ne y x with rfl | hne
          · simp
          · simp [hne, hne.symm]

/-- A new weak reference comes before the first one. -/
theorem wrefNew_spec (hx : h.firsts x = some first)
    (hfirst : ∀ f, first = some f → f ≠ w ∧ h.wrefs f ≠ none) :
    ∃ h', wrefNew h w x = .ok h' ∧
      h'.firsts = Function.update h.firsts x (some (some w)) ∧
      h'.wrefs w = some ⟨some x, first, none⟩ ∧
      ∀ b ≠ w, h'.wrefs b = (h.wrefs b).map fun q =>
        { q with prev := if first = some b then some w else q.prev } := by
  have hw : first ≠ some w := fun heq => (hfirst w heq).1 rfl
  obtain ⟨h₁, hlink, hfirsts, hwrefs⟩ := linkBack_spec (h :=
    { h with wrefs := Function.update h.wrefs w (some ⟨some x, first, none⟩) })
    (fun f (hf : first = some f) => by simpa [(hfirst f hf).1] using (hfirst f hf).2) w
  have hx₁ : h₁.firsts x = some first := by rw [hfirsts, hx]
  refine ⟨{ h₁ with firsts := Function.update h₁.firsts x (some (some w)) }, ?_, by simp [hfirsts],
    by simp [hwrefs, hw], fun b hb => by simp [hwrefs, hb]⟩
  rw [wrefNew, first_eq_ok.mpr hx]
  simp only [bind, Except.bind]
  rw [hlink]
  exact setFirst_eq hx₁ _

/-- The nodes next to a destroyed weak reference are linked to each other. -/
theorem wrefDestroy_spec (hw : h.wrefs w = some r)
    (hprev : ∀ p, r.prev = some p → h.wrefs p ≠ none)
    (hnext : ∀ n, r.next = some n → h.wrefs n ≠ none)
    (hfirst : r.prev = none → ∀ x, r.target = some x → h.firsts x ≠ none) :
    ∃ h', wrefDestroy h w = .ok h' ∧ h'.wrefs w = none ∧
      (∀ b ≠ w, h'.wrefs b = (h.wrefs b).map fun q =>
        { q with
          next := if r.prev = some b then r.next else q.next
          prev := if r.next = some b then r.prev else q.prev }) ∧
      ∀ x, h'.firsts x =
        if r.prev = none ∧ r.target = some x then some r.next else h.firsts x := by
  obtain ⟨h₁, hforward, hfirsts₁, hwrefs₁⟩ := skipForward_spec hprev hfirst
  obtain ⟨h₂, hbackward, hfirsts₂, hwrefs₂⟩ := skipBackward_spec (h := h₁) (r := r) fun n hn => by
    simpa [hwrefs₁] using hnext n hn
  have hw₂ : h₂.wref w = .ok _ := wref_eq_ok.mpr (by rw [hwrefs₂, hwrefs₁, hw]; rfl)
  refine ⟨{ h₂ with wrefs := Function.update h₂.wrefs w none }, ?_, by simp, fun b hb => ?_,
    fun y => by rw [hfirsts₂, hfirsts₁]⟩
  · rw [wrefDestroy, wref_eq_ok.mpr hw]
    simp only [bind, Except.bind]
    rw [hforward]
    simp only
    rw [hbackward]
    simp only
    rw [hw₂]
    rfl
  · have hb₂ : Function.update h₂.wrefs w none b = h₂.wrefs b := Function.update_of_ne hb _ _
    simp only [hb₂, hwrefs₂, hwrefs₁, Option.map_map]
    rfl

end Calx
