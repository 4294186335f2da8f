import Mathlib.Tactic.Common

/-!
# Computations on a state that can fail

An invariant of the state is kept by a computation that can fail, whether it fails or
not, and the state only moves along a preorder. A property of what is returned may speak
of the state in which it is returned.
-/

namespace Stateful

variable {σ ε α β : Type} {I : σ → Prop} {R : σ → σ → Prop} {E : ε → Prop} {P P' : σ → α → Prop}
  {Q : σ → β → Prop} {s s' : σ} {a : α} {e : ε}

/-- A computation on a state that can fail, and leaves a state when it does. -/
abbrev Action (σ ε α : Type) : Type := ExceptT ε (StateM σ) α

/-- How a computation ends from a state, and the state that it leaves. -/
def outcome (c : Action σ ε α) (s : σ) : Except ε α × σ := c.run.run s

/-- From the state `s` the computation leaves the invariant intact and moves the state along `R`; it
returns a value with the property `P`, or fails in a way that `E` admits. -/
def Keeps (I : σ → Prop) (R : σ → σ → Prop) (E : ε → Prop) (P : σ → α → Prop) (s : σ)
    (c : Action σ ε α) : Prop :=
  I (outcome c s).2 ∧ R s (outcome c s).2 ∧
    (∀ a, (outcome c s).1 = .ok a → P (outcome c s).2 a) ∧ ∀ e, (outcome c s).1 = .error e → E e

/-- A sequence goes on from the state that its first computation leaves. -/
theorem outcome_bind_ok {c : Action σ ε α} {f : α → Action σ ε β} (h : outcome c s = (.ok a, s')) :
    outcome (c >>= f) s = outcome (f a) s' := by
  change ExceptT.bindCont f (outcome c s).1 (outcome c s).2 = _
  rw [h]
  rfl

/-- A sequence ends with the failure of its first computation. -/
theorem outcome_bind_error {c : Action σ ε α} {f : α → Action σ ε β}
    (h : outcome c s = (.error e, s')) : outcome (c >>= f) s = (.error e, s') := by
  change ExceptT.bindCont f (outcome c s).1 (outcome c s).2 = _
  rw [h]
  rfl

namespace Keeps

theorem pure (hs : I s) (hR : R s s) (h : P s a) : Keeps I R E P s (Pure.pure a) :=
  ⟨hs, hR, fun _ ha => Except.ok.inj ha ▸ h, fun _ he => nomatch he⟩

theorem throw (hs : I s) (hR : R s s) (h : E e) :
    Keeps I R E P s (MonadExcept.throw e : Action σ ε α) :=
  ⟨hs, hR, fun _ ha => (nomatch ha), fun _ he => Except.error.inj he ▸ h⟩

/-- Reading the state. -/
theorem get (hs : I s) (hR : R s s) {P : σ → σ → Prop} (h : P s s) :
    Keeps I R E P s (MonadState.get : Action σ ε σ) :=
  ⟨hs, hR, fun _ ha => Except.ok.inj ha ▸ h, fun _ he => nomatch he⟩

/-- Another state. -/
theorem set (hs : I s') (hR : R s s') {P : σ → PUnit → Prop} (h : P s' ⟨⟩) :
    Keeps I R E P s (MonadState.set s' : Action σ ε PUnit) :=
  ⟨hs, hR, fun _ _ => h, fun _ he => nomatch he⟩

theorem imp {c : Action σ ε α} (h : Keeps I R E P s c) (hP : ∀ s a, P s a → P' s a) :
    Keeps I R E P' s c :=
  ⟨h.1, h.2.1, fun a ha => hP _ a (h.2.2.1 a ha), h.2.2.2⟩

/-- A sequence. -/
theorem bind (hR : ∀ {s s' s''}, R s s' → R s' s'' → R s s'') {c : Action σ ε α}
    {f : α → Action σ ε β} (h : Keeps I R E P s c)
    (hf : ∀ a s', outcome c s = (.ok a, s') → I s' → R s s' → P s' a → Keeps I R E Q s' (f a)) :
    Keeps I R E Q s (c >>= f) := by
  obtain ⟨hI, hle, hok, herror⟩ := h
  rcases hc : outcome c s with ⟨e | a, s'⟩
  · rw [hc] at hI hle herror
    have hout := outcome_bind_error (f := f) hc
    rw [Keeps, hout]
    exact ⟨hI, hle, fun _ ha => (nomatch ha), fun e' he' => Except.error.inj he' ▸ herror e rfl⟩
  · rw [hc] at hI hle hok
    obtain ⟨hI', hle', hok', herror'⟩ := hf a s' hc hI hle (hok a rfl)
    rw [Keeps, outcome_bind_ok hc]
    exact ⟨hI', hR hle hle', hok', herror'⟩

end Keeps

end Stateful
