import Mathlib.Tactic.Common

/-!
# Computations that can fail

`Yields ok r P` says of the result `r` of a computation that can fail that every
value it returns has the property `P`, and that it does return one under the
condition `ok`.

## Implementation notes

The condition is the same for all steps of a computation, and its consequences
are drawn where a step needs them. The first part holds without it, so that a
computation that returns can be followed step by step and then tells that its
conditions were met.
-/

namespace Fallible

variable {ε α β : Type} {ok : Prop} {r : Except ε α} {f : α → Except ε β} {a : α}
  {P P' : α → Prop} {Q : β → Prop}

/-- A sequence of two steps goes on from what the first returns. -/
theorem bind_of_ok (h : r = .ok a) : (r >>= f) = f a := by
  rw [h]
  rfl

/-- What a computation returns has the property `P`, and under `ok` it returns. -/
structure Yields (ok : Prop) (r : Except ε α) (P : α → Prop) : Prop where
  sound : ∀ a, r = .ok a → P a
  returns : ok → ∃ a, r = .ok a

namespace Yields

theorem pure (h : P a) : Yields ok (.ok a : Except ε α) P :=
  ⟨fun _ hb => Except.ok.inj hb ▸ h, fun _ => ⟨a, rfl⟩⟩

theorem fails {e : ε} (h : ¬ ok) : Yields ok (.error e : Except ε α) P :=
  ⟨fun _ hb => (by cases hb), fun hok => absurd hok h⟩

theorem imp (h : Yields ok r P) (hP : ∀ a, P a → P' a) : Yields ok r P' :=
  ⟨fun a ha => hP a (h.sound a ha), h.returns⟩

theorem imp_eq (h : Yields ok r P) (hP : ∀ a, r = .ok a → P a → P' a) : Yields ok r P' :=
  ⟨fun a ha => hP a ha (h.sound a ha), h.returns⟩

/-- A sequence, where the second computation may use that the first one returned. -/
theorem bind_eq (h : Yields ok r P) (hf : ∀ a, r = .ok a → P a → Yields ok (f a) Q) :
    Yields ok (r >>= f) Q := by
  cases r with
  | error e =>
      refine fails fun hok => ?_
      obtain ⟨a, ha⟩ := h.returns hok
      cases ha
  | ok a => exact hf a rfl (h.sound a rfl)

/-- A sequence. -/
theorem bind (h : Yields ok r P) (hf : ∀ a, P a → Yields ok (f a) Q) : Yields ok (r >>= f) Q :=
  h.bind_eq fun a _ ha => hf a ha

/-- A sequence whose first computation returns. -/
theorem step (h : r = .ok a) (hf : Yields ok (f a) Q) : Yields ok (r >>= f) Q := by
  rwa [bind_of_ok h]

end Yields

/-- The computation returns a value with the property `P`, or fails in a way that `E` admits. -/
def Settles (E : ε → Prop) (P : α → Prop) : Except ε α → Prop
  | .ok a => P a
  | .error e => E e

namespace Settles

variable {E : ε → Prop}

theorem imp (h : Settles E P r) (hP : ∀ a, P a → P' a) : Settles E P' r := by
  cases r with
  | ok a => exact hP a h
  | error e => exact h

/-- A sequence. -/
theorem bind (h : Settles E P r) (hf : ∀ a, P a → Settles E Q (f a)) : Settles E Q (r >>= f) := by
  cases r with
  | ok a => exact hf a h
  | error e => exact h

/-- A sequence, where the second computation may use that the first one returned. -/
theorem bind_eq (h : Settles E P r) (hf : ∀ a, r = .ok a → P a → Settles E Q (f a)) :
    Settles E Q (r >>= f) := by
  cases r with
  | ok a => exact hf a rfl h
  | error e => exact h

end Settles

end Fallible
