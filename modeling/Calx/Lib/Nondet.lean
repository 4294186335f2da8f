import Mathlib.Tactic.Common

/-!
# Computations with several outcomes

A computation on a state may end in more than one way, each time with a value or with an error,
or in no way at all. A loop ends as some number of its turns does.
-/

/-- A computation: the ways in which it may end from a state. -/
def Nd (σ ε α : Type) : Type := σ → Except ε α × σ → Prop

namespace Nd

variable {σ τ ε α β ι : Type}

/-- How a computation ends when its first part has ended in a way. -/
def Then (f : α → Nd σ ε β) : Except ε α × σ → Except ε β × σ → Prop
  | (.ok a, s), r => f a s r
  | (.error e, s), r => r = (.error e, s)

instance instMonad (σ ε : Type) : Monad (Nd σ ε) where
  pure a := fun s r => r = (.ok a, s)
  bind m f := fun s r => ∃ r', m s r' ∧ Then f r' r

/-- A failure that leaves the state as it is. -/
def throw (e : ε) : Nd σ ε α := fun s r => r = (.error e, s)

/-- A function of the state. -/
def lift (f : σ → Except ε α × σ) : Nd σ ε α := fun s r => r = f s

/-- One of several functions of the state. -/
def perform (f : ι → σ → Except ε α × σ) : Nd σ ε α := fun s r => ∃ i, r = f i s

/-- A value with a property. -/
def choose (P : α → Prop) : Nd σ ε α := fun s r => ∃ a, P a ∧ r = (.ok a, s)

/-- A computation on a part of the state. -/
def zoom (get : τ → σ) (set : σ → τ → τ) (m : Nd σ ε α) : Nd τ ε α :=
  fun t r => ∃ r', m (get t) r' ∧ r = (r'.1, set r'.2 t)

/-- A turn is taken again until it gives a value. -/
inductive Loops (turn : Nd σ ε (Option α)) : σ → Except ε α × σ → Prop
  | again {s s' : σ} {r : Except ε α × σ} (h : turn s (.ok none, s')) (hr : Loops turn s' r) :
      Loops turn s r
  | done {s s' : σ} {a : α} (h : turn s (.ok (some a), s')) : Loops turn s (.ok a, s')
  | failed {s s' : σ} {e : ε} (h : turn s (.error e, s')) : Loops turn s (.error e, s')

/-- The loop of a turn. -/
def loop (turn : Nd σ ε (Option α)) : Nd σ ε α := Loops turn

variable {m : Nd σ ε α} {f : α → Nd σ ε β} {s s' : σ} {a : α} {e : ε} {r : Except ε β × σ}

theorem bind_ok (h : m s (.ok a, s')) (hf : f a s' r) : (m >>= f) s r := ⟨_, h, hf⟩

theorem bind_error (h : m s (.error e, s')) : (m >>= f) s (.error e, s') := ⟨_, h, rfl⟩

theorem pure_bind (a : α) (f : α → Nd σ ε β) : (pure a >>= f) = f a := by
  funext s r
  apply propext
  constructor
  · rintro ⟨_, rfl, h⟩
    exact h
  · exact bind_ok rfl

theorem bind_pure (m : Nd σ ε α) : (m >>= pure) = m := by
  funext s r
  apply propext
  constructor
  · rintro ⟨⟨e | a, s'⟩, h, rfl⟩
    · exact h
    · exact h
  · intro h
    refine ⟨r, h, ?_⟩
    rcases r with ⟨e | a, s'⟩
    · rfl
    · rfl

end Nd
