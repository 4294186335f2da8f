import Mathlib.Tactic.Common

/-!
# Loops of stateful computations that can stop

A computation reads and writes a world and returns a value or stops with a
reason. `Holds c w P R` says what holds when it returns and which reasons it
can stop for. A loop runs its body until the body yields a result; the bound on
the number of turns is explicit.

## Implementation notes

One judgement serves partial and total correctness: with `R` true everywhere
nothing is said about stopping, and a loop rule with a measure lets `R` exclude
the end of the fuel as soon as the bound exceeds the measure.
-/

namespace Loop

variable {W E α β σ : Type}

/-- What holds of the value and the world when `c` returns, and of the reason when it stops. -/
def Holds (c : StateT W (Except E) α) (w : W) (P : α → W → Prop) (R : E → Prop) : Prop :=
  match c w with
  | .ok (a, w') => P a w'
  | .error e => R e

/-- Run `body` until it yields a result, at most `fuel` times. -/
def loop (stuck : E) (body : σ → StateT W (Except E) (σ ⊕ α)) : Nat → σ → StateT W (Except E) α
  | 0, _ => throw stuck
  | fuel + 1, s => do
      match ← body s with
      | .inl s' => loop stuck body fuel s'
      | .inr a => pure a

variable {c : StateT W (Except E) α} {f : α → StateT W (Except E) β} {w w' : W} {a : α} {e : E}
  {P P' : α → W → Prop} {Q : β → W → Prop} {R R' : E → Prop}

theorem Holds.ok (h : Holds c w P R) (hc : c w = .ok (a, w')) : P a w' := by
  simpa only [Holds, hc] using h

theorem Holds.error (h : Holds c w P R) (hc : c w = .error e) : R e := by
  simpa only [Holds, hc] using h

theorem Holds.of_ok (hc : c w = .ok (a, w')) (h : P a w') : Holds c w P R := by
  simpa only [Holds, hc] using h

/-- A computation that can stop for no reason returns. -/
theorem Holds.returns (h : Holds c w P R) (hR : ∀ e, ¬ R e) :
    ∃ a w', c w = .ok (a, w') ∧ P a w' := by
  cases hc : c w with
  | ok r => exact ⟨r.1, r.2, rfl, h.ok hc⟩
  | error e => exact absurd (h.error hc) (hR e)

/-- A computation goes on from where its first part returned. -/
theorem bind_of_ok (hc : c w = .ok (a, w')) : (c >>= f) w = f a w' := by
  have hb : (c >>= f) w = Except.bind (c w) fun r => f r.1 r.2 := rfl
  rw [hb, hc, Except.bind]

/-- A computation stops where its first part stops. -/
theorem bind_of_error (hc : c w = .error e) : (c >>= f) w = .error e := by
  have hb : (c >>= f) w = Except.bind (c w) fun r => f r.1 r.2 := rfl
  rw [hb, hc, Except.bind]

section Turns

variable {stuck : E} {body : σ → StateT W (Except E) (σ ⊕ α)} {fuel : Nat} {s s' : σ}

/-- A turn that goes on. -/
theorem loop_of_inl (h : body s w = .ok (.inl s', w')) :
    loop stuck body (fuel + 1) s w = loop stuck body fuel s' w' := bind_of_ok h

/-- The last turn. -/
theorem loop_of_inr (h : body s w = .ok (.inr a, w')) :
    loop stuck body (fuel + 1) s w = .ok (a, w') := bind_of_ok h

/-- A turn that stops. -/
theorem loop_of_error (h : body s w = .error e) :
    loop stuck body (fuel + 1) s w = .error e := bind_of_error h

end Turns

theorem Holds.mono (h : Holds c w P R) (hP : ∀ a w', P a w' → P' a w') (hR : ∀ e, R e → R' e) :
    Holds c w P' R' := by
  unfold Holds at h ⊢
  split at h
  · exact hP _ _ h
  · exact hR _ h

theorem Holds.pure (h : P a w) : Holds (Pure.pure a) w P R := h

theorem Holds.throw (h : R e) : Holds (throw e : StateT W (Except E) α) w P R := h

theorem Holds.bind (h : Holds c w P R) (hf : ∀ a w', P a w' → Holds (f a) w' Q R) :
    Holds (c >>= f) w Q R := by
  have hb : (c >>= f) w = Except.bind (c w) fun r => f r.1 r.2 := rfl
  cases hc : c w with
  | ok r =>
      have := hf r.1 r.2 (h.ok hc)
      simpa only [Holds, hb, hc, Except.bind] using this
  | error e => simpa only [Holds, hb, hc, Except.bind] using h.error hc

/-- What a turn of a loop leaves behind: the invariant with a smaller measure, or the result. -/
def Turn (I : σ → W → Prop) (V : σ → Nat) (P : α → W → Prop) (s : σ) : σ ⊕ α → W → Prop
  | .inl s', w => I s' w ∧ V s' < V s
  | .inr a, w => P a w

/-- The loop rule: an invariant that every turn keeps, and a measure that every turn makes
smaller. -/
theorem Holds.loop {stuck : E} {body : σ → StateT W (Except E) (σ ⊕ α)} {I : σ → W → Prop}
    {V : σ → Nat} (hbody : ∀ s w, I s w → Holds (body s) w (Turn I V P s) R)
    {fuel : Nat} {s : σ} (hs : I s w) (hstuck : fuel ≤ V s → R stuck) :
    Holds (loop stuck body fuel s) w P R := by
  induction fuel generalizing s w with
  | zero => exact hstuck (Nat.zero_le _)
  | succ fuel ih =>
      refine (hbody s w hs).bind fun r w' hr => ?_
      cases r with
      | inl s' => exact ih hr.1 fun hle => hstuck (Nat.succ_le_of_lt (Nat.lt_of_le_of_lt hle hr.2))
      | inr a => exact hr

/-- The loop rule for partial correctness: an invariant alone. -/
theorem Holds.loop_of_invariant {stuck : E} {body : σ → StateT W (Except E) (σ ⊕ α)}
    {I : σ → W → Prop}
    (hbody : ∀ s w, I s w → Holds (body s) w (fun r w' => r.elim (I · w') (P · w')) R)
    {fuel : Nat} {s : σ} (hs : I s w) (hstuck : R stuck) :
    Holds (Loop.loop stuck body fuel s) w P R := by
  induction fuel generalizing s w with
  | zero => exact hstuck
  | succ fuel ih =>
      refine (hbody s w hs).bind fun r w' hr => ?_
      cases r with
      | inl s' => exact ih hr
      | inr a => exact hr

/-- The states, with their worlds, in which a loop that is entered at `s` and `w` starts a turn. -/
inductive Visits (body : σ → StateT W (Except E) (σ ⊕ α)) (s : σ) (w : W) : σ → W → Prop
  | enter : Visits body s w s w
  | turn {s' s'' : σ} {w' w'' : W} (h : Visits body s w s' w')
      (hturn : body s' w' = .ok (.inl s'', w'')) : Visits body s w s'' w''

/-- The invariant of the loop rule holds whenever a turn starts. -/
theorem Visits.invariant {body : σ → StateT W (Except E) (σ ⊕ α)} {I : σ → W → Prop} {V : σ → Nat}
    (hbody : ∀ s w, I s w → Holds (body s) w (Turn I V P s) R) {s s' : σ} (hs : I s w)
    (h : Visits body s w s' w') : I s' w' := by
  induction h with
  | enter => exact hs
  | turn _ hturn ih => exact ((hbody _ _ ih).ok hturn).1

-- A goal is a judgement about a computation and must not be evaluated.
attribute [irreducible] Holds

end Loop
