import Mathlib.Tactic.Common

/-!
# Deterministic machines

A machine goes from one configuration to the next or halts with a result. A
run of a bounded number of steps either is still going or has halted; a
fuel-bounded evaluator that follows the machine, and that uses up its fuel only
when the machine makes at least as many steps, halts with the same results.

## Implementation notes

Both sides are total functions of a bound, with `Sum.inl` for "not finished
yet". Nontermination is `Sum.inl` at every bound.
-/

/-- A machine with configurations `C` and results `O`. -/
structure Machine (C O : Type*) where
  step : C → C ⊕ O

namespace Machine

variable {C O S : Type*} (M : Machine C O)

/-- The machine after at most `n` steps. -/
def run : Nat → C → C ⊕ O
  | 0, c => .inl c
  | n + 1, c =>
      match M.step c with
      | .inl c' => run n c'
      | .inr o => .inr o

variable {M} {c c' c'' : C} {o o' : O} {m n : Nat}

@[simp] theorem run_zero : M.run 0 c = .inl c := rfl

theorem run_add (h : M.run m c = .inl c') : M.run (m + n) c = M.run n c' := by
  induction m generalizing c with
  | zero =>
      obtain rfl := Sum.inl.inj h
      rw [Nat.zero_add]
  | succ m ih =>
      rw [Nat.succ_add, run]
      rw [run] at h
      cases hs : M.step c with
      | inl c₁ =>
          rw [hs] at h
          exact ih h
      | inr o => simp [hs] at h

theorem run_one (h : M.step c = .inl c') : M.run 1 c = .inl c' := by
  simp [run, h]

theorem run_halt (h : M.step c = .inr o) : M.run 1 c = .inr o := by
  simp [run, h]

/-- A machine that has halted stays halted. -/
theorem run_of_le (h : M.run m c = .inr o) (hle : m ≤ n) : M.run n c = .inr o := by
  induction m generalizing c n with
  | zero => simp at h
  | succ m ih =>
      obtain ⟨n, rfl⟩ : ∃ k, n = k + 1 := ⟨n - 1, by omega⟩
      rw [run] at h ⊢
      cases hs : M.step c with
      | inl c₁ =>
          rw [hs] at h
          exact ih h (by omega)
      | inr o₁ => rwa [hs] at h

/-- A machine halts with one result only. -/
theorem run_det (h : M.run m c = .inr o) (h' : M.run n c = .inr o') : o = o' := by
  have h1 := run_of_le h (Nat.le_max_left m n)
  have h2 := run_of_le h' (Nat.le_max_right m n)
  exact Sum.inr.inj (h1.symm.trans h2)

/-- An evaluator follows a machine: its results are the machine's, and when its fuel is used up the
machine has made more steps than there was fuel. -/
structure Follows (M : Machine C O) (c : C) (view : C → S) (eval : Nat → S ⊕ O) : Prop where
  halts : ∀ n o, eval n = .inr o → ∃ m, M.run m c = .inr o
  goes : ∀ n s, eval n = .inl s → ∃ m > n, ∃ c', M.run m c = .inl c' ∧ view c' = s

variable {view : C → S} {eval : Nat → S ⊕ O}

/-- The evaluator and the machine have the same results. -/
theorem Follows.result_iff (h : M.Follows c view eval) (o : O) :
    (∃ n, eval n = .inr o) ↔ ∃ m, M.run m c = .inr o := by
  constructor
  · rintro ⟨n, hn⟩
    exact h.halts n o hn
  · rintro ⟨m, hm⟩
    refine ⟨m, ?_⟩
    cases he : eval m with
    | inl s =>
        obtain ⟨k, hk, c', hc, -⟩ := h.goes m s he
        rw [run_of_le hm (Nat.le_of_lt hk)] at hc
        simp at hc
    | inr o' =>
        obtain ⟨k, hk⟩ := h.halts m o' he
        rw [run_det hk hm]

/-- The evaluator and the machine diverge together. -/
theorem Follows.diverges_iff (h : M.Follows c view eval) :
    (∀ n, ∃ s, eval n = .inl s) ↔ ∀ m, ∃ c', M.run m c = .inl c' := by
  constructor
  · intro hev m
    cases hm : M.run m c with
    | inl c' => exact ⟨c', rfl⟩
    | inr o =>
        obtain ⟨n, hn⟩ := (h.result_iff o).mpr ⟨m, hm⟩
        obtain ⟨s, hs⟩ := hev n
        simp [hs] at hn
  · intro hrun n
    cases hn : eval n with
    | inl s => exact ⟨s, rfl⟩
    | inr o =>
        obtain ⟨m, hm⟩ := h.halts n o hn
        obtain ⟨c', hc⟩ := hrun m
        simp [hc] at hm

end Machine
