import Calx.Stdlib.Ops
import Mathlib.Data.Nat.Choose.Basic

/-!
# Binomial coefficients

`choice` of `stdlib.calx`: the loop multiplies by the next factor and divides by
the number of factors so far. Each partial product is a binomial coefficient, so
that no division leaves a remainder; when `k` exceeds `n` one factor is zero and
the later ones are negative.
-/

namespace Calx.Stdlib

open Loop

/-- A turn of the loop of `choice`, with the variables `r` and `i`. -/
def choiceTurn (n k : ℤ) : ℤ × ℤ → Calc ((ℤ × ℤ) ⊕ ℤ) := fun (r, i) => do
  if i ≤ k then
    let r := r * (n + 1 - i)
    let r ← idiv r i
    pure (.inl (r, i + 1))
  else pure (.inr r)

/-- `choice`. -/
def choice (fuel : Nat) (n k : ℤ) : Calc ℤ := loop .exhausted (choiceTurn n k) fuel (1, 1)

variable {fuel : Nat} {n k r i : ℤ} {w w' : World}

/-- The next factor turns a binomial coefficient into a multiple of the next one. -/
theorem choose_mul_factor (n j : ℕ) :
    (n.choose j : ℤ) * (n - j) = n.choose (j + 1) * (j + 1 : ℕ) := by
  by_cases hj : j ≤ n
  · have h := (Nat.choose_succ_right_eq n j).symm
    rw [← Nat.cast_sub hj]
    exact_mod_cast h
  · rw [Nat.choose_eq_zero_of_lt (by omega), Nat.choose_eq_zero_of_lt (by omega)]
    simp

/-- The partial product before a turn: a binomial coefficient. -/
structure Partial (n k r i : ℤ) : Prop where
  pos : 1 ≤ i
  le : i ≤ k + 1
  value : r = n.toNat.choose (i - 1).toNat

theorem Partial.enter (hk : 0 ≤ k) : Partial n k 1 1 := by
  constructor
  · exact le_rfl
  · exact le_add_of_nonneg_left hk
  · simp

/-- The product that a turn divides is a multiple of the next binomial coefficient. -/
theorem Partial.product (h : Partial n k r i) (hn : 0 ≤ n) :
    r * (n + 1 - i) = n.toNat.choose i.toNat * i := by
  obtain ⟨hpos, -, hvalue⟩ := h
  obtain ⟨j, rfl⟩ : ∃ j : ℕ, i = j + 1 := ⟨(i - 1).toNat, by omega⟩
  have hprev : ((j : ℤ) + 1 - 1).toNat = j := by omega
  have hnext : ((j : ℤ) + 1).toNat = j + 1 := by omega
  have hfactor : n + 1 - (j + 1) = n.toNat - j := by omega
  calc r * (n + 1 - (j + 1)) = n.toNat.choose j * (n.toNat - j) := by
        rw [hvalue, hprev, hfactor]
    _ = n.toNat.choose (j + 1) * (j + 1 : ℕ) := choose_mul_factor _ _
    _ = n.toNat.choose ((j : ℤ) + 1).toNat * (j + 1) := by
        rw [hnext, Nat.cast_succ]

/-- A turn divides without remainder and leaves the next binomial coefficient. -/
theorem choiceTurn_step (h : Partial n k r i) (hn : 0 ≤ n) (hi : i ≤ k) :
    choiceTurn n k (r, i) w = .ok (.inl ((n.toNat.choose i.toNat : ℤ), i + 1), w) ∧
      Partial n k (n.toNat.choose i.toNat) (i + 1) := by
  have hpos := h.pos
  have hne : i ≠ 0 := by omega
  have hdiv : (r * (n + 1 - i)).tdiv i = n.toNat.choose i.toNat := by
    rw [h.product hn, Int.mul_tdiv_cancel _ hne]
  constructor
  · simp only [choiceTurn, if_pos hi, idiv_eq hne, pure_bind, hdiv]
    rfl
  · constructor
    · omega
    · omega
    · rw [add_sub_cancel_right]

/-- The last turn returns the partial product. -/
theorem choiceTurn_last (h : Partial n k r i) (hi : ¬ i ≤ k) :
    choiceTurn n k (r, i) w = .ok (.inr (n.toNat.choose k.toNat : ℤ), w) := by
  have hle := h.le
  have hlast : i - 1 = k := by omega
  have hvalue : r = n.toNat.choose k.toNat := by
    rw [h.value, hlast]
  simp only [choiceTurn, if_neg hi, hvalue]
  rfl

/-- What every turn keeps, and what the last one returns. -/
theorem choiceTurn_holds (hn : 0 ≤ n) (s : ℤ × ℤ) (w' : World)
    (h : Partial n k s.1 s.2 ∧ w' = w) :
    Holds (choiceTurn n k s) w'
      (Turn (fun s w' => Partial n k s.1 s.2 ∧ w' = w) (fun s => (k + 1 - s.2).toNat)
        (fun r w' => r = n.toNat.choose k.toNat ∧ w' = w) s) fun _ => False := by
  obtain ⟨r, i⟩ := s
  obtain ⟨hpart, rfl⟩ := h
  by_cases hi : i ≤ k
  · obtain ⟨hrun, hnext⟩ := choiceTurn_step (w := w') hpart hn hi
    refine Holds.of_ok hrun ⟨⟨hnext, rfl⟩, ?_⟩
    dsimp only
    omega
  · exact Holds.of_ok (choiceTurn_last hpart hi) ⟨rfl, rfl⟩

/-- For all integers that are not negative the function returns the binomial coefficient, and
every division on the way is exact. -/
theorem choice_binomial (hn : 0 ≤ n) (hk : 0 ≤ k) (hfuel : k.toNat < fuel) (w : World) :
    choice fuel n k w = .ok ((n.toNat.choose k.toNat : ℤ), w) ∧
      ∀ r i w', Visits (choiceTurn n k) (1, 1) w (r, i) w' → i ≤ k → i ∣ r * (n + 1 - i) := by
  constructor
  · have hrun : Holds (choice fuel n k) w (fun r w' => r = n.toNat.choose k.toNat ∧ w' = w)
        fun _ => False := by
      refine Holds.loop (choiceTurn_holds hn) ⟨Partial.enter hk, rfl⟩ fun hle => ?_
      dsimp only at hle
      omega
    obtain ⟨r, w', hr, rfl, rfl⟩ := hrun.returns fun _ h => h
    exact hr
  · intro r i w' hvisit _
    have hpart : Partial n k r i := (hvisit.invariant (choiceTurn_holds hn) ⟨Partial.enter hk, rfl⟩).1
    rw [hpart.product hn]
    exact dvd_mul_left _ _

theorem choice_binomial_of_five :
    choice 8 5 7 ⟨[], 0⟩ = .ok (((5 : ℤ).toNat.choose (7 : ℤ).toNat : ℤ), ⟨[], 0⟩) ∧
      ∀ r i w', Visits (choiceTurn 5 7) (1, 1) ⟨[], 0⟩ (r, i) w' → i ≤ 7 → i ∣ r * (5 + 1 - i) :=
  choice_binomial (by decide) (by decide) (by decide) _

end Calx.Stdlib
