import Calx.Stdlib.Ops
import Mathlib.Data.Int.ModEq
import Mathlib.Tactic.Ring
import Mathlib.Tactic.Positivity

/-!
# Modular powers and random integers

`mod_pow`, `random_bits`, `random_mod` and `random_range` of `stdlib.calx`.

## Implementation notes

Each function takes the fuel that bounds its loops. A loop's state is the tuple
of the variables it assigns.
-/

namespace Calx.Stdlib

open Loop

variable (fuel : Nat)

/-- `mod_pow`. -/
def modPow (b e m : ℤ) : Calc ℤ := do
  let r ← imod 1 m
  loop .exhausted (fun (r, b, e) => do
    if e > 0 then
      let r ← if bitAnd e 1 = 1 then imod (r * b) m else pure r
      let b ← imod (b * b) m
      let e ← idiv e 2
      pure (.inl (r, b, e))
    else pure (.inr r)) fuel (r, b, e)

/-- `random_bits`. -/
def randomBits (n : ℤ) : Calc ℤ := do
  let base ← pow 2 32
  loop .exhausted (fun (r, n) => do
    if n ≥ 32 then
      let x ← random32
      pure (.inl (r * base + x, n - 32))
    else if n > 0 then
      let lastBase := bitShl 1 n
      let x ← random32
      pure (.inr (r * lastBase + bitAnd x (lastBase - 1)))
    else pure (.inr r)) fuel ((0, n) : ℤ × ℤ)

/-- `random_mod`: draw as many bits as `n - 1` has until the draw is below `n`. -/
def randomMod (n : ℤ) : Calc ℤ := do
  let nbits ← loop .exhausted (fun (t, nbits) => do
    if t > 0 then
      let t ← idiv t 2
      pure (.inl (t, nbits + 1))
    else pure (.inr nbits)) fuel ((n - 1, 0) : ℤ × ℤ)
  loop .exhausted (fun () => do
    let x ← randomBits fuel nbits
    if x < n then pure (.inr x) else pure (.inl ())) fuel ()

/-- `random_range`. -/
def randomRange (lb rb : ℤ) : Calc ℤ := do
  let x ← randomMod fuel (rb - lb)
  pure (lb + x)

variable {fuel} {w : World}

/-! ## Modular powers -/

variable {b e m n : ℤ} {P : ℤ → World → Prop} {R : Stop → Prop}

theorem tdiv_two (he : 0 ≤ e) : e.tdiv 2 = e / 2 := Int.tdiv_eq_ediv_of_nonneg he

/-- One turn of `mod_pow` keeps the product of the result with the power that is left. -/
theorem sq_pow_half (b : ℤ) {e : ℤ} (he : 0 ≤ e) :
    (b * b) ^ (e / 2).toNat * b ^ (e % 2).toNat = b ^ e.toNat := by
  have h : 2 * (e / 2).toNat + (e % 2).toNat = e.toNat := by omega
  rw [← sq, ← pow_mul, ← pow_add, h]

/-- A turn in which the result takes the factor of an odd exponent. -/
theorem modPow_odd {r : ℤ} (he : 0 ≤ e) (hodd : e % 2 = 1) :
    r * b % m * (b * b % m) ^ (e / 2).toNat ≡ r * b ^ e.toNat [ZMOD m] := by
  have hr := Int.mod_modEq (r * b) m
  have hb := (Int.mod_modEq (b * b) m).pow (e / 2).toNat
  calc r * b % m * (b * b % m) ^ (e / 2).toNat
      ≡ r * b * (b * b) ^ (e / 2).toNat [ZMOD m] := hr.mul hb
    _ = r * ((b * b) ^ (e / 2).toNat * b ^ (e % 2).toNat) := by
        rw [hodd, Int.toNat_one, pow_one]
        ring
    _ = r * b ^ e.toNat := by rw [sq_pow_half b he]

/-- A turn in which the exponent is even. -/
theorem modPow_even {r : ℤ} (he : 0 ≤ e) (heven : e % 2 = 0) :
    r * (b * b % m) ^ (e / 2).toNat ≡ r * b ^ e.toNat [ZMOD m] := by
  have hb := (Int.mod_modEq (b * b) m).pow (e / 2).toNat
  calc r * (b * b % m) ^ (e / 2).toNat
      ≡ r * (b * b) ^ (e / 2).toNat [ZMOD m] := hb.mul_left r
    _ = r * ((b * b) ^ (e / 2).toNat * b ^ (e % 2).toNat) := by
        rw [heven, Int.toNat_zero, pow_zero, mul_one]
    _ = r * b ^ e.toNat := by rw [sq_pow_half b he]

theorem modPow_holds (hb : 0 ≤ b) (he : 0 ≤ e) (hm : 0 < m) (h : P (b ^ e.toNat % m) w)
    (hstuck : fuel ≤ e.toNat → R .exhausted) : Holds (modPow fuel b e m) w P R := by
  have hone : (1 : ℤ).tmod m = 1 % m := Int.tmod_eq_emod_of_nonneg (by omega)
  simp only [modPow, imod_eq hm.ne', idiv_eq two_ne_zero, pure_bind, hone]
  refine Holds.loop (I := fun (s : ℤ × ℤ × ℤ) w' => (0 ≤ s.1 ∧ s.1 < m) ∧ 0 ≤ s.2.1 ∧ 0 ≤ s.2.2 ∧
      s.1 * s.2.1 ^ s.2.2.toNat ≡ b ^ e.toNat [ZMOD m] ∧ w' = w)
    (V := fun s => s.2.2.toNat) ?_ ?_ hstuck
  · rintro ⟨r, b', e'⟩ _ ⟨⟨hr, hr'⟩, hb', he', hmod, rfl⟩
    dsimp only at *
    have hsq : 0 ≤ b' * b' % m := Int.emod_nonneg _ hm.ne'
    rw [tdiv_two he', Int.tmod_eq_emod_of_nonneg (mul_nonneg hb' hb'),
      Int.tmod_eq_emod_of_nonneg (mul_nonneg hr hb'), bitAnd_one]
    split
    · have hlt : (e' / 2).toNat < e'.toNat := by omega
      have hhalf : 0 ≤ e' / 2 := by omega
      split
      · rename_i hodd
        exact Holds.pure ⟨⟨⟨Int.emod_nonneg _ hm.ne', Int.emod_lt_of_pos _ hm⟩, hsq, hhalf,
          (modPow_odd he' hodd).trans hmod, rfl⟩, hlt⟩
      · exact Holds.pure ⟨⟨⟨hr, hr'⟩, hsq, hhalf,
          (modPow_even he' (by omega)).trans hmod, rfl⟩, hlt⟩
    · obtain rfl : e' = 0 := by omega
      have hres : r = b ^ e.toNat % m := by
        rw [← hmod.eq, Int.toNat_zero, pow_zero, mul_one, Int.emod_eq_of_lt hr hr']
      exact Holds.pure (hres ▸ h)
  · exact ⟨⟨Int.emod_nonneg _ hm.ne', Int.emod_lt_of_pos _ hm⟩, hb, he,
      by simpa using (Int.mod_modEq 1 m).mul_right (b ^ e.toNat), rfl⟩

/-- For every base, exponent and modulus that the function asks for, the run returns the residue
of the power as soon as the fuel exceeds the exponent. -/
theorem mod_pow_residue (hb : 0 ≤ b) (he : 0 ≤ e) (hm : 0 < m) (hfuel : e.toNat < fuel) (w : World) :
    ∃ r, modPow fuel b e m w = .ok (r, w) ∧ 0 ≤ r ∧ r < m ∧ r ≡ b ^ e.toNat [ZMOD m] := by
  have hrun : Holds (modPow fuel b e m) w (fun r w' => r = b ^ e.toNat % m ∧ w' = w)
      fun _ => False := by
    apply modPow_holds hb he hm
    · exact ⟨rfl, rfl⟩
    · intro hle
      omega
  obtain ⟨r, w', hr, rfl, rfl⟩ := hrun.returns fun _ h => h
  exact ⟨_, hr, Int.emod_nonneg _ hm.ne', Int.emod_lt_of_pos _ hm, Int.mod_modEq _ m⟩

theorem mod_pow_residue_of_two : ∃ r, modPow 11 2 10 1000 ⟨[], 0⟩ = .ok (r, ⟨[], 0⟩) ∧ 0 ≤ r ∧
    r < 1000 ∧ r ≡ 2 ^ (10 : ℤ).toNat [ZMOD 1000] :=
  mod_pow_residue (by decide) (by decide) (by decide) (by decide) _

/-! ## Random integers -/

theorem randomBits_nonneg (hR : ∀ s, R s) : Holds (randomBits fuel n) w (fun x _ => 0 ≤ x) R := by
  simp only [randomBits, pow_eq (b := 2) (e := 32) (by decide) (by decide), pure_bind]
  refine Holds.loop_of_invariant (I := fun (s : ℤ × ℤ) _ => 0 ≤ s.1) ?_ le_rfl (hR _)
  rintro ⟨r, n⟩ w' (hr : 0 ≤ r)
  dsimp only
  split
  · refine Holds.bind (random32_holds (P := fun x _ => 0 ≤ x) (hR _) ?_) fun x w' hx => ?_
    · exact fun x words _ => Int.natCast_nonneg _
    · refine Holds.pure ?_
      simp
      positivity
  · split
    · refine Holds.bind (random32_holds (P := fun _ _ => True) (hR _) ?_) fun x w' _ => ?_
      · exact fun x words _ => trivial
      · exact Holds.pure (add_nonneg (mul_nonneg hr (bitShl_nonneg _ _)) (bitAnd_nonneg _ _))
    · exact Holds.pure hr

theorem randomMod_range (hR : ∀ s, R s) :
    Holds (randomMod fuel n) w (fun x _ => 0 ≤ x ∧ x < n) R := by
  refine Holds.bind (P := fun _ _ => True) ?_ fun nbits w' _ => ?_
  · refine Holds.loop_of_invariant (I := fun _ _ => True) ?_ trivial (hR _)
    rintro ⟨t, nbits⟩ w' -
    dsimp only
    split
    · rw [idiv_eq two_ne_zero, pure_bind]
      exact Holds.pure trivial
    · exact Holds.pure trivial
  · refine Holds.loop_of_invariant (I := fun _ _ => True) ?_ trivial (hR _)
    rintro ⟨⟩ w' -
    refine Holds.bind (randomBits_nonneg hR) fun x w' hx => ?_
    split
    · exact Holds.pure ⟨hx, ‹_›⟩
    · exact Holds.pure trivial

theorem randomRange_range {lb rb : ℤ} (hR : ∀ s, R s) :
    Holds (randomRange fuel lb rb) w (fun x _ => lb ≤ x ∧ x < rb) R := by
  refine Holds.bind (randomMod_range hR) fun x w' hx => ?_
  exact Holds.pure (by omega)

end Calx.Stdlib
