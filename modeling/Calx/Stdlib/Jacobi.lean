import Calx.Lib.Kronecker
import Calx.Stdlib.Arith

/-!
# Jacobi and Kronecker symbols

`jacobi` and `kronecker` of `stdlib.calx`: the symbols by quadratic reciprocity,
with factors of two taken out one by one.

## Implementation notes

Residues modulo four and eight come from the lowest bits of `TO_UINT32`, which
are those of the number itself. The loops keep the product of the sign that they
carry with the symbol that is left.
-/

namespace Calx.Stdlib

open Loop NumberTheorySymbols

variable (fuel : Nat)

/-- The inner loop of `jacobi`: the factors of two of `a`. -/
def removeTwos (n a t : ℤ) : Calc (ℤ × ℤ) :=
  loop .exhausted (fun (a, t) => do
    if bitAnd a 1 = 0 then
      let a ← idiv a 2
      let r := bitAnd n 7
      pure (.inl (a, if r = 3 ∨ r = 5 then -t else t))
    else pure (.inr (a, t))) fuel (a, t)

/-- `jacobi`. -/
def jacobi (a n : ℤ) : Calc ℤ := do
  let a ← imod a n
  let a := if a < 0 then a + n else a
  let (n, t) ← loop .exhausted (fun (a, n, t) => do
    if a ≠ 0 then
      let (a, t) ← removeTwos fuel n a t
      let (a, n) := (n, a)
      let t := if bitAnd a 3 = 3 ∧ bitAnd n 3 = 3 then -t else t
      let a ← imod a n
      pure (.inl (a, n, t))
    else pure (.inr (n, t))) fuel ((a, n, 1) : ℤ × ℤ × ℤ)
  pure (if n = 1 then t else 0)

/-- `kronecker`. -/
def kronecker (a n : ℤ) : Calc ℤ := do
  if n = 0 then pure (if a = -1 ∨ a = 1 then 1 else 0)
  else
    let (n, factor) := if n < 0 then (-n, if a < 0 then -1 else 1) else (n, 1)
    match ← loop .exhausted (fun (n, factor) => do
      if bitAnd n 1 = 0 then
        let n ← idiv n 2
        if bitAnd a 1 = 0 then pure (.inr none)
        else
          let r := bitAnd a 7
          pure (.inl (n, if r = 3 ∨ r = 5 then -factor else factor))
      else pure (.inr (some (n, factor)))) fuel ((n, factor) : ℤ × ℤ) with
    | none => pure 0
    | some (n, factor) => do
        let j ← jacobi fuel a n
        pure (factor * j)

variable {fuel} {w : World}

/-! ## The lowest bits -/

theorem bitAnd_three (x : ℤ) : bitAnd x 3 = x % 4 := bitAnd_mask x (k := 2) (by norm_num)

theorem bitAnd_seven (x : ℤ) : bitAnd x 7 = x % 8 := bitAnd_mask x (k := 3) (by norm_num)

/-! ## The Jacobi symbol -/

variable {N : ℕ} {a t : ℤ}

/-- One factor of two: the supplement of the reciprocity law. -/
theorem symbol_half (hN : N % 2 = 1) (ha : a % 2 = 0) :
    (if (N : ℤ) % 8 = 3 ∨ (N : ℤ) % 8 = 5 then -t else t) * J(a / 2 | N) = t * J(a | N) := by
  have hiff : ((N : ℤ) % 8 = 3 ∨ (N : ℤ) % 8 = 5) ↔ (N % 8 = 3 ∨ N % 8 = 5) := by omega
  rw [← jacobiSym.even_odd ha hN]
  simp only [hiff]
  split
  · ring
  · rfl

/-- The inner loop leaves an odd number and keeps the signed symbol. -/
theorem removeTwos_holds {P : ℤ × ℤ → World → Prop} {R : Stop → Prop} (hN : N % 2 = 1)
    (ha : 0 < a) (h : ∀ a' t', 0 < a' → a' ≤ a → a' % 2 = 1 →
      t' * J(a' | N) = t * J(a | N) → P (a', t') w)
    (hstuck : fuel ≤ a.toNat → R .exhausted) : Holds (removeTwos fuel N a t) w P R := by
  refine Holds.loop (I := fun (s : ℤ × ℤ) w' => 0 < s.1 ∧ s.1 ≤ a ∧
      s.2 * J(s.1 | N) = t * J(a | N) ∧ w' = w)
    (V := fun s => s.1.toNat) ?_ ⟨ha, le_rfl, rfl, rfl⟩ hstuck
  rintro ⟨b, s⟩ _ ⟨hb, hba, hsym, rfl⟩
  dsimp only at *
  rw [bitAnd_one, bitAnd_seven, idiv_eq two_ne_zero, pure_bind, tdiv_two hb.le]
  split
  · rename_i heven
    have hpos : 0 < b / 2 := by omega
    have hle : b / 2 ≤ a := by omega
    have hlt : (b / 2).toNat < b.toNat := by omega
    exact Holds.pure ⟨⟨hpos, hle, (symbol_half hN heven).trans hsym, rfl⟩, hlt⟩
  · rename_i hodd
    exact Holds.pure (h b s hb hba (by omega) hsym)

/-- Swapping two odd numbers: the reciprocity law. -/
theorem symbol_swap {A : ℕ} (hA : A % 2 = 1) (hN : N % 2 = 1) :
    (if (N : ℤ) % 4 = 3 ∧ (A : ℤ) % 4 = 3 then -t else t) * J((N : ℤ) % A | A) =
      t * J(A | N) := by
  have hiff : ((N : ℤ) % 4 = 3 ∧ (A : ℤ) % 4 = 3) ↔ (A % 4 = 3 ∧ N % 4 = 3) := by omega
  rw [← jacobiSym.mod_left, ← jacobiSym.quadratic_reciprocity_if hA hN]
  simp only [hiff]
  split
  · ring
  · rfl

/-- When nothing is left above, the symbol is one or zero. -/
theorem symbol_zero (hN : N % 2 = 1) : t * J(0 | N) = if (N : ℤ) = 1 then t else 0 := by
  split
  · rename_i hone
    obtain rfl : N = 1 := by exact_mod_cast hone
    rw [jacobiSym.one_right, mul_one]
  · rename_i hne
    rw [jacobiSym.zero_left (by omega), mul_zero]

/-- The truncated remainder, moved up when it is negative, is the residue. -/
theorem tmod_moved {n : ℤ} (a : ℤ) (hn : 0 < n) :
    (if a.tmod n < 0 then a.tmod n + n else a.tmod n) = a % n := by
  have hlt := Int.tmod_lt_of_pos a hn
  have hgt := Int.lt_tmod_of_pos a hn
  have hmod : a.tmod n % n = a % n := by
    rw [Int.tmod_def, Int.sub_mul_emod_self_left]
  split
  · rw [← hmod, ← Int.add_emod_right, Int.emod_eq_of_lt (by omega) (by omega)]
  · rw [← hmod, Int.emod_eq_of_lt (by omega) hlt]

theorem jacobi_holds {P : ℤ → World → Prop} {R : Stop → Prop} (hN : N % 2 = 1) (h : P J(a | N) w)
    (hstuck : fuel ≤ N → R .exhausted) : Holds (jacobi fuel a N) w P R := by
  have hpos : (0 : ℤ) < N := by omega
  have hres : 0 ≤ a % N := Int.emod_nonneg _ hpos.ne'
  have hres' : a % N < N := Int.emod_lt_of_pos _ hpos
  rw [jacobi, imod_eq hpos.ne', pure_bind]
  dsimp only
  rw [tmod_moved a hpos]
  refine Holds.bind (P := fun (s : ℤ × ℤ) w' =>
    (if s.1 = 1 then s.2 else 0) = J(a | N) ∧ w' = w) ?_ ?_
  · refine Holds.loop (I := fun (s : ℤ × ℤ × ℤ) w' => (0 ≤ s.1 ∧ s.1 < N) ∧ (∃ M : ℕ, s.2.1 = M ∧
        M % 2 = 1 ∧ s.2.2 * J(s.1 | M) = J(a | N)) ∧ w' = w)
      (V := fun s => s.1.toNat) ?_ ⟨⟨hres, hres'⟩, ⟨N, rfl, hN, ?_⟩, rfl⟩ ?_
    · rintro ⟨b, n, t⟩ w' ⟨⟨hb, hbN⟩, ⟨M, hn, hM, hsym⟩, rfl⟩
      dsimp only at *
      subst hn
      split
      · refine Holds.bind (removeTwos_holds (P := fun s v => (0 < s.1 ∧ s.1 ≤ b ∧ s.1 % 2 = 1 ∧
          s.2 * J(s.1 | M) = t * J(b | M)) ∧ v = w') hM (by omega) ?_ fun hle => ?_) ?_
        · intro a' t' ha' hle hodd htwo
          exact ⟨⟨ha', hle, hodd, htwo⟩, rfl⟩
        · exact hstuck (by omega)
        · rintro ⟨c, s⟩ _ ⟨⟨hc, hcb, hodd, htwo⟩, rfl⟩
          obtain ⟨A, rfl⟩ := Int.eq_ofNat_of_zero_le hc.le
          dsimp only at *
          have hA : A % 2 = 1 := by omega
          have hrem : 0 ≤ (M : ℤ) % A := Int.emod_nonneg _ hc.ne'
          have hrem' : (M : ℤ) % A < A := Int.emod_lt_of_pos _ hc
          rw [bitAnd_three, bitAnd_three, imod_eq hc.ne', pure_bind,
            Int.tmod_eq_emod_of_nonneg (by omega)]
          refine Holds.pure ⟨⟨⟨hrem, by dsimp only; omega⟩, ⟨A, rfl, hA, ?_⟩, rfl⟩, ?_⟩
          · exact (symbol_swap hA hM).trans (htwo.trans hsym)
          · dsimp only
            omega
      · rename_i hzero
        obtain rfl : b = 0 := by omega
        exact Holds.pure ⟨(symbol_zero hM).symm.trans hsym, rfl⟩
    · rw [one_mul, ← jacobiSym.mod_left]
    · intro hle
      exact hstuck (by dsimp only at hle; omega)
  · rintro ⟨n, t⟩ _ ⟨hval, rfl⟩
    dsimp only at hval ⊢
    rw [hval]
    exact Holds.pure h

/-! ## The Kronecker symbol -/

open Kronecker

/-- One factor of two below an odd number. -/
theorem symbol_twos {M : ℕ} (hM : M ≠ 0) (ha : a % 2 ≠ 0) :
    (if a % 8 = 3 ∨ a % 8 = 5 then -t else t) * symbol a M = t * symbol a (2 * M : ℕ) := by
  rw [symbol_two_mul hM, ZMod.χ₈_int_eq_if_mod_eight, if_neg ha]
  split
  · rw [if_neg (by omega)]
    ring
  · rw [if_pos (by omega)]
    ring

/-- A factor of two below an even number. -/
theorem symbol_twos_even {M : ℕ} (hM : M ≠ 0) (ha : a % 2 = 0) : symbol a (2 * M : ℕ) = 0 := by
  rw [symbol_two_mul hM, ZMod.χ₈_int_eq_if_mod_eight, if_pos ha, zero_mul]

/-- The sign of the lower argument and its absolute value, as the function splits them. -/
theorem symbol_split {n : ℤ} (hn : n ≠ 0) : ∃ (M : ℕ) (f : ℤ), M = n.natAbs ∧
    (if n < 0 then (-n, if a < 0 then -1 else 1) else (n, 1)) = ((M : ℤ), f) ∧
    f * symbol a M = symbol a n := by
  split
  · have habs : -n = (n.natAbs : ℤ) := by omega
    have hneg : n = -(n.natAbs : ℤ) := by omega
    refine ⟨n.natAbs, if a < 0 then -1 else 1, rfl, by rw [habs], ?_⟩
    rw [← symbol_neg a (Int.natAbs_ne_zero.mpr hn), ← hneg]
  · have hpos : n = n.natAbs := by omega
    exact ⟨n.natAbs, 1, rfl, by rw [← hpos], by rw [one_mul, ← hpos]⟩

theorem kronecker_holds {P : ℤ → World → Prop} {R : Stop → Prop} {n : ℤ} (h : P (symbol a n) w)
    (hstuck : fuel ≤ n.natAbs → R .exhausted) : Holds (kronecker fuel a n) w P R := by
  rw [kronecker]
  split
  · rename_i hzero
    subst hzero
    have hval : (if a = -1 ∨ a = 1 then 1 else 0) = symbol a 0 := by
      have hiff : (a = -1 ∨ a = 1) ↔ a.natAbs = 1 := by omega
      rw [symbol, if_pos rfl]
      simp only [hiff]
    rw [hval]
    exact Holds.pure h
  · rename_i hn
    obtain ⟨M₀, f₀, hM₀, hsplit, hsym₀⟩ := symbol_split (a := a) hn
    rw [hsplit]
    dsimp only
    -- The first loop leaves an odd number, unless it has found the symbol to be zero.
    refine Holds.bind (P := fun s w' => (s.elim (symbol a n = 0) fun s =>
        ∃ M : ℕ, s.1 = M ∧ M % 2 = 1 ∧ M ≤ M₀ ∧ s.2 * symbol a M = symbol a n) ∧ w' = w) ?_ ?_
    · refine Holds.loop (I := fun (s : ℤ × ℤ) w' => (∃ M : ℕ, s.1 = M ∧ M ≠ 0 ∧ M ≤ M₀ ∧
          s.2 * symbol a M = symbol a n) ∧ w' = w)
        (V := fun s => s.1.toNat) ?_ ⟨⟨M₀, rfl, by omega, le_rfl, hsym₀⟩, rfl⟩ ?_
      · rintro ⟨n', f⟩ w' ⟨⟨M, hn', hM, hle, hsym⟩, rfl⟩
        dsimp only at *
        subst hn'
        rw [bitAnd_one, bitAnd_one, bitAnd_seven, idiv_eq two_ne_zero, pure_bind,
          tdiv_two (by omega)]
        split
        · obtain ⟨K, rfl⟩ : ∃ K, M = 2 * K := ⟨M / 2, by omega⟩
          have hK : K ≠ 0 := by omega
          have hhalf : ((2 * K : ℕ) : ℤ) / 2 = K := by omega
          rw [hhalf]
          split
          · rename_i heven
            have hzero : symbol a n = 0 := by
              rw [← hsym, symbol_twos_even hK heven, mul_zero]
            exact Holds.pure ⟨hzero, rfl⟩
          · rename_i hodd
            refine Holds.pure ⟨⟨⟨K, rfl, hK, by omega, ?_⟩, rfl⟩, ?_⟩
            · exact (symbol_twos hK hodd).trans hsym
            · dsimp only
              omega
        · exact Holds.pure ⟨⟨M, rfl, by omega, hle, hsym⟩, rfl⟩
      · intro hle
        exact hstuck (by dsimp only at hle; omega)
    · rintro s w' ⟨hs, rfl⟩
      cases s with
      | none =>
          have hzero : symbol a n = 0 := hs
          rw [hzero] at h
          exact Holds.pure h
      | some s =>
          obtain ⟨n', f⟩ := s
          obtain ⟨M, hn', hodd, hle, hsym⟩ := hs
          dsimp only at hn' hsym
          subst hn'
          refine Holds.bind (jacobi_holds (P := fun j v => j = J(a | M) ∧ v = w') hodd ⟨rfl, rfl⟩
            fun hfuel => hstuck (by omega)) ?_
          rintro j _ ⟨rfl, rfl⟩
          rw [symbol_of_odd hodd] at hsym
          exact Holds.pure (hsym ▸ h)

/-- Both functions return the symbols: `jacobi` for every number above and every odd one below,
`kronecker` for all integers. -/
theorem symbols_correct (fuel : Nat) (w : World) :
    (∀ (a : ℤ) (n : ℕ), n % 2 = 1 → n < fuel → jacobi fuel a n w = .ok (J(a | n), w)) ∧
    (∀ a n : ℤ, n.natAbs < fuel → kronecker fuel a n w = .ok (symbol a n, w)) := by
  constructor
  · intro a n hodd hfuel
    have hrun : Holds (jacobi fuel a n) w (fun r w' => r = J(a | n) ∧ w' = w) fun _ => False :=
      jacobi_holds hodd ⟨rfl, rfl⟩ fun hle => by omega
    obtain ⟨r, w', hr, rfl, rfl⟩ := hrun.returns fun _ h => h
    exact hr
  · intro a n hfuel
    have hrun : Holds (kronecker fuel a n) w (fun r w' => r = symbol a n ∧ w' = w)
        fun _ => False :=
      kronecker_holds ⟨rfl, rfl⟩ fun hle => by omega
    obtain ⟨r, w', hr, rfl, rfl⟩ := hrun.returns fun _ h => h
    exact hr

theorem symbols_of_small : jacobi 16 2 15 ⟨[], 0⟩ = .ok (J(2 | 15), ⟨[], 0⟩) ∧
    kronecker 16 (-3) (-10) ⟨[], 0⟩ = .ok (symbol (-3) (-10), ⟨[], 0⟩) :=
  ⟨(symbols_correct 16 ⟨[], 0⟩).1 2 15 (by decide) (by decide),
    (symbols_correct 16 ⟨[], 0⟩).2 (-3) (-10) (by decide)⟩

end Calx.Stdlib
