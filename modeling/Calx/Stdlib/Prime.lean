import Calx.Stdlib.Arith
import Mathlib.FieldTheory.Finite.Basic

/-!
# The primality test

`probab_prime_round` and `probab_prime` of `stdlib.calx`, and the completeness
of the Miller-Rabin round: a prime passes it with every base.

## Implementation notes

The residues of a round are read in the field `ZMod p`. The rounds of a prime
keep one invariant: the current residue is neither `1` nor `-1`, and squaring
it as often as there are turns left and once more gives `1`.
-/

namespace Calx.Stdlib

open Loop

variable (fuel : Nat)

/-- `probab_prime_round`. -/
def probabPrimeRound (n a : ℤ) : Calc Bool := do
  let (d, r) ← loop .exhausted (fun (d, r) => do
    if bitAnd d 1 = 0 then
      let d ← idiv d 2
      pure (.inl (d, r + 1))
    else pure (.inr (d, r))) fuel ((n - 1, 0) : ℤ × ℤ)
  let x ← modPow fuel a d n
  if x = 1 ∨ x = n - 1 then pure true
  else
    loop .exhausted (fun (x, i) => do
      if i < r then
        let x ← imod (x * x) n
        if x = n - 1 then pure (.inr true) else pure (.inl (x, i + 1))
      else pure (.inr false)) fuel ((x, 1) : ℤ × ℤ)

/-- `probab_prime`. -/
def probabPrime (n nrounds : ℤ) : Calc Bool := do
  if n < 4 ∨ bitAnd n 1 = 0 then pure (n = 2)
  else
    loop .exhausted (fun i => do
      if i < nrounds then
        let a ← randomRange fuel 2 (n - 1)
        if !(← probabPrimeRound fuel n a) then pure (.inr false) else pure (.inl (i + 1))
      else pure (.inr true)) fuel (0 : ℤ)

/-! ## Residues -/

section Residues

variable {p : ℕ} [Fact p.Prime] {x y : ℤ}

theorem residue_eq_iff (hx : 0 ≤ x) (hx' : x < p) (hy : 0 ≤ y) (hy' : y < p) :
    (x : ZMod p) = y ↔ x = y := by
  rw [ZMod.intCast_eq_intCast_iff', Int.emod_eq_of_lt hx hx', Int.emod_eq_of_lt hy hy']

theorem residue_eq_one_iff (hx : 0 ≤ x) (hx' : x < p) : (x : ZMod p) = 1 ↔ x = 1 := by
  have hp := (Fact.out : p.Prime).one_lt
  simpa using residue_eq_iff (p := p) hx hx' (y := 1) (by omega) (by omega)

theorem residue_eq_neg_one_iff (hx : 0 ≤ x) (hx' : x < p) : (x : ZMod p) = -1 ↔ x = p - 1 := by
  have hp := (Fact.out : p.Prime).one_lt
  simpa using residue_eq_iff (p := p) hx hx' (y := p - 1) (by omega) (by omega)

/-- Fermat's little theorem for the base of a round. -/
theorem residue_pow_eq_one {a d : ℤ} {k : ℕ} (ha : 0 < a) (ha' : a < p) (hd : 0 ≤ d)
    (hdk : d * 2 ^ k = p - 1) : ((a : ZMod p) ^ d.toNat) ^ 2 ^ k = 1 := by
  have hp := (Fact.out : p.Prime).one_lt
  have hne : (a : ZMod p) ≠ 0 := by
    intro h
    have h0 : a = 0 := (residue_eq_iff (p := p) ha.le ha' le_rfl (by omega)).mp (by simpa using h)
    omega
  have hexp : d.toNat * 2 ^ k = p - 1 := by
    zify [hp.le]
    rw [Int.toNat_of_nonneg hd, hdk]
  rw [← pow_mul, hexp, ZMod.pow_card_sub_one_eq_one hne]

end Residues

/-! ## A prime passes every round -/

variable {fuel} {w : World} {P : Bool → World → Prop} {R : Stop → Prop}

/-- The first loop of a round splits off the powers of two. -/
theorem halving_holds {n : ℤ} {P : ℤ × ℤ → World → Prop} (hn : 0 < n)
    (h : ∀ d (k : ℕ), 0 < d → d % 2 = 1 → d * 2 ^ k = n → P (d, k) w)
    (hstuck : fuel ≤ n.toNat → R .exhausted) :
    Holds (Loop.loop .exhausted (fun (d, r) => do
      if bitAnd d 1 = 0 then
        let d ← idiv d 2
        pure (.inl (d, r + 1))
      else pure (.inr (d, r))) fuel ((n, 0) : ℤ × ℤ)) w P R := by
  refine Holds.loop (I := fun (s : ℤ × ℤ) w' =>
      0 < s.1 ∧ (∃ k : ℕ, s.2 = k ∧ s.1 * 2 ^ k = n) ∧ w' = w)
    (V := fun s => s.1.toNat) ?_ ⟨hn, ⟨0, rfl, by simp⟩, rfl⟩ hstuck
  rintro ⟨d, r⟩ _ ⟨hd, ⟨k, hr, hk⟩, rfl⟩
  dsimp only at *
  subst hr
  rw [bitAnd_one, idiv_eq two_ne_zero, pure_bind, tdiv_two hd.le]
  split
  · rename_i heven
    have hhalf : d / 2 * 2 = d := by omega
    have hpos : 0 < d / 2 := by omega
    have hlt : (d / 2).toNat < d.toNat := by omega
    refine Holds.pure ⟨⟨hpos, ⟨k + 1, by simp, ?_⟩, rfl⟩, hlt⟩
    rw [pow_succ', ← mul_assoc, hhalf, hk]
  · exact Holds.pure (h d k hd (by omega) hk)

/-- The second loop of a round ends with `true`: it never reaches a square root of one. -/
theorem squaring_holds {p : ℕ} (hp : p.Prime) {r x i : ℤ} {j : ℕ} (hx : 0 ≤ x) (hx' : x < p)
    (h1 : x ≠ 1) (h2 : x ≠ p - 1) (hi : i + j = r) (hone : (x : ZMod p) ^ 2 ^ (j + 1) = 1)
    (h : P true w) (hstuck : fuel ≤ j → R .exhausted) :
    Holds (Loop.loop .exhausted (fun (x, i) => do
      if i < r then
        let x ← imod (x * x) p
        if x = p - 1 then pure (.inr true) else pure (.inl (x, i + 1))
      else pure (.inr false)) fuel ((x, i) : ℤ × ℤ)) w P R := by
  have := Fact.mk hp
  have hpos : (0 : ℤ) < p := by exact_mod_cast hp.pos
  refine Holds.loop (I := fun (s : ℤ × ℤ) w' => 0 ≤ s.1 ∧ s.1 < p ∧ s.1 ≠ 1 ∧ s.1 ≠ p - 1 ∧
      (∃ j : ℕ, s.2 + j = r ∧ (s.1 : ZMod p) ^ 2 ^ (j + 1) = 1) ∧ w' = w)
    (V := fun s => (r - s.2).toNat) ?_ ⟨hx, hx', h1, h2, ⟨j, hi, hone⟩, rfl⟩ ?_
  · rintro ⟨x, i⟩ _ ⟨hx, hx', h1, h2, ⟨j, hi, hone⟩, rfl⟩
    dsimp only at *
    rw [imod_eq hpos.ne', pure_bind, Int.tmod_eq_emod_of_nonneg (mul_nonneg hx hx)]
    have hne1 : (x : ZMod p) ≠ 1 := mt (residue_eq_one_iff hx hx').mp h1
    have hne2 : (x : ZMod p) ≠ -1 := mt (residue_eq_neg_one_iff hx hx').mp h2
    have hsq : ((x * x % p : ℤ) : ZMod p) = x * x := by simp
    have hroot : ((x * x % p : ℤ) : ZMod p) ≠ 1 := by
      rw [hsq, Ne, mul_self_eq_one_iff]
      exact not_or.mpr ⟨hne1, hne2⟩
    have hnn : 0 ≤ x * x % p := Int.emod_nonneg _ hpos.ne'
    have hlt : x * x % p < p := Int.emod_lt_of_pos _ hpos
    split
    · split
      · exact Holds.pure h
      · rename_i hir hend
        obtain ⟨j, rfl⟩ : ∃ k, j = k + 1 := ⟨j - 1, by omega⟩
        have hnext : i + 1 + j = r := by omega
        have hsmall : (r - (i + 1)).toNat < (r - i).toNat := by omega
        refine Holds.pure ⟨⟨hnn, hlt, ?_, hend, ⟨j, hnext, ?_⟩, rfl⟩, hsmall⟩
        · exact mt (residue_eq_one_iff hnn hlt).mpr hroot
        · rw [hsq, ← sq, ← pow_mul, ← pow_succ', hone]
    · obtain rfl : j = 0 := by omega
      refine absurd ?_ hroot
      rw [hsq, ← sq]
      simpa using hone
  · intro hle
    exact hstuck (by dsimp only at hle; omega)

/-- A prime passes the round of every admissible base. -/
theorem probabPrimeRound_holds {p : ℕ} (hp : p.Prime) (h5 : 5 ≤ p) {a : ℤ} (ha : 2 ≤ a)
    (ha' : a < p - 1) (h : P true w) (hstuck : fuel ≤ p → R .exhausted) :
    Holds (probabPrimeRound fuel p a) w P R := by
  have := Fact.mk hp
  have hodd : p % 2 = 1 := hp.eq_two_or_odd.resolve_left (by omega)
  refine Holds.bind (P := fun (s : ℤ × ℤ) w' => (0 < s.1 ∧ ∃ k : ℕ, s.2 = k + 1 ∧
      s.1 * 2 ^ (k + 1) = (p : ℤ) - 1) ∧ w' = w) ?_ ?_
  · refine halving_holds (by omega) ?_ fun hle => hstuck (by omega)
    intro d k hd hd1 hdk
    cases k with
    | zero =>
        have : d = p - 1 := by simpa using hdk
        omega
    | succ k => exact ⟨⟨hd, k, by simp, hdk⟩, rfl⟩
  rintro ⟨d, r⟩ w ⟨⟨hd, k, hr, hdk⟩, rfl⟩
  dsimp only at *
  have hk : (2 : ℤ) ^ (k + 1) ≤ p - 1 := by
    rw [← hdk]
    exact le_mul_of_one_le_left (by positivity) hd
  have hdp : d ≤ p - 1 := by
    rw [← hdk]
    exact le_mul_of_one_le_right hd.le (one_le_pow₀ (by norm_num))
  refine Holds.bind (modPow_holds (P := fun x w' => x = a ^ d.toNat % p ∧ w' = w)
    (by omega) hd.le (by omega) ⟨rfl, rfl⟩ fun hle => hstuck (by omega)) ?_
  rintro x _ ⟨rfl, rfl⟩
  have hx : 0 ≤ a ^ d.toNat % (p : ℤ) := Int.emod_nonneg _ (by omega)
  have hx' : a ^ d.toNat % (p : ℤ) < p := Int.emod_lt_of_pos _ (by omega)
  split
  · exact Holds.pure h
  · rename_i hne
    obtain ⟨h1, h2⟩ := not_or.mp hne
    have hone : ((a ^ d.toNat % (p : ℤ) : ℤ) : ZMod p) ^ 2 ^ (k + 1) = 1 := by
      simpa using residue_pow_eq_one (by omega) (by omega) hd.le hdk
    refine squaring_holds hp hx hx' h1 h2 (by omega) hone h fun hle => hstuck ?_
    have := (Nat.lt_two_pow_self (n := k + 1))
    zify at *
    omega

/-- For every prime from five on and every admissible base, the round returns `true` as soon as
the fuel exceeds the prime. -/
theorem prime_passes_round {p : ℕ} (hp : p.Prime) (h5 : 5 ≤ p) {a : ℤ} (ha : 2 ≤ a)
    (ha' : a < p - 1) (hfuel : p < fuel) (w : World) :
    probabPrimeRound fuel p a w = .ok (true, w) := by
  have hrun : Holds (probabPrimeRound fuel p a) w (fun b w' => b = true ∧ w' = w)
      fun _ => False := by
    apply probabPrimeRound_holds hp h5 ha ha'
    · exact ⟨rfl, rfl⟩
    · intro hle
      omega
  obtain ⟨b, w', hr, rfl, rfl⟩ := hrun.returns fun _ h => h
  exact hr

theorem prime_passes_round_of_thirteen :
    probabPrimeRound 14 (13 : ℕ) 5 ⟨[], 0⟩ = .ok (true, ⟨[], 0⟩) :=
  prime_passes_round (by decide) (by decide) (by decide) (by decide) (by decide) _

/-! ## The test -/

/-- Whatever the random words, the test answers a prime from five on with `true`. -/
theorem probabPrime_holds {p : ℕ} (hp : p.Prime) (h5 : 5 ≤ p) (nrounds : ℤ) :
    Holds (probabPrime fuel p nrounds) w (fun b _ => b = true) fun _ => True := by
  have hodd : p % 2 = 1 := hp.eq_two_or_odd.resolve_left (by omega)
  rw [probabPrime, if_neg (by rw [bitAnd_one]; omega)]
  refine Holds.loop_of_invariant (I := fun _ _ => True) (fun i w' _ => ?_) trivial trivial
  split
  · refine Holds.bind (randomRange_range fun _ => trivial) fun a w' ha => ?_
    refine Holds.bind (probabPrimeRound_holds (P := fun b _ => b = true) hp h5 ha.1 ha.2 rfl
      fun _ => trivial) fun b w' hb => ?_
    subst hb
    exact Holds.pure trivial
  · exact Holds.pure rfl

/-- For every number of rounds and all words that `Random32` may deliver: when the test returns, it
answers a prime with `true`, three excepted. -/
theorem probab_prime_accepts_iff {p : ℕ} (hp : p.Prime) (fuel : Nat) (nrounds : ℤ) (w w' : World)
    (b : Bool) (h : probabPrime fuel p nrounds w = .ok (b, w')) : b = true ↔ p ≠ 3 := by
  by_cases h5 : 5 ≤ p
  · have hb : b = true := (probabPrime_holds hp h5 nrounds).ok h
    exact iff_of_true hb (by omega)
  · have h2 := hp.two_le
    have hne4 : p ≠ 4 := by
      rintro rfl
      exact absurd hp (by decide)
    rw [probabPrime, if_pos (by omega)] at h
    obtain ⟨rfl, rfl⟩ := Prod.mk.inj (Except.ok.inj h)
    simp only [decide_eq_true_eq]
    omega

theorem probab_prime_accepts_iff_seven :
    ∃ w', probabPrime 5 (7 : ℕ) 1 ⟨[1], 0⟩ = .ok (true, w') ∧ ((true = true) ↔ 7 ≠ 3) :=
  ⟨_, rfl, probab_prime_accepts_iff (by decide) 5 1 ⟨[1], 0⟩ _ true rfl⟩

/-- The test rejects the prime three. -/
theorem probab_prime_rejects_three : ¬ ∀ p : ℕ, p.Prime → ∀ (fuel : Nat) (nrounds : ℤ),
    0 ≤ nrounds → ∀ (w w' : World) (b : Bool), probabPrime fuel p nrounds w = .ok (b, w') →
      b = true := by
  intro h
  have := h 3 (by decide) 1 5 (by decide) ⟨[], 0⟩ ⟨[], 0⟩ false rfl
  exact absurd this Bool.false_ne_true

end Calx.Stdlib
