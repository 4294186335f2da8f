import Calx.Stdlib.Ops
import Mathlib.Data.Int.GCD
import Mathlib.Tactic.Positivity

/-!
# Greatest common divisors

`gcd` and `lcm` of `stdlib.calx`. Euclid's loop takes the remainder that has the
sign of the dividend, so that the sign of the result depends on how many
remainders it goes through.

## Implementation notes

`remainders` counts the remainders other than zero. They have the sign of the
first operand and of the second in turn.
-/

namespace Calx.Stdlib

open Loop

variable (fuel : Nat)

/-- `gcd`. -/
def gcd (u v : ℤ) : Calc ℤ :=
  if v = 0 then pure u
  else
    loop .exhausted (fun (u, v) => do
      let u ← imod u v
      if u = 0 then pure (.inr v) else pure (.inl (v, u))) fuel ((u, v) : ℤ × ℤ)

/-- `lcm`. -/
def lcm (u v : ℤ) : Calc ℤ := do
  let r ← gcd fuel u v
  if r = 0 then pure 0
  else
    let q ← idiv u r
    pure (q * v)

variable {fuel} {w : World} {u v : ℤ}

/-! ## The sign of the last remainder -/

/-- How many remainders other than zero the Euclidean algorithm goes through. -/
def remainders (m n : ℕ) : ℕ :=
  if h : n = 0 then 0
  else if m % n = 0 then 0
  else remainders n (m % n) + 1
termination_by n
decreasing_by exact Nat.mod_lt m (Nat.pos_of_ne_zero h)

/-- The sign that the loop leaves on the result. -/
def lastSign (u v : ℤ) : ℤ := if Even (remainders u.natAbs v.natAbs) then v.sign else u.sign

theorem remainders_of_dvd {m n : ℕ} (h : m % n = 0) : remainders m n = 0 := by
  rw [remainders]
  split
  · rfl
  · rfl

theorem remainders_of_not_dvd {m n : ℕ} (hn : n ≠ 0) (h : m % n ≠ 0) :
    remainders m n = remainders n (m % n) + 1 := by
  rw [remainders, dif_neg hn, if_neg h]

theorem lastSign_of_tmod_eq_zero (h : u.tmod v = 0) : lastSign u v = v.sign := by
  have hnat : u.natAbs % v.natAbs = 0 := by
    rw [← Int.natAbs_tmod, h, Int.natAbs_zero]
  rw [lastSign, remainders_of_dvd hnat, if_pos Even.zero]

/-- A turn of the loop keeps the sign of the result. -/
theorem lastSign_tmod (hv : v ≠ 0) (h : u.tmod v ≠ 0) : lastSign v (u.tmod v) = lastSign u v := by
  have hsign : (u.tmod v).sign = u.sign := by
    rw [Int.sign_tmod, if_neg (mt Int.dvd_iff_tmod_eq_zero.mp h)]
  have hnat : u.natAbs % v.natAbs ≠ 0 := by
    rw [← Int.natAbs_tmod]
    exact Int.natAbs_ne_zero.mpr h
  have hcount := remainders_of_not_dvd (Int.natAbs_ne_zero.mpr hv) hnat
  rw [lastSign, lastSign, hcount, hsign, Int.natAbs_tmod]
  by_cases heven : Even (remainders v.natAbs (u.natAbs % v.natAbs))
  · rw [if_pos heven, if_neg (by simpa [Nat.even_add_one] using heven)]
  · rw [if_neg heven, if_pos (Nat.even_add_one.mpr heven)]

theorem natAbs_lastSign (hv : v ≠ 0) : (lastSign u v).natAbs = 1 := by
  rw [lastSign]
  split
  · exact Int.natAbs_sign_of_ne_zero hv
  · rename_i hodd
    apply Int.natAbs_sign_of_ne_zero
    rintro rfl
    rw [Int.natAbs_zero, remainders_of_dvd (Nat.zero_mod _)] at hodd
    exact hodd Even.zero

/-- A turn of the loop keeps the greatest common divisor. -/
theorem gcd_tmod (u v : ℤ) : Int.gcd v (u.tmod v) = Int.gcd u v := by
  calc Int.gcd v (u.tmod v) = Nat.gcd v.natAbs (u.natAbs % v.natAbs) := by
        rw [Int.gcd_eq_natAbs_gcd_natAbs, Int.natAbs_tmod]
    _ = Nat.gcd (u.natAbs % v.natAbs) v.natAbs := Nat.gcd_comm _ _
    _ = Nat.gcd v.natAbs u.natAbs := (Nat.gcd_rec _ _).symm
    _ = Int.gcd u v := by rw [Int.gcd_comm, Int.gcd_eq_natAbs_gcd_natAbs]

/-! ## What the functions return -/

/-- For all integers, `gcd` returns the greatest common divisor with the sign that the number of
remainders decides. -/
theorem gcd_eq (hv : v ≠ 0) (hfuel : v.natAbs < fuel) :
    gcd fuel u v w = .ok (lastSign u v * Int.gcd u v, w) := by
  have hrun : Holds (gcd fuel u v) w (fun r w' => r = lastSign u v * Int.gcd u v ∧ w' = w)
      fun _ => False := by
    rw [gcd, if_neg hv]
    refine Holds.loop (I := fun (s : ℤ × ℤ) w' => s.2 ≠ 0 ∧
        lastSign s.1 s.2 * Int.gcd s.1 s.2 = lastSign u v * Int.gcd u v ∧ w' = w)
      (V := fun s => s.2.natAbs) ?_ ⟨hv, rfl, rfl⟩ fun hle => by omega
    rintro ⟨a, b⟩ _ ⟨hb, hres, rfl⟩
    dsimp only at *
    rw [imod_eq hb, pure_bind]
    split
    · rename_i hzero
      have hgcd : Int.gcd a b = b.natAbs := by
        rw [← gcd_tmod, hzero, Int.gcd_zero_right]
      rw [lastSign_of_tmod_eq_zero hzero, hgcd, Int.sign_mul_natAbs] at hres
      exact Holds.pure ⟨hres, rfl⟩
    · rename_i hnz
      have hlt : (a.tmod b).natAbs < b.natAbs := by
        rw [Int.natAbs_tmod]
        exact Nat.mod_lt _ (Int.natAbs_pos.mpr hb)
      refine Holds.pure ⟨⟨hnz, ?_, rfl⟩, hlt⟩
      rw [lastSign_tmod hb hnz, gcd_tmod, hres]
  obtain ⟨r, w', hr, rfl, rfl⟩ := hrun.returns fun _ h => h
  exact hr

/-- What both functions rely on: a greatest common divisor with the sign of one operand. -/
theorem gcd_returns (hfuel : v.natAbs < fuel) : ∃ r, gcd fuel u v w = .ok (r, w) ∧
    r.natAbs = Int.gcd u v ∧ (r.sign = u.sign ∨ r.sign = v.sign) := by
  by_cases hv : v = 0
  · subst hv
    exact ⟨u, rfl, (Int.gcd_zero_right u).symm, .inl rfl⟩
  · have hpos : 0 < Int.gcd u v := Int.gcd_pos_of_ne_zero_right u hv
    have hsign : (Int.gcd u v : ℤ).sign = 1 := Int.sign_eq_one_of_pos (by exact_mod_cast hpos)
    refine ⟨_, gcd_eq hv hfuel, ?_, ?_⟩
    · rw [Int.natAbs_mul, natAbs_lastSign hv, one_mul, Int.natAbs_natCast]
    · rw [Int.sign_mul, hsign, mul_one, lastSign]
      split
      · exact .inr Int.sign_sign
      · exact .inl Int.sign_sign

/-- What `lcm` returns, from what `gcd` returns. -/
theorem lcm_returns (hfuel : v.natAbs < fuel) : ∃ r l, gcd fuel u v w = .ok (r, w) ∧
    lcm fuel u v w = .ok (l, w) ∧ r.natAbs = Int.gcd u v ∧ (r.sign = u.sign ∨ r.sign = v.sign) ∧
    r * l = u * v ∧ (r = 0 → l = 0) := by
  obtain ⟨r, hr, habs, hsign⟩ := gcd_returns (w := w) (u := u) hfuel
  have hrun := bind_of_ok (f := fun r => if r = 0 then pure 0 else do
    let q ← idiv u r
    pure (q * v)) hr
  by_cases hzero : r = 0
  · subst hzero
    have hu : u = 0 := by
      have := Int.gcd_eq_zero_iff.mp (habs.symm.trans Int.natAbs_zero)
      exact this.1
    refine ⟨0, 0, hr, hrun, habs, hsign, ?_, fun _ => rfl⟩
    rw [hu, zero_mul, zero_mul]
  · have hdvd : r ∣ u := by
      rw [← Int.natAbs_dvd, habs]
      exact Int.gcd_dvd_left ..
    rw [if_neg hzero, idiv_eq hzero, pure_bind] at hrun
    refine ⟨r, u.tdiv r * v, hr, hrun, habs, hsign, ?_, fun h => absurd h hzero⟩
    rw [← mul_assoc, Int.mul_tdiv_cancel' hdvd]

/-- The two functions return the greatest common divisor and the least common multiple exactly of
integers that are not negative. -/
theorem gcd_lcm_iff (u v : ℤ) (fuel : Nat) (hfuel : v.natAbs < fuel) (w : World) :
    (gcd fuel u v w = .ok ((Int.gcd u v : ℤ), w) ∧ lcm fuel u v w = .ok ((Int.lcm u v : ℤ), w)) ↔
      0 ≤ u ∧ 0 ≤ v := by
  obtain ⟨r, l, hr, hl, habs, hsign, hmul, hzero⟩ := lcm_returns (w := w) (u := u) hfuel
  have hprod : (Int.gcd u v : ℤ) * Int.lcm u v = |u| * |v| := by
    rw [Int.abs_eq_natAbs, Int.abs_eq_natAbs]
    exact_mod_cast Int.gcd_mul_lcm u v
  rw [hr, hl]
  simp only [Except.ok.injEq, Prod.mk.injEq, and_true]
  constructor
  · rintro ⟨hg, hlcm⟩
    have hnonneg : 0 ≤ u * v := by
      rw [← hmul, hg, hlcm]
      positivity
    have hr0 : 0 ≤ r := by omega
    by_contra hneg
    have hne : r ≠ 0 := by
      intro h0
      have := Int.gcd_eq_zero_iff.mp (habs.symm.trans (Int.natAbs_eq_zero.mpr h0))
      omega
    have hone : r.sign = 1 := Int.sign_eq_one_of_pos (by omega)
    rcases hsign with hu | hv
    · have hu : 0 < u := Int.sign_eq_one_iff_pos.mp (hu.symm.trans hone)
      have := mul_neg_of_pos_of_neg hu (b := v) (by omega)
      omega
    · have hv : 0 < v := Int.sign_eq_one_iff_pos.mp (hv.symm.trans hone)
      have := mul_neg_of_neg_of_pos (a := u) (by omega) hv
      omega
  · rintro ⟨hu, hv⟩
    have hr0 : 0 ≤ r := by
      rw [← Int.sign_nonneg_iff]
      rcases hsign with h | h
      · rw [h]
        exact Int.sign_nonneg_iff.mpr hu
      · rw [h]
        exact Int.sign_nonneg_iff.mpr hv
    have hg : r = Int.gcd u v := by omega
    refine ⟨hg, ?_⟩
    by_cases h0 : r = 0
    · have hgcd : Int.gcd u v = 0 := by omega
      have := Int.gcd_eq_zero_iff.mp hgcd
      rw [hzero h0, this.1, this.2, Int.lcm_zero_left, Nat.cast_zero]
    · apply mul_left_cancel₀ h0
      rw [hmul, hg, hprod, abs_of_nonneg hu, abs_of_nonneg hv]

theorem gcd_lcm_of_twelve :
    (gcd 19 12 18 ⟨[], 0⟩ = .ok ((Int.gcd 12 18 : ℤ), ⟨[], 0⟩) ∧
      lcm 19 12 18 ⟨[], 0⟩ = .ok ((Int.lcm 12 18 : ℤ), ⟨[], 0⟩)) ↔ (0 : ℤ) ≤ 12 ∧ (0 : ℤ) ≤ 18 :=
  gcd_lcm_iff 12 18 19 (by decide) ⟨[], 0⟩

/-- Two negative numbers have a negative result. -/
theorem gcd_of_negative : ¬ ∀ (u v : ℤ) (fuel : Nat) (w : World), v.natAbs < fuel →
    gcd fuel u v w = .ok ((Int.gcd u v : ℤ), w) ∧ lcm fuel u v w = .ok ((Int.lcm u v : ℤ), w) := by
  intro h
  have hrun := (h (-4) (-6) 7 ⟨[], 0⟩ (by decide)).1
  have hneg : gcd 7 (-4) (-6) ⟨[], 0⟩ = .ok (-2, ⟨[], 0⟩) := rfl
  rw [hneg] at hrun
  simp at hrun

end Calx.Stdlib
