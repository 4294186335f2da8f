import Calx.Stdlib.Arith
import Calx.Stdlib.Decimal
import Mathlib.Analysis.SpecialFunctions.Pow.NthRootLemmas

/-!
# Roots

`nth_root_NAT_APPROX`, `nth_root_NAT` and `nth_root` of `stdlib.calx`: a
bisection on the leading digits finds an upper bound of the root, from which an
integer Newton iteration decreases to the root rounded down.

## Implementation notes

The quotient `nsteps / 3.32` depends on the scale. It only decides how many
digits the bisection works on, and every number of digits gives an upper bound.
-/

namespace Calx.Stdlib

open Loop

variable (fuel : Nat)

/-- `nth_root_NAT_APPROX`. -/
def nthRootNatApprox (a n nsteps : ℤ) : Calc ℤ := do
  if a = 0 then pure 1
  else
    let k ← numDigits a
    let p ← idiv (k - 1) n
    let t ← div nsteps 3.32
    let q := p - (floor t + 1)
    let q := if q < 0 then 0 else q
    let a' ← downScale a (q * n)
    let a := ceil a'
    let lb ← upScale (1 : ℤ) (p - q)
    let rb ← upScale (1 : ℤ) (p - q + 1)
    let rb ← loop .exhausted (fun (nsteps, lb, rb) => do
      if nsteps > 0 then
        let mid ← idiv (lb + rb) 2
        if mid = lb then pure (.inr rb)
        else
          let t ← pow mid n
          if t ≤ a then pure (.inl (nsteps - 1, mid, rb)) else pure (.inl (nsteps - 1, lb, mid))
      else pure (.inr rb)) fuel ((nsteps, lb, rb) : ℤ × ℤ × ℤ)
    upScale rb q

/-- The two counting loops of `nth_root_NAT`: `nsteps` grows by `c` for each bit of `tmp`. -/
def addSteps (tmp c nsteps : ℤ) : Calc ℤ :=
  loop .exhausted (fun (tmp, nsteps) => do
    if tmp > 0 then
      let tmp ← idiv tmp 2
      pure (.inl (tmp, nsteps + c))
    else pure (.inr nsteps)) fuel ((tmp, nsteps) : ℤ × ℤ)

/-- `nth_root_NAT`. -/
def nthRootNat (a n : ℤ) : Calc ℤ := do
  let nsteps ← addSteps fuel n 1 0
  let k ← numDigits a
  let nsteps ← addSteps fuel k 4 nsteps
  let x ← nthRootNatApprox fuel a n nsteps
  loop .exhausted (fun x => do
    let t ← pow x n
    if t > a then
      let y ← pow x (n - 1)
      let y ← idiv a y
      let x ← idiv (y + (n - 1) * x) n
      pure (.inl x)
    else pure (.inr x)) fuel x

/-- `nth_root`. -/
def nthRoot (a : ℚ) (n : ℤ) : Calc ℚ := do
  if a < 0 ∧ bitAnd n 1 = 0 then
    throw (.raised "cannot take even root of negative value")
  else
    let neg : Bool := a < 0
    let a := if neg then -a else a
    let s ← scale
    let a ← upScale a (s * n)
    let a ← idivNum a 1
    let r ← nthRootNat fuel a n
    let r ← downScale r s
    pure (if neg then -r else r)

variable {fuel} {w : World} {P : ℤ → World → Prop} {R : Stop → Prop} {a n : ℕ}

/-! ## The number of steps -/

theorem addSteps_holds {tmp c nsteps : ℤ} (ht : 0 ≤ tmp) (hc : 0 ≤ c)
    (hstuck : fuel ≤ tmp.toNat → R .exhausted) :
    Holds (addSteps fuel tmp c nsteps) w
      (fun r w' => nsteps ≤ r ∧ r ≤ nsteps + c * tmp ∧ w' = w) R := by
  refine Holds.loop (I := fun (s : ℤ × ℤ) w' => 0 ≤ s.1 ∧ nsteps ≤ s.2 ∧
      s.2 + c * s.1 ≤ nsteps + c * tmp ∧ w' = w)
    (V := fun s => s.1.toNat) ?_ ⟨ht, le_rfl, le_rfl, rfl⟩ hstuck
  rintro ⟨t, r⟩ _ ⟨ht', hr, hle, rfl⟩
  dsimp only at *
  rw [idiv_eq two_ne_zero, pure_bind, tdiv_two ht']
  split
  · have hhalf : 0 ≤ t / 2 := by omega
    have hlt : (t / 2).toNat < t.toNat := by omega
    have hc' : c * (t / 2 + 1) ≤ c * t := mul_le_mul_of_nonneg_left (by omega) hc
    exact Holds.pure ⟨⟨hhalf, by dsimp only; omega, by dsimp only; linarith, rfl⟩, hlt⟩
  · obtain rfl : t = 0 := by omega
    exact Holds.pure ⟨hr, by simpa using hle, rfl⟩

/-! ## The upper bound -/

/-- One turn of the bisection. -/
def bisectTurn (A n : ℤ) : ℤ × ℤ × ℤ → Calc ((ℤ × ℤ × ℤ) ⊕ ℤ) := fun (nsteps, lb, rb) => do
  if nsteps > 0 then
    let mid ← idiv (lb + rb) 2
    if mid = lb then pure (.inr rb)
    else
      let t ← pow mid n
      if t ≤ A then pure (.inl (nsteps - 1, mid, rb)) else pure (.inl (nsteps - 1, lb, mid))
  else pure (.inr rb)

/-- The bisection keeps the power of its upper end at or above the number. -/
theorem bisect_holds {A lb rb top nsteps : ℤ} (hn : (n : ℤ) < sizeMax) (hlb : 1 ≤ lb) (hle : lb ≤ rb)
    (hA : A ≤ rb ^ n) (htop : rb ≤ top) (hstuck : fuel ≤ nsteps.toNat → R .exhausted) :
    Holds (Loop.loop .exhausted (bisectTurn A n) fuel (nsteps, lb, rb)) w
      (fun r w' => (1 ≤ r ∧ r ≤ top) ∧ A ≤ r ^ n ∧ w' = w) R := by
  refine Holds.loop (I := fun (s : ℤ × ℤ × ℤ) w' => 1 ≤ s.2.1 ∧ s.2.1 ≤ s.2.2 ∧ s.2.2 ≤ top ∧
      A ≤ s.2.2 ^ n ∧ w' = w)
    (V := fun s => s.1.toNat) ?_ ⟨hlb, hle, htop, hA, rfl⟩ hstuck
  rintro ⟨k, l, r⟩ _ ⟨hl, hlr, hrt, hAr, rfl⟩
  dsimp only at *
  rw [bisectTurn, idiv_eq two_ne_zero, pure_bind, tdiv_two (by omega), pow_eq (by omega) hn,
    pure_bind, Int.toNat_natCast]
  have hmid : l ≤ (l + r) / 2 ∧ (l + r) / 2 ≤ r := by omega
  split
  · have hlt : (k - 1).toNat < k.toNat := by omega
    split
    · exact Holds.pure ⟨⟨hl.trans hlr, hrt⟩, hAr, rfl⟩
    · split
      · exact Holds.pure ⟨⟨hl.trans hmid.1, hmid.2, hrt, hAr, rfl⟩, hlt⟩
      · rename_i hgt
        exact Holds.pure ⟨⟨hl, hmid.1, hmid.2.trans hrt, (not_le.mp hgt).le, rfl⟩, hlt⟩
  · exact Holds.pure ⟨⟨hl.trans hlr, hrt⟩, hAr, rfl⟩

/-- Without its last `q * n` digits the number is at most the power of the first upper end. -/
theorem ceil_le_pow {k p q : ℕ} (hk : k ≤ (p + 1) * n) (hq : q ≤ p) (ha : a < 10 ^ k) :
    ceil ((a : ℚ) / 10 ^ (q * n)) ≤ (10 ^ (p - q + 1) : ℤ) ^ n := by
  have hpow : (10 : ℚ) ^ ((p + 1) * n) = (10 ^ (p - q + 1)) ^ n * 10 ^ (q * n) := by
    rw [← pow_mul, ← pow_add, ← Nat.add_mul]
    congr 2
    omega
  have hlt : (a : ℚ) ≤ 10 ^ ((p + 1) * n) := by
    exact_mod_cast ha.le.trans (Nat.pow_le_pow_right (by norm_num) hk)
  rw [ceil, Int.ceil_le, div_le_iff₀ (by positivity)]
  push_cast
  rwa [← hpow]

/-- An upper end for the leading digits is an upper bound of the root of the number. -/
theorem le_pow_of_ceil_le {q : ℕ} {r : ℤ} (h : ceil ((a : ℚ) / 10 ^ (q * n)) ≤ r ^ n) :
    (a : ℤ) ≤ (r * 10 ^ q) ^ n := by
  have hle : (a : ℚ) / 10 ^ (q * n) ≤ (r : ℚ) ^ n := by
    exact_mod_cast Int.ceil_le.mp h
  rw [div_le_iff₀ (by positivity)] at hle
  rw [mul_pow, ← pow_mul]
  exact_mod_cast hle

theorem div_lt_of_pow {k : ℕ} (hn : 2 ≤ n) (hk : 0 < k) :
    (k - 1) / n < k ∧ (k - 1) / n * n < k ∧ k ≤ ((k - 1) / n + 1) * n := by
  have h1 := Nat.div_add_mod (k - 1) n
  have h2 := Nat.mod_lt (k - 1) (by omega : 0 < n)
  have h3 : (k - 1) / n * n = n * ((k - 1) / n) := Nat.mul_comm _ _
  have h4 : ((k - 1) / n + 1) * n = n * ((k - 1) / n) + n := by ring
  have h5 : (k - 1) / n ≤ k - 1 := Nat.div_le_self _ _
  omega

theorem nthRootNatApprox_holds {nsteps : ℤ} (hn : 2 ≤ n) (hn' : n < sizeMax ∨ a = 0)
    (hd : nintdigits a < sizeMax) (hs : 0 ≤ nsteps) (hstuck : fuel ≤ nsteps.toNat → R .exhausted) :
    Holds (nthRootNatApprox fuel a n nsteps) w
      (fun x w' => (1 ≤ x ∧ x ≤ 10 ^ nintdigits a) ∧ (a : ℤ) ≤ x ^ n ∧ w' = w) R := by
  rw [nthRootNatApprox]
  split
  · rename_i h0
    refine Holds.pure ⟨⟨le_rfl, ?_⟩, by simp [h0], rfl⟩
    exact one_le_pow₀ (by norm_num)
  rename_i h0
  have hne : a ≠ 0 := by simpa using h0
  have hsize : n < sizeMax := hn'.resolve_right hne
  have hk := nintdigits_pos hne
  obtain ⟨hp, hpn, hkn⟩ := div_lt_of_pow hn hk
  have hidiv : ((nintdigits a : ℤ) - 1).tdiv n = ((nintdigits a - 1) / n : ℕ) := by
    rw [← Nat.cast_one, ← Nat.cast_sub hk]
    exact (Int.ofNat_tdiv _ _).symm
  rw [numDigits_eq (by simpa using hd), pure_bind, Int.natAbs_natCast, idiv_eq (by omega), pure_bind, hidiv]
  refine Holds.bind (div_holds (by exact_mod_cast hs) (by norm_num)) ?_
  rintro t _ ⟨ht, rfl⟩
  have ht' : 0 ≤ floor t := Int.floor_nonneg.mpr ht
  generalize (nintdigits a - 1) / n = p at hp hpn hkn ⊢
  obtain ⟨q, hq, hqp⟩ : ∃ q : ℕ,
      (if (p : ℤ) - (floor t + 1) < 0 then 0 else (p : ℤ) - (floor t + 1)) = q ∧ q ≤ p := by
    split
    · exact ⟨0, rfl, Nat.zero_le _⟩
    · exact ⟨(p - (floor t + 1)).toNat, by omega, by omega⟩
  have hqn : q * n ≤ p * n := Nat.mul_le_mul_right n hqp
  have hscale : (p : ℤ) - q = (p - q : ℕ) := by omega
  have hscale' : (p : ℤ) - q + 1 = (p - q + 1 : ℕ) := by omega
  have hmul : (q : ℤ) * n = (q * n : ℕ) := by push_cast; rfl
  simp only [hq]
  rw [hmul, downScale_eq _ (by omega) (by omega), pure_bind, hscale', hscale,
    upScale_eq _ (by omega) (by omega), pure_bind, upScale_eq _ (by omega) (by omega), pure_bind]
  simp only [Int.toNat_natCast, one_mul]
  refine Holds.bind (bisect_holds (by omega) (one_le_pow₀ (by norm_num))
    (pow_le_pow_right₀ (by norm_num) (Nat.le_succ _)) ?_ le_rfl hstuck) ?_
  · exact ceil_le_pow hkn hqp (lt_pow_nintdigits a)
  rintro r _ ⟨⟨hr, hr'⟩, hA, rfl⟩
  rw [upScale_eq _ (by omega) (by omega), Int.toNat_natCast]
  refine Holds.pure ⟨⟨?_, ?_⟩, le_pow_of_ceil_le hA, rfl⟩
  · exact one_le_mul_of_one_le_of_one_le hr (one_le_pow₀ (by norm_num))
  · calc r * 10 ^ q ≤ 10 ^ (p - q + 1) * 10 ^ q := by gcongr
      _ = 10 ^ (p + 1) := by
        rw [← pow_add]
        congr 1
        omega
      _ ≤ 10 ^ nintdigits a := pow_le_pow_right₀ (by norm_num) hp

/-! ## Newton's iteration -/

/-- A step from above the root goes down. -/
theorem newton_lt {x : ℕ} (h : a < x ^ (n + 1)) : (a / x ^ n + n * x) / (n + 1) < x := by
  have hx : 0 < x := by
    rcases Nat.eq_zero_or_pos x with rfl | hx
    · simp at h
    · exact hx
  have hdiv : a / x ^ n < x := by
    rw [Nat.div_lt_iff_lt_mul (by positivity), ← pow_succ']
    exact h
  rw [Nat.div_lt_iff_lt_mul (Nat.succ_pos n)]
  calc a / x ^ n + n * x < x + n * x := by omega
    _ = x * (n + 1) := by ring

/-- The powers of a base that is 0 or 1 are computed at every exponent. -/
theorem pow_natCast {m k : ℕ} (hk : k ≠ 0) (h : k < sizeMax ∨ m ≤ 1) :
    pow m k = pure ((m : ℤ) ^ k) := by
  rcases lt_or_ge k sizeMax with hlt | hge
  · rw [pow_eq (by omega) (by exact_mod_cast hlt), Int.toNat_natCast]
  · have hm : m ≤ 1 := h.resolve_left (not_lt.mpr hge)
    have hge' : ¬ (k : ℤ) < sizeMax := by exact_mod_cast not_lt.mpr hge
    rw [pow, if_neg (by omega), if_neg hge']
    rcases Nat.le_one_iff_eq_zero_or_eq_one.mp hm with rfl | rfl
    · simp [hk]
    · simp

theorem newton_holds {x : ℕ} (hn : 2 ≤ n) (hn' : n < sizeMax ∨ x ≤ 1) (hx : a < (x + 1) ^ n)
    (h : P (Nat.nthRoot n a : ℕ) w) (hstuck : fuel ≤ x → R .exhausted) :
    Holds (Loop.loop .exhausted (fun (x : ℤ) => do
      let t ← pow x n
      if t > a then
        let y ← pow x (n - 1)
        let y ← idiv a y
        let x ← idiv (y + (n - 1) * x) n
        pure (.inl x)
      else pure (.inr x)) fuel (x : ℤ)) w P R := by
  obtain ⟨k, rfl⟩ : ∃ k, n = k + 1 := ⟨n - 1, by omega⟩
  refine Holds.loop (I := fun (x : ℤ) w' =>
      (∃ m : ℕ, x = m ∧ a < (m + 1) ^ (k + 1) ∧ (k + 1 < sizeMax ∨ m ≤ 1)) ∧ w' = w)
    (V := Int.toNat) ?_ ⟨⟨x, rfl, hx, hn'⟩, rfl⟩ hstuck
  rintro _ _ ⟨⟨m, rfl, hm, hsize⟩, rfl⟩
  have hk : ((k + 1 : ℕ) : ℤ) - 1 = k := by push_cast; ring
  rw [hk, pow_natCast (by omega) hsize, pure_bind, pow_natCast (by omega) (by omega), pure_bind]
  split
  · rename_i hgt
    have hgt' : a < m ^ (k + 1) := by exact_mod_cast hgt
    have hm0 : m ≠ 0 := by
      rintro rfl
      simp at hgt'
    have hlt := newton_lt hgt'
    have hup := Nat.nthRoot.lt_pow_go_succ_aux (n := k) (a := a) hm0
    rw [idiv_eq (by positivity), pure_bind, idiv_eq (by omega), pure_bind]
    have hquot : (a : ℤ).tdiv ((m : ℤ) ^ k) = (a / m ^ k : ℕ) := by
      rw [Int.ofNat_tdiv, Int.natCast_pow]
    have hsum : ((a / m ^ k : ℕ) : ℤ) + k * m = (a / m ^ k + k * m : ℕ) := by
      rw [Int.natCast_add, Int.natCast_mul]
    rw [hquot, hsum, ← Int.ofNat_tdiv]
    refine Holds.pure ⟨⟨⟨_, rfl, hup, by omega⟩, rfl⟩, ?_⟩
    rwa [Int.toNat_natCast, Int.toNat_natCast]
  · rename_i hle
    have hle' : m ^ (k + 1) ≤ a := by exact_mod_cast not_lt.mp hle
    rw [Nat.nthRoot_eq_of_le_of_lt hle' hm] at h
    exact Holds.pure h

/-! ## The root -/

theorem nthRootNat_holds (hn : 2 ≤ n) (hn' : n < sizeMax ∨ a = 0) (hd : nintdigits a < sizeMax)
    (h : P (Nat.nthRoot n a : ℕ) w)
    (hstuck : fuel ≤ n + 4 * nintdigits a + 10 ^ nintdigits a → R .exhausted) :
    Holds (nthRootNat fuel a n) w P R := by
  have hpos : 0 < 10 ^ nintdigits a := by positivity
  rw [nthRootNat]
  refine Holds.bind (addSteps_holds (by omega) (by omega) fun hle => hstuck (by omega)) ?_
  rintro s1 _ ⟨hs1, hs1', rfl⟩
  rw [numDigits_eq (by simpa using hd), pure_bind, Int.natAbs_natCast]
  refine Holds.bind (addSteps_holds (by omega) (by omega) fun hle => hstuck (by omega)) ?_
  rintro s2 _ ⟨hs2, hs2', rfl⟩
  refine Holds.bind (nthRootNatApprox_holds hn hn' hd (by omega) fun hle => hstuck (by omega)) ?_
  rintro x _ ⟨⟨hx, hx'⟩, ha, rfl⟩
  obtain ⟨m, rfl⟩ := Int.eq_ofNat_of_zero_le (zero_le_one.trans hx)
  have ha' : a < (m + 1) ^ n := by
    have hle : a ≤ m ^ n := by exact_mod_cast ha
    exact hle.trans_lt (Nat.pow_lt_pow_left (Nat.lt_succ_self m) (by omega))
  have hm : m ≤ 10 ^ nintdigits a := by exact_mod_cast hx'
  have hsize : n < sizeMax ∨ m ≤ 1 := by
    rcases hn' with hlt | rfl
    · exact .inl hlt
    · exact .inr (by simpa [nintdigits] using hm)
  exact newton_holds hn hsize ha' h fun hle => hstuck (by omega)

/-- `k` is the root of `a` cut off after `s` decimal digits, times `10 ^ s`. -/
def IsTruncatedRoot (a : ℚ) (n s k : ℕ) : Prop :=
  (k : ℚ) ^ n ≤ a * 10 ^ (s * n) ∧ a * 10 ^ (s * n) < ((k : ℚ) + 1) ^ n

theorem isTruncatedRoot_iff {a : ℚ} {s k : ℕ} (hn : n ≠ 0) (ha : 0 ≤ a) :
    IsTruncatedRoot a n s k ↔ k = Nat.nthRoot n ⌊a * 10 ^ (s * n)⌋₊ := by
  have h0 : 0 ≤ a * 10 ^ (s * n) := by positivity
  have hle : (k : ℚ) ^ n ≤ a * 10 ^ (s * n) ↔ k ^ n ≤ ⌊a * 10 ^ (s * n)⌋₊ := by
    rw [Nat.le_floor_iff h0]
    push_cast
    rfl
  have hlt : a * 10 ^ (s * n) < ((k : ℚ) + 1) ^ n ↔ ⌊a * 10 ^ (s * n)⌋₊ < (k + 1) ^ n := by
    rw [Nat.floor_lt h0]
    push_cast
    rfl
  rw [IsTruncatedRoot, hle, hlt, ← Nat.le_nthRoot_iff hn, ← Nat.nthRoot_lt_iff hn]
  omega

theorem trunc_eq_floor {q : ℚ} (hq : 0 ≤ q) : trunc q = (⌊q⌋₊ : ℕ) := by
  rw [trunc, if_pos hq, Int.natCast_floor_eq_floor hq]

/-- `nth_root` where it does not refuse the sign: the root of the absolute value, with the sign. -/
theorem nthRoot_holds {P : ℚ → World → Prop} {a : ℚ} {m : ℕ} (hn : 2 ≤ n)
    (hn' : n < sizeMax ∨ m = 0) (hs : w.scale * n < sizeMax) (hm : ⌊|a| * 10 ^ (w.scale * n)⌋₊ = m)
    (hd : nintdigits m < sizeMax) (hsign : ¬ (a < 0 ∧ n % 2 = 0))
    (h : P (if a < 0 then -((Nat.nthRoot n m : ℕ) / 10 ^ w.scale)
      else (Nat.nthRoot n m : ℕ) / 10 ^ w.scale) w)
    (hstuck : fuel ≤ n + 4 * nintdigits m + 10 ^ nintdigits m → R .exhausted) :
    Holds (nthRoot fuel a n) w P R := by
  have hbit : bitAnd n 1 = (n % 2 : ℕ) := by
    rw [bitAnd_one]
    rfl
  have hscale : w.scale < sizeMax := (Nat.le_mul_of_pos_right _ (by omega)).trans_lt hs
  have habs : (if decide (a < 0) = true then -a else a) = |a| := by
    split
    · rename_i hneg
      rw [abs_of_neg (of_decide_eq_true hneg)]
    · rename_i hneg
      rw [abs_of_nonneg (not_lt.mp (by simpa using hneg))]
  have hmul : (w.scale : ℤ) * n = (w.scale * n : ℕ) := by push_cast; rfl
  rw [nthRoot, hbit, if_neg (by exact_mod_cast hsign)]
  simp only [habs]
  refine Holds.bind (scale_holds (P := fun s w' => s = w.scale ∧ w' = w) ⟨rfl, rfl⟩) ?_
  rintro _ w ⟨rfl, rfl⟩
  have htrunc : trunc (|a| * 10 ^ (w.scale * n)) = m := by
    rw [trunc_eq_floor (by positivity), hm]
  have hone : trunc 1 = 1 := by simpa using trunc_intCast 1
  rw [hmul, upScale_eq _ (by omega) (by omega), pure_bind, Int.toNat_natCast, idivNum, hone, htrunc,
    idiv_eq one_ne_zero, pure_bind, Int.tdiv_one]
  refine Holds.bind (nthRootNat_holds (P := fun r w' => r = (Nat.nthRoot n m : ℕ) ∧ w' = w)
    hn hn' hd ⟨rfl, rfl⟩ hstuck) ?_
  rintro _ _ ⟨rfl, rfl⟩
  rw [downScale_eq _ (by omega) (by omega), pure_bind, Int.toNat_natCast]
  refine Holds.pure ?_
  simpa using h

/-- With enough fuel `c` returns `r` and leaves the world as it is. -/
def Returns {α : Type} (c : Nat → Calc α) (w : World) (r : α) : Prop :=
  ∃ fuel₀, ∀ fuel ≥ fuel₀, c fuel w = .ok (r, w)

/-- The counts of `nth_root` fit `size_t`: the exponent, unless the shifted argument is below 1, the
magnitude of the first shift and the number of digits of the shifted argument. -/
structure CountsFit (a : ℚ) (n s : ℕ) : Prop where
  exponent : 1 ≤ a * 10 ^ (s * n) → n < sizeMax
  magnitude : s * n < sizeMax
  digits : a * 10 ^ (s * n) < 10 ^ (sizeMax - 1)

theorem CountsFit.nintdigits_lt {a : ℚ} {s : ℕ} (h : CountsFit a n s) (ha : 0 ≤ a) :
    nintdigits ⌊a * 10 ^ (s * n)⌋₊ < sizeMax := by
  have hlt : ⌊a * 10 ^ (s * n)⌋₊ < 10 ^ (sizeMax - 1) := by
    rw [Nat.floor_lt (by positivity)]
    exact_mod_cast h.digits
  have hle := nintdigits_le_iff.mpr hlt
  have hpos : 0 < sizeMax := by decide
  omega

theorem nthRoot_returns {a : ℚ} (hn : 2 ≤ n) (h : CountsFit |a| n w.scale)
    (hsign : ¬ (a < 0 ∧ n % 2 = 0)) {k : ℕ} (hk : IsTruncatedRoot |a| n w.scale k) :
    Returns (nthRoot · a n) w (if a < 0 then -((k : ℚ) / 10 ^ w.scale) else k / 10 ^ w.scale) := by
  have hd := h.nintdigits_lt (abs_nonneg a)
  have hsize : n < sizeMax ∨ ⌊|a| * 10 ^ (w.scale * n)⌋₊ = 0 := by
    rcases lt_or_ge (|a| * 10 ^ (w.scale * n)) 1 with hlt | hge
    · exact .inr (Nat.floor_eq_zero.mpr hlt)
    · exact .inl (h.exponent hge)
  rw [isTruncatedRoot_iff (by omega) (abs_nonneg a)] at hk
  generalize hm : ⌊|a| * 10 ^ (w.scale * n)⌋₊ = m at hd hk hsize
  subst hk
  refine ⟨n + 4 * nintdigits m + 10 ^ nintdigits m + 1, fun fuel hfuel => ?_⟩
  have hret : Holds (nthRoot fuel a n) w (fun r w' =>
      r = (if a < 0 then -((Nat.nthRoot n m : ℚ) / 10 ^ w.scale)
        else (Nat.nthRoot n m : ℚ) / 10 ^ w.scale) ∧ w' = w) (fun _ => False) :=
    nthRoot_holds hn hsize h.magnitude hm hd hsign ⟨rfl, rfl⟩ fun hle =>
      absurd hfuel (Nat.not_le.mpr (Nat.lt_succ_of_le hle))
  obtain ⟨r, w', hr, rfl, rfl⟩ := hret.returns fun _ hf => hf
  exact hr

/-- Roots are correctly truncated at every scale, and even roots of negative numbers are refused. -/
theorem nth_root_truncated (a : ℚ) {n : ℕ} (hn : 2 ≤ n) (w : World) :
    (0 ≤ a → CountsFit a n w.scale → ∃ k, IsTruncatedRoot a n w.scale k ∧
      (∀ j, IsTruncatedRoot a n w.scale j → j = k) ∧
      Returns (nthRoot · a n) w (k / 10 ^ w.scale)) ∧
    (a < 0 → n % 2 = 1 → CountsFit (-a) n w.scale → ∃ k, IsTruncatedRoot (-a) n w.scale k ∧
      (∀ j, IsTruncatedRoot (-a) n w.scale j → j = k) ∧
      Returns (nthRoot · a n) w (-(k / 10 ^ w.scale))) ∧
    (a < 0 → n % 2 = 0 → ∀ fuel, nthRoot fuel a n w =
      .error (.raised "cannot take even root of negative value")) := by
  refine ⟨fun ha hf => ?_, fun ha hodd hf => ?_, fun ha heven fuel => ?_⟩
  · have hk := (isTruncatedRoot_iff (n := n) (s := w.scale) (by omega) ha).mpr rfl
    refine ⟨_, hk, fun j hj => (isTruncatedRoot_iff (by omega) ha).mp hj, ?_⟩
    have hret := nthRoot_returns (a := a) hn (by rwa [abs_of_nonneg ha])
      (fun h => absurd h.1 (not_lt.mpr ha)) (by rwa [abs_of_nonneg ha])
    rwa [if_neg (not_lt.mpr ha)] at hret
  · have ha' : 0 ≤ -a := by linarith
    have hk := (isTruncatedRoot_iff (n := n) (s := w.scale) (by omega) ha').mpr rfl
    refine ⟨_, hk, fun j hj => (isTruncatedRoot_iff (by omega) ha').mp hj, ?_⟩
    have hret := nthRoot_returns (a := a) hn (by rwa [abs_of_neg ha])
      (fun h => by omega) (by rwa [abs_of_neg ha])
    rwa [if_pos ha] at hret
  · have hbit : bitAnd n 1 = 0 := by
      rw [bitAnd_one]
      omega
    rw [nthRoot, if_pos ⟨ha, hbit⟩]
    rfl

theorem countsFit_of_le {a : ℚ} {s d : ℕ} (hn : n < sizeMax) (hs : s * n < sizeMax)
    (ha : a * 10 ^ (s * n) < 10 ^ d) (hd : d < sizeMax) : CountsFit a n s :=
  ⟨fun _ => hn, hs, ha.trans_le (pow_le_pow_right₀ (by norm_num) (by omega))⟩

theorem nth_root_truncated_two :
    Returns (nthRoot · 2 (2 : ℕ)) ⟨[], 3⟩ ((1414 : ℕ) / 10 ^ 3) ∧
      Returns (nthRoot · (-2) (3 : ℕ)) ⟨[], 2⟩ (-((125 : ℕ) / 10 ^ 2)) ∧
      Returns (nthRoot · 0 (18446744073709551616 : ℕ)) ⟨[], 0⟩ ((0 : ℕ) / 10 ^ 0) ∧
      ∀ fuel, nthRoot fuel (-4) (2 : ℕ) ⟨[], 0⟩ =
        .error (.raised "cannot take even root of negative value") := by
  have hroot : IsTruncatedRoot 2 2 3 1414 := by norm_num [IsTruncatedRoot]
  have hcube : IsTruncatedRoot (- -2) 3 2 125 := by norm_num [IsTruncatedRoot]
  have hzero : IsTruncatedRoot 0 18446744073709551616 0 0 := by
    norm_num [IsTruncatedRoot]
  refine ⟨?_, ?_, ?_, ?_⟩
  · have hf : CountsFit 2 2 3 :=
      countsFit_of_le (d := 7) (by decide) (by decide) (by norm_num) (by decide)
    obtain ⟨k, -, hk, hret⟩ := (nth_root_truncated 2 (n := 2) le_rfl ⟨[], 3⟩).1 (by norm_num) hf
    rwa [hk 1414 hroot]
  · have hf : CountsFit (- -2) 3 2 := countsFit_of_le (d := 7) (by decide) (by decide) (by norm_num) (by decide)
    obtain ⟨k, -, hk, hret⟩ := (nth_root_truncated (-2) (n := 3) (by decide) ⟨[], 2⟩).2.1
      (by norm_num) rfl hf
    rwa [hk 125 hcube]
  · have hf : CountsFit 0 18446744073709551616 0 := ⟨by norm_num, by decide, by norm_num⟩
    obtain ⟨k, -, hk, hret⟩ :=
      (nth_root_truncated 0 (n := 18446744073709551616) (by norm_num) ⟨[], 0⟩).1 le_rfl hf
    obtain rfl := hk 0 hzero
    exact hret
  · exact (nth_root_truncated (-4) (n := 2) le_rfl ⟨[], 0⟩).2.2 (by norm_num) rfl

/-! ## Where the counts do not fit -/

theorem pow_panics {b e : ℤ} (hb : 2 ≤ b) (he : sizeMax ≤ e) :
    Holds (pow b e) w (fun _ _ => False) fun _ => True := by
  rw [pow, if_neg (by omega), if_neg (by omega), if_neg (by omega), if_neg (by omega)]
  exact Holds.throw trivial

theorem bisect_ge_two {A lb rb nsteps : ℤ} (hn : sizeMax ≤ n) (hlb : 1 ≤ lb) (hle : lb ≤ rb)
    (hrb : 2 ≤ rb) :
    Holds (Loop.loop .exhausted (bisectTurn A n) fuel (nsteps, lb, rb)) w
      (fun r _ => 2 ≤ r) fun _ => True := by
  refine Holds.loop_of_invariant
    (I := fun (s : ℤ × ℤ × ℤ) _ => 1 ≤ s.2.1 ∧ s.2.1 ≤ s.2.2 ∧ 2 ≤ s.2.2) ?_ ⟨hlb, hle, hrb⟩ trivial
  rintro ⟨k, l, r⟩ w' ⟨hl, hlr, hr⟩
  dsimp only at *
  rw [bisectTurn, idiv_eq two_ne_zero, pure_bind, tdiv_two (by omega)]
  split
  · split
    · exact Holds.pure hr
    · exact Holds.bind (pow_panics (by omega) (by exact_mod_cast hn)) fun _ _ h => h.elim
  · exact Holds.pure hr

theorem nthRootNatApprox_one_holds {nsteps : ℤ} (hn : sizeMax ≤ n) (hs : 0 ≤ nsteps) :
    Holds (nthRootNatApprox fuel 1 n nsteps) w (fun x _ => 2 ≤ x) fun _ => True := by
  have hpos : 1 < sizeMax := by decide
  have hone : nintdigits (1 : ℤ).natAbs = 1 := by simp [nintdigits]
  have hp : ((1 : ℕ) - 1 : ℤ).tdiv n = 0 := by simp
  rw [nthRootNatApprox, if_neg one_ne_zero, numDigits_eq (by rw [hone]; exact hpos), pure_bind, hone,
    idiv_eq (by omega), pure_bind, hp]
  refine Holds.bind (div_holds (by exact_mod_cast hs) (by norm_num)) fun t w' ht => ?_
  have ht' : 0 ≤ floor t := Int.floor_nonneg.mpr ht.1
  have hneg : (0 : ℤ) - (floor t + 1) < 0 := by omega
  simp only [if_pos hneg]
  rw [zero_mul, downScale_eq _ le_rfl (by omega), pure_bind,
    upScale_eq _ (by omega) (by omega), pure_bind, upScale_eq _ (by omega) (by omega), pure_bind]
  refine Holds.bind (bisect_ge_two hn (by decide) (by decide) (by decide)) fun r w' hr => ?_
  rw [upScale_eq _ le_rfl (by omega)]
  exact Holds.pure (by simpa using hr)

theorem nthRootNat_one_stops (hn : sizeMax ≤ n) :
    Holds (nthRootNat fuel 1 n) w (fun _ _ => False) fun _ => True := by
  have hpos : 1 < sizeMax := by decide
  have hone : nintdigits (1 : ℤ).natAbs = 1 := by simp [nintdigits]
  rw [nthRootNat]
  refine Holds.bind (addSteps_holds (by omega) (by omega) fun _ => trivial) fun s1 w' hs1 => ?_
  rw [numDigits_eq (by rw [hone]; exact hpos), pure_bind, hone]
  refine Holds.bind (addSteps_holds (by omega) (by omega) fun _ => trivial) fun s2 w' hs2 => ?_
  refine Holds.bind (nthRootNatApprox_one_holds hn (by omega)) fun x w' hx => ?_
  refine Holds.loop_of_invariant (I := fun x _ => 2 ≤ x) (fun y w' hy => ?_) hx trivial
  exact Holds.bind (pow_panics hy (by exact_mod_cast hn)) fun _ _ h => h.elim

theorem nthRootNat_long_stops (hd : sizeMax ≤ nintdigits a) :
    Holds (nthRootNat fuel a n) w (fun _ _ => False) fun _ => True := by
  rw [nthRootNat]
  refine Holds.bind (addSteps_holds (by omega) (by omega) fun _ => trivial) fun s1 w' hs1 => ?_
  rw [numDigits, Int.natAbs_natCast, if_neg (by omega)]
  exact Holds.bind (P := fun _ _ => False) (Holds.throw trivial) fun _ _ h => h.elim

/-- At scale zero `nth_root` of a natural number stops where `nth_root_NAT` does. -/
theorem nthRoot_stops (hw : w.scale = 0)
    (h : Holds (nthRootNat fuel a n) w (fun _ _ => False) fun _ => True) :
    Holds (nthRoot fuel a n) w (fun _ _ => False) fun _ => True := by
  have hneg : ¬ (a : ℚ) < 0 := not_lt.mpr (Nat.cast_nonneg a)
  have hpos : (0 : ℤ) < sizeMax := by decide
  have hone : trunc 1 = 1 := by simpa using trunc_intCast 1
  have ha : trunc ((a : ℚ) * 10 ^ (0 : ℤ).toNat) = a := by simpa using trunc_intCast a
  rw [nthRoot, if_neg (fun hc => hneg hc.1)]
  simp only [decide_eq_false hneg, Bool.false_eq_true, if_false]
  refine Holds.bind (scale_holds (P := fun s w' => s = 0 ∧ w' = w) ⟨by rw [hw]; rfl, rfl⟩) ?_
  rintro _ _ ⟨rfl, rfl⟩
  rw [zero_mul, upScale_eq _ le_rfl hpos, pure_bind, idivNum, hone, ha, idiv_eq one_ne_zero,
    pure_bind, Int.tdiv_one]
  exact Holds.bind h fun _ _ hf => hf.elim

theorem not_returns {α : Type} {c : Nat → Calc α}
    (h : ∀ fuel, Holds (c fuel) w (fun _ _ => False) fun _ => True) : ¬ ∃ r, Returns c w r := by
  rintro ⟨r, fuel, hr⟩
  exact (h fuel).ok (hr fuel le_rfl)

/-- Where a count does not fit, `nth_root` stops with an error: the magnitude of the shift, the
exponent and the number of digits in turn. -/
theorem nth_root_not_returning :
    (¬ ∃ r, Returns (nthRoot · 1 (2 ^ 64 : ℕ)) ⟨[], 1⟩ r) ∧
      (¬ ∃ r, Returns (nthRoot · (1 : ℕ) (2 ^ 64 : ℕ)) ⟨[], 0⟩ r) ∧
      ¬ ∃ r, Returns (nthRoot · (10 ^ sizeMax : ℕ) (2 : ℕ)) ⟨[], 0⟩ r := by
  refine ⟨?_, ?_, ?_⟩
  · refine not_returns fun fuel => ?_
    rw [nthRoot, if_neg (fun hc => absurd hc.1 (by norm_num))]
    refine Holds.bind (scale_holds (P := fun s _ => s = 1) rfl) fun s w' hs => ?_
    refine Holds.bind (P := fun _ _ => False) ?_ fun _ _ hf => hf.elim
    rw [hs, upScale, guardMagnitude, if_neg (by decide), if_neg (by decide)]
    exact Holds.bind (P := fun _ _ => False) (Holds.throw trivial) fun _ _ hf => hf.elim
  · exact not_returns fun fuel => nthRoot_stops rfl (nthRootNat_one_stops (by decide))
  · refine not_returns fun fuel => nthRoot_stops rfl (nthRootNat_long_stops ?_)
    exact (not_lt.mp fun h => absurd (nintdigits_le_iff.mp (Nat.le_of_lt h)) (lt_irrefl _))

end Calx.Stdlib
