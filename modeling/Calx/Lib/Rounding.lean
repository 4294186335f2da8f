import Mathlib.Algebra.Order.Floor.Ring
import Mathlib.Tactic.Linarith
import Mathlib.Tactic.NormNum
import Mathlib.Tactic.Ring

/-!
# Rounding to integers by magnitude

The integers next to an element of an ordered field, chosen by their magnitude:
toward zero, away from zero, and the nearest one with ties away from zero.

## Implementation notes

Each mode is a function and a predicate that says which integer it chooses. All
three modes commute with negation, so that their results can be compared on
magnitudes.
-/

namespace Rounding

variable {α : Type*} [Field α] [LinearOrder α] {x : α} {z : ℤ}

/-! ## What is chosen -/

/-- The integer is the one of greatest magnitude that does not exceed the magnitude of `x`. -/
structure TowardZero (x : α) (z : ℤ) : Prop where
  sign : 0 ≤ x * z
  le : |(z : α)| ≤ |x|
  greatest : ∀ z' : ℤ, |(z' : α)| ≤ |x| → |z'| ≤ |z|

/-- The integer is the one of least magnitude that is not below the magnitude of `x`. -/
structure AwayFromZero (x : α) (z : ℤ) : Prop where
  sign : 0 ≤ x * z
  le : |x| ≤ |(z : α)|
  least : ∀ z' : ℤ, |x| ≤ |(z' : α)| → |z| ≤ |z'|

/-- No integer is nearer to `x`, and none of greater magnitude is as near. -/
structure Nearest (x : α) (z : ℤ) : Prop where
  nearest : ∀ z' : ℤ, |x - z| ≤ |x - z'|
  ties : ∀ z' : ℤ, |x - z'| = |x - z| → |z'| ≤ |z|

theorem TowardZero.neg (h : TowardZero x z) : TowardZero (-x) (-z) := by
  refine ⟨?_, ?_, fun z' hz' => ?_⟩
  · rw [Int.cast_neg, neg_mul_neg]
    exact h.sign
  · rw [Int.cast_neg, abs_neg, abs_neg]
    exact h.le
  · rw [abs_neg] at hz' ⊢
    exact h.greatest z' hz'

theorem AwayFromZero.neg (h : AwayFromZero x z) : AwayFromZero (-x) (-z) := by
  refine ⟨?_, ?_, fun z' hz' => ?_⟩
  · rw [Int.cast_neg, neg_mul_neg]
    exact h.sign
  · rw [Int.cast_neg, abs_neg, abs_neg]
    exact h.le
  · rw [abs_neg] at hz' ⊢
    exact h.least z' hz'

theorem Nearest.neg (h : Nearest x z) : Nearest (-x) (-z) := by
  have hdist : ∀ z' : ℤ, |(-x) - (z' : α)| = |x - ((-z' : ℤ) : α)| := fun z' => by
    rw [Int.cast_neg, sub_neg_eq_add, ← neg_add', abs_neg]
  refine ⟨fun z' => ?_, fun z' hz' => ?_⟩
  · rw [hdist, hdist, neg_neg]
    exact h.nearest (-z')
  · rw [hdist, hdist, neg_neg] at hz'
    rw [abs_neg, ← abs_neg z']
    exact h.ties (-z') hz'

section

variable [IsStrictOrderedRing α]

/-- What holds of the magnitudes and is kept by negation holds everywhere. -/
theorem of_nonneg {f : α → ℤ} {P : α → ℤ → Prop} (hf : ∀ x, f (-x) = -f x)
    (hP : ∀ x z, P x z → P (-x) (-z)) (h : ∀ x, 0 ≤ x → P x (f x)) (x : α) : P x (f x) := by
  rcases le_total 0 x with hx | hx
  · exact h x hx
  · have hneg := hP _ _ (h (-x) (neg_nonneg.mpr hx))
    rwa [hf, neg_neg, neg_neg] at hneg

/-- Only one integer is chosen away from zero. -/
theorem AwayFromZero.unique {z' : ℤ} (h : AwayFromZero x z) (h' : AwayFromZero x z') : z = z' := by
  have habs : |z| = |z'| := le_antisymm (h.least z' h'.le) (h'.least z h.le)
  rcases abs_eq_abs.mp habs with heq | hneg
  · exact heq
  · -- Opposite integers have opposite signs unless `x` is zero.
    have hsign := h.sign
    rw [hneg, Int.cast_neg, mul_neg] at hsign
    have hzero : x * z' = 0 := le_antisymm (by linarith) h'.sign
    rcases mul_eq_zero.mp hzero with hx | hz
    · have hleast := h.least 0 (by rw [hx, Int.cast_zero])
      have hz0 : z = 0 := by
        rw [abs_zero] at hleast
        exact abs_nonpos_iff.mp hleast
      omega
    · have hz0 : z' = 0 := by exact_mod_cast hz
      omega

end

/-! ## The functions -/

variable [FloorRing α]

/-- Rounding toward zero. -/
def trunc (x : α) : ℤ := if 0 ≤ x then ⌊x⌋ else ⌈x⌉

/-- Rounding away from zero. -/
def away (x : α) : ℤ := if 0 ≤ x then ⌈x⌉ else ⌊x⌋

/-- Rounding to the nearest integer, ties away from zero. -/
def nearest (x : α) : ℤ := if 0 ≤ x then ⌊x + 1 / 2⌋ else ⌈x - 1 / 2⌉

theorem trunc_of_nonneg (h : 0 ≤ x) : trunc x = ⌊x⌋ := if_pos h

theorem away_of_nonneg (h : 0 ≤ x) : away x = ⌈x⌉ := if_pos h

theorem nearest_of_nonneg (h : 0 ≤ x) : nearest x = ⌊x + 1 / 2⌋ := if_pos h

variable [IsStrictOrderedRing α]

@[simp] theorem trunc_neg (x : α) : trunc (-x) = -trunc x := by
  rcases lt_trichotomy x 0 with h | rfl | h
  · rw [trunc, trunc, if_pos (by linarith), if_neg (by linarith), Int.floor_neg]
  · simp [trunc]
  · rw [trunc, trunc, if_neg (by linarith), if_pos h.le, Int.ceil_neg]

@[simp] theorem away_neg (x : α) : away (-x) = -away x := by
  rcases lt_trichotomy x 0 with h | rfl | h
  · rw [away, away, if_pos (by linarith), if_neg (by linarith), Int.ceil_neg]
  · simp [away]
  · rw [away, away, if_neg (by linarith), if_pos h.le, Int.floor_neg]

@[simp] theorem nearest_neg (x : α) : nearest (-x) = -nearest x := by
  rcases lt_trichotomy x 0 with h | rfl | h
  · rw [nearest, nearest, if_pos (by linarith), if_neg (by linarith), ← Int.floor_neg]
    congr 1
    ring
  · have hzero : nearest (0 : α) = 0 := by
      rw [nearest_of_nonneg le_rfl, zero_add]
      norm_num
    rw [neg_zero, hzero, neg_zero]
  · rw [nearest, nearest, if_neg (by linarith), if_pos h.le, ← Int.ceil_neg]
    congr 1
    ring

/-- `trunc` rounds toward zero. -/
theorem towardZero_trunc (x : α) : TowardZero x (trunc x) := by
  refine of_nonneg trunc_neg (fun _ _ h => h.neg) (fun x hx => ?_) x
  have hfloor : (0 : ℤ) ≤ ⌊x⌋ := Int.floor_nonneg.mpr hx
  have hcast : (0 : α) ≤ ⌊x⌋ := by exact_mod_cast hfloor
  rw [trunc_of_nonneg hx]
  refine ⟨mul_nonneg hx hcast, ?_, fun z' hz' => ?_⟩
  · rw [abs_of_nonneg hcast, abs_of_nonneg hx]
    exact Int.floor_le x
  · rw [abs_of_nonneg hfloor, Int.le_floor]
    rw [abs_of_nonneg hx] at hz'
    exact_mod_cast hz'

/-- `away` rounds away from zero. -/
theorem awayFromZero_away (x : α) : AwayFromZero x (away x) := by
  refine of_nonneg away_neg (fun _ _ h => h.neg) (fun x hx => ?_) x
  have hceil : (0 : ℤ) ≤ ⌈x⌉ := Int.ceil_nonneg hx
  have hcast : (0 : α) ≤ ⌈x⌉ := by exact_mod_cast hceil
  rw [away_of_nonneg hx]
  refine ⟨mul_nonneg hx hcast, ?_, fun z' hz' => ?_⟩
  · rw [abs_of_nonneg hcast, abs_of_nonneg hx]
    exact Int.le_ceil x
  · rw [abs_of_nonneg hceil, Int.ceil_le]
    rw [abs_of_nonneg hx] at hz'
    exact_mod_cast hz'

/-- `nearest` rounds to the nearest integer, ties away from zero. -/
theorem nearest_nearest (x : α) : Nearest x (nearest x) := by
  refine of_nonneg nearest_neg (fun _ _ h => h.neg) (fun x hx => ?_) x
  rw [nearest_of_nonneg hx]
  obtain ⟨n, hn⟩ : ∃ n, n = ⌊x + 1 / 2⌋ := ⟨_, rfl⟩
  have hle : (n : α) ≤ x + 1 / 2 := hn ▸ Int.floor_le (x + 1 / 2)
  have hlt : x + 1 / 2 < n + 1 := hn ▸ Int.lt_floor_add_one (x + 1 / 2)
  have hn0 : 0 ≤ n := hn ▸ Int.floor_nonneg.mpr (by linarith)
  have hdist : |x - n| ≤ 1 / 2 := abs_le.mpr ⟨by linarith, by linarith⟩
  rw [← hn]
  -- An integer on the other side of the rounded one is at least one half away.
  have hbelow : ∀ z' : ℤ, z' < n → |x - n| ≤ x - z' := fun z' hz' => by
    have hcast : (z' : α) + 1 ≤ n := by exact_mod_cast hz'
    exact abs_le.mpr ⟨by linarith, by linarith⟩
  have habove : ∀ z' : ℤ, n < z' → |x - n| < z' - x := fun z' hz' => by
    have hcast : (n : α) + 1 ≤ z' := by exact_mod_cast hz'
    exact abs_lt.mpr ⟨by linarith, by linarith⟩
  refine ⟨fun z' => ?_, fun z' hz' => ?_⟩
  · rcases lt_trichotomy z' n with h | h | h
    · exact (hbelow z' h).trans (le_abs_self _)
    · rw [h]
    · exact (habove z' h).le.trans (by rw [abs_sub_comm]; exact le_abs_self _)
  · have hz'n : z' ≤ n := by
      by_contra h
      have hstrict := (habove z' (not_le.mp h)).trans_le (le_abs_self _)
      rw [abs_sub_comm (z' : α) x, hz'] at hstrict
      exact lt_irrefl _ hstrict
    have hlow : -n ≤ z' := by
      have hcast : (0 : α) ≤ n := by exact_mod_cast hn0
      have h1 : x - z' ≤ |x - n| := hz' ▸ le_abs_self (x - z')
      have hxn : |x - n| ≤ x + n := abs_le.mpr ⟨by linarith, by linarith⟩
      have hle' : -(n : α) ≤ z' := by linarith
      exact_mod_cast hle'
    rw [abs_of_nonneg hn0]
    exact abs_le.mpr ⟨hlow, hz'n⟩

/-- Rounding toward zero after rounding on a finer grid is rounding toward zero. -/
theorem trunc_trunc_mul_div (x : α) {k : ℕ} (hk : 0 < k) :
    trunc ((trunc (x * k) : α) / k) = trunc x := by
  have hkpos : (0 : α) < k := by exact_mod_cast hk
  refine of_nonneg (f := fun x : α => trunc ((trunc (x * k) : α) / k))
    (P := fun x z => z = trunc x)
    (fun x => ?_) (fun x z h => ?_) (fun x hx => ?_) x
  · rw [neg_mul, trunc_neg, Int.cast_neg, neg_div, trunc_neg]
  · rw [trunc_neg, h]
  · have hmul : 0 ≤ x * k := mul_nonneg hx hkpos.le
    have hfloor : (0 : ℤ) ≤ ⌊x * k⌋ := Int.floor_nonneg.mpr hmul
    have hdiv : (0 : α) ≤ (⌊x * k⌋ : α) / k := div_nonneg (by exact_mod_cast hfloor) hkpos.le
    rw [trunc_of_nonneg hmul, trunc_of_nonneg hdiv, trunc_of_nonneg hx, Int.floor_div_natCast,
      Int.floor_intCast, ← Int.floor_div_natCast, mul_div_cancel_right₀ x hkpos.ne']

/-- What rounding toward zero leaves is less than one. -/
theorem abs_sub_trunc_lt (x : α) : |x - trunc x| < 1 := by
  refine of_nonneg (P := fun (x : α) z => |x - z| < 1) trunc_neg (fun x z h => ?_) (fun x hx => ?_) x
  · rw [Int.cast_neg, ← neg_sub', abs_neg]
    exact h
  · rw [trunc_of_nonneg hx, abs_lt]
    have hle := Int.floor_le x
    have hlt := Int.lt_floor_add_one x
    constructor
    · linarith
    · linarith

/-- What rounding toward zero leaves has the sign of the number. -/
theorem mul_sub_trunc_nonneg (x : α) : 0 ≤ x * (x - trunc x) := by
  refine of_nonneg (P := fun (x : α) z => 0 ≤ x * (x - z)) trunc_neg (fun x z h => ?_) (fun x hx => ?_) x
  · rw [Int.cast_neg, ← neg_sub', neg_mul_neg]
    exact h
  · rw [trunc_of_nonneg hx]
    exact mul_nonneg hx (sub_nonneg.mpr (Int.floor_le x))

/-- The remainder is the divisor times what rounding leaves of the quotient. -/
theorem remainder_bounds {a b r : α} (hb : b ≠ 0) (hr : r = a - b * trunc (a / b)) :
    |r| < |b| ∧ (r = 0 ∨ 0 < r * a) := by
  obtain ⟨t, ht⟩ : ∃ t, t = a / b := ⟨_, rfl⟩
  have ha : a = b * t := by
    rw [ht, mul_div_cancel₀ a hb]
  have hrt : r = b * (t - trunc t) := by
    rw [hr, ← ht, ha]
    ring
  have hpos : 0 < |b| := abs_pos.mpr hb
  constructor
  · calc |r| = |b| * |t - trunc t| := by rw [hrt, abs_mul]
      _ < |b| * 1 := mul_lt_mul_of_pos_left (abs_sub_trunc_lt t) hpos
      _ = |b| := mul_one _
  · have hprod : r * a = b * b * (t * (t - trunc t)) := by
      rw [hrt, ha]
      ring
    have hnonneg : 0 ≤ r * a := by
      rw [hprod]
      exact mul_nonneg (mul_self_nonneg b) (mul_sub_trunc_nonneg t)
    rcases hnonneg.lt_or_eq with hlt | heq
    · exact .inr hlt
    · rcases mul_eq_zero.mp heq.symm with hr0 | ha0
      · exact .inl hr0
      · have ht0 : t = 0 := by rw [ht, ha0, zero_div]
        refine .inl ?_
        rw [hrt, ht0]
        simp [trunc]

/-- A quotient of integers, rounded toward zero. -/
theorem trunc_intCast_div (a b : ℤ) : trunc ((a : α) / b) = a.tdiv b := by
  have hnonneg : ∀ m n : ℕ, trunc (((m : ℤ) : α) / (n : ℤ)) = (m : ℤ).tdiv n := fun m n => by
    have hpos : (0 : α) ≤ ((m : ℤ) : α) / (n : ℤ) := by positivity
    rw [trunc_of_nonneg hpos, Int.floor_div_cast_of_nonneg (Int.natCast_nonneg n), Int.floor_intCast,
      Int.tdiv_eq_ediv_of_nonneg (Int.natCast_nonneg m)]
  obtain ⟨m, rfl | rfl⟩ := a.eq_nat_or_neg <;> obtain ⟨n, rfl | rfl⟩ := b.eq_nat_or_neg
  · exact hnonneg m n
  · rw [Int.cast_neg, div_neg, trunc_neg, hnonneg, Int.tdiv_neg]
  · rw [Int.cast_neg, neg_div, trunc_neg, hnonneg, Int.neg_tdiv]
  · rw [Int.cast_neg, Int.cast_neg, neg_div_neg_eq, hnonneg, Int.neg_tdiv, Int.tdiv_neg, neg_neg]

/-- The ceiling rounds away from zero except between negative integers. -/
theorem awayFromZero_ceil_iff : AwayFromZero x ⌈x⌉ ↔ 0 ≤ x ∨ ∃ z : ℤ, x = z := by
  constructor
  · intro h
    have heq : ⌈x⌉ = away x := h.unique (awayFromZero_away x)
    rcases le_or_gt 0 x with hx | hx
    · exact Or.inl hx
    · rw [away, if_neg hx.not_ge] at heq
      refine Or.inr ⟨⌈x⌉, le_antisymm (Int.le_ceil x) ?_⟩
      rw [heq]
      exact Int.floor_le x
  · rintro (hx | ⟨z, rfl⟩)
    · rw [← away_of_nonneg hx]
      exact awayFromZero_away x
    · have haway : away (z : α) = ⌈(z : α)⌉ := by
        rw [away, Int.floor_intCast, Int.ceil_intCast, ite_self]
      rw [← haway]
      exact awayFromZero_away _

end Rounding
