import Calx.Number.Compare
import Calx.Number.Counted

/-!
# Laws of the arithmetic

Addition, subtraction, shifts by powers of ten and rounding of number objects,
whatever the counts: the results by their values, with all other objects left as
they were.
-/

namespace Calx

open Refcount Libdeci Counted

section

variable [Libdeci] {m : Memory Number} {own : Multiset Addr} {a b : Addr} {x y : Number}

/-- The operation hands out a well-formed number of this value. -/
def YieldsValue (c : Objects) (m : Memory Number) (own : Multiset Addr) (v : ℚ) : Prop :=
  ∃ z : Number, Yields c m own z ∧ z.Wf ∧ z.value = v

/-- Addition and subtraction are exact and leave the objects that others refer to alone. -/
theorem addition_exact (h : m.Counts (a ::ₘ b ::ₘ own)) (hx : m.content? a = some x)
    (hy : m.content? b = some y) (hwx : x.Wf) (hwy : y.Wf) :
    YieldsValue (Counted.numberAdd a b) m own (x.value + y.value) ∧
      YieldsValue (Counted.numberSub a b) m own (x.value - y.value) := by
  constructor
  · exact ⟨_, doAddOrSub_yields h hx hy true, numberAdd_spec hwx hwy _ _⟩
  · exact ⟨_, doAddOrSub_yields h hx hy false, numberSub_spec hwx hwy _ _⟩

omit [Libdeci] in
/-- Minus one half and itself, with a third reference to it. -/
theorem addition_exact_half : @YieldsValue libdeciByValue (@Counted.numberAdd libdeciByValue 0 0)
    [some ⟨3, ⟨true, 1, [5000000000000000000]⟩⟩] {0} (-1) := by
  let := libdeciByValue
  have hw : Number.Wf ⟨true, 1, [5000000000000000000]⟩ := by decide
  have hcounts : Memory.Counts
      [some ⟨3, (⟨true, 1, [5000000000000000000]⟩ : Number)⟩] (0 ::ₘ 0 ::ₘ {0}) :=
    Memory.counts_replicate _ 3
  have h := (addition_exact hcounts rfl rfl hw hw).1
  have hbase : deciBase = 10 ^ 19 := rfl
  norm_num [Number.value, Number.signFactor, Number.absValue, Number.mag, hbase] at h
  exact h

/-! ## Powers of ten -/

theorem scaleUp_yields {c : Objects} (h : YieldsValue c m own x.value) (n : Nat) :
    YieldsValue (c >>= (Counted.numberScaleUp · n)) m own (x.value * 10 ^ n) := by
  obtain ⟨z, hz, hwf, hvalue⟩ := h
  obtain ⟨hup, hupValue⟩ := numberScaleUp_spec true hwf n
  refine ⟨_, Yields.bind hz le_rfl fun r m₁ hm₁ => ?_, hup, by rw [hupValue, hvalue]⟩
  have hrun := numberScaleUp_yields hm₁.counts hm₁.content n
  rwa [decide_eq_true hm₁.uniq] at hrun

theorem scaleDown_yields {c : Objects} (h : YieldsValue c m own x.value) (n : Nat) :
    YieldsValue (c >>= (Counted.numberScaleDown · n)) m own (x.value / 10 ^ n) := by
  obtain ⟨z, hz, hwf, hvalue⟩ := h
  obtain ⟨hdown, hdownValue⟩ := numberScaleDown_spec true hwf n
  refine ⟨_, Yields.bind hz le_rfl fun r m₁ hm₁ => ?_, hdown, by rw [hdownValue, hvalue]⟩
  have hrun := numberScaleDown_yields hm₁.counts hm₁.content n
  rwa [decide_eq_true hm₁.uniq] at hrun

/-- Shifts are exact, and one takes the other back. -/
theorem shifts_exact (h : m.Counts (a ::ₘ own)) (hx : m.content? a = some x) (hw : x.Wf) (n : Nat) :
    YieldsValue (Counted.numberScaleUp a n) m own (x.value * 10 ^ n) ∧
      YieldsValue (Counted.numberScaleDown a n) m own (x.value / 10 ^ n) ∧
      (∃ z, Yields (Counted.numberScaleUp a n >>= (Counted.numberScaleDown · n)) m own z ∧
        numberCompare z x = compareEq) ∧
      ∃ z, Yields (Counted.numberScaleDown a n >>= (Counted.numberScaleUp · n)) m own z ∧
        numberCompare z x = compareEq := by
  have hpow : (10 : ℚ) ^ n ≠ 0 := by positivity
  have hup := numberScaleUp_spec (decide (a ∉ own)) hw n
  have hdown := numberScaleDown_spec (decide (a ∉ own)) hw n
  have hrunUp := numberScaleUp_yields h hx n
  have hrunDown := numberScaleDown_yields h hx n
  refine ⟨⟨_, hrunUp, hup⟩, ⟨_, hrunDown, hdown⟩, ?_, ?_⟩
  · obtain ⟨z, hz, hwf, hvalue⟩ := scaleDown_yields ⟨_, hrunUp, hup.1, rfl⟩ n
    refine ⟨z, hz, (numberCompare_iff hwf hw).2.1.mpr ?_⟩
    rw [hvalue, hup.2, mul_div_cancel_right₀ _ hpow]
  · obtain ⟨z, hz, hwf, hvalue⟩ := scaleUp_yields ⟨_, hrunDown, hdown.1, rfl⟩ n
    refine ⟨z, hz, (numberCompare_iff hwf hw).2.1.mpr ?_⟩
    rw [hvalue, hdown.2, div_mul_cancel₀ _ hpow]

omit [Libdeci] in
/-- Minus one and a half, shared, through twenty places and back. -/
theorem shifts_exact_shared : ∃ z, Yields
    (@Counted.numberScaleUp libdeciByValue 0 20 >>= (@Counted.numberScaleDown libdeciByValue · 20))
    [some ⟨2, ⟨true, 1, [5000000000000000000, 1]⟩⟩] {0} z ∧
      @numberCompare libdeciByValue z ⟨true, 1, [5000000000000000000, 1]⟩ = compareEq := by
  let := libdeciByValue
  have hw : Number.Wf ⟨true, 1, [5000000000000000000, 1]⟩ := by decide
  have hcounts : Memory.Counts
      [some ⟨2, (⟨true, 1, [5000000000000000000, 1]⟩ : Number)⟩] (0 ::ₘ {0}) :=
    Memory.counts_replicate _ 2
  exact (shifts_exact hcounts rfl hw 20).2.2.1

/-! ## Rounding -/

/-- The operation hands out an integer that is chosen as `P` says. -/
def RoundsTo (c : Objects) (m : Memory Number) (own : Multiset Addr) (P : ℤ → Prop) : Prop :=
  ∃ t : ℤ, YieldsValue c m own t ∧ P t

/-- What is documented of the rounding functions. -/
structure RoundingLaws (m : Memory Number) (own : Multiset Addr) (a : Addr) (x : ℚ) : Prop where
  trunc : RoundsTo (Counted.numberTrunc a) m own (Rounding.TowardZero x)
  frac : ∃ t f, YieldsValue (Counted.numberTrunc a) m own t ∧
    YieldsValue (Counted.numberFrac a) m own f ∧ t + f = x
  floor : RoundsTo (Counted.numberFloor a) m own fun t => IsGreatest {z : ℤ | (z : ℚ) ≤ x} t
  ceil : RoundsTo (Counted.numberCeil a) m own (Rounding.AwayFromZero x)
  round : RoundsTo (Counted.numberRound a) m own (Rounding.Nearest x)

/-- `number_ceil` rounds up. -/
theorem numberCeil_yields (h : m.Counts (a ::ₘ own)) (hx : m.content? a = some x) (hw : x.Wf) :
    YieldsValue (Counted.numberCeil a) m own ⌈x.value⌉ :=
  ⟨_, truncAway_yields h hx _, numberCeil_spec _ hw⟩

/-- Rounding up is away from zero just when the number is an integer or not negative. -/
theorem numberCeil_away_iff (h : m.Counts (a ::ₘ own)) (hx : m.content? a = some x) (hw : x.Wf) :
    RoundsTo (Counted.numberCeil a) m own (Rounding.AwayFromZero x.value) ↔
      0 ≤ x.value ∨ ∃ z : ℤ, x.value = z := by
  have hceil := numberCeil_yields h hx hw
  rw [← Rounding.awayFromZero_ceil_iff]
  constructor
  · rintro ⟨t, ⟨z, hz, -, hzt⟩, haway⟩
    obtain ⟨z', hz', -, hceilValue⟩ := hceil
    have ht : t = ⌈x.value⌉ := by
      have heq : (t : ℚ) = ⌈x.value⌉ := by rw [← hzt, ← hceilValue, hz.unique hz']
      exact_mod_cast heq
    rwa [ht] at haway
  · exact fun haway => ⟨_, hceil, haway⟩

/-- The rounding functions are as documented, but for `ceil` between negative integers. -/
theorem rounding_laws_iff (h : m.Counts (a ::ₘ own)) (hx : m.content? a = some x) (hw : x.Wf) :
    RoundingLaws m own a x.value ↔ 0 ≤ x.value ∨ ∃ z : ℤ, x.value = z := by
  rw [← numberCeil_away_iff h hx hw]
  constructor
  · exact RoundingLaws.ceil
  · intro hceil
    have htrunc : YieldsValue (Counted.numberTrunc a) m own (Rounding.trunc x.value) :=
      ⟨_, mkuniqScaleDown_yields h hx 0, numberTrunc_spec _ hw⟩
    have hfrac : YieldsValue (Counted.numberFrac a) m own (x.value - Rounding.trunc x.value) := by
      refine ⟨_, numberFrac_yields h hx, (numberFrac_spec _ hw).1, ?_⟩
      have hsum := numberTrunc_add_numberFrac (decide (a ∉ own)) hw
      rw [(numberTrunc_spec _ hw).2] at hsum
      linarith
    refine ⟨⟨_, htrunc, Rounding.towardZero_trunc _⟩, ⟨_, _, htrunc, hfrac, by ring⟩, ?_, hceil, ?_⟩
    · refine ⟨⌊x.value⌋, ⟨_, truncAway_yields h hx _, numberFloor_spec _ hw⟩, ?_, ?_⟩
      · exact Set.mem_ofPred.mpr (Int.floor_le x.value)
      · exact fun z hz => Int.le_floor.mpr hz
    · exact ⟨_, ⟨_, truncAway_yields h hx _, numberRound_spec _ hw⟩, Rounding.nearest_nearest _⟩

end

/-- The ceiling of minus one and a half is minus one. -/
theorem rounding_laws_fail : ¬ @RoundingLaws libdeciByValue
    [some ⟨1, ⟨true, 1, [5000000000000000000, 1]⟩⟩] 0 0
    (@Number.value deciBase64 ⟨true, 1, [5000000000000000000, 1]⟩) := by
  let := libdeciByValue
  have hbase : deciBase = 10 ^ 19 := rfl
  have hvalue : Number.value ⟨true, 1, [5000000000000000000, 1]⟩ = -3 / 2 := by
    norm_num [Number.value, Number.signFactor, Number.absValue, Number.mag, hbase, Nat.ofDigits]
  rw [hvalue]
  rintro ⟨-, -, -, ⟨t, ⟨z, hz, -, hzt⟩, haway⟩, -⟩
  have hcounts : Memory.Counts [some ⟨1, (⟨true, 1, [5000000000000000000, 1]⟩ : Number)⟩] (0 ::ₘ 0) :=
    Memory.counts_replicate _ 1
  have hrun : Yields (Counted.numberCeil 0)
      [some ⟨1, ⟨true, 1, [5000000000000000000, 1]⟩⟩] 0 ⟨true, 0, [1]⟩ :=
    truncAway_yields hcounts rfl _
  rw [hz.unique hrun] at hzt
  have ht : t = -1 := by
    have heq : (t : ℚ) = -1 := by
      rw [← hzt]
      norm_num [Number.value, Number.signFactor, Number.absValue, Number.mag]
    exact_mod_cast heq
  have hle := haway.le
  rw [ht] at hle
  norm_num [abs_le] at hle

/-- Minus one, which is an integer. -/
theorem rounding_laws_iff_integer : @RoundingLaws libdeciByValue
    [some ⟨2, ⟨true, 1, [0, 1]⟩⟩] {0} 0 (@Number.value deciBase64 ⟨true, 1, [0, 1]⟩) := by
  let := libdeciByValue
  have hw : Number.Wf ⟨true, 1, [0, 1]⟩ := by decide
  have hcounts : Memory.Counts [some ⟨2, (⟨true, 1, [0, 1]⟩ : Number)⟩] (0 ::ₘ {0}) :=
    Memory.counts_replicate _ 2
  refine (rounding_laws_iff hcounts rfl hw).mpr (Or.inr ⟨-1, ?_⟩)
  have hbase : deciBase = 10 ^ 19 := rfl
  norm_num [Number.value, Number.signFactor, Number.absValue, Number.mag, hbase, Nat.ofDigits]

end Calx
