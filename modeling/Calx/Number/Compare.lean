import Calx.Number.Arith

/-!
# Comparison

`number_compare` returns the flag of the order of the values.

## Implementation notes

`compareFlag` names the flag of an order. The loops of `compare_abs` take the
shorter span as if zeros stood below it, which is what a smaller scale means.
-/

namespace Calx

open Nat (ofDigits)
open Positional Libdeci

/-! ## Flags -/

/-- The flag of an order. -/
def compareFlag : Ordering → Nat
  | .lt => compareLess
  | .eq => compareEq
  | .gt => compareGreater

theorem compareFlag_inj {o o' : Ordering} (h : compareFlag o = compareFlag o') : o = o' := by
  cases o <;> cases o' <;> first | rfl | cases h

/-- The flags of an order and of the opposite one, by the mask of `compare_abs`. -/
def maskedFlag (swapped : Bool) (o : Ordering) : Nat := compareFlag (if swapped then o.swap else o)

/-- `xor_result_with` for operands taken in the opposite order. -/
def xorMask (swapped : Bool) : Nat := if swapped then compareLess ||| compareGreater else 0

variable [Libdeci] {a b c : Number}

/-! ## Words from the top down -/

/-- The words that only the first span has decide by whether one of them is not zero. -/
theorem compareWords_nil (swapped : Bool) (w : List Nat) :
    compareWords (xorMask swapped) w [] =
      maskedFlag swapped (compare (ofDigits deciBase w.reverse) 0) := by
  have hzero : ofDigits deciBase w.reverse = 0 ↔ ∀ x ∈ w, x = 0 := by
    rw [ofDigits_eq_zero deciBase_pos]
    simp only [List.mem_reverse]
  cases w with
  | nil => cases swapped <;> rfl
  | cons x w =>
      change (if (x :: w).any (· ≠ 0) then _ else _) = _
      split
      · rename_i hany
        obtain ⟨y, hy, hne⟩ := List.any_eq_true.mp hany
        have hpos : 0 < ofDigits deciBase (x :: w).reverse :=
          Nat.pos_of_ne_zero fun h => (of_decide_eq_true hne) (hzero.mp h y hy)
        rw [Nat.compare_eq_gt.mpr hpos]
        cases swapped <;> rfl
      · rename_i hany
        have hall : ∀ y ∈ x :: w, y = 0 := by simpa using hany
        rw [hzero.mpr hall]
        cases swapped <;> rfl

/-- The value of the second span stands above the words that only the first span has. -/
theorem compareWords_spec (swapped : Bool) {w₁ w₂ : List Nat} (h₁ : Words w₁) (h₂ : Words w₂)
    (hle : w₂.length ≤ w₁.length) :
    compareWords (xorMask swapped) w₁ w₂ =
      maskedFlag swapped (compare (ofDigits deciBase w₁.reverse)
        (deciBase ^ (w₁.length - w₂.length) * ofDigits deciBase w₂.reverse)) := by
  induction w₁ generalizing w₂ with
  | nil =>
      obtain rfl : w₂ = [] := List.length_eq_zero_iff.mp (Nat.le_zero.mp hle)
      cases swapped <;> rfl
  | cons x w₁ ih =>
      cases w₂ with
      | nil =>
          rw [compareWords_nil, List.reverse_nil, Nat.ofDigits_nil, Nat.mul_zero]
      | cons y w₂ =>
          obtain ⟨hx, hw₁⟩ := digits_cons.mp h₁
          obtain ⟨hy, hw₂⟩ := digits_cons.mp h₂
          have hle' : w₂.length ≤ w₁.length := Nat.le_of_succ_le_succ hle
          have hrev₁ : Words w₁.reverse := fun z hz => hw₁ z (List.mem_reverse.mp hz)
          -- The lower span with zeros below it is as long as the upper one.
          obtain ⟨v, hv⟩ : ∃ v, v =
            List.replicate (w₁.length - w₂.length) 0 ++ w₂.reverse := ⟨_, rfl⟩
          have hvlen : w₁.reverse.length = v.length := by
            rw [hv, List.length_append, List.length_replicate, List.length_reverse,
              List.length_reverse]
            omega
          have hvwords : Words v := by
            rw [hv]
            exact digits_append.mpr ⟨digits_replicate_zero deciBase_pos,
              fun z hz => hw₂ z (List.mem_reverse.mp hz)⟩
          have hpad : ∀ t : List Nat, deciBase ^ (w₁.length - w₂.length) *
              ofDigits deciBase (w₂.reverse ++ t) = ofDigits deciBase (v ++ t) := fun t => by
            rw [hv, List.append_assoc, ofDigits_replicate_append]
          rw [compareWords, List.length_cons, List.length_cons, Nat.succ_sub_succ, List.reverse_cons,
            List.reverse_cons, hpad]
          split
          · rename_i hlt
            rw [Nat.compare_eq_lt.mpr (hrev₁.concat_lt_concat one_lt_deciBase hvlen hlt)]
            cases swapped <;> rfl
          · split
            · rename_i hgt
              rw [Nat.compare_eq_gt.mpr (hvwords.concat_lt_concat one_lt_deciBase hvlen.symm hgt)]
              cases swapped <;> rfl
            · rename_i hnlt hngt
              obtain rfl : x = y := by omega
              have hv0 := hpad []
              rw [List.append_nil, List.append_nil] at hv0
              rw [ih hw₁ hw₂ hle', hv0, Nat.ofDigits_append, Nat.ofDigits_append, ← hvlen]
              congr 1
              simp only [Nat.compare_eq_ite_lt, Nat.add_lt_add_iff_right]

/-! ## Magnitudes -/

/-- The scaled magnitudes in the order of the magnitudes. -/
theorem compare_scaled (h : b.scale ≤ a.scale) :
    compare a.mag (deciBase ^ (a.scale - b.scale) * b.mag) = compare a.absValue b.absValue := by
  have hpos := Number.deciBase_pow_pos a.scale
  rw [← aligned_absValue h, Number.absValue]
  have hcast : (deciBase : ℚ) ^ (a.scale - b.scale) * b.mag =
      ((deciBase ^ (a.scale - b.scale) * b.mag : Nat) : ℚ) := by
    push_cast
    rfl
  rw [hcast]
  rcases lt_trichotomy a.mag (deciBase ^ (a.scale - b.scale) * b.mag) with hlt | heq | hgt
  · rw [compare_lt_iff_lt.mpr hlt, compare_lt_iff_lt.mpr]
    exact div_lt_div_of_pos_right (by exact_mod_cast hlt) hpos
  · rw [compare_eq_iff_eq.mpr heq, compare_eq_iff_eq.mpr]
    rw [heq]
  · rw [compare_gt_iff_gt.mpr hgt, compare_gt_iff_gt.mpr]
    exact div_lt_div_of_pos_right (by exact_mod_cast hgt) hpos

/-- A longer integer part is a larger magnitude. -/
theorem absValue_lt_of_nint_lt (ha : a.Wf) (hb : b.Wf)
    (h : a.nwords - a.scale < b.nwords - b.scale) : a.absValue < b.absValue := by
  have hpa := Number.deciBase_pow_pos a.scale
  have hpb := Number.deciBase_pow_pos b.scale
  have hsa := ha.scale_le
  have hsb := hb.scale_le
  have hone : (1 : ℚ) ≤ deciBase := by exact_mod_cast deciBase_pos
  have htop := (Number.wf_iff.mp hb).2.2.resolve_left (by omega)
  calc a.absValue < (deciBase : ℚ) ^ (a.nwords - a.scale) := by
        rw [Number.absValue, div_lt_iff₀ hpa, ← pow_add, Nat.sub_add_cancel hsa]
        exact_mod_cast Number.mag_lt ha.words
    _ ≤ (deciBase : ℚ) ^ (b.nwords - 1 - b.scale) := pow_le_pow_right₀ hone (by omega)
    _ ≤ b.absValue := by
        rw [Number.absValue, le_div_iff₀ hpb, ← pow_add, Nat.sub_add_cancel (by omega)]
        exact_mod_cast htop

theorem compareAbs_spec (ha : a.Wf) (hb : b.Wf) :
    compareAbs a b = compareFlag (compare a.absValue b.absValue) := by
  have hsa := ha.scale_le
  have hsb := hb.scale_le
  simp only [compareAbs]
  split
  · split
    · rename_i hlt
      rw [compare_lt_iff_lt.mpr (absValue_lt_of_nint_lt ha hb hlt)]
      rfl
    · rename_i hne hnlt
      rw [compare_gt_iff_gt.mpr (absValue_lt_of_nint_lt hb ha (by omega))]
      rfl
  · rename_i hint
    have hwords : ∀ {c : Number}, c.Wf → Words c.words.reverse :=
      fun hc z hz => hc.words z (List.mem_reverse.mp hz)
    have hspec : ∀ {c d : Number} (swapped : Bool), c.Wf → d.Wf → d.scale ≤ c.scale →
        d.nwords - d.scale = c.nwords - c.scale →
        compareWords (xorMask swapped) c.words.reverse d.words.reverse =
          maskedFlag swapped (compare c.absValue d.absValue) := by
      intro c d swapped hc hd hscale hnint
      have hsc := hc.scale_le
      have hsd := hd.scale_le
      have hlen : c.words.reverse.length - d.words.reverse.length = c.scale - d.scale := by
        rw [List.length_reverse, List.length_reverse, Number.length_words, Number.length_words]
        omega
      rw [compareWords_spec swapped (hwords hc) (hwords hd)
        (by rw [List.length_reverse, List.length_reverse, Number.length_words,
          Number.length_words]; omega), hlen, List.reverse_reverse, List.reverse_reverse,
        ← compare_scaled hscale]
      rfl
    split
    · rename_i hlt
      have h := hspec true hb ha hlt.le (by omega)
      rw [maskedFlag, if_pos rfl, ← Std.OrientedOrd.eq_swap] at h
      exact h
    · exact hspec false ha hb (by omega) (by omega)

/-! ## Numbers -/

/-- `number_compare` returns the flag of the order of the values. -/
theorem numberCompare_spec (ha : a.Wf) (hb : b.Wf) :
    numberCompare a b = compareFlag (compare a.value b.value) := by
  have hna := a.absValue_nonneg
  have hnb := b.absValue_nonneg
  have hzero : (numberIsZero a && numberIsZero b) = true ↔ a.absValue = 0 ∧ b.absValue = 0 := by
    rw [Bool.and_eq_true, numberIsZero_iff a ha, numberIsZero_iff b hb, Number.absValue_eq_zero,
      Number.absValue_eq_zero]
  simp only [numberCompare, Number.value, Number.signFactor]
  cases hsa : a.sign <;> cases hsb : b.sign <;>
    simp only [Bool.false_eq_true, Bool.true_eq_false, if_true, if_false, one_mul, neg_one_mul]
  · exact compareAbs_spec ha hb
  · split
    · rename_i hz
      obtain ⟨hza, hzb⟩ := hzero.mp hz
      rw [hza, hzb, neg_zero, compare_eq_iff_eq.mpr rfl]
      rfl
    · rename_i hz
      have hgt : -b.absValue < a.absValue := by
        by_contra hle
        exact hz (hzero.mpr ⟨by linarith, by linarith⟩)
      rw [compare_gt_iff_gt.mpr hgt]
      rfl
  · split
    · rename_i hz
      obtain ⟨hza, hzb⟩ := hzero.mp hz
      rw [hza, hzb, neg_zero, compare_eq_iff_eq.mpr rfl]
      rfl
    · rename_i hz
      have hlt : -a.absValue < b.absValue := by
        by_contra hle
        exact hz (hzero.mpr ⟨by linarith, by linarith⟩)
      rw [compare_lt_iff_lt.mpr hlt]
      rfl
  · rw [compareAbs_spec hb ha]
    congr 1
    rcases lt_trichotomy b.absValue a.absValue with hlt | heq | hgt
    · rw [compare_lt_iff_lt.mpr hlt, compare_lt_iff_lt.mpr (neg_lt_neg hlt)]
    · rw [heq, compare_eq_iff_eq.mpr rfl, compare_eq_iff_eq.mpr rfl]
    · rw [compare_gt_iff_gt.mpr hgt, compare_gt_iff_gt.mpr (neg_lt_neg hgt)]

/-- The flags one by one. -/
theorem numberCompare_iff (ha : a.Wf) (hb : b.Wf) :
    (numberCompare a b = compareLess ↔ a.value < b.value) ∧
      (numberCompare a b = compareEq ↔ a.value = b.value) ∧
      (numberCompare a b = compareGreater ↔ b.value < a.value) := by
  have hflag : ∀ o, numberCompare a b = compareFlag o ↔ compare a.value b.value = o := fun o => by
    rw [numberCompare_spec ha hb]
    exact ⟨compareFlag_inj, congrArg compareFlag⟩
  refine ⟨(hflag .lt).trans compare_lt_iff_lt, (hflag .eq).trans compare_eq_iff_eq,
    (hflag .gt).trans compare_gt_iff_gt⟩

end Calx
