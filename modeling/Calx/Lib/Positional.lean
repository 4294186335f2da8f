import Mathlib.Data.Nat.Digits.Lemmas
import Mathlib.Data.List.DropRight

/-!
# Positional notation

Lists of digits in a base, the lowest digit first, with or without zeros on top.

## Implementation notes

The value of a list is Mathlib's `Nat.ofDigits`. `Digits b w` says that the
entries of `w` are digits, `TopNonzero w` that no zero stands on top.
-/

namespace Positional

open Nat (ofDigits)

/-- The entries of the list are digits. -/
def Digits (b : Nat) (w : List Nat) : Prop := ∀ x ∈ w, x < b

/-- There is no zero on top. -/
def TopNonzero (w : List Nat) : Prop := w.getLast? ≠ some 0

/-- The list without the zeros on top. -/
def trimTop (w : List Nat) : List Nat := w.rdropWhile (· = 0)

variable {b k n : Nat} {w w₁ w₂ : List Nat}

/-! ## Digits -/

@[simp] theorem digits_nil : Digits b [] := fun _ h => absurd h List.not_mem_nil

@[simp] theorem digits_append : Digits b (w₁ ++ w₂) ↔ Digits b w₁ ∧ Digits b w₂ := by
  simp only [Digits, List.mem_append, or_imp, forall_and]

@[simp] theorem digits_cons {x : Nat} : Digits b (x :: w) ↔ x < b ∧ Digits b w := by
  simp [Digits]

theorem digits_replicate_zero (hb : 0 < b) : Digits b (List.replicate k 0) := fun x h => by
  rw [List.eq_of_mem_replicate h]
  exact hb

theorem Digits.take (h : Digits b w) (k : Nat) : Digits b (w.take k) := fun x hx =>
  h x (List.mem_of_mem_take hx)

theorem Digits.drop (h : Digits b w) (k : Nat) : Digits b (w.drop k) := fun x hx =>
  h x (List.mem_of_mem_drop hx)

theorem trimTop_isPrefix (w : List Nat) : trimTop w <+: w := List.rdropWhile_prefix _ w

theorem Digits.trimTop (h : Digits b w) : Digits b (trimTop w) := fun x hx =>
  h x ((trimTop_isPrefix w).subset hx)

theorem Digits.lt (h : Digits b w) (hb : 1 < b) : ofDigits b w < b ^ w.length :=
  Nat.ofDigits_lt_base_pow_length hb h

theorem Digits.drop_eq (h : Digits b w) (hb : 0 < b) (k : Nat) :
    ofDigits b (w.drop k) = ofDigits b w / b ^ k :=
  (Nat.ofDigits_div_pow_eq_ofDigits_drop k hb w h).symm

/-- The top digit decides between lists of one length. -/
theorem Digits.concat_lt_concat {x y : Nat} (h₁ : Digits b w₁) (hb : 1 < b)
    (hlen : w₁.length = w₂.length) (hxy : x < y) :
    ofDigits b (w₁ ++ [x]) < ofDigits b (w₂ ++ [y]) := by
  have hlt := h₁.lt hb
  rw [Nat.ofDigits_append, Nat.ofDigits_append, Nat.ofDigits_singleton, Nat.ofDigits_singleton,
    ← hlen]
  calc ofDigits b w₁ + b ^ w₁.length * x
      < b ^ w₁.length + b ^ w₁.length * x := Nat.add_lt_add_right hlt _
    _ = b ^ w₁.length * (x + 1) := by rw [Nat.mul_succ, Nat.add_comm]
    _ ≤ b ^ w₁.length * y := Nat.mul_le_mul_left _ hxy
    _ ≤ ofDigits b w₂ + b ^ w₁.length * y := Nat.le_add_left _ _

/-- The top digit is at least half of an even base just when the list is at least half of its
range. -/
theorem Digits.half_le_top (h : Digits b w) (hb : 1 < b) (heven : 2 ∣ b) :
    w.getLast?.any (b / 2 ≤ ·) = true ↔ b ^ w.length ≤ 2 * ofDigits b w := by
  induction w using List.reverseRecOn with
  | nil => simp
  | append_singleton w t _ =>
      obtain ⟨c, rfl⟩ := heven
      have hlow := Digits.lt (digits_append.mp h).1 hb
      rw [List.getLast?_concat, Option.any_some, decide_eq_true_eq, List.length_append,
        List.length_singleton, Nat.pow_succ, Nat.ofDigits_append, Nat.ofDigits_singleton,
        Nat.mul_div_cancel_left c (by decide), Nat.mul_left_comm]
      constructor
      · intro hle
        have hmul := Nat.mul_le_mul_left ((2 * c) ^ w.length) hle
        omega
      · intro hle
        by_contra hlt
        have hmul := Nat.mul_le_mul_left ((2 * c) ^ w.length) (Nat.lt_of_not_le hlt)
        rw [Nat.succ_eq_add_one, Nat.mul_add, Nat.mul_one] at hmul
        omega

/-- Lists of digits with one length and one value are the same. -/
theorem Digits.ext (hb : 1 < b) (h₁ : Digits b w₁) (h₂ : Digits b w₂)
    (hlen : w₁.length = w₂.length) (h : ofDigits b w₁ = ofDigits b w₂) : w₁ = w₂ :=
  Nat.ofDigits_inj_of_len_eq hb hlen h₁ h₂ h

theorem ofDigits_replicate_append (k : Nat) (w : List Nat) :
    ofDigits b (List.replicate k 0 ++ w) = b ^ k * ofDigits b w := by
  rw [Nat.ofDigits_append, Nat.ofDigits_replicate_zero, List.length_replicate, Nat.zero_add]

theorem ofDigits_eq_zero (hb : 0 < b) : ofDigits b w = 0 ↔ ∀ x ∈ w, x = 0 := by
  induction w with
  | nil => simp
  | cons x w ih => simp [Nat.ofDigits_cons, ih, Nat.pos_iff_ne_zero.mp hb]

/-! ## Zeros on top -/

theorem trimTop_append_zeros (w : List Nat) :
    trimTop w ++ List.replicate (w.length - (trimTop w).length) 0 = w := by
  induction w using List.reverseRecOn with
  | nil => rfl
  | append_singleton w x ih =>
      rw [trimTop, List.rdropWhile_concat]
      split
      · rename_i hx
        have hx : x = 0 := by simpa using hx
        have hle : (trimTop w).length ≤ w.length := (trimTop_isPrefix w).length_le
        rw [← trimTop, List.length_append, List.length_singleton, Nat.succ_sub hle,
          List.replicate_succ', ← List.append_assoc, ih, hx]
      · simp

theorem length_trimTop_le (w : List Nat) : (trimTop w).length ≤ w.length :=
  (trimTop_isPrefix w).length_le

theorem trimTop_eq_take (w : List Nat) : trimTop w = w.take (trimTop w).length :=
  List.prefix_iff_eq_take.mp (trimTop_isPrefix w)

@[simp] theorem ofDigits_trimTop (w : List Nat) : ofDigits b (trimTop w) = ofDigits b w := by
  conv_rhs => rw [← trimTop_append_zeros w]
  rw [Nat.ofDigits_append_replicate_zero]

theorem topNonzero_trimTop (w : List Nat) : TopNonzero (trimTop w) := by
  intro h
  have hne : trimTop w ≠ [] := fun hnil => by simp [hnil] at h
  rw [List.getLast?_eq_some_getLast hne, Option.some.injEq] at h
  exact List.rdropWhile_last_not (fun x => decide (x = 0)) w hne (decide_eq_true h)

theorem trimTop_of_topNonzero (h : TopNonzero w) : trimTop w = w := by
  induction w using List.reverseRecOn with
  | nil => rfl
  | append_singleton w x ih =>
      rw [trimTop, List.rdropWhile_concat, if_neg]
      simpa [TopNonzero] using h

@[simp] theorem topNonzero_nil : TopNonzero [] := by simp [TopNonzero]

theorem topNonzero_append {t : List Nat} (h : t ≠ []) : TopNonzero (w ++ t) ↔ TopNonzero t := by
  rw [TopNonzero, TopNonzero, List.getLast?_append_of_ne_nil _ h]

/-- The length of a list without a zero on top is that of its value. -/
theorem topNonzero_iff (hb : 1 < b) (hw : Digits b w) :
    TopNonzero w ↔ w = [] ∨ b ^ (w.length - 1) ≤ ofDigits b w := by
  induction w using List.reverseRecOn with
  | nil => simp
  | append_singleton w x ih =>
      have hlt := (digits_append.mp hw).1.lt hb
      simp only [TopNonzero, List.getLast?_concat, ne_eq, Option.some.injEq, List.append_eq_nil_iff,
        List.cons_ne_self, and_false, false_or, List.length_append, List.length_singleton,
        Nat.add_sub_cancel, Nat.ofDigits_append, Nat.ofDigits_singleton]
      constructor
      · intro hx
        exact Nat.le_trans (Nat.le_mul_of_pos_right _ (Nat.pos_of_ne_zero hx)) (Nat.le_add_left _ _)
      · rintro hle rfl
        omega

theorem ofDigits_eq_zero_iff_nil (hb : 1 < b) (hw : Digits b w) (h : TopNonzero w) :
    ofDigits b w = 0 ↔ w = [] := by
  constructor
  · intro h0
    rcases (topNonzero_iff hb hw).mp h with hnil | hle
    · exact hnil
    · have hpos : 0 < b ^ (w.length - 1) := Nat.pow_pos (by omega)
      omega
  · rintro rfl
    rfl

/-! ## Zeros at the bottom -/

theorem dropWhile_zero_split (w : List Nat) :
    w = List.replicate (w.length - (w.dropWhile (· = 0)).length) 0 ++ w.dropWhile (· = 0) := by
  induction w with
  | nil => rfl
  | cons x w ih =>
      rw [List.dropWhile_cons]
      split
      · rename_i hx
        have hx : x = 0 := by simpa using hx
        have hle : (w.dropWhile (· = 0)).length ≤ w.length := (List.dropWhile_suffix _).length_le
        rw [List.length_cons, Nat.succ_sub hle, List.replicate_succ, List.cons_append, ← ih, hx]
      · simp

/-! ## Lists of a given length -/

/-- The lowest `n` digits of a number. -/
def fixedDigits (b : Nat) : Nat → Nat → List Nat
  | 0, _ => []
  | n + 1, v => v % b :: fixedDigits b n (v / b)

@[simp] theorem length_fixedDigits (b n v : Nat) : (fixedDigits b n v).length = n := by
  induction n generalizing v with
  | zero => rfl
  | succ n ih => rw [fixedDigits, List.length_cons, ih]

theorem digits_fixedDigits (hb : 0 < b) (n v : Nat) : Digits b (fixedDigits b n v) := by
  induction n generalizing v with
  | zero => exact digits_nil
  | succ n ih => exact digits_cons.mpr ⟨Nat.mod_lt _ hb, ih _⟩

@[simp] theorem ofDigits_fixedDigits (b n v : Nat) : ofDigits b (fixedDigits b n v) = v % b ^ n := by
  induction n generalizing v with
  | zero => simp [fixedDigits, Nat.mod_one]
  | succ n ih => rw [fixedDigits, Nat.ofDigits_cons, ih, Nat.pow_succ', Nat.mod_mul]

/-- One more digit stands on top. -/
theorem fixedDigits_concat (hb : 1 < b) {n x q : ℕ} (hx : x < b ^ n) (hq : q < b) :
    fixedDigits b (n + 1) (x + b ^ n * q) = fixedDigits b n x ++ [q] := by
  have hlt : x + b ^ n * q < b ^ (n + 1) := by
    calc x + b ^ n * q < b ^ n + b ^ n * q := Nat.add_lt_add_right hx _
      _ = b ^ n * (q + 1) := by ring
      _ ≤ b ^ (n + 1) := Nat.mul_le_mul_left _ hq
  apply Digits.ext hb (digits_fixedDigits hb.le _ _)
  · exact digits_append.mpr ⟨digits_fixedDigits hb.le _ _, digits_cons.mpr ⟨hq, digits_nil⟩⟩
  · rw [List.length_append, length_fixedDigits, length_fixedDigits, List.length_singleton]
  · rw [ofDigits_fixedDigits, Nat.ofDigits_append, ofDigits_fixedDigits, length_fixedDigits,
      Nat.ofDigits_singleton, Nat.mod_eq_of_lt hlt, Nat.mod_eq_of_lt hx]

end Positional
