import Mathlib.Data.List.Forall2
import Mathlib.Order.Nat
import Mathlib.Tactic.Common

/-!
# Marked elements of lists

The sum of the positions of the marked elements of a list, and lists in which the
same number of marked elements stands later.

## Implementation notes

Where a piece of a list is rearranged, the sum changes by as much as it does in
the piece. That is why lists of one length with equally many marks are compared.
-/

namespace Marks

variable {α β : Type*} (p : α → Bool)

/-- The sum of the positions of the marked elements, the first element having position `i`. -/
def posSum : Nat → List α → Nat
  | _, [] => 0
  | i, a :: l => (if p a then i else 0) + posSum (i + 1) l

variable {p}

theorem posSum_append (i : Nat) (l l' : List α) :
    posSum p i (l ++ l') = posSum p i l + posSum p (i + l.length) l' := by
  induction l generalizing i with
  | nil => simp [posSum]
  | cons a l ih =>
      rw [List.cons_append, posSum, posSum, ih, List.length_cons]
      have hpos : i + 1 + l.length = i + (l.length + 1) := by omega
      rw [hpos, Nat.add_assoc]

theorem posSum_shift (i k : Nat) (l : List α) :
    posSum p (i + k) l = posSum p i l + k * l.countP p := by
  induction l generalizing i with
  | nil => rfl
  | cons a l ih =>
      have hpos : i + k + 1 = i + 1 + k := by omega
      rw [posSum, posSum, hpos, ih, List.countP_cons, Nat.mul_add]
      split
      · rw [Nat.mul_one]
        omega
      · rw [Nat.mul_zero]
        omega

/-- The marks of the second part of a list count from the length of the first. -/
theorem posSum_concat (l l' : List α) :
    posSum p 0 (l ++ l') = posSum p 0 l + posSum p 0 l' + l.length * l'.countP p := by
  rw [posSum_append, posSum_shift]
  omega

/-- The marks of `l'` are as many as those of `l` and stand at least as late; if `strict` holds,
they stand later. -/
structure Delayed (p : α → Bool) (strict : Prop) (l l' : List α) : Prop where
  length : l'.length = l.length
  count : l'.countP p = l.countP p
  sum : posSum p 0 l ≤ posSum p 0 l'
  later : strict → posSum p 0 l < posSum p 0 l'

namespace Delayed

variable {s t : Prop} {k l m l' : List α}

theorem refl (l : List α) : Delayed p False l l := ⟨rfl, rfl, le_rfl, False.elim⟩

theorem imp (h : Delayed p s l m) (hst : t → s) : Delayed p t l m :=
  ⟨h.length, h.count, h.sum, fun ht => h.later (hst ht)⟩

theorem trans (h : Delayed p s k l) (h' : Delayed p t l m) : Delayed p (s ∨ t) k m := by
  constructor
  · rw [h'.length, h.length]
  · rw [h'.count, h.count]
  · exact h.sum.trans h'.sum
  · rintro (hs | ht)
    · exact (h.later hs).trans_le h'.sum
    · exact h.sum.trans_lt (h'.later ht)

theorem append {k' : List α} (h : Delayed p s k l) (h' : Delayed p t k' l') :
    Delayed p (s ∨ t) (k ++ k') (l ++ l') := by
  have hsum := h.sum
  have hsum' := h'.sum
  constructor
  · rw [List.length_append, List.length_append, h.length, h'.length]
  · rw [List.countP_append, List.countP_append, h.count, h'.count]
  · rw [posSum_concat, posSum_concat, h.length, h'.count]
    omega
  · intro hst
    rw [posSum_concat, posSum_concat, h.length, h'.count]
    rcases hst with hs | ht
    · have := h.later hs
      omega
    · have := h'.later ht
      omega

/-- What stands in front of both lists. -/
theorem prepend (k : List α) (h : Delayed p s l m) : Delayed p s (k ++ l) (k ++ m) :=
  ((refl k).append h).imp Or.inr

/-- What stands behind both lists. -/
theorem extend (h : Delayed p s l m) (k : List α) : Delayed p s (l ++ k) (m ++ k) :=
  (h.append (refl k)).imp Or.inl

/-- A mark that is moved behind a list and an unmarked element. -/
theorem move {a b : α} (ha : p a = true) (hb : p b = false) (l : List α) :
    Delayed p True (a :: (l ++ [b])) (l ++ [b, a]) := by
  have hcount := List.countP_le_length (p := p) (l := l)
  have hleft : posSum p 0 (a :: (l ++ [b])) = posSum p 0 l + l.countP p := by
    rw [posSum, posSum_append, posSum_shift 0 1]
    simp [posSum, hb]
  have hright : posSum p 0 (l ++ [b, a]) = posSum p 0 l + (l.length + 1) := by
    rw [posSum_concat]
    simp [posSum, ha, hb]
    omega
  constructor
  · simp
  · simp [ha, hb]
  · rw [hleft, hright]
    omega
  · intro _
    rw [hleft, hright]
    omega

/-- An unmarked element that is moved in front of a list and a mark. -/
theorem yield {a b : α} (ha : p a = true) (hb : p b = false) (l : List α) :
    Delayed p True (l ++ [a, b]) (b :: (l ++ [a])) := by
  have hleft : posSum p 0 (l ++ [a, b]) = posSum p 0 l + l.length := by
    rw [posSum_concat]
    simp [posSum, ha, hb]
  have hright : posSum p 0 (b :: (l ++ [a])) =
      posSum p 0 l + l.countP p + (l.length + 1) := by
    rw [posSum, posSum_append, posSum_shift 0 1]
    simp [posSum, ha, hb]
    omega
  constructor
  · simp
  · simp [ha, hb]
  · rw [hleft, hright]
    omega
  · intro _
    rw [hleft, hright]
    omega

end Delayed

end Marks
