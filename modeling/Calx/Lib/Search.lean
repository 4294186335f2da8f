import Mathlib.Tactic.Common

/-!
# Binary search over a half-open range

The search for the end of the elements that stand in front: on a list where these
come first, it stops behind the last of them. Every element it looks at is read
through a bounds check.
-/

namespace Search

variable {α : Type}

/-- `while (left != right)`: behind the middle if its element stands in front, else at it. -/
def upper (front : α → Bool) (a : List α) : Nat → Nat → Nat → Option Nat
  | 0, _, _ => none
  | turns + 1, left, right =>
      if left = right then some left
      else do
        let mid := left + (right - left) / 2
        let x ← a[mid]?
        if front x then upper front a turns (mid + 1) right else upper front a turns left mid

variable {front : α → Bool} {l r : List α}

theorem front_iff (hl : ∀ x ∈ l, front x = true) (hr : ∀ x ∈ r, front x = false) {i : Nat} {x : α}
    (h : (l ++ r)[i]? = some x) : front x = true ↔ i < l.length := by
  rcases Nat.lt_or_ge i l.length with hi | hi
  · rw [List.getElem?_append_left hi] at h
    exact iff_of_true (hl x (List.mem_of_getElem? h)) hi
  · rw [List.getElem?_append_right hi] at h
    have hback := hr x (List.mem_of_getElem? h)
    exact iff_of_false (by simp [hback]) (Nat.not_lt.mpr hi)

/-- The search ends between the elements in front and the others. -/
theorem upper_eq (hl : ∀ x ∈ l, front x = true) (hr : ∀ x ∈ r, front x = false)
    {turns left right : Nat} (hleft : left ≤ l.length) (hright : l.length ≤ right)
    (hlen : right ≤ (l ++ r).length) (hturns : right - left < turns) :
    upper front (l ++ r) turns left right = some l.length := by
  induction turns generalizing left right with
  | zero => omega
  | succ turns ih =>
      rw [upper]
      split
      · rename_i heq
        rw [Nat.le_antisymm hleft (heq ▸ hright)]
      · rename_i hne
        have hmid : left + (right - left) / 2 < right := by omega
        have hx := List.getElem?_eq_getElem (Nat.lt_of_lt_of_le hmid hlen)
        have hfront := front_iff hl hr hx
        simp only [hx, Option.bind_eq_bind, Option.bind_some]
        split
        · rename_i h
          exact ih (hfront.mp h) hright hlen (by omega)
        · rename_i h
          have hle := Nat.not_lt.mp fun hlt => h (hfront.mpr hlt)
          exact ih hleft hle (by omega) (by omega)

end Search
