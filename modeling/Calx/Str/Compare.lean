import Calx.Str.Append

/-!
# The order of strings

`string_compare` is the lexicographic order of the texts on unsigned bytes, and
`string_equal`, which trusts the hashes to tell strings apart, is their equality.
-/

namespace Calx

variable {s t : Bytes}

/-! ## Byte strings -/

theorem memcmp_eq_iff (h : s.length = t.length) : memcmp s t = .eq ↔ s = t := by
  induction s generalizing t with
  | nil =>
      obtain rfl := List.length_eq_zero_iff.mp h.symm
      exact iff_of_true rfl rfl
  | cons c s ih =>
      cases t with
      | nil => cases h
      | cons d t =>
          rw [memcmp, List.cons.injEq]
          split
          · rename_i hcd
            rw [ih (Nat.succ.inj h), and_iff_right hcd]
          · rename_i hcd
            refine iff_of_false ?_ fun heq => hcd heq.1
            split <;> decide

/-- Behind the shorter string there is nothing to compare. -/
theorem memcmp_take : memcmp (s.take (min s.length t.length)) (t.take (min s.length t.length)) =
    memcmp s t := by
  induction s generalizing t with
  | nil =>
      rw [List.length_nil, Nat.zero_min]
      rfl
  | cons c s ih =>
      cases t with
      | nil =>
          rw [List.length_nil, Nat.min_zero]
          rfl
      | cons d t =>
          rw [List.length_cons, List.length_cons, Nat.succ_min_succ, List.take_succ_cons,
            List.take_succ_cons, memcmp, memcmp, ih]

/-- `string_compare` is the lexicographic order. -/
theorem stringCompare_eq (s t : Bytes) :
    stringCompare s t = compareFlag (compareOfLessAndEq s t) := by
  induction s generalizing t with
  | nil =>
      cases t with
      | nil => rfl
      | cons d t => simp [stringCompare, memcmp, compareOfLessAndEq, compareFlag]
  | cons c s ih =>
      cases t with
      | nil => simp [stringCompare, memcmp, compareOfLessAndEq, compareFlag]
      | cons d t =>
          have ih' := ih t
          rw [stringCompare] at ih' ⊢
          rw [memcmp]
          by_cases heq : c = d
          · subst heq
            have hlex : compareOfLessAndEq (c :: s) (c :: t) = compareOfLessAndEq s t := by
              simp [compareOfLessAndEq]
            rw [if_pos rfl, hlex, ← ih', List.length_cons, List.length_cons]
            simp only [Nat.add_lt_add_iff_right, Nat.add_right_cancel_iff]
          rw [if_neg heq]
          rcases UInt8.lt_or_lt_of_ne heq with hlt | hgt
          · rw [if_pos hlt, compareOfLessAndEq, if_pos (List.cons_lt_cons_iff.mpr (Or.inl hlt))]
            rfl
          · have hnot : ¬ c :: s < d :: t := fun h =>
              (List.cons_lt_cons_iff.mp h).elim (UInt8.lt_asymm hgt) fun h => heq h.1
            have hne : c :: s ≠ d :: t := fun h => heq (List.cons.inj h).1
            rw [if_neg (UInt8.lt_asymm hgt), compareOfLessAndEq, if_neg hnot, if_neg hne]
            rfl

/-- The flags of the lexicographic order. -/
theorem lexFlag_iff (s t : Bytes) :
    (compareFlag (compareOfLessAndEq s t) = compareLess ↔ s < t) ∧
      (compareFlag (compareOfLessAndEq s t) = compareEq ↔ s = t) ∧
      (compareFlag (compareOfLessAndEq s t) = compareGreater ↔ t < s) := by
  have hflag : ∀ o, compareFlag (compareOfLessAndEq s t) = compareFlag o ↔
      compareOfLessAndEq s t = o := fun o => ⟨compareFlag_inj, congrArg compareFlag⟩
  refine ⟨(hflag .lt).trans compareOfLessAndEq_eq_lt, (hflag .eq).trans ?_, (hflag .gt).trans ?_⟩
  · exact compareOfLessAndEq_eq_eq List.le_refl List.not_le
  · exact compareOfLessAndEq_eq_gt List.le_antisymm List.le_total List.not_le s t

namespace Str

open Refcount

variable {m : Memory StringObj} {p q : Addr} {x y : StringObj} {room room' : List (Option UInt8)}

/-! ## Strings in memory -/

/-- Comparing two strings compares their texts. -/
theorem stringCompare_run (hx : m.content? p = some x) (hold : x.Holds s room)
    (hy : m.content? q = some y) (hold' : y.Holds t room') :
    stringCompare p q m = some (.ok (compareFlag (compareOfLessAndEq s t)), m) := by
  have hmin : (if s.length < t.length then s.length else t.length) = min s.length t.length := by
    split <;> omega
  have hread := hold.read (Nat.min_le_left s.length t.length)
  have hread' := hold'.read (Nat.min_le_right s.length t.length)
  rw [stringCompare, Attempt.load_bind hx, Attempt.load_bind hy, hold.size, hold'.size, hmin,
    Attempt.compute_bind hread, Attempt.compute_bind hread', memcmp_take, ← stringCompare_eq,
    Calx.stringCompare]
  cases memcmp s t with
  | lt => rfl
  | gt => rfl
  | eq =>
      dsimp only
      split
      · rfl
      · split <;> rfl

/-- Strings are equal when their texts are. -/
theorem stringEqual_run (hx : m.content? p = some x) (hold : x.Holds s room)
    (hy : m.content? q = some y) (hold' : y.Holds t room') :
    stringEqual p q m = some (.ok (decide (s = t)), m) := by
  rw [stringEqual, Attempt.load_bind hx, Attempt.load_bind hy, hold.size, hold'.size, hold.hash,
    hold'.hash]
  by_cases hlen : s.length = t.length
  · rw [if_neg (not_not.mpr hlen)]
    by_cases hhash : hashStr s = hashStr t
    · have hread := hold.read (Nat.le_refl s.length)
      have hread' := hold'.read hlen.le
      rw [List.take_length] at hread
      rw [hlen, List.take_length, ← hlen] at hread'
      rw [if_neg (not_not.mpr hhash), Attempt.compute_bind hread, Attempt.compute_bind hread',
        decide_eq_decide.mpr (memcmp_eq_iff hlen)]
      rfl
    · -- Texts of different hashes differ.
      have hne : s ≠ t := fun heq => hhash (congrArg hashStr heq)
      rw [if_pos hhash, decide_eq_false hne]
      rfl
  · have hne : s ≠ t := fun heq => hlen (congrArg List.length heq)
    rw [if_pos hlen, decide_eq_false hne]
    rfl

end Str

end Calx
