import Calx.Lib.Span

/-!
# Output buffers

A buffer of a fixed capacity is written from its start. The state is what stands
before the position of the next element. Writing behind the capacity is a failure,
and so is looking back past the start.

## Implementation notes

The loops that look back are those of a span that ends at the position. A
computation that succeeds has kept to the buffer at every moment, so that a bound
on what it ever wrote is a capacity for which it succeeds.
-/

namespace Buffer

variable {α : Type} {cap : Nat} {p : α → Bool} {s t : List α} {c : α}

/-- `*p++ = c`. -/
def push (cap : Nat) (c : α) (s : List α) : Option (List α) :=
  if s.length < cap then some (s ++ [c]) else none

/-- `if (b) *p++ = c`. -/
def pushWhen (cap : Nat) (b : Bool) (c : α) (s : List α) : Option (List α) :=
  if b then push cap c s else some s

/-- `while (p(end[-1])) --end`. -/
def trim (p : α → Bool) (s : List α) : Option (List α) := (Span.trim p s s.length).map s.take

/-- `if (p(end[-1])) --end`. -/
def trimOne (p : α → Bool) (s : List α) : Option (List α) :=
  match s.getLast? with
  | none => none
  | some c => some (if p c then s.dropLast else s)

theorem push_eq (h : s.length < cap) : push cap c s = some (s ++ [c]) := if_pos h

theorem pushWhen_eq {b : Bool} (h : b = true → s.length < cap) :
    pushWhen cap b c s = some (s ++ if b then [c] else []) := by
  cases b with
  | false => rw [pushWhen, if_neg Bool.false_ne_true, if_neg Bool.false_ne_true, List.append_nil]
  | true => rw [pushWhen, if_pos rfl, if_pos rfl, push_eq (h rfl)]

/-- The loop ends in front of the start when it meets an element that it stops at. -/
theorem trim_eq (h : ∃ c ∈ s, p c = false) : trim p s = some (s.rdropWhile p) := by
  have hslice : ∀ j, Span.slice s 0 j = s.take j := fun j => List.drop_zero
  rw [← List.take_length (l := s), ← hslice] at h
  obtain ⟨j, htrim, -, -, hj⟩ := Span.trim_spec (Nat.le_refl _) h
  rw [hslice, hslice, List.take_length] at hj
  rw [trim, htrim, Option.map_some, hj]

theorem trimOne_eq [DecidableEq α] (h : s ≠ []) :
    trimOne (· = c) s = some (if s.getLast? = some c then s.dropLast else s) := by
  rw [trimOne, List.getLast?_eq_some_getLast h]
  simp

/-- An element that the loop stops at is left. -/
theorem mem_rdropWhile (hc : c ∈ s) (hp : p c = false) : c ∈ s.rdropWhile p := by
  induction s using List.reverseRecOn with
  | nil => exact absurd hc List.not_mem_nil
  | append_singleton s d ih =>
      cases hd : p d with
      | false => rwa [List.rdropWhile_concat_neg _ _ _ (by simp [hd])]
      | true =>
          rw [List.rdropWhile_concat_pos _ _ _ hd]
          rcases List.mem_append.mp hc with hc | hc
          · exact ih hc
          · rw [List.mem_singleton.mp hc, hd] at hp
            exact absurd hp (by decide)

/-- Looking back goes into the front part only through the whole back part. -/
theorem rdropWhile_append (p : α → Bool) (s t : List α) : (s ++ t).rdropWhile p =
    if t.rdropWhile p = [] then s.rdropWhile p else s ++ t.rdropWhile p := by
  induction t using List.reverseRecOn with
  | nil => simp
  | append_singleton t d ih =>
      rw [← List.append_assoc, List.rdropWhile_concat, List.rdropWhile_concat]
      cases hd : p d with
      | true => simpa using ih
      | false => simp

/-- An element that the loop stops at parts the list. -/
theorem rdropWhile_append_cons (s t : List α) (hp : p c = false) :
    (s ++ c :: t).rdropWhile p = s ++ c :: t.rdropWhile p := by
  have hcons : (c :: t).rdropWhile p = c :: t.rdropWhile p := by
    rw [← List.singleton_append, rdropWhile_append, List.rdropWhile_singleton]
    simp only [hp, Bool.false_eq_true, if_false, List.singleton_append]
    split
    · rename_i h
      rw [h]
    · rfl
  rw [rdropWhile_append, hcons, if_neg (List.cons_ne_nil _ _)]

theorem length_rdropWhile_le (p : α → Bool) (s : List α) : (s.rdropWhile p).length ≤ s.length :=
  (List.rdropWhile_prefix p s).length_le

end Buffer
