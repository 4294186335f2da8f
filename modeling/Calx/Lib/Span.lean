import Mathlib.Data.List.DropRight
import Mathlib.Tactic.Common

/-!
# Loops over a span

A span is an array with two offsets into it. The loops below move an offset and
look at one element at a time. A read outside the array yields nothing, and so
does a loop that does not end; otherwise the result of a loop is a function of
the slice between its offsets.

## Implementation notes

The forward loops compare their offset with the end only for equality, so the
number of their turns is bounded by an argument of its own. The backward loop
does not look at the start of the span at all.
-/

namespace Span

variable {α β : Type}

/-- The elements from offset `i` up to offset `e`. -/
def slice (a : List α) (i e : Nat) : List α := (a.take e).drop i

/-- `for (; i != e; ++i) b = f(b, a[i])`. -/
def fold (f : β → α → β) (a : List α) : Nat → Nat → Nat → β → Option β
  | 0, _, _, _ => none
  | turns + 1, i, e, b =>
      if i = e then some b
      else do
        let c ← a[i]?
        fold f a turns (i + 1) e (f b c)

/-- `while (i != e && p(a[i])) ++i`. -/
def skip (p : α → Bool) (a : List α) : Nat → Nat → Nat → Option Nat
  | 0, _, _ => none
  | turns + 1, i, e =>
      if i = e then some i
      else do
        let c ← a[i]?
        if p c then skip p a turns (i + 1) e else some i

/-- `memchr`: the offset of the first element that satisfies `p`. -/
def find (p : α → Bool) (a : List α) (turns i e : Nat) : Option (Option Nat) := do
  let j ← skip (fun c => !p c) a turns i e
  if j = e then some none else some (some j)

/-- `while (p(a[e - 1])) --e`. -/
def trim (p : α → Bool) (a : List α) : Nat → Option Nat
  | 0 => none
  | e + 1 => do
      let c ← a[e]?
      if p c then trim p a e else some (e + 1)

variable {a : List α} {i j e k turns : Nat}

/-! ## Slices -/

theorem slice_of_le (h : e ≤ i) : slice a i e = [] := by
  apply List.drop_of_length_le
  exact Nat.le_trans (List.length_take_le _ _) h

theorem length_slice (he : e ≤ a.length) : (slice a i e).length = e - i := by
  rw [slice, List.length_drop, List.length_take_of_le he]

@[simp] theorem slice_length : slice a i a.length = a.drop i := by
  rw [slice, List.take_length]

theorem slice_succ (hi : i < e) (he : e ≤ a.length) :
    ∃ c, a[i]? = some c ∧ slice a i e = c :: slice a (i + 1) e := by
  have hlt : i < a.length := Nat.lt_of_lt_of_le hi he
  refine ⟨a[i], List.getElem?_eq_getElem hlt, ?_⟩
  have hlen : i < (a.take e).length := by
    rw [List.length_take_of_le he]
    exact hi
  rw [slice, List.drop_eq_getElem_cons hlen, List.getElem_take, slice]

/-- The element a suffix starts with. -/
theorem drop_cons {c : α} {s : List α} (h : a.drop i = c :: s) :
    i < a.length ∧ a[i]? = some c ∧ a.drop (i + 1) = s := by
  have hlt : i < a.length := by
    by_contra hle
    rw [List.drop_of_length_le (Nat.le_of_not_lt hle)] at h
    exact absurd h (List.cons_ne_nil c s).symm
  rw [List.drop_eq_getElem_cons hlt, List.cons.injEq] at h
  exact ⟨hlt, by rw [List.getElem?_eq_getElem hlt, h.1], h.2⟩

/-- An empty suffix starts at the end. -/
theorem drop_nil (hi : i ≤ a.length) (h : a.drop i = []) : i = a.length :=
  Nat.le_antisymm hi (List.drop_eq_nil_iff.mp h)

theorem drop_takeWhile (p : α → Bool) (s : List α) :
    s.drop (s.takeWhile p).length = s.dropWhile p := by
  have h : (s.takeWhile p ++ s.dropWhile p).drop (s.takeWhile p).length = s.dropWhile p :=
    List.drop_left
  rwa [List.takeWhile_append_dropWhile] at h

theorem slice_append (hij : i ≤ j) (hje : j ≤ e) :
    slice a i e = slice a i j ++ slice a j e := by
  have hj : a.take j = (a.take e).take j := by rw [List.take_take, Nat.min_eq_left hje]
  have hij' : (a.take j).drop i = ((a.take e).drop i).take (j - i) := by
    rw [hj, List.drop_take]
  have hje' : (a.take e).drop j = ((a.take e).drop i).drop (j - i) := by
    rw [List.drop_drop, Nat.add_sub_cancel' hij]
  rw [slice, slice, slice, hij', hje', List.take_append_drop]

theorem slice_concat (hi : i ≤ e) (he : e < a.length) :
    ∃ c, a[e]? = some c ∧ slice a i (e + 1) = slice a i e ++ [c] := by
  obtain ⟨c, hc, hcons⟩ := slice_succ (Nat.lt_succ_self e) he
  refine ⟨c, hc, ?_⟩
  rw [slice_append hi (Nat.le_succ e), hcons, slice_of_le (Nat.le_refl _)]

/-- A slice that is cut in two is cut at an offset. -/
theorem slice_split {s t : List α} (he : e ≤ a.length) (hi : i ≤ e) (h : slice a i e = s ++ t) :
    i + s.length ≤ e ∧ slice a i (i + s.length) = s ∧ slice a (i + s.length) e = t := by
  have hlen := congrArg List.length h
  rw [length_slice he, List.length_append] at hlen
  have hle : i + s.length ≤ e := by omega
  refine ⟨hle, ?_⟩
  rw [slice_append (Nat.le_add_right i s.length) hle] at h
  apply List.append_inj h
  rw [length_slice (Nat.le_trans hle he)]
  omega

/-- A slice that is cut at one of its elements. -/
theorem slice_split_cons {c : α} {s t : List α} (he : e ≤ a.length) (hi : i ≤ e)
    (h : slice a i e = s ++ c :: t) :
    i + s.length < e ∧ slice a i (i + s.length) = s ∧ slice a (i + s.length + 1) e = t := by
  obtain ⟨hle, hs, ht⟩ := slice_split he hi h
  have hlt : i + s.length < e := by
    apply Nat.lt_of_le_of_ne hle
    intro heq
    rw [slice_of_le (Nat.le_of_eq heq.symm)] at ht
    exact absurd ht.symm (List.cons_ne_nil c t)
  obtain ⟨d, -, hcons⟩ := slice_succ hlt he
  rw [hcons] at ht
  exact ⟨hlt, hs, (List.cons.inj ht).2⟩

/-! ## Loops -/

theorem fold_eq {f : β → α → β} {b : β} (hi : i ≤ e) (he : e ≤ a.length) (hturns : e - i < turns) :
    fold f a turns i e b = some ((slice a i e).foldl f b) := by
  induction turns generalizing i b with
  | zero => omega
  | succ turns ih =>
      rw [fold]
      split
      · rename_i heq
        rw [slice_of_le (Nat.le_of_eq heq.symm), List.foldl_nil]
      · rename_i hne
        obtain ⟨c, hc, hcons⟩ := slice_succ (Nat.lt_of_le_of_ne hi hne) he
        rw [hc, hcons, List.foldl_cons]
        exact ih (by omega) (by omega)

theorem skip_eq {p : α → Bool} (hi : i ≤ e) (he : e ≤ a.length) (hturns : e - i < turns) :
    skip p a turns i e = some (i + ((slice a i e).takeWhile p).length) := by
  induction turns generalizing i with
  | zero => omega
  | succ turns ih =>
      rw [skip]
      split
      · rename_i heq
        rw [slice_of_le (Nat.le_of_eq heq.symm), List.takeWhile_nil, List.length_nil, Nat.add_zero]
      · rename_i hne
        obtain ⟨c, hc, hcons⟩ := slice_succ (Nat.lt_of_le_of_ne hi hne) he
        simp only [hc, hcons, List.takeWhile_cons, Option.bind_eq_bind, Option.bind_some]
        cases hp : p c with
        | true =>
            simp only [if_true, List.length_cons]
            rw [ih (by omega) (by omega), Nat.add_assoc, Nat.add_comm 1]
        | false => simp

/-- Where `skip` stops, it has passed the elements that satisfy `p`. -/
theorem skip_spec {p : α → Bool} (hi : i ≤ e) (he : e ≤ a.length) (hturns : e - i < turns) :
    ∃ j, skip p a turns i e = some j ∧ i ≤ j ∧ j ≤ e ∧
      slice a i j = (slice a i e).takeWhile p ∧ slice a j e = (slice a i e).dropWhile p := by
  have hsplit := (List.takeWhile_append_dropWhile (p := p) (l := slice a i e)).symm
  obtain ⟨hle, htake, hdrop⟩ := slice_split he hi hsplit
  exact ⟨_, skip_eq hi he hturns, Nat.le_add_right _ _, hle, htake, hdrop⟩

theorem find_none {p : α → Bool} (hi : i ≤ e) (he : e ≤ a.length) (hturns : e - i < turns)
    (h : ∀ c ∈ slice a i e, p c = false) : find p a turns i e = some none := by
  have hall : (slice a i e).takeWhile (fun c => !p c) = slice a i e :=
    List.takeWhile_eq_self_iff.mpr fun c hc => by simp [h c hc]
  have hend : i + (slice a i e).length = e := by
    rw [length_slice he]
    omega
  simp [find, skip_eq hi he hturns, hall, hend]

theorem find_some {p : α → Bool} (hi : i ≤ e) (he : e ≤ a.length) (hturns : e - i < turns)
    (h : ∃ c ∈ slice a i e, p c = true) :
    ∃ j, find p a turns i e = some (some j) ∧ i ≤ j ∧ j < e ∧
      slice a i j = (slice a i e).takeWhile (fun c => !p c) ∧
      slice a j e = (slice a i e).dropWhile (fun c => !p c) := by
  obtain ⟨j, hskip, hij, hje, htake, hdrop⟩ := skip_spec (p := fun c => !p c) hi he hturns
  have hlt : j < e := by
    apply Nat.lt_of_le_of_ne hje
    intro heq
    rw [slice_of_le (Nat.le_of_eq heq.symm)] at hdrop
    obtain ⟨c, hc, hp⟩ := h
    have hnot := List.dropWhile_eq_nil_iff.mp hdrop.symm c hc
    simp [hp] at hnot
  refine ⟨j, ?_, hij, hlt, htake, hdrop⟩
  simp [find, hskip, Nat.ne_of_lt hlt]

/-- `trim` stays in a span that holds an element it stops at. -/
theorem trim_spec {p : α → Bool} (he : e ≤ a.length) (h : ∃ c ∈ slice a i e, p c = false) :
    ∃ j, trim p a e = some j ∧ i < j ∧ j ≤ e ∧ slice a i j = (slice a i e).rdropWhile p := by
  induction e with
  | zero =>
      obtain ⟨c, hc, -⟩ := h
      rw [slice_of_le (Nat.zero_le i)] at hc
      exact absurd hc List.not_mem_nil
  | succ e ih =>
      have hi : i ≤ e := by
        by_contra hlt
        obtain ⟨c, hc, -⟩ := h
        rw [slice_of_le (Nat.lt_of_not_le hlt)] at hc
        exact absurd hc List.not_mem_nil
      obtain ⟨d, hd, hconcat⟩ := slice_concat hi he
      cases hp : p d with
      | true =>
          have hmem : ∃ c ∈ slice a i e, p c = false := by
            obtain ⟨c, hc, hpc⟩ := h
            rw [hconcat, List.mem_append, List.mem_singleton] at hc
            rcases hc with hc | rfl
            · exact ⟨c, hc, hpc⟩
            · rw [hp] at hpc
              exact absurd hpc (by simp)
          obtain ⟨j, htrim, hij, hje, hslice⟩ := ih (Nat.le_of_succ_le he) hmem
          refine ⟨j, ?_, hij, Nat.le_succ_of_le hje, ?_⟩
          · simp [trim, hd, hp, htrim]
          · rw [hconcat, List.rdropWhile_concat_pos _ _ _ hp, hslice]
      | false =>
          refine ⟨e + 1, ?_, Nat.lt_succ_of_le hi, Nat.le_refl _, ?_⟩
          · simp [trim, hd, hp]
          · rw [hconcat, List.rdropWhile_concat_neg _ _ _ (by simp [hp])]

end Span
