import Mathlib.Tactic.Common

/-!
# Blocks of memory

A block is a list of cells, and a cell that has not been written holds nothing.
Reading such a cell fails, and so does every access outside the block.

## Implementation notes

`Agrees b off v` says that the block `b` has from `off` on all that has been
written to `v`, so that the written part of a block is stated without its slack.
What is read and written of `v` is then read and written of `b`.
-/

namespace Block

variable {α : Type} {b b' v v' : List (Option α)} {w w' : List α} {off k n i : Nat} {c : α}

/-- What a cell holds. -/
def cell (b : List (Option α)) (i : Nat) : Option α := b[i]?.join

/-- Read `n` cells from `off` on. -/
def read (b : List (Option α)) : Nat → Nat → Option (List α)
  | _, 0 => some []
  | off, n + 1 => do
      let c ← cell b off
      let w ← read b (off + 1) n
      some (c :: w)

/-- Write cells from `off` on. -/
def write (b : List (Option α)) (off : Nat) (w : List α) : Option (List (Option α)) :=
  if off + w.length ≤ b.length then some (b.take off ++ w.map some ++ b.drop (off + w.length))
  else none

/-- Change the number of cells. -/
def resize (b : List (Option α)) (n : Nat) : List (Option α) :=
  b.take n ++ List.replicate (n - b.length) none

/-- The block has from `off` on what has been written to `v`. -/
def Agrees (b : List (Option α)) (off : Nat) (v : List (Option α)) : Prop :=
  ∀ i c, cell v i = some c → cell b (off + i) = some c

@[simp] theorem cell_map_some : cell (w.map some) i = w[i]? := by
  rw [cell, List.getElem?_map]
  cases w[i]? <;> rfl

@[simp] theorem cell_replicate_none : cell (List.replicate n (none : Option α)) i = none := by
  rw [cell, List.getElem?_replicate]
  split <;> rfl

theorem lt_length (h : cell b i = some c) : i < b.length := by
  by_contra hge
  rw [cell, List.getElem?_eq_none (Nat.not_lt.mp hge)] at h
  cases h

/-! ## Reading -/

theorem read_iff :
    read b off n = some w ↔ w.length = n ∧ ∀ i c, w[i]? = some c → cell b (off + i) = some c := by
  induction n generalizing off w with
  | zero =>
      rw [read, Option.some.injEq, List.length_eq_zero_iff]
      constructor
      · rintro rfl
        exact ⟨rfl, fun i c h => by cases h⟩
      · exact fun h => h.1.symm
  | succ n ih =>
      simp only [read, Option.bind_eq_bind, Option.bind_eq_some_iff, Option.some.injEq]
      constructor
      · rintro ⟨c, hc, rest, hrest, rfl⟩
        obtain ⟨hlen, hcells⟩ := ih.mp hrest
        refine ⟨congrArg Nat.succ hlen, fun i d hd => ?_⟩
        cases i with
        | zero =>
            obtain rfl := Option.some.inj hd
            exact hc
        | succ i =>
            have hd' := hcells i d hd
            rwa [show off + 1 + i = off + (i + 1) by omega] at hd'
      · rintro ⟨hlen, hcells⟩
        cases w with
        | nil => cases hlen
        | cons c rest =>
            refine ⟨c, hcells 0 c rfl, rest, ih.mpr ⟨Nat.succ.inj hlen, fun i d hd => ?_⟩, rfl⟩
            have hd' := hcells (i + 1) d hd
            rwa [show off + (i + 1) = off + 1 + i by omega] at hd'

theorem read_length (h : read b off n = some w) : w.length = n := (read_iff.mp h).1

theorem read_le (h : read b off n = some w) : n = 0 ∨ off + n ≤ b.length := by
  obtain ⟨hlen, hcells⟩ := read_iff.mp h
  cases n with
  | zero => exact Or.inl rfl
  | succ n =>
      have hlt : n < w.length := by omega
      have hcell := lt_length (hcells n w[n] (List.getElem?_eq_getElem hlt))
      exact Or.inr hcell

theorem agrees_of_read (h : read b off n = some w) : Agrees b off (w.map some) := fun i c hc => by
  rw [cell_map_some] at hc
  exact (read_iff.mp h).2 i c hc

theorem Agrees.read_all (h : Agrees b off (w.map some)) : read b off w.length = some w :=
  read_iff.mpr ⟨rfl, fun i c hc => h i c (by rwa [cell_map_some])⟩

/-- What is read of a part is read of the block. -/
theorem Agrees.read (h : Agrees b off v) (hr : read v k n = some w) :
    read b (off + k) n = some w := by
  obtain ⟨hlen, hcells⟩ := read_iff.mp hr
  refine read_iff.mpr ⟨hlen, fun i c hc => ?_⟩
  rw [Nat.add_assoc]
  exact h _ c (hcells i c hc)

/-- A list is read up to any length. -/
theorem read_map_some (h : n ≤ w.length) : read (w.map some) 0 n = some (w.take n) := by
  refine read_iff.mpr ⟨List.length_take_of_le h, fun i c hc => ?_⟩
  rw [Nat.zero_add, cell_map_some]
  rw [List.getElem?_take] at hc
  split at hc
  · exact hc
  · cases hc

theorem Agrees.append (h : Agrees b 0 (w.map some)) (h' : Agrees b w.length (w'.map some)) :
    Agrees b 0 ((w ++ w').map some) := fun i c hc => by
  rw [cell_map_some, List.getElem?_append] at hc
  split at hc
  · exact h i c (by rwa [cell_map_some])
  · have hc' := h' (i - w.length) c (by rwa [cell_map_some])
    rwa [show w.length + (i - w.length) = 0 + i by omega] at hc'

theorem agrees_none : Agrees b off (List.replicate n none) := fun i c hc => by
  rw [cell_replicate_none] at hc
  cases hc

/-! ## Writing -/

theorem write_eq (h : off + w.length ≤ b.length) :
    write b off w = some (b.take off ++ w.map some ++ b.drop (off + w.length)) := if_pos h

theorem le_of_write (h : write b off w = some b') : off + w.length ≤ b.length := by
  rw [write] at h
  split at h
  · assumption
  · cases h

theorem write_length (h : write b off w = some b') : b'.length = b.length := by
  have hle := le_of_write h
  rw [write_eq hle] at h
  rw [← Option.some.inj h]
  simp only [List.length_append, List.length_take, List.length_map, List.length_drop]
  omega

theorem cell_write (h : write b off w = some b') (i : Nat) :
    cell b' i = if off ≤ i ∧ i < off + w.length then w[i - off]? else cell b i := by
  have hle := le_of_write h
  rw [write_eq hle] at h
  rw [← Option.some.inj h, cell, List.append_assoc]
  have htake : (b.take off).length = off := List.length_take_of_le (by omega)
  rcases Nat.lt_or_ge i off with hlt | hge
  · rw [List.getElem?_append_left (by omega), List.getElem?_take_of_lt hlt,
      if_neg fun hi => absurd hi.1 (by omega)]
    rfl
  rw [List.getElem?_append_right (by omega), htake]
  rcases Nat.lt_or_ge i (off + w.length) with hlt | hge'
  · rw [List.getElem?_append_left (by rw [List.length_map]; omega), if_pos ⟨hge, hlt⟩]
    exact cell_map_some
  · rw [List.getElem?_append_right (by rw [List.length_map]; omega), List.length_map,
      List.getElem?_drop, if_neg fun hi => absurd hi.2 (by omega),
      show off + w.length + (i - off - w.length) = i by omega]
    rfl

/-- Writing leaves what stands before it. -/
theorem Agrees.frame (h : Agrees b 0 v) (hw : write b off w = some b') (hle : v.length ≤ off) :
    Agrees b' 0 v := fun i c hc => by
  have hlt := lt_length hc
  rw [cell_write hw, if_neg fun hi => absurd hi.1 (by omega)]
  exact h i c hc

theorem agrees_written (hw : write b off w = some b') : Agrees b' off (w.map some) :=
  fun i c hc => by
    have hlt := lt_length hc
    rw [List.length_map] at hlt
    rw [cell_map_some] at hc
    rw [cell_write hw, if_pos ⟨by omega, by omega⟩, Nat.add_sub_cancel_left, hc]

/-- What is written to a part is written to the block. -/
theorem Agrees.write (h : Agrees b off v) (hle : off + v.length ≤ b.length)
    (hw : write v k w = some v') :
    ∃ b', write b (off + k) w = some b' ∧ Agrees b' off v' := by
  have hk := le_of_write hw
  have hroom : off + k + w.length ≤ b.length := by omega
  have hb := write_eq hroom
  refine ⟨_, hb, fun i c hc => ?_⟩
  rw [cell_write hw] at hc
  rw [cell_write hb]
  split at hc
  · rename_i hi
    rw [if_pos ⟨by omega, by omega⟩, show off + i - (off + k) = i - k by omega]
    exact hc
  · rename_i hi
    rw [if_neg fun hi' => hi ⟨by omega, by omega⟩]
    exact h i c hc

/-! ## Resizing -/

theorem resize_length : (resize b n).length = n := by
  rw [resize, List.length_append, List.length_take, List.length_replicate]
  omega

theorem Agrees.resize (h : Agrees b off v) (hle : off + v.length ≤ n) :
    Agrees (resize b n) off v := fun i c hc => by
  have hlt := lt_length hc
  have hb := h i c hc
  have hlt' := lt_length hb
  rw [cell, Block.resize, List.getElem?_append_left (by rw [List.length_take]; omega),
    List.getElem?_take_of_lt (by omega)]
  exact hb

end Block
