import Mathlib.Data.Set.Card
import Mathlib.Data.Set.Finite.List

/-!
# Counting the inputs of a sampler

A sampler reads words from a sequence. It is fair when every value has the same
number of sequences that lead to it: a number written with words as its digits, a
word reduced modulo a divisor of its range, and a sampler that tries again until
the value is accepted.

## Implementation notes

Sequences are lists, of which those of one length are counted. `digit` numbers
the words.
-/

namespace Uniform

variable {A α : Type}

/-- How many sequences of `k` words satisfy `p`. -/
noncomputable def count (k : ℕ) (p : List A → Prop) : ℕ := {ws : List A | ws.length = k ∧ p ws}.ncard

theorem count_congr {k : ℕ} {p q : List A → Prop} (h : ∀ ws, ws.length = k → (p ws ↔ q ws)) :
    count k p = count k q := by
  have hset : {ws : List A | ws.length = k ∧ p ws} = {ws | ws.length = k ∧ q ws} := by
    ext ws
    exact and_congr_right (h ws)
  rw [count, count, hset]

theorem count_eq_zero {k : ℕ} {p : List A → Prop} (h : ∀ ws, ws.length = k → ¬ p ws) :
    count k p = 0 := by
  have hset : {ws : List A | ws.length = k ∧ p ws} = ∅ :=
    Set.eq_empty_of_forall_notMem fun ws hws => h ws hws.1 hws.2
  rw [count, hset, Set.ncard_empty]

theorem count_or [Finite A] {k : ℕ} {p q : List A → Prop} (h : ∀ ws, p ws → ¬ q ws) :
    count k (fun ws => p ws ∨ q ws) = count k p + count k q := by
  have hset : {ws : List A | ws.length = k ∧ (p ws ∨ q ws)} =
      {ws | ws.length = k ∧ p ws} ∪ {ws | ws.length = k ∧ q ws} := by
    ext ws
    exact and_or_left
  have hfinite : ∀ r : List A → Prop, {ws : List A | ws.length = k ∧ r ws}.Finite := fun r =>
    (List.finite_length_eq A k).subset fun ws hws => hws.1
  have hdisjoint : Disjoint {ws : List A | ws.length = k ∧ p ws} {ws | ws.length = k ∧ q ws} := by
    rw [Set.disjoint_left]
    intro ws hp hq
    exact h ws hp.2 hq.2
  rw [count, hset, Set.ncard_union_eq hdisjoint (hfinite p) (hfinite q), count, count]

/-! ## Numbers whose digits are words -/

section Digits

variable {digit : A → ℕ} {ofDigit : ℕ → A} {B N M k v : ℕ} {f g : List A → ℕ}

theorem count_nil (hf : f [] = v) : count 0 (fun ws : List A => f ws = v) = 1 := by
  have hset : {ws : List A | ws.length = 0 ∧ f ws = v} = {[]} := by
    ext ws
    constructor
    · rintro ⟨hlen, -⟩
      exact List.length_eq_zero_iff.mp hlen
    · rintro rfl
      exact ⟨rfl, hf⟩
  rw [count, hset, Set.ncard_singleton]

/-- A word in front is a digit of its own. -/
theorem count_cons (hof : ∀ m < B, digit (ofDigit m) = m)
    (hinj : Function.Injective digit) (hN : 0 < N) (hg : ∀ ws, ws.length = k → g ws < N)
    (hf : ∀ x ws, ws.length = k → f (x :: ws) = digit x * N + g ws) (hv : v < B * N) :
    count (k + 1) (fun ws => f ws = v) = count k fun ws => g ws = v % N := by
  have hlead : v / N < B := Nat.div_lt_of_lt_mul (by rwa [Nat.mul_comm])
  have hset : {ws : List A | ws.length = k + 1 ∧ f ws = v} =
      (ofDigit (v / N) :: ·) '' {ws | ws.length = k ∧ g ws = v % N} := by
    ext ws
    constructor
    · rintro ⟨hlen, hval⟩
      cases ws with
      | nil => exact absurd hlen (Nat.succ_ne_zero k).symm
      | cons x ws =>
          have hk : ws.length = k := Nat.succ.inj hlen
          rw [hf x ws hk] at hval
          have hlow : g ws = v % N := by
            rw [← hval, Nat.mul_add_mod_self_right, Nat.mod_eq_of_lt (hg ws hk)]
          have hhigh : digit x = v / N := by
            rw [← hval, Nat.mul_comm, Nat.mul_add_div hN, Nat.div_eq_of_lt (hg ws hk), Nat.add_zero]
          have hx : ofDigit (v / N) = x := hinj (by rw [hof _ hlead, hhigh])
          exact ⟨ws, ⟨hk, hlow⟩, by rw [hx]⟩
    · rintro ⟨ws, ⟨hk, hlow⟩, rfl⟩
      refine ⟨by simp [hk], ?_⟩
      rw [hf _ ws hk, hof _ hlead, hlow, Nat.div_add_mod']
  rw [count, count, hset, Set.ncard_image_of_injective _ (List.cons_injective)]

/-- A word reduced modulo a divisor of the number of words. -/
theorem count_mod (hof : ∀ m < B, digit (ofDigit m) = m) (hdigit : ∀ x, digit x < B)
    (hinj : Function.Injective digit) (hB : B = N * M) (hf : ∀ x, f [x] = digit x % N) (hv : v < N) :
    count 1 (fun ws => f ws = v) = M := by
  have hbound : ∀ i < M, v + N * i < B := by
    intro i hi
    calc v + N * i < N * (i + 1) := by rw [Nat.mul_succ]; omega
      _ ≤ N * M := Nat.mul_le_mul_left N hi
      _ = B := hB.symm
  have hset : {ws : List A | ws.length = 1 ∧ f ws = v} =
      (fun i => [ofDigit (v + N * i)]) '' Set.Iio M := by
    ext ws
    constructor
    · rintro ⟨hlen, hval⟩
      obtain ⟨x, rfl⟩ := List.length_eq_one_iff.mp hlen
      rw [hf] at hval
      have hquot : digit x / N < M := Nat.div_lt_of_lt_mul (hB ▸ hdigit x)
      have hx : digit x = v + N * (digit x / N) := by
        rw [← hval, Nat.mod_add_div]
      refine ⟨digit x / N, hquot, ?_⟩
      dsimp only
      rw [← hx, hinj (hof _ (hdigit x))]
    · rintro ⟨i, hi, rfl⟩
      refine ⟨rfl, ?_⟩
      rw [hf, hof _ (hbound i hi), Nat.add_mul_mod_self_left, Nat.mod_eq_of_lt hv]
  have hinjOn : Set.InjOn (fun i => [ofDigit (v + N * i)]) (Set.Iio M) := by
    intro i hi j hj hij
    have heq := congrArg digit (List.singleton_injective hij)
    rw [hof _ (hbound i hi), hof _ (hbound j hj)] at heq
    exact Nat.eq_of_mul_eq_mul_left (by omega : 0 < N) (by omega)
  have hcard : (Set.Iio M).ncard = M := by
    rw [← Finset.coe_range, Set.ncard_coe_finset, Finset.card_range]
  rw [count, hset, hinjOn.ncard_image, hcard]

end Digits

/-! ## Trying again -/

/-- Words are read in blocks of `k` until `trial` accepts a block. -/
def retry (k : ℕ) (trial : List A → Option α) : ℕ → List A → Option (α × List A)
  | 0, _ => none
  | fuel + 1, ws =>
      if ws.length < k then none
      else
        match trial (ws.take k) with
        | some v => some (v, ws.drop k)
        | none => retry k trial fuel (ws.drop k)

variable {k : ℕ} {trial : List A → Option α}

theorem retry_of_short {fuel : ℕ} {ws : List A} (h : ws.length < k) :
    retry k trial fuel ws = none := by
  cases fuel with
  | zero => rfl
  | succ fuel => rw [retry, if_pos h]

/-- A value is the one of a block that was accepted, and whole blocks have been read. -/
theorem retry_some {fuel : ℕ} {ws rest : List A} {v : α} (h : retry k trial fuel ws = some (v, rest)) :
    (∃ b : List A, b.length = k ∧ trial b = some v) ∧ ∃ t, ws.length = k * (t + 1) + rest.length := by
  induction fuel generalizing ws with
  | zero => exact absurd h.symm (Option.some_ne_none _)
  | succ fuel ih =>
      rw [retry] at h
      split at h
      · exact absurd h.symm (Option.some_ne_none _)
      · rename_i hlen
        have hdrop : (ws.drop k).length = ws.length - k := List.length_drop
        split at h
        · rename_i u htrial
          obtain ⟨rfl, rfl⟩ := Prod.mk.inj (Option.some.inj h)
          refine ⟨⟨ws.take k, ?_, htrial⟩, 0, by omega⟩
          rw [List.length_take, Nat.min_eq_left (by omega)]
        · obtain ⟨hblock, t, ht⟩ := ih h
          refine ⟨hblock, t + 1, ?_⟩
          rw [Nat.mul_succ]
          omega

/-- On one block the sampler is its trial. -/
theorem retry_block {fuel : ℕ} {ws : List A} {v : α} (h : ws.length = k) :
    retry k trial (fuel + 1) ws = some (v, []) ↔ trial ws = some v := by
  have htake : ws.take k = ws := List.take_of_length_le h.le
  have hdrop : ws.drop k = [] := List.drop_eq_nil_of_le h.le
  rw [retry, if_neg (by omega), htake, hdrop]
  cases htrial : trial ws with
  | some u => simp
  | none =>
      constructor
      · intro hrest
        obtain ⟨⟨b, hb, hv⟩, t, ht⟩ := retry_some hrest
        have hk : k = 0 := by
          rw [List.length_nil, Nat.add_zero, Nat.mul_succ] at ht
          omega
        obtain rfl : b = ws :=
          (List.length_eq_zero_iff.mp (hb.trans hk)).trans (List.length_eq_zero_iff.mp (h.trans hk)).symm
        rw [← htrial, hv]
      · intro hsome
        exact absurd hsome.symm (Option.some_ne_none v)

/-- Blocks followed by sequences are counted by a product. -/
theorem count_append {l : ℕ} {p q : List A → Prop} :
    count (k + l) (fun ws => p (ws.take k) ∧ q (ws.drop k)) = count k p * count l q := by
  have hset : {ws : List A | ws.length = k + l ∧ p (ws.take k) ∧ q (ws.drop k)} =
      (fun s : List A × List A => s.1 ++ s.2) ''
        ({ws | ws.length = k ∧ p ws} ×ˢ {ws | ws.length = l ∧ q ws}) := by
    ext ws
    constructor
    · rintro ⟨hlen, hp, hq⟩
      refine ⟨(ws.take k, ws.drop k), ⟨⟨?_, hp⟩, ⟨?_, hq⟩⟩, List.take_append_drop k ws⟩
      · rw [List.length_take, hlen, Nat.min_eq_left (Nat.le_add_right k l)]
      · rw [List.length_drop, hlen, Nat.add_sub_cancel_left]
    · rintro ⟨⟨b, r⟩, ⟨⟨hb, hp⟩, ⟨hr, hq⟩⟩, rfl⟩
      dsimp only at *
      subst hb
      refine ⟨by rw [List.length_append, hr], ?_, ?_⟩
      · rwa [List.take_left]
      · rwa [List.drop_left]
  have hinj : Set.InjOn (fun s : List A × List A => s.1 ++ s.2)
      ({ws | ws.length = k ∧ p ws} ×ˢ {ws | ws.length = l ∧ q ws}) := by
    rintro ⟨b, r⟩ ⟨hb, -⟩ ⟨b', r'⟩ ⟨hb', -⟩ heq
    obtain ⟨rfl, rfl⟩ := List.append_inj heq (hb.1.trans hb'.1.symm)
    rfl
  rw [count, hset, hinj.ncard_image, Set.ncard_prod, count, count]

/-- The first block decides: it gives the value, or the rest does. -/
theorem count_retry_succ [Finite A] (u : α) (fuel m : ℕ) :
    count (k + m) (fun ws => retry k trial (fuel + 1) ws = some (u, [])) =
      count k (fun ws => trial ws = some u) * count m (fun ws : List A => ws = []) +
        count k (fun ws => trial ws = none) *
          count m fun ws => retry k trial fuel ws = some (u, []) := by
  have hcases : ∀ ws : List A, ws.length = k + m →
      (retry k trial (fuel + 1) ws = some (u, []) ↔
        (trial (ws.take k) = some u ∧ ws.drop k = []) ∨
          trial (ws.take k) = none ∧ retry k trial fuel (ws.drop k) = some (u, [])) := by
    intro ws hws
    rw [retry, if_neg (by omega)]
    cases htrial : trial (ws.take k) with
    | none => simp
    | some x => simp
  rw [count_congr hcases, count_or,
    count_append (p := fun ws => trial ws = some u) (q := fun ws => ws = []),
    count_append (p := fun ws => trial ws = none)
      (q := fun ws => retry k trial fuel ws = some (u, []))]
  intro ws hsome hnone
  rw [hsome.1] at hnone
  exact Option.some_ne_none _ hnone.1

/-- When accepted values have equally many blocks, they have equally many sequences of every
length that are read to their end. -/
theorem count_retry [Finite A] {v v' : α}
    (heq : count k (fun ws => trial ws = some v) = count k fun ws => trial ws = some v')
    (fuel l : ℕ) : count l (fun ws => retry k trial fuel ws = some (v, [])) =
      count l fun ws => retry k trial fuel ws = some (v', []) := by
  induction fuel generalizing l with
  | zero =>
      have hnone : ∀ u : α, ∀ ws : List A, ws.length = l →
          ¬ retry k trial 0 ws = some (u, []) := fun u ws _ h => Option.some_ne_none _ h.symm
      rw [count_eq_zero (hnone v), count_eq_zero (hnone v')]
  | succ fuel ih =>
      by_cases hl : l < k
      · have hshort : ∀ u : α, ∀ ws : List A, ws.length = l →
            ¬ retry k trial (fuel + 1) ws = some (u, []) := by
          intro u ws hws
          rw [retry_of_short (by omega)]
          exact Option.some_ne_none _ ∘ Eq.symm
        rw [count_eq_zero (hshort v), count_eq_zero (hshort v')]
      · obtain ⟨m, rfl⟩ := Nat.exists_eq_add_of_le (not_lt.mp hl)
        rw [count_retry_succ, count_retry_succ, heq, ih]

end Uniform
