import Calx.Lib.Uniform
import Calx.Stdlib.Arith
import Mathlib.Data.Nat.Size

/-!
# Random integers are fair

`random_bits` takes every number of `n` bits for equally many sequences of words,
and so `random_mod` gives every residue for equally many.

## Implementation notes

The loops are followed on the words that they read. `assemble` is the number that
`random_bits` makes of its words, and the trials of `random_mod` are those of a
sampler that tries again.
-/

namespace Calx.Stdlib

open Loop Uniform

/-! ## Words -/

instance finite_uint32 : Finite UInt32 := Finite.of_injective UInt32.toFin fun _ _ => UInt32.toFin_inj.mp

theorem word_ofNat (m : ℕ) (h : m < 2 ^ 32) : (UInt32.ofNat m).toNat = m :=
  UInt32.toNat_ofNat_of_lt' h

theorem word_injective : Function.Injective UInt32.toNat := fun _ _ => UInt32.toNat_inj.mp

/-- How many words `random_bits(n)` reads. -/
def wordsFor (n : ℕ) : ℕ := (n + 31) / 32

/-- The number that `random_bits(n)` makes of its words. -/
def assemble : ℕ → List UInt32 → ℕ
  | _, [] => 0
  | n, x :: ws =>
      if 32 ≤ n then x.toNat * 2 ^ (n - 32) + assemble (n - 32) ws else x.toNat % 2 ^ n

variable {fuel n : ℕ} {s : ℕ} {x : UInt32} {ws rest : List UInt32}

theorem assemble_word (h : 32 ≤ n) :
    assemble n (x :: ws) = x.toNat * 2 ^ (n - 32) + assemble (n - 32) ws := if_pos h

theorem assemble_last (h : n < 32) : assemble n (x :: ws) = x.toNat % 2 ^ n :=
  if_neg (Nat.not_le.mpr h)

theorem wordsFor_sub (h : 32 ≤ n) : wordsFor n = wordsFor (n - 32) + 1 := by
  unfold wordsFor
  omega

theorem assemble_lt (h : ws.length = wordsFor n) : assemble n ws < 2 ^ n := by
  induction ws generalizing n with
  | nil => exact Nat.two_pow_pos n
  | cons x ws ih =>
      by_cases hn : 32 ≤ n
      · have hlen : ws.length = wordsFor (n - 32) := by
          have := wordsFor_sub hn
          rw [List.length_cons] at h
          omega
        have hx : x.toNat + 1 ≤ 2 ^ 32 := x.toNat_lt
        rw [assemble_word hn]
        calc x.toNat * 2 ^ (n - 32) + assemble (n - 32) ws
            < x.toNat * 2 ^ (n - 32) + 2 ^ (n - 32) := Nat.add_lt_add_left (ih hlen) _
          _ = (x.toNat + 1) * 2 ^ (n - 32) := (Nat.succ_mul _ _).symm
          _ ≤ 2 ^ 32 * 2 ^ (n - 32) := Nat.mul_le_mul_right _ hx
          _ = 2 ^ n := by rw [← pow_add, Nat.add_sub_cancel' hn]
      · rw [assemble_last (Nat.not_le.mp hn)]
        exact Nat.mod_lt _ (Nat.two_pow_pos n)

/-- Every number of `n` bits has equally many sequences. -/
theorem count_assemble {v : ℕ} (hv : v < 2 ^ n) :
    count (wordsFor n) (fun ws => assemble n ws = v) = 2 ^ (32 * wordsFor n - n) := by
  obtain ⟨k, hk⟩ : ∃ k, wordsFor n = k := ⟨_, rfl⟩
  rw [hk]
  induction k generalizing n v with
  | zero =>
      obtain rfl : n = 0 := by
        unfold wordsFor at hk
        omega
      obtain rfl : v = 0 := Nat.lt_one_iff.mp hv
      exact count_nil rfl
  | succ k ih =>
      by_cases hn : 32 ≤ n
      · have hk' : wordsFor (n - 32) = k := by
          have := wordsFor_sub hn
          omega
        have hpow : 2 ^ n = 2 ^ 32 * 2 ^ (n - 32) := by
          rw [← pow_add, Nat.add_sub_cancel' hn]
        have hpos := Nat.two_pow_pos (n - 32)
        rw [count_cons (g := assemble (n - 32)) (B := 2 ^ 32) word_ofNat word_injective hpos
          (fun ws hws => assemble_lt (hws.trans hk'.symm)) (fun x ws _ => assemble_word hn)
          (hpow ▸ hv), ih (Nat.mod_lt v hpos) hk']
        congr 1
        omega
      · have hlt := Nat.not_le.mp hn
        obtain rfl : k = 0 := by
          unfold wordsFor at hk
          omega
        refine count_mod (B := 2 ^ 32) word_ofNat (fun x => x.toNat_lt) word_injective ?_
          (fun x => assemble_last hlt) hv
        rw [← pow_add]
        congr 1
        omega

/-! ## What `random_bits` reads and returns -/

/-- One turn of the loop of `random_bits`. -/
def bitsTurn : ℤ × ℤ → Calc ((ℤ × ℤ) ⊕ ℤ) := fun (r, n) => do
  if n ≥ 32 then
    let x ← random32
    pure (.inl (r * 2 ^ 32 + x, n - 32))
  else if n > 0 then
    let lastBase := bitShl 1 n
    let x ← random32
    pure (.inr (r * lastBase + bitAnd x (lastBase - 1)))
  else pure (.inr r)

theorem randomBits_eq_loop (n : ℤ) : randomBits fuel n = loop .exhausted bitsTurn fuel (0, n) := by
  rw [randomBits, pow_eq (b := 2) (e := 32) (by decide) (by decide), pure_bind]
  rfl

theorem random32_cons : random32 ⟨x :: ws, s⟩ = .ok ((x.toNat : ℤ), ⟨ws, s⟩) := rfl

theorem bitsTurn_word (hn : 32 ≤ n) (r : ℤ) :
    bitsTurn (r, n) ⟨x :: ws, s⟩ = .ok (.inl (r * 2 ^ 32 + x.toNat, ((n - 32 : ℕ) : ℤ)), ⟨ws, s⟩) := by
  have hge : (n : ℤ) ≥ 32 := by exact_mod_cast hn
  rw [bitsTurn, if_pos hge, bind_of_ok random32_cons, Nat.cast_sub hn]
  rfl

theorem bitShl_one (hn : n < 32) : bitShl 1 n = 2 ^ n := by
  have hn32 : toU32 n = n := by
    rw [toU32]
    omega
  have hlt : 2 ^ n < 2 ^ 32 := Nat.pow_lt_pow_right (by norm_num) hn
  have hone : toU32 1 = 1 := rfl
  rw [bitShl, hn32, if_pos hn, hone, Nat.shiftLeft_eq, one_mul, Nat.mod_eq_of_lt hlt]
  push_cast
  rfl

theorem bitsTurn_last (h0 : 0 < n) (hn : n < 32) (r : ℤ) :
    bitsTurn (r, n) ⟨x :: ws, s⟩ = .ok (.inr (r * 2 ^ n + (x.toNat % 2 ^ n : ℕ)), ⟨ws, s⟩) := by
  have hlt : ¬ (n : ℤ) ≥ 32 := by omega
  have hpos : (n : ℤ) > 0 := by omega
  rw [bitsTurn, if_neg hlt, if_pos hpos, bind_of_ok random32_cons, bitShl_one hn,
    bitAnd_mask _ hn.le]
  push_cast
  rfl

theorem bitsTurn_zero (r : ℤ) (w : World) : bitsTurn (r, 0) w = .ok (.inr r, w) := rfl

theorem bitsTurn_starved (h0 : 0 < n) (r : ℤ) : bitsTurn (r, n) ⟨[], s⟩ = .error .starved := by
  have hpos : (n : ℤ) > 0 := by omega
  have hdry : random32 ⟨[], s⟩ = .error .starved := rfl
  by_cases hn : (n : ℤ) ≥ 32
  · rw [bitsTurn, if_pos hn]
    exact bind_of_error hdry
  · rw [bitsTurn, if_neg hn, if_pos hpos]
    exact bind_of_error hdry

/-- The loop turns its words into the bits below those that it has. -/
theorem bitsLoop_eq (hws : ws.length = wordsFor n) (hfuel : n / 32 < fuel) (r : ℤ) :
    loop .exhausted bitsTurn fuel (r, (n : ℤ)) ⟨ws ++ rest, s⟩ =
      .ok (r * 2 ^ n + assemble n ws, ⟨rest, s⟩) := by
  induction fuel generalizing n r ws with
  | zero => exact absurd hfuel (Nat.not_lt_zero _)
  | succ fuel ih =>
      cases ws with
      | nil =>
          obtain rfl : n = 0 := by
            rw [List.length_nil, wordsFor] at hws
            omega
          rw [List.nil_append, Nat.cast_zero, loop_of_inr (bitsTurn_zero r _)]
          simp [assemble]
      | cons x ws =>
          have hpos : 0 < n := by
            rw [List.length_cons, wordsFor] at hws
            omega
          rw [List.cons_append]
          by_cases hn : 32 ≤ n
          · have hlen : ws.length = wordsFor (n - 32) := by
              have := wordsFor_sub hn
              rw [List.length_cons] at hws
              omega
            have hpow : (2 : ℤ) ^ n = 2 ^ 32 * 2 ^ (n - 32) := by
              rw [← pow_add, Nat.add_sub_cancel' hn]
            rw [loop_of_inl (bitsTurn_word hn r), ih hlen (by omega), assemble_word hn, hpow]
            push_cast
            ring_nf
          · have hlt := Nat.not_le.mp hn
            obtain rfl : ws = [] := by
              rw [List.length_cons, wordsFor] at hws
              exact List.length_eq_zero_iff.mp (by omega)
            rw [loop_of_inr (bitsTurn_last hpos hlt r), assemble_last hlt, List.nil_append]

/-- Without enough words the loop stops. -/
theorem bitsLoop_starved (hws : ws.length < wordsFor n) (hfuel : n / 32 < fuel) (r : ℤ) :
    loop .exhausted bitsTurn fuel (r, (n : ℤ)) ⟨ws, s⟩ = .error .starved := by
  have hpos : 0 < n := by
    unfold wordsFor at hws
    omega
  induction fuel generalizing n r ws with
  | zero => exact absurd hfuel (Nat.not_lt_zero _)
  | succ fuel ih =>
      cases ws with
      | nil => rw [loop_of_error (bitsTurn_starved hpos r)]
      | cons x ws =>
          have hn : 32 ≤ n := by
            rw [List.length_cons, wordsFor] at hws
            omega
          have hlen : ws.length < wordsFor (n - 32) := by
            have := wordsFor_sub hn
            rw [List.length_cons] at hws
            omega
          have hpos' : 0 < n - 32 := by
            unfold wordsFor at hlen
            omega
          rw [loop_of_inl (bitsTurn_word hn r)]
          exact ih hlen (by omega) _ hpos'

/-- `random_bits(n)` reads `wordsFor n` words and returns the number that they make. -/
theorem randomBits_eq (hws : ws.length = wordsFor n) (hfuel : n / 32 < fuel) :
    randomBits fuel n ⟨ws ++ rest, s⟩ = .ok ((assemble n ws : ℤ), ⟨rest, s⟩) := by
  rw [randomBits_eq_loop, bitsLoop_eq hws hfuel, zero_mul, zero_add]

theorem randomBits_starved (hws : ws.length < wordsFor n) (hfuel : n / 32 < fuel) :
    randomBits fuel n ⟨ws, s⟩ = .error .starved := by
  rw [randomBits_eq_loop, bitsLoop_starved hws hfuel]

/-! ## The trials of `random_mod` -/

/-- One turn of the first loop of `random_mod`. -/
def halveTurn : ℤ × ℤ → Calc ((ℤ × ℤ) ⊕ ℤ) := fun (t, nbits) => do
  if t > 0 then
    let t ← idiv t 2
    pure (.inl (t, nbits + 1))
  else pure (.inr nbits)

/-- One turn of the second loop of `random_mod`. -/
def trialTurn (fuel : ℕ) (n nbits : ℤ) : Unit → Calc (Unit ⊕ ℤ) := fun () => do
  let x ← randomBits fuel nbits
  if x < n then pure (.inr x) else pure (.inl ())

theorem randomMod_eq_loops (n : ℤ) : randomMod fuel n = (do
    let nbits ← loop .exhausted halveTurn fuel (n - 1, 0)
    loop .exhausted (trialTurn fuel n nbits) fuel ()) := rfl

theorem size_half {t : ℕ} (ht : 0 < t) : (t / 2).size + 1 = t.size := by
  have hbit : Nat.bit t.bodd (t / 2) = t := by
    rw [← Nat.div2_val, Nat.bit_bodd_div2]
  have hne : Nat.bit t.bodd (t / 2) ≠ 0 := by
    rw [hbit]
    exact ht.ne'
  conv_rhs => rw [← hbit, Nat.size_bit hne]

/-- The first loop counts the bits of `n - 1`. -/
theorem halveLoop_eq {t : ℕ} (hfuel : t.size < fuel) (k : ℤ) (w : World) :
    loop .exhausted halveTurn fuel ((t : ℤ), k) w = .ok (k + t.size, w) := by
  induction fuel generalizing t k with
  | zero => exact absurd hfuel (Nat.not_lt_zero _)
  | succ fuel ih =>
      by_cases ht : 0 < t
      · have hturn : halveTurn ((t : ℤ), k) w = .ok (.inl (((t / 2 : ℕ) : ℤ), k + 1), w) := by
          have hpos : (t : ℤ) > 0 := by omega
          rw [halveTurn, if_pos hpos, idiv_eq two_ne_zero, pure_bind, tdiv_two hpos.le]
          rfl
        have hsize := size_half ht
        rw [loop_of_inl hturn, ih (by omega), ← hsize]
        push_cast
        ring_nf
      · obtain rfl : t = 0 := by omega
        have hturn : halveTurn (((0 : ℕ) : ℤ), k) w = .ok (.inr k, w) := rfl
        rw [loop_of_inr hturn]
        simp

/-- One trial: the number that a block makes, when it is below `n`. -/
def trial (n nbits : ℕ) (ws : List UInt32) : Option ℕ :=
  if assemble nbits ws < n then some (assemble nbits ws) else none

/-- The second loop reads one block after the other. -/
theorem trialLoop_eq {nbits turns : ℕ} (hfuel : nbits / 32 < fuel) :
    match retry (wordsFor nbits) (trial n nbits) turns ws with
    | some (v, rest) =>
        loop .exhausted (trialTurn fuel n nbits) turns () ⟨ws, s⟩ = .ok ((v : ℤ), ⟨rest, s⟩)
    | none => ∃ e, loop .exhausted (trialTurn fuel n nbits) turns () ⟨ws, s⟩ = .error e := by
  induction turns generalizing ws with
  | zero => exact ⟨.exhausted, rfl⟩
  | succ turns ih =>
      by_cases hlen : ws.length < wordsFor nbits
      · rw [retry_of_short hlen]
        have hstarved : trialTurn fuel n nbits () ⟨ws, s⟩ = .error .starved :=
          bind_of_error (randomBits_starved hlen hfuel)
        exact ⟨.starved, loop_of_error hstarved⟩
      · have htake : (ws.take (wordsFor nbits)).length = wordsFor nbits := by
          rw [List.length_take, Nat.min_eq_left (not_lt.mp hlen)]
        have hbits : randomBits fuel nbits ⟨ws, s⟩ =
            .ok ((assemble nbits (ws.take (wordsFor nbits)) : ℤ), ⟨ws.drop (wordsFor nbits), s⟩) := by
          rw [← randomBits_eq htake hfuel, List.take_append_drop]
        rw [retry, if_neg hlen]
        by_cases hlt : assemble nbits (ws.take (wordsFor nbits)) < n
        · have hcast : (assemble nbits (ws.take (wordsFor nbits)) : ℤ) < n := by exact_mod_cast hlt
          rw [trial, if_pos hlt]
          refine loop_of_inr ?_
          rw [trialTurn, bind_of_ok hbits, if_pos hcast]
          rfl
        · have hcast : ¬ (assemble nbits (ws.take (wordsFor nbits)) : ℤ) < n := by
            exact_mod_cast hlt
          have hturn : trialTurn fuel n nbits () ⟨ws, s⟩ =
              .ok (.inl (), ⟨ws.drop (wordsFor nbits), s⟩) := by
            rw [trialTurn, bind_of_ok hbits, if_neg hcast]
            rfl
          rw [trial, if_neg hlt]
          simp only [loop_of_inl hturn]
          exact ih

/-- `random_mod(n)` is a sampler that tries again, with blocks of as many bits as `n - 1` has. -/
theorem randomMod_returns_iff (hn : 0 < n) (hfuel : (n - 1).size < fuel) {v : ℕ} :
    randomMod fuel n ⟨ws, s⟩ = .ok ((v : ℤ), ⟨rest, s⟩) ↔
      retry (wordsFor (n - 1).size) (trial n (n - 1).size) fuel ws = some (v, rest) := by
  have hpred : (n : ℤ) - 1 = (n - 1 : ℕ) := by omega
  have hloop : match retry (wordsFor (n - 1).size) (trial n (n - 1).size) fuel ws with
    | some (v, rest) => loop .exhausted (trialTurn fuel n (n - 1).size) fuel () ⟨ws, s⟩ =
        .ok ((v : ℤ), ⟨rest, s⟩)
    | none => ∃ e, loop .exhausted (trialTurn fuel n (n - 1).size) fuel () ⟨ws, s⟩ = .error e :=
    trialLoop_eq (show (n - 1).size / 32 < fuel by omega)
  rw [randomMod_eq_loops, hpred, bind_of_ok (halveLoop_eq hfuel 0 _), zero_add]
  split at hloop
  · rename_i u rest' hretry
    rw [hloop, hretry]
    simp
  · rename_i hretry
    obtain ⟨e, he⟩ := hloop
    rw [he, hretry]
    simp

/-! ## Fairness -/

/-- A value below `n` comes from equally many blocks as any other. -/
theorem count_trial (hn : 0 < n) {v : ℕ} (hv : v < n) :
    count (wordsFor (n - 1).size) (fun ws => trial n (n - 1).size ws = some v) =
      2 ^ (32 * wordsFor (n - 1).size - (n - 1).size) := by
  have hbits : n ≤ 2 ^ (n - 1).size := by
    have := Nat.lt_size_self (n - 1)
    omega
  rw [← count_assemble (hv.trans_le hbits)]
  apply count_congr
  intro ws _
  unfold trial
  split
  · simp
  · simp
    omega

/-- The random functions are fair: `random_bits` takes every value of its range for equally many
sequences of words, `random_mod` gives every residue for equally many sequences of every length,
and `random_range` stays in its range. -/
theorem random_fair (scale : ℕ) :
    (∀ n fuel : ℕ, n / 32 < fuel →
      (∀ ws rest : List UInt32, ws.length = wordsFor n → ∃ v < 2 ^ n,
        randomBits fuel n ⟨ws ++ rest, scale⟩ = .ok (((v : ℕ) : ℤ), ⟨rest, scale⟩)) ∧
      ∀ v < 2 ^ n, count (wordsFor n) (fun ws =>
        randomBits fuel n ⟨ws, scale⟩ = .ok (((v : ℕ) : ℤ), ⟨[], scale⟩)) =
          2 ^ (32 * wordsFor n - n)) ∧
    (∀ (n : ℤ) (fuel : ℕ) (w w' : World) (x : ℤ), randomMod fuel n w = .ok (x, w') →
      0 ≤ x ∧ x < n) ∧
    (∀ n fuel : ℕ, 0 < n → (n - 1).size < fuel →
      (∀ (ws : List UInt32) (v : ℕ), randomMod fuel n ⟨ws, scale⟩ = .ok ((v : ℤ), ⟨[], scale⟩) →
        ∃ trials, ws.length = wordsFor (n - 1).size * (trials + 1)) ∧
      (∀ v < n, count (wordsFor (n - 1).size) (fun ws =>
        randomMod fuel n ⟨ws, scale⟩ = .ok ((v : ℤ), ⟨[], scale⟩)) =
          2 ^ (32 * wordsFor (n - 1).size - (n - 1).size)) ∧
      ∀ v < n, ∀ v' < n, ∀ l,
        count l (fun ws => randomMod fuel n ⟨ws, scale⟩ = .ok ((v : ℤ), ⟨[], scale⟩)) =
          count l fun ws => randomMod fuel n ⟨ws, scale⟩ = .ok ((v' : ℤ), ⟨[], scale⟩)) ∧
    ∀ (lb rb : ℤ) (fuel : ℕ) (w w' : World) (x : ℤ), randomRange fuel lb rb w = .ok (x, w') →
      lb ≤ x ∧ x < rb := by
  refine ⟨fun n fuel hfuel => ⟨?_, ?_⟩, fun n fuel w w' x h => ?_,
    fun n fuel hn hfuel => ⟨?_, ?_, ?_⟩, fun lb rb fuel w w' x h => ?_⟩
  · intro ws rest hws
    exact ⟨assemble n ws, assemble_lt hws, randomBits_eq hws hfuel⟩
  · intro v hv
    rw [← count_assemble hv]
    apply count_congr
    intro ws hws
    have hrun : randomBits fuel n ⟨ws ++ [], scale⟩ = .ok ((assemble n ws : ℤ), ⟨[], scale⟩) :=
      randomBits_eq hws hfuel
    rw [List.append_nil] at hrun
    rw [hrun]
    simp
  · exact (randomMod_range fun _ => trivial).ok h
  · intro ws v h
    obtain ⟨-, t, ht⟩ := retry_some ((randomMod_returns_iff hn hfuel).mp h)
    exact ⟨t, ht⟩
  · intro v hv
    obtain ⟨turns, rfl⟩ := Nat.exists_eq_succ_of_ne_zero (by omega : fuel ≠ 0)
    rw [← count_trial hn hv, count_congr fun ws hws =>
      (randomMod_returns_iff hn hfuel).trans (retry_block hws)]
  · intro v hv v' hv' l
    rw [count_congr fun ws _ => randomMod_returns_iff hn hfuel,
      count_congr fun ws _ => randomMod_returns_iff hn hfuel]
    exact count_retry ((count_trial hn hv).trans (count_trial hn hv').symm) fuel l
  · exact (randomRange_range fun _ => trivial).ok h

/-- Four bits of one word, and the residues modulo six. -/
theorem random_fair_of_six :
    count 1 (fun ws => randomBits 1 4 ⟨ws, 0⟩ = .ok (9, ⟨[], 0⟩)) = 2 ^ 28 ∧
      count 2 (fun ws => randomMod 5 6 ⟨ws, 0⟩ = .ok (0, ⟨[], 0⟩)) =
        count 2 fun ws => randomMod 5 6 ⟨ws, 0⟩ = .ok (5, ⟨[], 0⟩) := by
  have hfuel : (6 - 1).size < 5 := Nat.lt_succ_of_le (Nat.size_le.mpr (by norm_num))
  obtain ⟨hbits, -, hmod, -⟩ := random_fair 0
  exact ⟨(hbits 4 1 (by norm_num)).2 9 (by norm_num),
    (hmod 6 5 (by norm_num) hfuel).2.2 0 (by norm_num) 5 (by norm_num) 2⟩

end Calx.Stdlib
