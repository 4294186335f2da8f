import Calx.Natives.Scale
import Calx.Number.NumDigits
import Calx.Number.Rounding
import Calx.Vm.Bits

/-!
# Rounding, scaling and counting digits

The native functions `trunc`, `floor`, `ceil`, `round`, `frac`, `DownScale`, `UpScale`
and `NumDigits` of `main.c`, with the checks of their arguments.

## Implementation notes

The stack keeps a reference to each argument, so that none is changed in place.
-/

namespace Calx

open Libdeci Positional

/-! ## The functions -/

/-- `guardv` for a string. -/
def guardStr (args : List Value) (i : Nat) : Except String Bytes :=
  match args[i]? with
  | some (.str s) => .ok s
  | _ => .error (guardText args i "string")

/-- `guard_magnitude`. -/
def guardMagnitude [Libdeci] (x : Number) : Except String Nat :=
  let r := numberToZu x
  if r = sizeMax then
    .error (if x.sign then "scale magnitude is negative" else "scale magnitude is too big")
  else .ok r

/-- The functions that map a number. -/
def xMapNumber (f : Number → Number) (args : List Value) : Except String Value := do
  guardn args.length 1
  let n ← guardNum args 0
  pure (.num (f n))

/-- `X_Trunc`. -/
def xTrunc : List Value → Except String Value := xMapNumber (numberTrunc false)

/-- `X_Floor`. -/
def xFloor [Libdeci] : List Value → Except String Value := xMapNumber (numberFloor false)

/-- `X_Ceil`. -/
def xCeil [Libdeci] : List Value → Except String Value := xMapNumber (numberCeil false)

/-- `X_Round`. -/
def xRound [Libdeci] : List Value → Except String Value := xMapNumber (numberRound false)

/-- `X_Frac`. -/
def xFrac : List Value → Except String Value := xMapNumber (numberFrac false)

/-- The functions that move the decimal point. -/
def xMovePoint [Libdeci] (f : Number → Nat → Number) (args : List Value) : Except String Value := do
  guardn args.length 2
  let x ← guardNum args 0
  let m ← guardNum args 1
  let mag ← guardMagnitude m
  pure (.num (f x mag))

/-- `X_DownScale`. -/
def xDownScale [Libdeci] : List Value → Except String Value := xMovePoint (numberScaleDown false)

/-- `X_UpScale`. -/
def xUpScale [Libdeci] : List Value → Except String Value := xMovePoint (numberScaleUp false)

/-- The label `invalid_str` of `X_NumDigits`. -/
def invalidStr : String := "invalid second argument; expected either of: \"i\", \"f\", \"+\""

/-- The switch of `X_NumDigits`; `none` when a count does not end. -/
def countDigits [Libdeci] (x : Number) (s : Bytes) : Option (Except String Nat) :=
  if s = [ch 'i'] then some (.ok (numberNintdigits x))
  else if s = [ch 'f'] then (numberNfracdigits x).map .ok
  else if s = [ch '+'] then
    (numberNfracdigits x).map fun n => .ok (uuAddZuOrSaturate (numberNintdigits x) n)
  else some (.error invalidStr)

/-- The checks of the arguments of `X_NumDigits`. -/
def numDigitsArgs (args : List Value) : Except String (Number × Bytes) := do
  guardn args.length 2
  let x ← guardNum args 0
  let s ← guardStr args 1
  pure (x, s)

/-- The count of `X_NumDigits` as a number, with its label `overflow`. -/
def digitsResult [Libdeci] (n : Nat) : Except String Value :=
  if n = sizeMax then .error "overflow (result >= SIZE_MAX)" else .ok (.num (numberNewFromZu n))

/-- `X_NumDigits`. -/
def xNumDigits [Libdeci] (args : List Value) : Option (Except String Value) :=
  match numDigitsArgs args with
  | .error text => some (.error text)
  | .ok (x, s) => (countDigits x s).map (· >>= digitsResult)

/-! ## Rounding -/

/-- A function that maps a number takes one number and nothing else. -/
theorem xMapNumber_ok_iff {f : Number → Number} {args : List Value} {v : Value} :
    xMapNumber f args = .ok v ↔ ∃ x, args = [.num x] ∧ v = .num (f x) := by
  constructor
  · intro h
    rcases args with _ | ⟨a, _ | ⟨b, args⟩⟩
    · cases h
    · cases a <;> cases h
      exact ⟨_, rfl, rfl⟩
    · rw [xMapNumber, guardn, if_pos (by simp)] at h
      cases h
  · rintro ⟨x, rfl, rfl⟩
    rfl

section

variable [Libdeci] {x m : Number}

/-- The functions that round, with what they round to. -/
theorem rounding_natives (hx : x.Wf) :
    ∀ p ∈ [(xTrunc, Rounding.trunc), (xFloor, Int.floor), (xCeil, Int.ceil),
        (xRound, Rounding.nearest)],
      ∃ z : Number, p.1 [.num x] = .ok (.num z) ∧ z.Wf ∧ z.value = p.2 x.value := by
  simp only [List.forall_mem_cons]
  refine ⟨?_, ?_, ?_, ?_, ?_⟩
  · exact ⟨_, rfl, numberTrunc_spec false hx⟩
  · exact ⟨_, rfl, numberFloor_spec false hx⟩
  · exact ⟨_, rfl, numberCeil_spec false hx⟩
  · exact ⟨_, rfl, numberRound_spec false hx⟩
  · intro p hp
    exact absurd hp List.not_mem_nil

/-- `trunc` and `frac` take a number apart. -/
theorem trunc_add_frac (hx : x.Wf) : ∃ t d : Number, xTrunc [.num x] = .ok (.num t) ∧
    xFrac [.num x] = .ok (.num d) ∧ t.value + d.value = x.value :=
  ⟨_, _, rfl, rfl, numberTrunc_add_numberFrac false hx⟩

end

/-! ## The magnitude -/

section

variable [Libdeci] {x m : Number}

/-- `guard_magnitude` refuses negative magnitudes and those that do not fit. -/
theorem guardMagnitude_eq (hm : m.Wf) : guardMagnitude m =
    if m.value < 0 then .error "scale magnitude is negative"
    else if Rounding.trunc m.value < sizeMax then .ok (Rounding.trunc m.value).toNat
    else .error "scale magnitude is too big" := by
  have hzu := numberToZu_value hm
  have hmax : (sizeMax : ℤ) = 2 ^ 64 - 1 := rfl
  rw [guardMagnitude]
  by_cases hneg : m.value < 0
  · have hsign : m.sign = true := by
      by_contra hsign
      rw [Number.value_of_sign (Bool.not_eq_true _ ▸ hsign)] at hneg
      exact absurd m.absValue_nonneg (not_le.mpr hneg)
    rw [if_neg fun h => absurd h.1 (not_le.mpr hneg)] at hzu
    rw [if_pos hneg, if_pos hzu, hsign, if_pos rfl]
  · have hnonneg : 0 ≤ m.value := not_lt.mp hneg
    have htrunc : 0 ≤ Rounding.trunc m.value := by
      rw [Rounding.trunc_of_nonneg hnonneg]
      exact Int.floor_nonneg.mpr hnonneg
    rw [if_neg hneg]
    by_cases hlt : Rounding.trunc m.value < sizeMax
    · rw [if_pos ⟨hnonneg, by omega⟩] at hzu
      rw [if_pos hlt, if_neg (by omega), hzu]
    · have hsign : m.sign = false := by
        apply Number.sign_of_pos
        apply lt_of_le_of_ne hnonneg
        intro hzero
        apply hlt
        rw [← hzero, Rounding.trunc_of_nonneg le_rfl, Int.floor_zero]
        decide
      have hfull : numberToZu m = sizeMax := by
        rw [hzu]
        split
        · omega
        · rfl
      rw [if_neg hlt, if_pos hfull, hsign, if_neg Bool.false_ne_true]

/-- What a native function does with two numbers behind `guard_magnitude`. -/
theorem xMovePoint_eq (f : Number → Nat → Number) (x m : Number) :
    xMovePoint f [.num x, .num m] = (guardMagnitude m).map fun mag => .num (f x mag) := rfl

/-! ## The number of digits -/

omit [Libdeci] in
/-- The top digits and a remainder below them. -/
theorem length_digits_mul_add {hi low k : Nat} (h0 : 0 < hi) (hlow : low < 10 ^ k) :
    (Nat.digits 10 (hi * 10 ^ k + low)).length = (Nat.digits 10 hi).length + k := by
  have hten : 1 < 10 := by decide
  obtain ⟨l, hl⟩ : ∃ l, l = (Nat.digits 10 hi).length := ⟨_, rfl⟩
  have hl0 : 0 < l := by
    rw [hl, List.length_pos_iff]
    exact Nat.digits_ne_nil_iff_ne_zero.mpr h0.ne'
  have hupper : hi + 1 ≤ 10 ^ l := by
    rw [hl]
    exact Nat.lt_base_pow_length_digits hten
  have hlower : 10 ^ (l - 1) ≤ hi := by
    by_contra hlt
    have hle := (Nat.digits_length_le_iff hten hi).mpr (not_le.mp hlt)
    omega
  rw [← hl]
  apply le_antisymm
  · rw [Nat.digits_length_le_iff hten]
    calc hi * 10 ^ k + low < hi * 10 ^ k + 10 ^ k := Nat.add_lt_add_left hlow _
      _ = (hi + 1) * 10 ^ k := by ring
      _ ≤ 10 ^ l * 10 ^ k := Nat.mul_le_mul_right _ hupper
      _ = 10 ^ (l + k) := (pow_add 10 l k).symm
  · by_contra hlt
    have hle : (Nat.digits 10 (hi * 10 ^ k + low)).length ≤ l - 1 + k := by omega
    rw [Nat.digits_length_le_iff hten, pow_add] at hle
    have hmul := Nat.mul_le_mul_right (10 ^ k) hlower
    omega

/-- `number_nintdigits` counts the digits of the integer part. -/
theorem numberNintdigits_value (hx : x.Wf) :
    numberNintdigits x = min (Nat.digits 10 ⌊x.absValue⌋₊).length sizeMax := by
  rw [numberNintdigits_eq hx, ← Number.ofDigits_drop_scale hx.words]
  by_cases h : x.nwords = x.scale
  · rw [if_pos h, List.drop_of_length_le (by rw [Number.length_words, h]), Nat.ofDigits_nil,
      Nat.digits_zero, List.length_nil, Nat.zero_min]
  · obtain ⟨u, hi, hw, hget, hlen, -, h0⟩ := intWords_concat hx h
    have hu : Words u := fun v hv => hx.words v (List.mem_of_mem_drop (hw ▸ List.mem_append_left _ hv))
    have hlow := hu.lt one_lt_deciBase
    have hpow : deciBase ^ u.length = 10 ^ ((x.nwords - x.scale - 1) * deciBaseLog) := by
      rw [hlen, deciBase, ← pow_mul, Nat.mul_comm]
    rw [hpow] at hlow
    rw [if_neg h, length_intText hx h, hget, leadingLoop_eq, hw, Nat.ofDigits_append,
      Nat.ofDigits_singleton, hpow, Nat.add_comm (Nat.ofDigits deciBase u), Nat.mul_comm (10 ^ _),
      length_digits_mul_add h0 hlow, Nat.add_zero]

end

end Calx
