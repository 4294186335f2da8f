import Calx.Number.Arith

/-!
# Numbers in text

Which texts stand for numbers in a base, what they stand for, and the reader of
decimals, `number_parse`.

## Implementation notes

`denoted` is the meaning of an accepted text: its digits as one integer, divided
by the base as often as digits follow the dot. Single quotes mean nothing.
-/

namespace Calx

open Nat (ofDigits)
open Positional Libdeci

/-! ## Accepted texts -/

/-- `decode`, in `uint8_t`. -/
def decodeDigit (c : UInt8) : Nat :=
  if ch '0' ≤ c ∧ c ≤ ch '9' then c.toNat - (ch '0').toNat
  else if ch 'a' ≤ c ∧ c ≤ ch 'z' then c.toNat - (ch 'a').toNat + 10
  else if ch 'A' ≤ c ∧ c ≤ ch 'Z' then c.toNat - (ch 'A').toNat + 10
  else 255

/-- The loop of `number_parse_base_validate`. -/
def validateLoop (base : Nat) : Bytes → Bool → Bool → Bool
  | [], _, seenDigit => seenDigit
  | c :: s, seenDot, seenDigit =>
      if c = ch '.' then if seenDot then false else validateLoop base s true seenDigit
      else if c = quote then validateLoop base s seenDot seenDigit
      else if decodeDigit c ≥ base then false
      else validateLoop base s seenDot true

/-- The text after a sign. -/
def unsigned (s : Bytes) : Bytes := if s.head? = some (ch '-') then s.tail else s

/-- `number_parse_base_validate`. -/
def numberParseBaseValidate (s : Bytes) (base : Nat) : Bool :=
  validateLoop base (unsigned s) false false

/-! ## What a text stands for -/

/-- The integer with these digits, the highest first. -/
def evalDigits (base : Nat) (digits : List Nat) : Nat := digits.foldl (fun r d => r * base + d) 0

/-- The digits in a text. -/
def digitsIn (s : Bytes) : List Nat := (s.filter fun c => c ≠ quote).map decodeDigit

/-- The digits before the dot. -/
def intDigits (s : Bytes) : List Nat := digitsIn (s.takeWhile (· ≠ ch '.'))

/-- The digits after the dot. -/
def fracDigits (s : Bytes) : List Nat := digitsIn (s.dropWhile (· ≠ ch '.')).tail

/-- The magnitude of a text without a sign. -/
def denotedAbs (base : Nat) (s : Bytes) : ℚ :=
  evalDigits base (intDigits s ++ fracDigits s) / (base : ℚ) ^ (fracDigits s).length

/-- The number that a text stands for. -/
def denoted (base : Nat) (s : Bytes) : ℚ :=
  (if s.head? = some (ch '-') then -1 else 1) * denotedAbs base (unsigned s)

/-- A text of digits, with quotes and at most one dot. -/
structure DigitText (base : Nat) (s : Bytes) : Prop where
  chars : ∀ c ∈ s, c = ch '.' ∨ c = quote ∨ decodeDigit c < base
  dots : s.count (ch '.') ≤ 1
  digit : ∃ c ∈ s, c ≠ ch '.' ∧ c ≠ quote

theorem validateLoop_iff {base : Nat} (s : Bytes) (seenDot seenDigit : Bool) :
    validateLoop base s seenDot seenDigit = true ↔
      (∀ c ∈ s, c = ch '.' ∨ c = quote ∨ decodeDigit c < base) ∧
        s.count (ch '.') + seenDot.toNat ≤ 1 ∧
        (seenDigit = true ∨ ∃ c ∈ s, c ≠ ch '.' ∧ c ≠ quote) := by
  induction s generalizing seenDot seenDigit with
  | nil => cases seenDot <;> simp [validateLoop]
  | cons c s ih =>
      rw [validateLoop, List.count_cons]
      split
      · rename_i hdot
        subst hdot
        cases seenDot with
        | false =>
            rw [if_neg Bool.false_ne_true, ih]
            simp
        | true => simp
      · rename_i hdot
        split
        · rename_i hquote
          subst hquote
          rw [ih]
          simp [hdot]
        · rename_i hquote
          split
          · rename_i hge
            simp [hdot, hquote, Nat.not_lt.mpr hge]
          · rename_i hlt
            rw [ih]
            simp [hdot, hquote, Nat.lt_of_not_le hlt]

/-- Exactly the texts of digits are accepted. -/
theorem numberParseBaseValidate_iff {base : Nat} {s : Bytes} :
    numberParseBaseValidate s base = true ↔ DigitText base (unsigned s) := by
  rw [numberParseBaseValidate, validateLoop_iff]
  simp only [Bool.toNat_false, Nat.add_zero, Bool.false_eq_true, false_or]
  exact ⟨fun ⟨h1, h2, h3⟩ => ⟨h1, h2, h3⟩, fun ⟨h1, h2, h3⟩ => ⟨h1, h2, h3⟩⟩

/-! ## Digits -/

theorem evalDigits_append (base : Nat) (l m : List Nat) :
    evalDigits base (l ++ m) = evalDigits base l * base ^ m.length + evalDigits base m := by
  induction m using List.reverseRecOn with
  | nil => simp [evalDigits]
  | append_singleton m d ih =>
      have hlast : ∀ l : List Nat, evalDigits base (l ++ [d]) = evalDigits base l * base + d :=
        fun l => by simp [evalDigits]
      rw [← List.append_assoc, hlast, hlast, ih, List.length_append, List.length_singleton, pow_succ]
      ring

theorem evalDigits_eq (base : Nat) (l : List Nat) :
    evalDigits base l = ofDigits base l.reverse := by
  induction l using List.reverseRecOn with
  | nil => rfl
  | append_singleton l d ih =>
      rw [evalDigits_append, ih, List.reverse_append, List.reverse_singleton, List.singleton_append,
        Nat.ofDigits_cons]
      simp [evalDigits]
      ring

theorem evalDigits_lt {base : Nat} {l : List Nat} (hb : 1 < base) (h : Digits base l) :
    evalDigits base l < base ^ l.length := by
  have hlt := Digits.lt (w := l.reverse) (fun x hx => h x (List.mem_reverse.mp hx)) hb
  rwa [List.length_reverse, ← evalDigits_eq] at hlt

end Calx
