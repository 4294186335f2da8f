import Mathlib.NumberTheory.LegendreSymbol.JacobiSymbol

/-!
# The Kronecker symbol

The extension of the Jacobi symbol to all integers: multiplicative in the lower
argument, with values of its own at `-1`, at `2` and at `0`.

## Implementation notes

The symbol is the product over the prime factors of the lower argument, so that
the rules of the Jacobi symbol for odd factors carry over by rewriting lists.
-/

namespace Kronecker

open NumberTheorySymbols

/-- The symbol at a prime: the Legendre symbol, and at two the character modulo eight. -/
def atPrime (a : ℤ) (p : ℕ) : ℤ := if p = 2 then ZMod.χ₈ a else J(a | p)

/-- The Kronecker symbol `(a | n)`. -/
def symbol (a n : ℤ) : ℤ :=
  if n = 0 then if a.natAbs = 1 then 1 else 0
  else (if n < 0 ∧ a < 0 then -1 else 1) * (n.natAbs.primeFactorsList.map (atPrime a)).prod

variable {a : ℤ} {m : ℕ}

theorem symbol_natCast (hm : m ≠ 0) :
    symbol a m = (m.primeFactorsList.map (atPrime a)).prod := by
  rw [symbol, if_neg (by exact_mod_cast hm), if_neg (by omega), one_mul, Int.natAbs_natCast]

/-- The sign of the lower argument matters for negative numbers only. -/
theorem symbol_neg (a : ℤ) (hm : m ≠ 0) :
    symbol a (-m) = (if a < 0 then -1 else 1) * symbol a m := by
  have hneg : (-m : ℤ) < 0 := by omega
  rw [symbol_natCast hm, symbol, if_neg hneg.ne, Int.natAbs_neg, Int.natAbs_natCast]
  simp only [hneg, true_and]

/-- For an odd number it is the Jacobi symbol. -/
theorem symbol_of_odd (hodd : m % 2 = 1) : symbol a m = J(a | m) := by
  have hm : m ≠ 0 := by omega
  have hmap : m.primeFactorsList.map (atPrime a) = m.primeFactorsList.map fun p => J(a | p) := by
    apply List.map_congr_left
    intro p hp
    have hdvd := Nat.dvd_of_mem_primeFactorsList hp
    rw [atPrime, if_neg]
    rintro rfl
    omega
  have hne : ∀ p ∈ m.primeFactorsList, p ≠ 0 := fun p hp =>
    (Nat.prime_of_mem_primeFactorsList hp).ne_zero
  rw [symbol_natCast hm, hmap, ← jacobiSym.list_prod_right hne, Nat.prod_primeFactorsList hm]

/-- A factor of two. -/
theorem symbol_two_mul (hm : m ≠ 0) : symbol a (2 * m : ℕ) = ZMod.χ₈ a * symbol a m := by
  have hperm := (Nat.perm_primeFactorsList_mul two_ne_zero hm).map (atPrime a)
  rw [symbol_natCast (mul_ne_zero two_ne_zero hm), symbol_natCast hm, hperm.prod_eq,
    Nat.primeFactorsList_prime Nat.prime_two, List.singleton_append, List.map_cons, List.prod_cons,
    atPrime, if_pos rfl]

end Kronecker
