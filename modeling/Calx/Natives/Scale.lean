import Calx.Number.Laws
import Calx.Number.Products
import Calx.Vm.Basic

/-!
# The scale

The checks of arguments in `main.c`, the native function `Scale`, and division at
the scale that it sets.

## Implementation notes

A native function that throws returns its message. The state of the interpreter is
reduced to the parameters of truncation.
-/

namespace Calx

open Refcount Libdeci Counted Positional

/-! ## Arguments -/

/-- `value_kind_name_long`. -/
def valueKindNameLong : Value → String
  | .func _ => "function (bytecode)"
  | .cfunc _ => "function (native code)"
  | v => valueKindName v

/-- `guardn`. -/
def guardn (actual expect : Nat) : Except String Unit :=
  if actual ≠ expect then
    .error ("# of arguments: expected " ++ toString expect ++ ", got " ++ toString actual)
  else .ok ()

/-- `guardn_range`. -/
def guardnRange (actual expectMin expectMax : Nat) : Except String Unit :=
  if actual < expectMin ∨ actual > expectMax then
    .error ("# of arguments: expected " ++ toString expectMin ++ " to " ++ toString expectMax ++
      ", got " ++ toString actual)
  else .ok ()

/-- The message of `guardv`. -/
def guardText (args : List Value) (i : Nat) (expected : String) : String :=
  "argument #" ++ toString (i + 1) ++ ": expected " ++ expected ++ ", got " ++
    ((args[i]?).map valueKindNameLong).getD ""

/-- `guardv` for a number. -/
def guardNum (args : List Value) (i : Nat) : Except String Number :=
  match args[i]? with
  | some (.num a) => .ok a
  | _ => .error (guardText args i "number")

/-- `guard_scale`. -/
def guardScale [Libdeci] (x : Number) : Except String Nat :=
  let r := numberToZu x
  if r = sizeMax then .error (if x.sign then "scale is negative" else "scale is too big") else .ok r

/-! ## Setting the scale -/

/-- `X_Scale`, with the parameters of truncation before and after. -/
def xScale [Libdeci] (ntp : NumberTruncateParams) (args : List Value) :
    Except String (Value × NumberTruncateParams) := do
  guardnRange args.length 0 1
  if args.length = 0 then pure (.num (numberNewFromZu (ntpToPrec ntp)), ntp)
  else
    let n ← guardNum args 0
    let p ← guardScale n
    pure (.nil, ntpFromPrec p)

section

variable [Libdeci]

/-- `Scale(p)` sets the parameters for `p` digits. -/
theorem xScale_set {n : Number} {p : Nat} (hn : n.Wf) (hvalue : n.value = p) (hp : p < sizeMax)
    (ntp : NumberTruncateParams) : xScale ntp [.num n] = .ok (.nil, ntpFromPrec p) := by
  have habs : n.absValue = p := by
    rw [← n.abs_value, hvalue]
    exact abs_of_nonneg (Nat.cast_nonneg p)
  have hzu : numberToZu n = p := by
    rw [numberToZu_eq n hn, habs, Nat.floor_natCast]
    split
    · rename_i hsign
      have hzero : (p : ℚ) ≤ 0 := by
        rw [← hvalue, Number.value, Number.signFactor, if_pos hsign, neg_one_mul]
        exact neg_nonpos.mpr n.absValue_nonneg
      have hp0 : p = 0 := by exact_mod_cast Nat.le_zero.mp (by exact_mod_cast hzero)
      rw [if_pos (Number.value_eq_zero.mp (by rw [hvalue, hp0, Nat.cast_zero])), hp0]
    · rw [if_pos (by unfold sizeMax at hp; omega)]
  have hguard : guardScale n = .ok p := by
    simp only [guardScale, hzu]
    rw [if_neg (by omega)]
  change (guardScale n >>= fun p => Except.ok (Value.nil, ntpFromPrec p)) = _
  rw [hguard]
  rfl

/-- The value of the quotient, whether the digits of the dividend are shared or not. -/
theorem numberDiv_value_floor {a b : Number} (ha : a.Wf) (hb : b.Wf) (hb0 : b.value ≠ 0) (uniq : Bool)
    (p : Nat) : (numberDiv uniq a b (ntpFromPrec p)).value =
      SignType.sign a.value * SignType.sign b.value * ⌊|a.value| / |b.value| * 10 ^ p⌋₊ / 10 ^ p := by
  obtain ⟨-, hsign, habs⟩ := numberDiv_spec uniq ha hb
    (fun h => hb0 (Number.value_eq_zero.mpr h)) p
  have hzero : a.absValue = 0 ∨ b.absValue = 0 →
      ((⌊a.absValue / b.absValue * 10 ^ p⌋₊ : ℕ) : ℚ) / 10 ^ p = 0 := by
    rintro (h | h) <;> simp [h]
  rw [a.abs_value, b.abs_value, Number.value, Number.signFactor, hsign, signFactor_xor, habs]
  calc a.signFactor * b.signFactor * _
      = a.signFactor * (b.signFactor * _) := mul_assoc _ _ _
    _ = SignType.sign a.value * (SignType.sign b.value * _) := by
        rw [b.signFactor_mul fun h => hzero (Or.inr h),
          a.signFactor_mul fun h => by rw [hzero (Or.inl h), mul_zero]]
    _ = _ := by ring

/-- Division cuts the quotient at `p` digits, and `Scale()` returns the `p` that was set. -/
theorem division_truncates {m : Memory Number} {own : Multiset Addr} {a b : Addr} {x y : Number}
    (h : m.Counts (a ::ₘ b ::ₘ own)) (hx : m.content? a = some x) (hy : m.content? b = some y)
    (hwx : x.Wf) (hwy : y.Wf) (hy0 : y.value ≠ 0) (p : Nat) :
    YieldsValue (Counted.numberDiv a b (ntpFromPrec p)) m own
        (SignType.sign x.value * SignType.sign y.value *
          ⌊|x.value| / |y.value| * 10 ^ p⌋₊ / 10 ^ p) ∧
      ∀ n : Number, n.Wf → n.value = p → p < 2 ^ 64 - 1 → ∀ ntp, ∃ ntp' r,
        xScale ntp [.num n] = .ok (.nil, ntp') ∧ xScale ntp' [] = .ok (.num r, ntp') ∧
          r.value = p := by
  refine ⟨⟨_, Counted.numberDiv_yields h hx hy _, ?_, numberDiv_value_floor hwx hwy hy0 _ p⟩,
    fun n hn hvalue hp ntp => ?_⟩
  · exact (numberDiv_spec _ hwx hwy (fun h => hy0 (Number.value_eq_zero.mpr h)) p).1
  · refine ⟨ntpFromPrec p, numberNewFromZu (ntpToPrec (ntpFromPrec p)), xScale_set hn hvalue hp ntp,
      rfl, ?_⟩
    rw [(numberNewFromZu_spec _).2, ntpToPrec_ntpFromPrec (by omega)]

end

/-- Minus one divided by three at two digits, and a number divided by itself. -/
theorem division_truncates_third :
    @YieldsValue libdeciByValue (@Counted.numberDiv libdeciByValue 0 1 (@ntpFromPrec deciBase64 2))
      [some ⟨1, ⟨true, 0, [1]⟩⟩, some ⟨1, ⟨false, 0, [3]⟩⟩] 0 (-33 / 100) ∧
    @YieldsValue libdeciByValue (@Counted.numberDiv libdeciByValue 0 0 (@ntpFromPrec deciBase64 2))
      [some ⟨2, ⟨false, 0, [3]⟩⟩] 0 1 := by
  let := libdeciByValue
  have hvalue : ∀ s w, Number.value ⟨s, 0, [w]⟩ = (if s then -1 else 1) * w :=
    fun s w => by simp [Number.value, Number.signFactor, Number.absValue, Number.mag]
  constructor
  · have hcounts : Memory.Counts [some ⟨1, (⟨true, 0, [1]⟩ : Number)⟩, some ⟨1, ⟨false, 0, [3]⟩⟩]
        (0 ::ₘ 1 ::ₘ 0) := by
      intro p
      rcases p with _ | _ | p
      · rfl
      · rfl
      · rfl
    have h := (division_truncates hcounts rfl rfl (by decide) (by decide)
      (by rw [hvalue]; norm_num) 2).1
    rw [hvalue, hvalue] at h
    norm_num at h
    rwa [← neg_div] at h
  · have hcounts : Memory.Counts [some ⟨2, (⟨false, 0, [3]⟩ : Number)⟩] (0 ::ₘ 0 ::ₘ 0) :=
      Memory.counts_replicate _ 2
    have h := (division_truncates hcounts rfl rfl (by decide) (by decide)
      (by rw [hvalue]; norm_num) 2).1
    rw [hvalue] at h
    norm_num at h
    exact h

end Calx
