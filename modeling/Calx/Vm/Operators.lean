import Calx.Number.Compare
import Calx.Number.Division
import Calx.Vm.Basic

/-!
# Operators

The binary operators of `vm.c`: `values_equal` and `perform_cmp_3way` behind the
comparisons, and `perform_aop` behind the others, with their error messages.

## Implementation notes

Operands are values here, so that what depends on the objects is given from
outside: which operand may be changed in place, and whether both are one object.
An operator that fails has prepared an error, or ends the process by `UU_PANIC`.
-/

namespace Calx

open Libdeci

/-- How an operator fails. -/
inductive OperatorError
  /-- `state_prepare_error`. -/
  | prepared (text : String)
  /-- `UU_PANIC`. -/
  | panic (text : String)
deriving DecidableEq

/-- The objects of two operands: which has no other reference, and whether they are one. -/
structure Sharing where
  uniqLeft : Bool
  uniqRight : Bool
  same : Bool
deriving DecidableEq

/-! ## Comparison -/

/-- `memcmp`: the order of the first bytes that differ. -/
def memcmp : Bytes → Bytes → Ordering
  | c :: s, d :: t => if c = d then memcmp s t else if c < d then .lt else .gt
  | _, _ => .eq

/-- `string_compare`. -/
def stringCompare (s t : Bytes) : Nat :=
  match memcmp s t with
  | .lt => compareLess
  | .gt => compareGreater
  | .eq =>
      if s.length < t.length then compareLess
      else if s.length = t.length then compareEq else compareGreater

/-- `values_equal`; `same` compares the pointers. -/
def valuesEqual [Libdeci] (same : Bool) (a b : Value) : Bool :=
  match a, b with
  | .num a, .num b => decide (numberCompare a b = compareEq)
  | .str s, .str t => decide (s = t)
  | _, _ => same

/-- The operators of `perform_cmp_3way` in its message. -/
def cmpRepr (a : Nat) : String :=
  if a = compareLess then "<"
  else if a = compareLess ||| compareEq then "<="
  else if a = compareGreater then ">"
  else if a = compareGreater ||| compareEq then ">="
  else ""

/-- `perform_cmp_3way`; `a` holds the flags that count as true. -/
def performCmp3way [Libdeci] (left right : Value) (a : Nat) : Except OperatorError Value :=
  match left, right with
  | .num x, .num y => .ok (.flag (decide (a &&& numberCompare x y ≠ 0)))
  | .str s, .str t => .ok (.flag (decide (a &&& stringCompare s t ≠ 0)))
  | left, right => .error (.prepared ("attempt to compute " ++ valueKindName left ++ " " ++
      cmpRepr a ++ " " ++ valueKindName right))

/-- The instruction of a comparison, on the operands that it takes off the stack. -/
def runComparison [Libdeci] (same : Bool) (left right : Value) :
    Instr → Option (Except OperatorError Value)
  | .opCmp2way a => some (.ok (.flag (valuesEqual same left right == decide (a ≠ 0))))
  | .opCmp3way a => some (performCmp3way left right a)
  | _ => none

/-! ## Strings -/

/-- The digits that `number_tostring` writes of a word, the lowest first. -/
def writeWord : Nat → Nat → Bytes
  | 0, _ => []
  | j + 1, x => ((ch '0').toNat + x % 10).toUInt8 :: writeWord j (x / 10)

/-- The digits of all words from the lowest up, with the dot before word `sa`. -/
def writeWords [DeciBase] (sa : Nat) : Nat → List Nat → Bytes
  | _, [] => []
  | i, w :: words =>
      (if i = sa then [ch '.'] else []) ++ writeWord deciBaseLog w ++ writeWords sa (i + 1) words

/-- `finalize_tostring`. -/
def finalizeTostring (s : Bytes) : Bytes := if s = [ch '-', ch '0'] then [ch '0'] else s

/-- `number_tostring`. -/
def numberTostring [DeciBase] (a : Number) : Bytes :=
  let p := writeWords a.scale 0 a.words
  let p := if a.nwords = a.scale then p ++ [ch '.', ch '0'] else p.rdropWhile (· = ch '0')
  let p := if a.sign then p ++ [ch '-'] else p
  let p := p.reverse.rdropWhile (· = ch '0')
  finalizeTostring (if p.getLast? = some (ch '.') then p.dropLast else p)

/-- `append_string_repr`. -/
def appendStringRepr [DeciBase] (s : Bytes) : Value → Bytes
  | .num n => s ++ numberTostring n
  | .str t => s ++ t
  | .flag b => s ++ bytesOf (if b then "true" else "false")
  | v => s ++ bytesOf "<" ++ bytesOf (valueKindName v) ++ bytesOf ">"

/-! ## Arithmetic -/

/-- `value_is_truthy`. -/
def valueIsTruthy : Value → Bool
  | .nil | .flag false => false
  | _ => true

/-- The operators of `perform_aop` in its message. -/
def aopRepr : Aop → String
  | .aopAnd => "&&"
  | .aopBitAnd => "&"
  | .aopSub => "-"
  | .aopOr => "||"
  | .aopBitOr => "|"
  | .aopBitXor => "^"
  | .aopLshift => "<<"
  | .aopRshift => ">>"
  | .aopMod => "%"
  | .aopAdd => "+"
  | .aopDiv => "/"
  | .aopIdiv => "//"
  | .aopMul => "*"
  | .aopPow => "**"
  | .aopConcat => "~"

/-- `do_pow`. -/
def doPow [Libdeci] (uniq : Bool) (b e : Number) : Except OperatorError Value :=
  if e.sign && !numberIsZero e then .error (.prepared "exponent is negative")
  else if !numberIsFzero e then .error (.prepared "fraction part of exponent is non-zero")
  else
    match numberPow uniq b e with
    | some r => .ok (.num r)
    | none => .error (.panic "exponent is too large")

/-- The label `div_by_zero` of `perform_aop`. -/
def divByZero : Except OperatorError Value := .error (.prepared "division by zero")

/-- The label `kind_err` of `perform_aop`. -/
def kindErr (aop : Aop) (left right : Value) : Except OperatorError Value :=
  .error (.prepared ("attempt to compute " ++ valueKindName left ++ " " ++ aopRepr aop ++ " " ++
    valueKindName right))

/-- The cases of `perform_aop` for two numbers; the others take operands of any kind. -/
def performNumberAop [Libdeci] (ntp : NumberTruncateParams) (sh : Sharing) (a b : Number) :
    Aop → Option (Except OperatorError Value)
  | .aopAdd => some (.ok (.num (numberAdd sh.uniqLeft sh.uniqRight a b)))
  | .aopSub => some (.ok (.num (numberSub sh.uniqLeft sh.uniqRight a b)))
  | .aopMul => some (.ok (.num (numberMul sh.same a b)))
  | .aopDiv => some (if numberIsZero b then divByZero else .ok (.num (numberDiv sh.uniqLeft a b ntp)))
  | .aopPow => some (doPow sh.uniqLeft a b)
  | .aopIdiv => some (if numberIsIzero b then divByZero else .ok (.num (numberIdiv sh.uniqLeft a b)))
  | .aopMod => some (if numberIsIzero b then divByZero else .ok (.num (numberImod sh.uniqLeft a b)))
  | .aopBitAnd => some (.ok (.num (numberBitAnd a b)))
  | .aopBitOr => some (.ok (.num (numberBitOr a b)))
  | .aopBitXor => some (.ok (.num (numberBitXor a b)))
  | .aopLshift => some (.ok (.num (numberBitShl a b)))
  | .aopRshift => some (.ok (.num (numberBitLshr a b)))
  | .aopConcat | .aopAnd | .aopOr => none

/-- `perform_aop`. -/
def performAop [Libdeci] (ntp : NumberTruncateParams) (sh : Sharing) (aop : Aop)
    (left right : Value) : Except OperatorError Value :=
  match aop with
  | .aopConcat =>
      match left with
      | .str s => .ok (.str (appendStringRepr s right))
      | left => .ok (.str (appendStringRepr (appendStringRepr [] left) right))
  | .aopAnd => .ok (if valueIsTruthy left then right else left)
  | .aopOr => .ok (if valueIsTruthy left then left else right)
  | aop =>
      match left, right with
      | .num a, .num b => (performNumberAop ntp sh a b aop).getD (kindErr aop left right)
      | left, right => kindErr aop left right

/-! ## The order of numbers -/

/-- The flags of an operator select the orders that it holds for. -/
theorem flags_select (o : Ordering) :
    (compareLess &&& compareFlag o ≠ 0 ↔ o = .lt) ∧
      ((compareLess ||| compareEq) &&& compareFlag o ≠ 0 ↔ o ≠ .gt) ∧
      (compareGreater &&& compareFlag o ≠ 0 ↔ o = .gt) ∧
      ((compareGreater ||| compareEq) &&& compareFlag o ≠ 0 ↔ o ≠ .lt) := by
  cases o <;> decide

section

variable [Libdeci] {a b c : Number}

open LexemeKind

/-- The relation of values that a comparison stands for. -/
def comparisonOf : LexemeKind → Option (ℚ → ℚ → Prop)
  | lkEqEq => some (· = ·)
  | lkBangEq => some (· ≠ ·)
  | lkLess => some (· < ·)
  | lkLessEq => some (· ≤ ·)
  | lkGreater => some (· > ·)
  | lkGreaterEq => some (· ≥ ·)
  | _ => none

/-- `OP_CMP_2WAY` on numbers. -/
theorem opCmp2way_run (ha : a.Wf) (hb : b.Wf) (same : Bool) (flags : Nat) :
    ∃ flag, runComparison same (.num a) (.num b) (.opCmp2way flags) = some (.ok (.flag flag)) ∧
      (flag = true ↔ (a.value = b.value ↔ flags ≠ 0)) := by
  refine ⟨_, rfl, ?_⟩
  have heq : numberCompare a b = compareEq ↔ a.value = b.value := (numberCompare_iff ha hb).2.1
  rw [valuesEqual, beq_iff_eq, decide_eq_decide, heq]

/-- `OP_CMP_3WAY` on numbers. -/
theorem opCmp3way_run (ha : a.Wf) (hb : b.Wf) (same : Bool) (flags : Nat) :
    ∃ flag, runComparison same (.num a) (.num b) (.opCmp3way flags) = some (.ok (.flag flag)) ∧
      (flag = true ↔ flags &&& compareFlag (compare a.value b.value) ≠ 0) := by
  refine ⟨_, rfl, ?_⟩
  rw [decide_eq_true_eq, numberCompare_spec ha hb]

/-- Every comparison of two numbers computes its relation of the values. -/
theorem comparison_run (ha : a.Wf) (hb : b.Wf) (same : Bool) {k : LexemeKind}
    {R : ℚ → ℚ → Prop} (hk : comparisonOf k = some R) :
    ∃ instr priority assoc flag, binaryProps k = some (instr, priority, assoc) ∧
      runComparison same (.num a) (.num b) instr = some (.ok (.flag flag)) ∧
      (flag = true ↔ R a.value b.value) := by
  obtain ⟨hless, hlessEq, hgreater, hgreaterEq⟩ := flags_select (compare a.value b.value)
  cases k <;> cases hk
  case lkEqEq =>
    obtain ⟨flag, hrun, hflag⟩ := opCmp2way_run ha hb same compareEq
    have hne : compareEq ≠ 0 := by decide
    exact ⟨_, _, _, flag, rfl, hrun, hflag.trans (iff_true_right hne)⟩
  case lkBangEq =>
    obtain ⟨flag, hrun, hflag⟩ := opCmp2way_run ha hb same 0
    exact ⟨_, _, _, flag, rfl, hrun, hflag.trans (iff_false_right fun h => h rfl)⟩
  case lkLess =>
    obtain ⟨flag, hrun, hflag⟩ := opCmp3way_run ha hb same compareLess
    exact ⟨_, _, _, flag, rfl, hrun, hflag.trans (hless.trans compare_lt_iff_lt)⟩
  case lkLessEq =>
    obtain ⟨flag, hrun, hflag⟩ := opCmp3way_run ha hb same (compareLess ||| compareEq)
    exact ⟨_, _, _, flag, rfl, hrun, hflag.trans (hlessEq.trans compare_le_iff_le)⟩
  case lkGreater =>
    obtain ⟨flag, hrun, hflag⟩ := opCmp3way_run ha hb same compareGreater
    exact ⟨_, _, _, flag, rfl, hrun, hflag.trans (hgreater.trans compare_gt_iff_gt)⟩
  case lkGreaterEq =>
    obtain ⟨flag, hrun, hflag⟩ := opCmp3way_run ha hb same (compareGreater ||| compareEq)
    exact ⟨_, _, _, flag, rfl, hrun, hflag.trans (hgreaterEq.trans compare_ge_iff_ge)⟩

/-- `number_compare` is the order of the values, and the comparisons agree with it. -/
theorem numberCompare_total_order (ha : a.Wf) (hb : b.Wf) (hc : c.Wf) (same : Bool) :
    ((numberCompare a b = compareLess ↔ a.value < b.value) ∧
        (numberCompare a b = compareEq ↔ a.value = b.value) ∧
        (numberCompare a b = compareGreater ↔ a.value > b.value) ∧
        (numberCompare a b = compareLess ∨ numberCompare a b = compareEq ∨
          numberCompare a b = compareGreater)) ∧
      ((numberCompare a b = compareLess ↔ numberCompare b a = compareGreater) ∧
        (numberCompare a b = compareEq ↔ numberCompare b a = compareEq)) ∧
      (∀ flag ∈ [compareLess, compareEq, compareGreater],
        numberCompare a b = flag → numberCompare b c = flag → numberCompare a c = flag) ∧
      ∀ k R, comparisonOf k = some R → ∃ instr priority assoc flag,
        binaryProps k = some (instr, priority, assoc) ∧
          runComparison same (.num a) (.num b) instr = some (.ok (.flag flag)) ∧
          (flag = true ↔ R a.value b.value) := by
  obtain ⟨hless, heq, hgreater⟩ := numberCompare_iff ha hb
  obtain ⟨hless', heq', hgreater'⟩ := numberCompare_iff hb hc
  obtain ⟨hless'', heq'', hgreater''⟩ := numberCompare_iff ha hc
  obtain ⟨-, hswapEq, hswapGreater⟩ := numberCompare_iff hb ha
  refine ⟨⟨hless, heq, hgreater, ?_⟩, ⟨?_, ?_⟩, ?_, fun k R hk => comparison_run ha hb same hk⟩
  · rw [hless, heq, hgreater]
    exact lt_trichotomy a.value b.value
  · rw [hless, hswapGreater]
  · rw [heq, hswapEq, eq_comm]
  · intro flag hflag
    rcases List.mem_cons.mp hflag with rfl | hflag
    · rw [hless, hless', hless'']
      exact lt_trans
    rcases List.mem_cons.mp hflag with rfl | hflag
    · rw [heq, heq', heq'']
      exact Eq.trans
    · obtain rfl := List.mem_singleton.mp hflag
      rw [hgreater, hgreater', hgreater'']
      exact gt_trans

end

/-- One half with a redundant fraction word, minus zero and minus one half. -/
theorem numberCompare_total_order_halves :
    @numberCompare libdeciByValue ⟨false, 2, [0, 5000000000000000000]⟩ ⟨true, 1, [0]⟩ =
      compareGreater := by
  let := libdeciByValue
  have hhalf : Number.Wf ⟨false, 2, [0, 5000000000000000000]⟩ := by decide
  have hzero : Number.Wf ⟨true, 1, [0]⟩ := by decide
  have hneg : Number.Wf ⟨true, 1, [5000000000000000000]⟩ := by decide
  refine (numberCompare_total_order hhalf hzero hneg false).1.2.2.1.mpr ?_
  have hbase : (0 : ℚ) < deciBase := by exact_mod_cast deciBase_pos
  norm_num [Number.value, Number.signFactor, Number.absValue, Number.mag, Nat.ofDigits]
  positivity

end Calx
