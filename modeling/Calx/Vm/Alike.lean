import Calx.Vm.Arithmetic

/-!
# Operators and the sharing of their operands

Which operand an operator may overwrite, and whether both are one object, decides
how a result is computed but not which value it is.

## Implementation notes

Two numbers of one value can still differ in their words, and a zero in its sign.
-/

namespace Calx

open Libdeci

section

variable [DeciBase]

/-- The numbers in a value are well-formed. -/
def Value.Wf : Value → Prop
  | .num n => n.Wf
  | _ => True

/-- Values that cannot be told apart: equal ones, and numbers of one value. -/
inductive Value.Alike : Value → Value → Prop
  | refl (v : Value) : Alike v v
  | num {a b : Number} (h : a.value = b.value) : Alike (.num a) (.num b)

theorem Value.Alike.symm {v w : Value} (h : v.Alike w) : w.Alike v := by
  cases h with
  | refl => exact .refl _
  | num h => exact .num h.symm

theorem Value.Alike.trans {u v w : Value} (h : u.Alike v) (h' : v.Alike w) : u.Alike w := by
  cases h with
  | refl => exact h'
  | num h =>
      cases h' with
      | refl => exact .num h
      | num h' => exact .num (h.trans h')

/-- One object as both operands is one value. -/
def Sharing.Fits (sh : Sharing) (left right : Value) : Prop := sh.same = true → left = right

/-- An operator fails alike however its operands are shared, or its results are alike. -/
def OneResult (run : Sharing → Except OperatorError Value) (left right : Value) : Prop :=
  (∃ e, ∀ sh : Sharing, sh.Fits left right → run sh = .error e) ∨
    ∃ w : Value, ∀ sh : Sharing, sh.Fits left right → ∃ z, run sh = .ok z ∧ z.Wf ∧ z.Alike w

namespace OneResult

variable {run : Sharing → Except OperatorError Value} {left right : Value}

theorem error (e : OperatorError) : OneResult (fun _ => .error e) left right :=
  Or.inl ⟨e, fun _ _ => rfl⟩

theorem const {z : Value} (hz : z.Wf) : OneResult (fun _ => .ok z) left right :=
  Or.inr ⟨z, fun _ _ => ⟨z, rfl, hz, .refl z⟩⟩

/-- Results are alike when a specification says which number they are. -/
theorem number {f : Sharing → Number} {q : ℚ}
    (h : ∀ sh : Sharing, sh.Fits left right → (f sh).Wf ∧ (f sh).value = q) :
    OneResult (fun sh => .ok (.num (f sh))) left right := by
  have hnone : (⟨false, false, false⟩ : Sharing).Fits left right := fun hsame => nomatch hsame
  refine Or.inr ⟨.num (f ⟨false, false, false⟩), fun sh hsh => ⟨_, rfl, (h sh hsh).1, .num ?_⟩⟩
  rw [(h sh hsh).2, (h _ hnone).2]

/-- Two runs fail alike or have alike results. -/
theorem compare (h : OneResult run left right) {sh sh' : Sharing} (hsh : sh.Fits left right)
    (hsh' : sh'.Fits left right) :
    (∃ e, run sh = .error e ∧ run sh' = .error e) ∨
      ∃ z z', run sh = .ok z ∧ run sh' = .ok z' ∧ z.Wf ∧ z'.Wf ∧ z.Alike z' := by
  rcases h with ⟨e, he⟩ | ⟨w, hw⟩
  · exact Or.inl ⟨e, he sh hsh, he sh' hsh'⟩
  · obtain ⟨z, hz, hwf, halike⟩ := hw sh hsh
    obtain ⟨z', hz', hwf', halike'⟩ := hw sh' hsh'
    exact Or.inr ⟨z, z', hz, hz', hwf, hwf', halike.trans halike'.symm⟩

end OneResult

end

/-! ## The operators -/

section

variable [Libdeci] {a b : Number} {left right : Value} {p : Nat}

/-- A power is computed in place, or it is one of few numbers that need no computing. -/
theorem numberPow_cases (ha : a.Wf) (b : Number) :
    (∃ r : Option Number, (∀ z ∈ r, z.Wf) ∧ ∀ uniq, numberPow uniq a b = r) ∨
      ∀ uniq, numberPow uniq a b = some (numberPowZu uniq a (numberToZu b)) := by
  by_cases hmax : numberToZu b = sizeMax
  · refine Or.inl ⟨numberPow false a b, fun z hz => ?_, fun uniq => ?_⟩
    · rw [numberPow, if_pos hmax, Option.mem_def] at hz
      split_ifs at hz
      · exact Option.some.inj hz ▸ ha
      · exact Option.some.inj hz ▸ ha
      · exact Option.some.inj hz ▸ (numberNewFromZu_spec 1).1
    · rw [numberPow, numberPow, if_pos hmax, if_pos hmax]
  · exact Or.inr fun uniq => by rw [numberPow, if_neg hmax]

/-- `do_pow` checks the exponent before it looks at the base. -/
theorem doPow_oneResult (ha : a.Wf) (b : Number) :
    OneResult (fun sh => doPow sh.uniqLeft a b) left right := by
  simp only [doPow]
  split
  · exact .error _
  split
  · exact .error _
  rcases numberPow_cases ha b with ⟨r, hwf, hr⟩ | hr
  · simp only [hr]
    cases r with
    | none => exact .error _
    | some z => exact .const (hwf z rfl)
  · simp only [hr]
    exact .number fun sh _ => numberPowZu_spec sh.uniqLeft ha _

/-- The operators on two numbers. -/
theorem performNumberAop_oneResult (ha : a.Wf) (hb : b.Wf) (p : Nat) (aop : Aop) :
    OneResult (fun sh => (performNumberAop (ntpFromPrec p) sh a b aop).getD
      (kindErr aop (.num a) (.num b))) (.num a) (.num b) := by
  have hbits : ∀ n : Nat, Value.Wf (.num (numberNewFromZu n)) := fun n => (numberNewFromZu_spec n).1
  cases aop with
  | aopAdd => exact .number fun sh _ => numberAdd_spec ha hb sh.uniqLeft sh.uniqRight
  | aopSub => exact .number fun sh _ => numberSub_spec ha hb sh.uniqLeft sh.uniqRight
  | aopMul =>
      exact .number fun sh hsh => numberMul_spec ha hb sh.same fun hsame => by
        injection hsh hsame
  | aopDiv =>
      simp only [performNumberAop, Option.getD_some, divByZero]
      split
      · exact .error _
      · rename_i hzero
        have hb0 : b.value ≠ 0 := by
          intro h0
          exact hzero ((numberIsZero_iff b hb).mpr (Number.value_eq_zero.mp h0))
        exact .number fun sh _ => numberDiv_value sh.uniqLeft ha hb hb0 p
  | aopPow => exact doPow_oneResult ha b
  | aopIdiv =>
      simp only [performNumberAop, Option.getD_some, divByZero]
      split
      · exact .error _
      · rename_i hzero
        have hb0 : Rounding.trunc b.value ≠ 0 := mt (numberIsIzero_iff hb).mpr hzero
        exact .number fun sh _ => numberIdiv_value sh.uniqLeft ha hb hb0
  | aopMod =>
      simp only [performNumberAop, Option.getD_some, divByZero]
      split
      · exact .error _
      · rename_i hzero
        have hb0 : Rounding.trunc b.value ≠ 0 := mt (numberIsIzero_iff hb).mpr hzero
        exact .number fun sh _ => numberImod_value sh.uniqLeft ha hb hb0
  | aopBitAnd | aopBitOr | aopBitXor | aopLshift | aopRshift => exact .const (hbits _)
  | aopConcat | aopAnd | aopOr => exact .error _

/-- The operators on operands of any kind. -/
def Aop.takesNil : Aop → Bool
  | .aopConcat | .aopAnd | .aopOr => true
  | _ => false

theorem performAop_takesNil {aop : Aop} (h : aop.takesNil = true) (ntp : NumberTruncateParams)
    (sh : Sharing) (right : Value) : ∃ z, performAop ntp sh aop .nil right = .ok z := by
  cases aop with
  | aopConcat | aopAnd | aopOr => exact ⟨_, rfl⟩
  | _ => cases h

/-- Arithmetic on two numbers. -/
theorem performAop_numbers {aop : Aop} (h : aop.takesNil = false) (ntp : NumberTruncateParams)
    (sh : Sharing) : performAop ntp sh aop (.num a) (.num b) =
      (performNumberAop ntp sh a b aop).getD (kindErr aop (.num a) (.num b)) := by
  cases aop with
  | aopConcat | aopAnd | aopOr => cases h
  | _ => rfl

/-- There is no arithmetic on other kinds. -/
theorem performAop_kinds {aop : Aop} (h : aop.takesNil = false)
    (hkinds : ∀ a b, left = .num a → right ≠ .num b) (ntp : NumberTruncateParams) (sh : Sharing) :
    performAop ntp sh aop left right = kindErr aop left right := by
  cases aop with
  | aopConcat | aopAnd | aopOr => cases h
  | _ =>
      cases left with
      | num a =>
          cases right with
          | num b => exact absurd rfl (hkinds a b rfl)
          | _ => rfl
      | _ => rfl

/-- `perform_aop` gives one result, however the objects of its operands are shared. -/
theorem performAop_oneResult (hl : left.Wf) (hr : right.Wf) (p : Nat) (aop : Aop) :
    OneResult (fun sh => performAop (ntpFromPrec p) sh aop left right) left right := by
  cases haop : aop.takesNil with
  | false =>
      by_cases hkinds : ∀ a b, left = .num a → right ≠ .num b
      · simp only [performAop_kinds haop hkinds]
        exact .error _
      · push Not at hkinds
        obtain ⟨a, b, rfl, rfl⟩ := hkinds
        simp only [performAop_numbers haop]
        exact performNumberAop_oneResult hl hr p aop
  | true =>
      cases aop with
      | aopConcat =>
          simp only [performAop]
          split
          · exact .const trivial
          · exact .const trivial
      | aopAnd =>
          refine .const ?_
          split
          · exact hr
          · exact hl
      | aopOr =>
          refine .const ?_
          split
          · exact hl
          · exact hr
      | _ => cases haop

end

end Calx
