import Calx.Number.Products
import Calx.Number.Reader
import Calx.Vm.Arithmetic

/-!
# Runs of operations on numbers

Sequences of calls of the operations of `number.c` on number objects, with
references taken and given up in between. Every number that is ever referred to
satisfies the representation invariant, and no call fails.

## Implementation notes

A call takes over the references to its operands, which may be one object. What a
caller has to see to is `Allowed`: the checks in front of a division, that a text
is one that `number_parse` is given, and that a word is one.
-/

namespace Calx.Counted

open Refcount Libdeci

/-! ## Calls -/

/-- The operations on one number. -/
inductive Unary
  | negate
  | trunc
  | floor
  | ceil
  | round
  | frac
  | powZu (e : Nat)
  | scaleUp (n : Nat)
  | scaleDown (n : Nat)
  | mulUword (w : Nat)
  | absAddUword (w : Nat)

/-- The operations on two numbers. -/
inductive Binary
  | add
  | sub
  | mul
  | div (prec : Nat)
  | idiv
  | imod

/-- A call, with the references that it takes over. -/
inductive Call
  | newFromZu (x : Nat)
  | parse (s : Bytes)
  | parseBase (s : Bytes) (base prec : Nat)
  | unary (op : Unary) (a : Addr)
  | binary (op : Binary) (a b : Addr)

section

variable [Libdeci]

/-- The operation of `number.c`. -/
def Unary.run : Unary → Addr → Objects
  | .negate => numberNegate
  | .trunc => numberTrunc
  | .floor => numberFloor
  | .ceil => numberCeil
  | .round => numberRound
  | .frac => numberFrac
  | .powZu e => (numberPowZu · e)
  | .scaleUp n => (numberScaleUp · n)
  | .scaleDown n => (numberScaleDown · n)
  | .mulUword w => (numberMulUword · w)
  | .absAddUword w => (numberAbsAddUword · w)

/-- The operation of `number.c`. -/
def Binary.run : Binary → Addr → Addr → Objects
  | .add => numberAdd
  | .sub => numberSub
  | .mul => numberMul
  | .div prec => (numberDiv · · (ntpFromPrec prec))
  | .idiv => numberIdiv
  | .imod => numberImod

/-- The call. -/
def Call.run : Call → Objects
  | .newFromZu x => alloc (numberNewFromZu x)
  | .parse s => alloc (numberParse s)
  | .parseBase s base prec => numberParseBase s base (ntpFromPrec prec)
  | .unary op a => op.run a
  | .binary op a b => op.run a b

omit [Libdeci] in
/-- The references before a call that leaves `own`. -/
def Call.before : Call → Multiset Addr → Multiset Addr
  | .unary _ a, own => a ::ₘ own
  | .binary _ a b, own => a ::ₘ b ::ₘ own
  | _, own => own

/-- A text that `number_parse` is given: checked before, or lexed as a number. -/
def DecimalText (s : Bytes) : Prop :=
  numberParseBaseValidate s 10 = true ∨
    ∃ x : Lexer, (lexerNext x).1.kind = .lkNumber ∧ (lexerNext x).1.text = s

/-- Words are below the base. -/
def Unary.Allowed : Unary → Prop
  | .mulUword w | .absAddUword w => w < deciBase
  | _ => True

/-- The divisor is not zero, or its integer part is not. -/
def Binary.Allowed : Binary → Number → Prop
  | .div _, y => y.value ≠ 0
  | .idiv, y | .imod, y => Rounding.trunc y.value ≠ 0
  | _, _ => True

/-- What the caller sees to. -/
def Call.Allowed (m : Memory Number) : Call → Prop
  | .newFromZu _ => True
  | .parse s => DecimalText s
  | .parseBase _ base _ => 0 < base ∧ base ≤ 255
  | .unary op _ => op.Allowed
  | .binary op _ b => ∀ y, m.content? b = some y → op.Allowed y

/-- The memories that calls lead to, with the references that are held. -/
inductive Reaches : Memory Number → Multiset Addr → Prop
  | start : Reaches [] 0
  | call {m m' : Memory Number} {own : Multiset Addr} {r : Addr} (c : Call)
      (h : Reaches m (c.before own)) (hc : c.Allowed m) (hrun : c.run m = some (r, m')) :
      Reaches m' (r ::ₘ own)
  | share {m m' : Memory Number} {own : Multiset Addr} {a : Addr} (h : Reaches m own) (ha : a ∈ own)
      (hrun : incref a m = some ((), m')) : Reaches m' (a ::ₘ own)
  | drop {m m' : Memory Number} {own : Multiset Addr} {a : Addr} (h : Reaches m (a ::ₘ own))
      (hrun : decref a m = some ((), m')) : Reaches m' own

/-! ## One call -/

variable {m : Memory Number} {own : Multiset Addr} {a b : Addr}

/-- `number_abs_add_uword` of zero hands the operand back, shared or not. -/
theorem absAddUword_provides (h : Holding Number.Wf m (a ::ₘ own)) {w : Nat} (hw : w < deciBase) :
    Provides Number.Wf (numberAbsAddUword a w) m own := by
  obtain ⟨x, hx, hwf⟩ := h.content a (Multiset.mem_cons_self a own)
  by_cases hw0 : w = 0
  · rw [numberAbsAddUword, if_pos hw0]
    exact Provides.pure h
  · refine (numberAbsAddUword_yields h.counts hx hw0).provides (numberAbsAddUword_spec _ hwf hw).1 ?_
    exact fun p hp => h.content p (Multiset.mem_cons_of_mem hp)

theorem Unary.provides (op : Unary) (h : Holding Number.Wf m (a ::ₘ own)) (hop : op.Allowed) :
    Provides Number.Wf (op.run a) m own := by
  obtain ⟨x, hx, hwf⟩ := h.content a (Multiset.mem_cons_self a own)
  have hown : ∀ p ∈ own, ∃ z, m.content? p = some z ∧ z.Wf := fun p hp =>
    h.content p (Multiset.mem_cons_of_mem hp)
  cases op with
  | negate => exact (numberNegate_yields h.counts hx).provides (numberNegate_spec hwf).1 hown
  | trunc =>
      exact (mkuniqScaleDown_yields h.counts hx 0).provides (numberTrunc_spec _ hwf).1 hown
  | floor => exact (truncAway_yields h.counts hx _).provides (numberFloor_spec _ hwf).1 hown
  | ceil => exact (truncAway_yields h.counts hx _).provides (numberCeil_spec _ hwf).1 hown
  | round => exact (truncAway_yields h.counts hx _).provides (numberRound_spec _ hwf).1 hown
  | frac => exact (numberFrac_yields h.counts hx).provides (numberFrac_spec _ hwf).1 hown
  | powZu e => exact (numberPowZu_yields h.counts hx e).provides (numberPowZu_spec _ hwf e).1 hown
  | scaleUp n =>
      exact (numberScaleUp_yields h.counts hx n).provides (numberScaleUp_spec _ hwf n).1 hown
  | scaleDown n =>
      exact (numberScaleDown_yields h.counts hx n).provides (numberScaleDown_spec _ hwf n).1 hown
  | mulUword w =>
      exact (numberMulUword_yields h.counts hx w).provides (numberMulUword_spec _ hwf hop).1 hown
  | absAddUword w => exact absAddUword_provides h hop

theorem Binary.provides (op : Binary) (h : Holding Number.Wf m (a ::ₘ b ::ₘ own))
    (hop : ∀ y, m.content? b = some y → op.Allowed y) : Provides Number.Wf (op.run a b) m own := by
  obtain ⟨x, hx, hwx⟩ := h.content a (Multiset.mem_cons_self a _)
  obtain ⟨y, hy, hwy⟩ := h.content b (Multiset.mem_cons_of_mem (Multiset.mem_cons_self b own))
  have hown : ∀ p ∈ own, ∃ z, m.content? p = some z ∧ z.Wf := fun p hp =>
    h.content p (Multiset.mem_cons_of_mem (Multiset.mem_cons_of_mem hp))
  have hallowed := hop y hy
  cases op with
  | add =>
      exact (doAddOrSub_yields h.counts hx hy true).provides (numberAdd_spec hwx hwy _ _).1 hown
  | sub =>
      exact (doAddOrSub_yields h.counts hx hy false).provides (numberSub_spec hwx hwy _ _).1 hown
  | mul =>
      have hsame : decide (a = b) = true → x = y := by
        intro heq
        rw [of_decide_eq_true heq, hy] at hx
        exact (Option.some.inj hx).symm
      exact (numberMul_yields h.counts hx hy).provides (numberMul_spec hwx hwy _ hsame).1 hown
  | div prec =>
      have hmag : y.mag ≠ 0 := fun h0 => hallowed (Number.value_eq_zero.mpr h0)
      exact (numberDiv_yields h.counts hx hy _).provides (numberDiv_spec _ hwx hwy hmag prec).1 hown
  | idiv =>
      exact (numberIdiv_yields h.counts hx hy).provides (numberIdiv_value _ hwx hwy hallowed).1 hown
  | imod =>
      exact (numberImod_yields h.counts hx hy).provides (numberImod_value _ hwx hwy hallowed).1 hown

omit [Libdeci] in
theorem DecimalText.accepted {s : Bytes} (h : DecimalText s) : numberParseBaseValidate s 10 = true := by
  rcases h with h | ⟨x, hkind, rfl⟩
  · exact h
  · exact lexerNext_number_accepted x hkind

/-- An allowed call succeeds and keeps the representation invariant. -/
theorem Call.provides (c : Call) (h : Holding Number.Wf m (c.before own)) (hc : c.Allowed m) :
    Provides Number.Wf c.run m own := by
  cases c with
  | newFromZu x => exact (Yields.alloc h.counts _).provides (numberNewFromZu_spec x).1 h.content
  | parse s =>
      exact (Yields.alloc h.counts _).provides (numberParse_spec hc.accepted).1 h.content
  | parseBase s base prec =>
      exact (numberParseBase_yields h.counts s base _).provides
        (numberParseBase_spec hc.1 hc.2 s prec).1 h.content
  | unary op a => exact op.provides h hc
  | binary op a b => exact op.provides h hc

/-! ## Runs -/

/-- Every run keeps the representation invariant. -/
theorem Reaches.holding (h : Reaches m own) : Holding Number.Wf m own := by
  induction h with
  | start => exact Holding.empty
  | call c _ hc hrun ih =>
      obtain ⟨r, m', hrun', hholding, -⟩ := c.provides ih hc
      rw [hrun] at hrun'
      obtain ⟨rfl, rfl⟩ := Prod.mk.inj (Option.some.inj hrun')
      exact hholding
  | share _ ha hrun ih =>
      obtain ⟨m', hrun', hholding⟩ := ih.incref ha
      rw [hrun] at hrun'
      obtain ⟨-, rfl⟩ := Prod.mk.inj (Option.some.inj hrun')
      exact hholding
  | drop _ hrun ih =>
      obtain ⟨m', hrun', hholding⟩ := ih.decref
      rw [hrun] at hrun'
      obtain ⟨-, rfl⟩ := Prod.mk.inj (Option.some.inj hrun')
      exact hholding

/-- In every run every number satisfies the representation invariant, and the next call succeeds
without a change to the numbers that others refer to. -/
theorem representation_invariant (h : Reaches m own) :
    (∀ p ∈ own, ∃ x, m.content? p = some x ∧ x.Wf) ∧
      ∀ (c : Call) own', own = c.before own' → c.Allowed m → ∃ r m',
        c.run m = some (r, m') ∧ Reaches m' (r ::ₘ own') ∧
          ∀ p ∈ own', m'.content? p = m.content? p := by
  refine ⟨h.holding.content, ?_⟩
  rintro c own' rfl hc
  obtain ⟨r, m', hrun, -, hframe⟩ := c.provides h.holding hc
  exact ⟨r, m', hrun, h.call c hc hrun, hframe⟩

omit [Libdeci] in
/-- Three, shared and divided by itself. -/
theorem representation_invariant_three : ∃ r m',
    @Call.run libdeciByValue (.binary (.div 20) 0 0)
      [some ⟨2, @numberNewFromZu deciBase64 3⟩] = some (r, m') ∧ @Reaches libdeciByValue m' {r} := by
  let := libdeciByValue
  have hnew : Reaches [some ⟨1, numberNewFromZu 3⟩] (0 ::ₘ 0) :=
    Reaches.start.call (.newFromZu 3) trivial rfl
  have hshared : Reaches [some ⟨2, numberNewFromZu 3⟩] (0 ::ₘ 0 ::ₘ 0) :=
    hnew.share (Multiset.mem_cons_self 0 0) rfl
  have hallowed : ∀ y, Memory.content? [some ⟨2, numberNewFromZu 3⟩] 0 = some y → y.value ≠ 0 := by
    rintro y hy
    obtain rfl := Option.some.inj hy
    rw [(numberNewFromZu_spec 3).2]
    norm_num
  obtain ⟨r, m', hrun, hreaches, -⟩ :=
    (representation_invariant hshared).2 (.binary (.div 20) 0 0) 0 rfl hallowed
  exact ⟨r, m', hrun, hreaches⟩

end

end Calx.Counted
