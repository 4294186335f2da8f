import Calx.Str.Append
import Calx.Vm.Operators

/-!
# Concatenation

The case `AOP_CONCAT` of `perform_aop` on strings with reference counts hands out
a string that holds what the operator computes on values.

## Implementation notes

The operator takes over the references to its operands. Values that are not
strings have no object here, so that giving up a reference to one does nothing.
-/

namespace Calx.Str

open Refcount

/-- The references of an operand. -/
def Operand.refs : Operand → Multiset Nat
  | .val _ => 0
  | .str t => {t}

/-- `value_unref`. -/
def Operand.unref : Operand → Strings Unit
  | .val _ => pure ()
  | .str t => Attempt.decref t

/-- The case `AOP_CONCAT` of `perform_aop`. -/
def performConcat [DeciBase] [Allocator] (left right : Operand) : Strings Addr :=
  match left with
  | .str s => do
      let s ← appendStringRepr s right
      right.unref
      pure s
  | left => do
      let s ← stringNew []
      let s ← appendStringRepr s left
      left.unref
      let s ← appendStringRepr s right
      right.unref
      pure s

/-- What an operand is as a value, its string within a capacity. -/
def Operand.Denotes (m : Memory StringObj) (limit : Nat) : Operand → Value → Prop
  | .val v, v' => v' = v
  | .str t, v' => ∃ x text, m.content? t = some x ∧ x.Holds text [] ∧ x.capacity ≤ limit ∧
      v' = .str text

variable {m m' : Memory StringObj} {own : Multiset Nat} {s : Addr} {x : StringObj} {text : Bytes}
  {room : List (Option UInt8)} {o left right : Operand} {v lv rv : Value} {need limit : Nat}

/-- An operand stays what it is while its string does. -/
theorem Operand.Denotes.frame (h : o.Denotes m limit v)
    (hframe : ∀ p ∈ o.refs, m'.content? p = m.content? p) : o.Denotes m' limit v := by
  cases o with
  | val w => exact h
  | str t =>
      obtain ⟨x, text, hx, hold, hcap, hv⟩ := h
      have ht := hframe t (Multiset.mem_singleton_self t)
      exact ⟨x, text, ht.trans hx, hold, hcap, hv⟩

section

variable [DeciBase] [Allocator]

/-- An operand is appended and given up. -/
theorem appendOperand_spec (hd : o.Denotes m limit v) (hv : Printable v)
    (h : m.Counts (s ::ₘ (o.refs + own))) (hx : m.content? s = some x) (hold : x.Holds text room)
    (hcap : x.capacity ≤ limit) (hneed : reprNeed text v ≤ need) (hlimit : 2 * need < limit) :
    Attempts (do
        let s ← appendStringRepr s o
        o.unref
        pure s) m own (Excused need limit)
      fun z => z.Holds (Calx.appendStringRepr text v) [] ∧ z.capacity ≤ limit := by
  cases o with
  | val w =>
      obtain rfl : v = w := hd
      rw [Operand.refs, zero_add] at h
      apply Attempts.bind (appendStringRepr_spec hv h hx hold hcap hneed hlimit) le_rfl
      intro r m' z hz hleaves
      exact Attempts.pure hleaves.counts hleaves.uniq hleaves.content hz
  | str t =>
      obtain ⟨y, text', hy, hold', -, rfl⟩ := hd
      rw [Operand.refs, Multiset.singleton_add] at h
      apply Attempts.bind (appendStringRepr_str h hx hold hcap (Multiset.mem_cons_self t own) hy
        hold' hneed hlimit) (Multiset.le_cons_self own t)
      intro r m' z hz hleaves
      have hcounts : m'.Counts (t ::ₘ r ::ₘ own) := Multiset.cons_swap r t own ▸ hleaves.counts
      apply Attempts.decref hcounts (Multiset.le_cons_self own r)
      intro m₁ hcounts₁ hframe
      have hr : r ∉ own := fun hmem => hleaves.uniq (Multiset.mem_cons_of_mem hmem)
      have hcontent := (hframe r (Multiset.mem_cons_self r own)).trans hleaves.content
      exact Attempts.pure hcounts₁ hr hcontent hz

/-- The size that the operator needs. -/
def concatNeed (lv rv : Value) : Nat :=
  max (reprNeed [] lv) (reprNeed (Calx.appendStringRepr [] lv) rv)

/-- The string that is handed out holds both representations. -/
theorem performConcat_holds (hl : left.Denotes m limit lv) (hr : right.Denotes m limit rv)
    (hlv : Printable lv) (hrv : Printable rv) (h : m.Counts (left.refs + (right.refs + own)))
    (hneed : concatNeed lv rv ≤ need) (hlimit : 2 * need < limit) :
    Attempts (performConcat left right) m own (Excused need limit)
      fun z => z.Holds (Calx.appendStringRepr (Calx.appendStringRepr [] lv) rv) [] ∧
        z.capacity ≤ limit := by
  obtain ⟨hneed₁, hneed₂⟩ : reprNeed [] lv ≤ need ∧
      reprNeed (Calx.appendStringRepr [] lv) rv ≤ need := max_le_iff.mp hneed
  cases left with
  | str s =>
      obtain ⟨x, text, hx, hold, hcap, rfl⟩ := hl
      rw [Operand.refs, Multiset.singleton_add] at h
      exact appendOperand_spec hr hrv h hx hold hcap hneed₂ hlimit
  | val w =>
      rw [Operand.refs, zero_add] at h
      have hnew : ([] : Bytes).length ≤ 0 := Nat.le_refl 0
      rw [performConcat]
      · have hle : own ≤ right.refs + own := Multiset.le_add_left own right.refs
        apply Attempts.bind (stringNewWithCapacity_spec h (Nat.zero_le limit) hnew) hle
        rintro r₁ m₁ z₁ ⟨hz₁, hzcap₁⟩ hleaves₁
        have hcap₁ : z₁.capacity ≤ limit := hzcap₁ ▸ Nat.zero_le limit
        obtain rfl : lv = w := hl
        apply Attempts.bind (appendStringRepr_spec hlv hleaves₁.counts hleaves₁.content hz₁ hcap₁
          hneed₁ hlimit) hle
        rintro r₂ m₂ z₂ ⟨hz₂, hzcap₂⟩ hleaves₂
        -- The string of the right operand has been left alone.
        have hr' : right.Denotes m₂ limit rv := by
          apply hr.frame
          intro p hp
          have hp' : p ∈ right.refs + own := Multiset.mem_add.mpr (Or.inl hp)
          exact (hleaves₂.frame p hp').trans (hleaves₁.frame p hp')
        rw [Operand.unref, pure_bind]
        exact appendOperand_spec hr' hrv hleaves₂.counts hleaves₂.content hz₂ hzcap₂ hneed₂ hlimit
      · intro s hs
        cases hs

end

/-- The operator on strings in memory computes what it computes on values. -/
theorem performConcat_spec [Libdeci] [Allocator] (ntp : NumberTruncateParams) (sh : Sharing)
    (hl : left.Denotes m limit lv) (hr : right.Denotes m limit rv) (hlv : Printable lv)
    (hrv : Printable rv) (h : m.Counts (left.refs + (right.refs + own)))
    (hneed : concatNeed lv rv ≤ need) (hlimit : 2 * need < limit) :
    ∃ result, performAop ntp sh .aopConcat lv rv = .ok (.str result) ∧
      Attempts (performConcat left right) m own (Excused need limit)
        fun z => z.Holds result [] ∧ z.capacity ≤ limit := by
  refine ⟨_, ?_, performConcat_holds hl hr hlv hrv h hneed hlimit⟩
  cases lv <;> rfl

end Calx.Str
