import Calx.TreeLayout

/-!
# Operand depths

The number of operands above the locals at each instruction of a tree's code,
counted along the code of the function at hand. Every statement starts and ends
without operands, and every jump is made without operands to a place where
there are none.

## Implementation notes

`depthAfter` counts through the code as `close_scope` does. `Flow` says that the
count is right at every instruction; its parameter tells to which positions
jumps may go, counted from the start of the code, so that the flow of a
statement does not depend on where it stands.
-/

namespace Calx

open LexemeKind Instr

/-! ## Effects of instructions -/

/-- The number of operands an instruction takes off the stack. -/
def Instr.pops : Instr → Nat
  | opLoadConst _ | opLoadLocal _ | opLoadGlobal _ | opJump _ | opFunction _
  | opLoadSymbolic _ => 0
  | opStoreLocal _ | opStoreGlobal _ | opModifyLocal .. | opModifyGlobal .. | opPrint | opReturn
  | opJumpUnless _ | opNeg | opNot | opLen | opStoreSymbolic _ | opModifySymbolic .. => 1
  | opLoadAt | opAop _ | opCmp2way _ | opCmp3way _ => 2
  | opStoreAt | opModifyAt _ => 3
  | opCall _ c => c + 1
  | opList c => c
  | opDict c => 2 * c

/-- The number of operands an instruction puts on the stack. -/
def Instr.pushes : Instr → Nat
  | opLoadConst _ | opLoadLocal _ | opLoadGlobal _ | opFunction _ | opLoadSymbolic _ | opNeg
  | opNot | opLen | opLoadAt | opAop _ | opCmp2way _ | opCmp3way _ | opCall .. | opList _
  | opDict _ => 1
  | opJump _ | opStoreLocal _ | opStoreGlobal _ | opModifyLocal .. | opModifyGlobal .. | opPrint
  | opReturn | opJumpUnless _ | opStoreSymbolic _ | opModifySymbolic .. | opStoreAt
  | opModifyAt _ => 0

/-- `close_scope` counts what an instruction puts on the stack less what it takes off. -/
theorem stackEffect_eq (i : Instr) : stackEffect i = i.pushes - i.pops := by
  cases i <;> (simp [stackEffect, Instr.pushes, Instr.pops]; try omega)

namespace AInstr

/-- The number of operands an item takes off the stack. -/
def pops : AInstr → Nat
  | .plain i => i.pops
  | .const _ | .load _ | .loadGlobal _ | .someLoad | .function _ | .jump _ | .breakTo
  | .continueTo | .ifTo => 0
  | .store _ | .modify .. | .storeNew _ | .storeGlobal _ | .modifyGlobal .. | .someStore
  | .someModify _ | .jumpUnless _ => 1

/-- The number of operands an item puts on the stack. -/
def pushes : AInstr → Nat
  | .plain i => i.pushes
  | .const _ | .load _ | .loadGlobal _ | .someLoad | .function _ => 1
  | _ => 0

theorem effect_eq (a : AInstr) : a.effect = a.pushes - a.pops := by
  cases a <;> simp [effect, pushes, pops, stackEffect_eq]

theorem pushes_le (a : AInstr) : a.pushes ≤ 1 := by
  cases a with
  | plain i => cases i <;> simp [pushes, Instr.pushes]
  | _ => simp [pushes]

/-- An item may stand at the depth `d`, if jumps may go to `L`. -/
def Fits (L : Int → Prop) (d : Nat) : AInstr → Prop
  | .jump off => d = 0 ∧ L off
  | .jumpUnless off => d = 1 ∧ L off
  | .breakTo | .continueTo | .ifTo => d = 0
  | .plain opReturn => d = 1
  | a => a.pops ≤ d

theorem Fits.mono {L L' : Int → Prop} {d : Nat} {a : AInstr} (hL : ∀ t, L t → L' t)
    (h : a.Fits L d) : a.Fits L' d := by
  unfold Fits at h ⊢
  split <;> simp_all

theorem Fits.pops_le {L : Int → Prop} {d : Nat} {a : AInstr} (h : a.Fits L d) : a.pops ≤ d := by
  unfold Fits at h
  split at h <;> simp_all [pops, Instr.pops]

end AInstr

/-! ## Flow -/

/-- The depth after an item at the depth `d`. -/
def depthStep (d : Nat) (r : Item) : Nat :=
  if r.own then d - r.instr.pops + r.instr.pushes else d

/-- The depth after a piece of code at the depth `d`. -/
def depthAfter (d : Nat) (code : List Item) : Nat := code.foldl depthStep d

@[simp] theorem depthAfter_nil (d : Nat) : depthAfter d [] = d := rfl

@[simp] theorem depthAfter_cons (d : Nat) (r : Item) (rs : List Item) :
    depthAfter d (r :: rs) = depthAfter (depthStep d r) rs := rfl

@[simp] theorem depthAfter_append (d : Nat) (l l' : List Item) :
    depthAfter d (l ++ l') = depthAfter (depthAfter d l) l' := List.foldl_append

@[simp] theorem depthStep_mine (d : Nat) (a : AInstr) (line : Option Nat) :
    depthStep d (.mine a line) = d - a.pops + a.pushes := rfl

/-- Every item of the function at hand fits at the depth counted up to it. -/
def Flow : (Int → Prop) → Nat → List Item → Prop
  | _, _, [] => True
  | L, d, r :: rs =>
      (r.own = true → r.instr.Fits L d) ∧ Flow (fun t => L (t + 1)) (depthStep d r) rs

@[simp] theorem flow_nil (L : Int → Prop) (d : Nat) : Flow L d [] := trivial

@[simp] theorem flow_cons (L : Int → Prop) (d : Nat) (r : Item) (rs : List Item) :
    Flow L d (r :: rs) ↔
      (r.own = true → r.instr.Fits L d) ∧ Flow (fun t => L (t + 1)) (depthStep d r) rs := Iff.rfl

@[simp] theorem flow_append (L : Int → Prop) (d : Nat) (l l' : List Item) :
    Flow L d (l ++ l') ↔
      Flow L d l ∧ Flow (fun t => L (t + l.length)) (depthAfter d l) l' := by
  induction l generalizing L d with
  | nil => simp
  | cons r rs ih =>
      simp only [List.cons_append, flow_cons, ih, List.length_cons, depthAfter_cons, and_assoc]
      have : ∀ t : Int, t + rs.length + 1 = t + (rs.length + 1 : Nat) := by
        intro t
        omega
      simp only [this]

theorem Flow.mono {L L' : Int → Prop} {d : Nat} {l : List Item} (hL : ∀ t, L t → L' t)
    (h : Flow L d l) : Flow L' d l := by
  induction l generalizing L L' d with
  | nil => trivial
  | cons r rs ih => exact ⟨fun ho => (h.1 ho).mono hL, ih (fun t => hL (t + 1)) h.2⟩

/-- Nested code does not count. -/
theorem depthAfter_nest (d : Nat) (l : List Item) : depthAfter d (nest l) = d := by
  induction l with
  | nil => rfl
  | cons r rs ih => exact ih

theorem flow_nest (L : Int → Prop) (d : Nat) (l : List Item) : Flow L d (nest l) := by
  induction l generalizing L with
  | nil => trivial
  | cons r rs ih => exact ⟨by simp, ih _⟩

/-! ## Landing -/

/-- Position `t` of a piece of code is one of the function at hand, or its end, and there are no
operands. -/
def Landing (code : List Item) (t : Int) : Prop :=
  ∃ A B, code = A ++ B ∧ (A.length : Int) = t ∧ depthAfter 0 A = 0 ∧ ∀ r ∈ B.head?, r.own = true

theorem landing_end {code : List Item} (h : depthAfter 0 code = 0) : Landing code code.length :=
  ⟨code, [], by simp, rfl, h, by simp⟩

theorem landing_start {code : List Item} (h : ∀ r ∈ code.head?, r.own = true) : Landing code 0 :=
  ⟨[], code, rfl, rfl, rfl, h⟩

/-- A landing of a part is one of the whole, if the whole goes on with its own code. -/
theorem Landing.embed {A B C : List Item} (hA : depthAfter 0 A = 0)
    (hC : ∀ r ∈ C.head?, r.own = true) {t : Int} (h : Landing B t) :
    Landing (A ++ (B ++ C)) (t + A.length) := by
  obtain ⟨B₁, B₂, rfl, rfl, hd, ho⟩ := h
  refine ⟨A ++ B₁, B₂ ++ C, by simp, by simp [Int.add_comm], by simp [hA, hd], ?_⟩
  cases B₂ with
  | nil => exact hC
  | cons r rs => simpa using ho

/-! ## Changes of the code -/

theorem depthAfter_aimFrom {a : AInstr} (ha : a.isOpen = true) (dst : Int) (i d : Nat)
    (l : List Item) : depthAfter d (aimFrom a dst i l) = depthAfter d l := by
  induction l generalizing i d with
  | nil => rfl
  | cons r rs ih =>
      simp only [aimFrom, depthAfter_cons, ih]
      congr 1
      split
      · rename_i hr
        cases a <;> simp [AInstr.isOpen] at ha <;>
          simp [depthStep, hr, AInstr.pops, AInstr.pushes]
      · rfl

/-- Aiming open jumps at a place where they may go. -/
theorem Flow.aimFrom {L : Int → Prop} {d : Nat} {l : List Item} (h : Flow L d l) {a : AInstr}
    (ha : a.isOpen = true) {dst : Int} {i : Nat} (hL : L (dst - i)) :
    Flow L d (aimFrom a dst i l) := by
  induction l generalizing L d i with
  | nil => trivial
  | cons r rs ih =>
      have hrest := ih (i := i + 1) h.2 (by
        rw [show dst - ((i + 1 : Nat) : Int) + 1 = dst - i by omega]
        exact hL)
      by_cases hr : r.instr = a
      · simp only [Calx.aimFrom, hr, if_true]
        refine ⟨fun ho => ?_, ?_⟩
        · have := h.1 ho
          rw [hr] at this
          cases a <;> simp [AInstr.isOpen] at ha <;> exact ⟨this, hL⟩
        · convert hrest using 1
          cases a <;> simp [AInstr.isOpen] at ha <;>
            simp [depthStep, hr, AInstr.pops, AInstr.pushes]
      · simp only [Calx.aimFrom, hr, if_false]
        exact ⟨h.1, hrest⟩

theorem Flow.patch {L : Int → Prop} {d : Nat} {l : List Item} (h : Flow L d l) {brk cnt : Int}
    (hb : L brk) (hc : L cnt) : Flow L d (patch brk cnt l) :=
  (h.aimFrom rfl (by simpa using hb)).aimFrom rfl (by simpa using hc)

@[simp] theorem depthAfter_patch (brk cnt : Int) (d : Nat) (l : List Item) :
    depthAfter d (patch brk cnt l) = depthAfter d l := by
  rw [patch, depthAfter_aimFrom rfl, depthAfter_aimFrom rfl]

theorem Landing.aimFrom {code : List Item} {t : Int} (h : Landing code t) {a : AInstr}
    (ha : a.isOpen = true) (dst : Int) (i : Nat) : Landing (aimFrom a dst i code) t := by
  obtain ⟨A, B, rfl, rfl, hd, ho⟩ := h
  refine ⟨Calx.aimFrom a dst i A, Calx.aimFrom a dst (i + A.length) B, aimFrom_append .., by simp,
    by rw [depthAfter_aimFrom ha, hd], ?_⟩
  cases B with
  | nil => simp [Calx.aimFrom]
  | cons r rs =>
      have := ho r (by simp)
      simp only [Calx.aimFrom, List.head?_cons, Option.mem_some_iff]
      rintro r' rfl
      split <;> exact this

theorem Landing.patch {code : List Item} {t : Int} (h : Landing code t) (brk cnt : Int) :
    Landing (patch brk cnt code) t := (h.aimFrom rfl brk 0).aimFrom rfl cnt 0

theorem closeInstr_pops (posted : Bool) (names : List Bytes) (a : AInstr) :
    (closeInstr posted names a).pops = a.pops := by
  cases a <;> simp only [closeInstr, blur, resolve] <;> split_ifs <;> rfl

theorem closeInstr_pushes (posted : Bool) (names : List Bytes) (a : AInstr) :
    (closeInstr posted names a).pushes = a.pushes := by
  cases a <;> simp only [closeInstr, blur, resolve] <;> split_ifs <;> rfl

theorem closeInstr_fits (posted : Bool) (names : List Bytes) {L : Int → Prop} {d : Nat}
    {a : AInstr} (h : a.Fits L d) : (closeInstr posted names a).Fits L d := by
  cases a <;> simp only [closeInstr, blur, resolve] <;> split_ifs <;> exact h

@[simp] theorem depthStep_closeItem (posted : Bool) (names : List Bytes) (d : Nat) (r : Item) :
    depthStep d (closeItem posted names r) = depthStep d r := by
  unfold depthStep closeItem
  split <;> simp [*, closeInstr_pops, closeInstr_pushes]

@[simp] theorem depthAfter_closeItems (posted : Bool) (names : List Bytes) (d : Nat)
    (l : List Item) : depthAfter d (closeItems posted names l) = depthAfter d l := by
  rw [closeItems_eq]
  induction l generalizing d with
  | nil => rfl
  | cons r rs ih => simp [ih]

theorem Flow.closeItems {L : Int → Prop} {d : Nat} {l : List Item} (h : Flow L d l)
    (posted : Bool) (names : List Bytes) : Flow L d (closeItems posted names l) := by
  rw [closeItems_eq]
  induction l generalizing L d with
  | nil => trivial
  | cons r rs ih =>
      refine ⟨fun ho => ?_, by simpa using ih h.2⟩
      rw [closeItem_own] at ho
      unfold closeItem
      rw [if_pos ho]
      exact closeInstr_fits posted names (h.1 ho)

theorem Landing.closeItems {code : List Item} {t : Int} (h : Landing code t) (posted : Bool)
    (names : List Bytes) : Landing (closeItems posted names code) t := by
  obtain ⟨A, B, rfl, rfl, hd, ho⟩ := h
  refine ⟨Calx.closeItems posted names A, Calx.closeItems posted names B,
    by simp [closeItems_eq], by simp, by simpa using hd, ?_⟩
  cases B with
  | nil => simp [closeItems_eq]
  | cons r rs => simpa [closeItems_eq] using ho

end Calx
