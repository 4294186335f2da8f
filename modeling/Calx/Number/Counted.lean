import Calx.Lib.Refcount
import Calx.Number.Rounding

/-!
# Counted numbers

The operations of `number.c` on number objects with reference counts. They take
over the references to their operands, change an operand in place where
`nrefs == 1`, and otherwise leave its object alone.

## Implementation notes

The definitions follow the source statement by statement on a memory of counted
objects and read every operand when the source does. Each is shown to hand out
an object that holds what the operation of the same name on values computes, with
the flags of that operation read off the counts.
-/

namespace Calx.Counted

open Refcount Libdeci

/-- The address of a number object. -/
abbrev Addr := Nat

/-- A program on number objects. -/
abbrev Objects := Action Number Addr

/-! ## Changes of the shape -/

/-- `unsafe_push_word`. -/
def unsafePushWord (a : Addr) (w : Nat) : Objects := do
  let x ← load a
  realloc a { x with words := x.words ++ [w] }

/-- `unsafe_strip`. -/
def unsafeStrip (a : Addr) (nwr sr : Nat) : Objects := do
  let x ← load a
  if x.nwords = nwr ∧ x.scale = sr then pure a
  else realloc a { x with scale := sr, words := (x.words.drop (x.scale - sr)).take nwr }

/-- `unsafe_normalize_full`. -/
def unsafeNormalizeFull [Libdeci] (a : Addr) : Objects := do
  let x ← load a
  let ds := x.scale - (deciSkip0 (x.words.take x.scale)).length
  let newNintpart := (deciNormalize (x.words.drop x.scale)).length
  let newScale := x.scale - ds
  unsafeStrip a (newScale + newNintpart) newScale

/-- `unsafe_normalize_after_idiv`. -/
def unsafeNormalizeAfterIdiv [Libdeci] (a : Addr) (nwr : Nat) : Objects := do
  let x ← load a
  unsafeStrip a (deciNormalize (x.words.take nwr)).length 0

/-- `mkuniq`. -/
def mkuniq (a : Addr) : Objects := do
  let uniq ← isUniq a
  if uniq then pure a
  else
    let x ← load a
    copy a ⟨x.sign, x.scale, x.words⟩

/-- `mkuniq_scale_down`. -/
def mkuniqScaleDown (a : Addr) (sr : Nat) : Objects := do
  let x ← load a
  let uniq ← isUniq a
  if uniq ∧ x.scale = sr then pure a
  else
    let nwr := x.nwords - x.scale + sr
    copy a ⟨x.sign, sr, x.words.drop (x.nwords - nwr)⟩

/-- `mkuniq_scale_up`. -/
def mkuniqScaleUp (a : Addr) (sr : Nat) : Objects := do
  let x ← load a
  let uniq ← isUniq a
  if uniq ∧ x.scale = sr then pure a
  else copy a ⟨x.sign, sr, List.replicate (sr - x.scale) 0 ++ x.words⟩

/-- `mkuniq_extend`. -/
def mkuniqExtend (a : Addr) (newNwords : Nat) : Objects := do
  let x ← load a
  let uniq ← isUniq a
  if uniq then
    if x.nwords ≠ newNwords then
      realloc a { x with words := x.words ++ List.replicate (newNwords - x.nwords) 0 }
    else pure a
  else copy a ⟨x.sign, x.scale, x.words ++ List.replicate (newNwords - x.nwords) 0⟩

/-! ## Addition and subtraction -/

/-- The operand that `do_add_or_sub` writes the result over, with the room that it needs. -/
def makeRoom (a b : Addr) : Objects := do
  let x ← load a
  let y ← load b
  let ninta := x.nwords - x.scale
  let nintb := y.nwords - y.scale
  if ninta < nintb then mkuniqExtend a (x.scale + nintb)
  else if x.scale < y.scale then mkuniqScaleUp a y.scale
  else mkuniq a

/-- The end of `do_add_or_sub`: the sign, and the other operand's reference. -/
def finishAddOrSub (a b : Addr) (negateResult : Bool) : Objects := do
  let x ← load a
  store a { x with sign := x.sign ^^ negateResult }
  decref b
  pure a

/-- `if (carry) a = unsafe_push_word(a, w)`. -/
def pushIf (carry : Prop) [Decidable carry] (a : Addr) (w : Nat) : Objects :=
  if carry then unsafePushWord a w else pure a

/-- The loss of the top words in `do_add_or_sub`. -/
def dropZeros [Libdeci] (a : Addr) : Objects := do
  let x ← load a
  if x.words.length ≠ x.scale ∧ x.words.getLast? = some 0 then
    realloc a { x with words := x.words.take x.scale ++ deciNormalize (x.words.drop x.scale) }
  else pure a

/-- `deci_add` and the carry in `do_add_or_sub`. -/
def addWords [Libdeci] (a b : Addr) (negateResult : Bool) : Objects := do
  let x ← load a
  let y ← load b
  let d := x.scale - y.scale
  let r := deciAdd (x.words.drop d) y.words
  store a { x with words := x.words.take d ++ r.1 }
  let a ← pushIf r.2 a 1
  finishAddOrSub a b negateResult

/-- `deci_sub_raw` and what follows it in `do_add_or_sub`. -/
def subWords [Libdeci] (a b : Addr) (negateResult : Bool) : Objects := do
  let x ← load a
  let y ← load b
  let d := x.scale - y.scale
  let r := deciSubRaw (x.words.drop d) y.words
  let words := x.words.take d ++ r.1
  store a { x with words := if r.2 then deciUncomplement words else words }
  let a ← dropZeros a
  finishAddOrSub a b (negateResult ^^ r.2)

/-- `do_add_or_sub` after the operands have been put in order. -/
def addOrSubOrdered [Libdeci] (a b : Addr) (add negateResult : Bool) : Objects := do
  let a ← makeRoom a b
  let x ← load a
  let y ← load b
  if x.sign ^^ y.sign ^^ add then addWords a b negateResult else subWords a b negateResult

/-- `do_add_or_sub`. -/
def doAddOrSub [Libdeci] (a b : Addr) (add : Bool) : Objects := do
  let x ← load a
  let y ← load b
  let uniq ← isUniq b
  if x.nwords < y.nwords ∨ x.nwords = y.nwords ∧ uniq then addOrSubOrdered b a add (!add)
  else addOrSubOrdered a b add false

/-- `number_add`. -/
def numberAdd [Libdeci] (a b : Addr) : Objects := doAddOrSub a b true

/-- `number_sub`. -/
def numberSub [Libdeci] (a b : Addr) : Objects := doAddOrSub a b false

/-- `number_abs_add_uword`. -/
def numberAbsAddUword [Libdeci] (a : Addr) (b : Nat) : Objects :=
  if b = 0 then pure a
  else do
    let a ← mkuniq a
    let x ← load a
    if x.scale = x.nwords then unsafePushWord a b
    else
      let r := deciAdd (x.words.drop x.scale) [b]
      store a { x with words := x.words.take x.scale ++ r.1 }
      pushIf r.2 a 1

/-- `number_mul_uword`. -/
def numberMulUword [Libdeci] (a : Addr) (b : Nat) : Objects :=
  if b = 0 then copy a (numberNewFromZu 0)
  else do
    let a ← mkuniq a
    let x ← load a
    let r := deciMulUword x.words b
    store a { x with words := r.1 }
    pushIf (r.2 ≠ 0) a r.2

/-! ## Division -/

/-- `number_imod`. -/
def numberImod [Libdeci] (a b : Addr) : Objects := do
  let a ← mkuniqScaleDown a 0
  let x ← load a
  let y ← load b
  let r := fancyMod x.words (y.words.drop y.scale)
  store a { x with words := r.1 }
  decref b
  unsafeNormalizeAfterIdiv a r.2

/-- `number_idiv`. -/
def numberIdiv [Libdeci] (a b : Addr) : Objects := do
  let a ← mkuniqScaleDown a 0
  let x ← load a
  let y ← load b
  store a { x with sign := x.sign ^^ y.sign }
  let x ← load a
  let r := fancyDiv x.words (y.words.drop y.scale)
  store a { x with words := r.1 }
  decref b
  unsafeNormalizeAfterIdiv a r.2

/-! ## Rounding -/

/-- `number_trunc`. -/
def numberTrunc (a : Addr) : Objects := mkuniqScaleDown a 0

/-- `if (away) a = number_abs_add_uword(a, 1)` and `mkuniq_scale_down`, for different reasons. -/
def truncAway [Libdeci] (away : Number → Bool) (a : Addr) : Objects := do
  let x ← load a
  if away x then
    let a ← numberAbsAddUword a 1
    mkuniqScaleDown a 0
  else mkuniqScaleDown a 0

/-- `number_floor`. -/
def numberFloor [Libdeci] (a : Addr) : Objects := truncAway (fun x => x.sign && !numberIsFzero x) a

/-- `number_ceil`. -/
def numberCeil [Libdeci] (a : Addr) : Objects := truncAway (fun x => !x.sign && !numberIsFzero x) a

/-- `number_round`. -/
def numberRound [Libdeci] (a : Addr) : Objects :=
  truncAway (fun x => (x.words.take x.scale).getLast?.any (deciBase / 2 ≤ ·)) a

/-- `number_frac`. -/
def numberFrac (a : Addr) : Objects := do
  let a ← mkuniq a
  let x ← load a
  unsafeStrip a x.scale x.scale

/-! ## Powers of ten -/

/-- The remainder of the shift in `number_scale_down`. -/
def shiftDown [Libdeci] (a : Addr) (r : Nat) : Objects :=
  if r ≠ 0 then do
    let x ← load a
    let d := deciDivmodUword x.words (10 ^ r)
    store a { x with words := d.1 }
    if d.2 ≠ 0 then
      let x ← load a
      let a ← mkuniqScaleUp a (x.scale + 1)
      let x ← load a
      store a { x with words := x.words.set 0 (d.2 * 10 ^ (deciBaseLog - r)) }
      pure a
    else pure a
  else pure a

/-- `number_scale_down`. -/
def numberScaleDown [Libdeci] (a : Addr) (n : Nat) : Objects := do
  let q := n / deciBaseLog
  let r := n % deciBaseLog
  let x ← load a
  let s := x.scale + q
  let a ← mkuniqExtend a (if x.nwords > s then x.nwords else s)
  let x ← load a
  store a { x with scale := x.scale + q }
  let a ← shiftDown a r
  unsafeNormalizeFull a

/-- `number_scale_up`. -/
def numberScaleUp [Libdeci] (a : Addr) (n : Nat) : Objects := do
  let q := n / deciBaseLog
  let r := n % deciBaseLog
  let x ← load a
  let a ← mkuniqScaleUp a (if x.scale > q then x.scale else q)
  let x ← load a
  store a { x with scale := x.scale - q }
  let a ← unsafeNormalizeFull a
  if r ≠ 0 then numberMulUword a (10 ^ r) else pure a

/-! ## What the operations yield -/

variable {m : Memory Number} {own : Multiset Addr} {a b : Addr} {x y : Number}

theorem unsafePushWord_yields (h : m.Counts (a ::ₘ own)) (ha : a ∉ own) (hx : m.content? a = some x)
    (w : Nat) : Yields (unsafePushWord a w) m own (Calx.unsafePushWord x w) :=
  Yields.load hx (Yields.realloc h ha _)

theorem unsafeStrip_yields (h : m.Counts (a ::ₘ own)) (ha : a ∉ own) (hx : m.content? a = some x)
    (nwr sr : Nat) : Yields (unsafeStrip a nwr sr) m own (Calx.unsafeStrip x nwr sr) := by
  refine Yields.load hx ?_
  rw [Calx.unsafeStrip]
  split_ifs
  · exact Yields.pure h ha hx
  · exact Yields.realloc h ha _

theorem mkuniq_yields (h : m.Counts (a ::ₘ own)) (hx : m.content? a = some x) :
    Yields (mkuniq a) m own (Calx.mkuniq (decide (a ∉ own)) x) := by
  refine Yields.isUniq h ?_
  rw [Calx.mkuniq]
  split_ifs with hu
  · exact Yields.pure h (of_decide_eq_true hu) hx
  · exact Yields.load hx (Yields.copy h _)

theorem mkuniqScaleDown_yields (h : m.Counts (a ::ₘ own)) (hx : m.content? a = some x) (sr : Nat) :
    Yields (mkuniqScaleDown a sr) m own (Calx.mkuniqScaleDown (decide (a ∉ own)) x sr) := by
  refine Yields.load hx (Yields.isUniq h ?_)
  rw [Calx.mkuniqScaleDown]
  split_ifs with hu
  · exact Yields.pure h (of_decide_eq_true hu.1) hx
  · exact Yields.copy h _

theorem mkuniqScaleUp_yields (h : m.Counts (a ::ₘ own)) (hx : m.content? a = some x) (sr : Nat) :
    Yields (mkuniqScaleUp a sr) m own (Calx.mkuniqScaleUp (decide (a ∉ own)) x sr) := by
  refine Yields.load hx (Yields.isUniq h ?_)
  rw [Calx.mkuniqScaleUp]
  split_ifs with hu
  · exact Yields.pure h (of_decide_eq_true hu.1) hx
  · exact Yields.copy h _

theorem mkuniqExtend_yields (h : m.Counts (a ::ₘ own)) (hx : m.content? a = some x) (n : Nat) :
    Yields (mkuniqExtend a n) m own (Calx.mkuniqExtend (decide (a ∉ own)) x n) := by
  refine Yields.load hx (Yields.isUniq h ?_)
  rw [Calx.mkuniqExtend]
  split_ifs with hu hn
  · exact Yields.realloc h (of_decide_eq_true hu) _
  · exact Yields.pure h (of_decide_eq_true hu) hx
  · exact Yields.copy h _

/-! ### Addition and subtraction -/

theorem makeRoom_yields (h : m.Counts (a ::ₘ own)) (hx : m.content? a = some x)
    (hy : m.content? b = some y) :
    Yields (makeRoom a b) m own (Calx.makeRoom (decide (a ∉ own)) x y) := by
  refine Yields.load hx (Yields.load hy ?_)
  rw [Calx.makeRoom]
  dsimp only
  split_ifs
  · exact mkuniqExtend_yields h hx _
  · exact mkuniqScaleUp_yields h hx _
  · exact mkuniq_yields h hx

theorem finishAddOrSub_yields (h : m.Counts (a ::ₘ b ::ₘ own)) (ha : a ∉ b ::ₘ own)
    (hx : m.content? a = some x) (negateResult : Bool) :
    Yields (finishAddOrSub a b negateResult) m own { x with sign := x.sign ^^ negateResult } := by
  refine Yields.load hx (Yields.store h ha (Multiset.le_cons_self own b) fun m₁ hm₁ => ?_)
  have hcounts : m₁.Counts (b ::ₘ a ::ₘ own) := Multiset.cons_swap a b own ▸ hm₁.counts
  refine Yields.decref hcounts (Multiset.le_cons_self own a) fun m₂ hm₂ hframe => ?_
  refine Yields.pure hm₂ (fun hmem => ha (Multiset.mem_cons_of_mem hmem)) ?_
  rw [hframe a (Multiset.mem_cons_self a own), hm₁.content]

theorem pushIf_yields (carry : Prop) [Decidable carry] (h : m.Counts (a ::ₘ own)) (ha : a ∉ own)
    (hx : m.content? a = some x) (w : Nat) :
    Yields (pushIf carry a w) m own (if carry then Calx.unsafePushWord x w else x) := by
  rw [pushIf]
  split_ifs
  · exact unsafePushWord_yields h ha hx w
  · exact Yields.pure h ha hx

theorem dropZeros_yields [Libdeci] (h : m.Counts (a ::ₘ own)) (ha : a ∉ own)
    (hx : m.content? a = some x) :
    Yields (dropZeros a) m own
      (if x.words.length ≠ x.scale ∧ x.words.getLast? = some 0 then
        { x with words := x.words.take x.scale ++ deciNormalize (x.words.drop x.scale) } else x) := by
  refine Yields.load hx ?_
  split_ifs
  · exact Yields.realloc h ha _
  · exact Yields.pure h ha hx

section

variable [Libdeci]

theorem addWords_yields (h : m.Counts (a ::ₘ b ::ₘ own)) (ha : a ∉ b ::ₘ own)
    (hx : m.content? a = some x) (hy : m.content? b = some y) (negateResult : Bool) :
    Yields (addWords a b negateResult) m own
      { Calx.addWords x y with sign := (Calx.addWords x y).sign ^^ negateResult } := by
  have hle := Multiset.le_cons_self own b
  refine Yields.load hx (Yields.load hy (Yields.store h ha hle fun m₁ hm₁ => ?_))
  exact Yields.bind (pushIf_yields _ hm₁.counts ha hm₁.content 1) hle fun r m₂ hm₂ =>
    finishAddOrSub_yields hm₂.counts hm₂.uniq hm₂.content negateResult

theorem subWords_yields (h : m.Counts (a ::ₘ b ::ₘ own)) (ha : a ∉ b ::ₘ own)
    (hx : m.content? a = some x) (hy : m.content? b = some y) (negateResult : Bool) :
    Yields (subWords a b negateResult) m own
      { (Calx.subWords x y).1 with
        sign := (Calx.subWords x y).1.sign ^^ (negateResult ^^ (Calx.subWords x y).2) } := by
  have hle := Multiset.le_cons_self own b
  refine Yields.load hx (Yields.load hy (Yields.store h ha hle fun m₁ hm₁ => ?_))
  refine Yields.bind (z := (Calx.subWords x y).1) ?_ hle fun r m₂ hm₂ =>
    finishAddOrSub_yields hm₂.counts hm₂.uniq hm₂.content _
  convert dropZeros_yields hm₁.counts ha hm₁.content using 1
  rw [Calx.subWords]
  dsimp only
  split_ifs <;> rfl

/-- The operands in order, on objects and on values. -/
theorem addOrSubOrdered_yields (h : m.Counts (a ::ₘ b ::ₘ own)) (hx : m.content? a = some x)
    (hy : m.content? b = some y) (add negateResult : Bool) :
    Yields (addOrSubOrdered a b add negateResult) m own
      (let x := Calx.makeRoom (decide (a ∉ b ::ₘ own)) x y
      if x.sign ^^ y.sign ^^ add then
        { Calx.addWords x y with sign := (Calx.addWords x y).sign ^^ negateResult }
      else
        { (Calx.subWords x y).1 with
          sign := (Calx.subWords x y).1.sign ^^ (negateResult ^^ (Calx.subWords x y).2) }) := by
  refine Yields.bind (makeRoom_yields h hx hy) (Multiset.le_cons_self own b) fun r m₁ hm₁ => ?_
  -- The other operand is still referred to, so that making room has not touched it.
  have hy₁ := hm₁.content_of_mem (Multiset.mem_cons_self b own) hy
  refine Yields.load hm₁.content (Yields.load hy₁ ?_)
  dsimp only
  split_ifs
  · exact addWords_yields hm₁.counts hm₁.uniq hm₁.content hy₁ negateResult
  · exact subWords_yields hm₁.counts hm₁.uniq hm₁.content hy₁ negateResult

/-- `do_add_or_sub` on objects computes what it computes on values. -/
theorem doAddOrSub_yields (h : m.Counts (a ::ₘ b ::ₘ own)) (hx : m.content? a = some x)
    (hy : m.content? b = some y) (add : Bool) :
    Yields (doAddOrSub a b add) m own
      (Calx.doAddOrSub (decide (a ∉ b ::ₘ own)) (decide (b ∉ a ::ₘ own)) x y add) := by
  have hswap : m.Counts (b ::ₘ a ::ₘ own) := Multiset.cons_swap a b own ▸ h
  refine Yields.load hx (Yields.load hy (Yields.isUniq hswap ?_))
  obtain ⟨swap, hs⟩ : ∃ swap, swap =
    (decide (x.nwords < y.nwords) || (decide (x.nwords = y.nwords) && decide (b ∉ a ::ₘ own))) :=
    ⟨_, rfl⟩
  have hcond : (x.nwords < y.nwords ∨ x.nwords = y.nwords ∧ decide (b ∉ a ::ₘ own) = true) ↔
      swap = true := by
    simp only [hs, Bool.or_eq_true, Bool.and_eq_true, decide_eq_true_eq]
  rw [Calx.doAddOrSub, if_congr hcond rfl rfl, ← hs]
  cases swap with
  | true =>
      have hrun := addOrSubOrdered_yields hswap hy hx add (!add)
      exact hrun
  | false =>
      have hrun := addOrSubOrdered_yields h hx hy add false
      exact hrun

theorem numberAbsAddUword_yields (h : m.Counts (a ::ₘ own)) (hx : m.content? a = some x) {w : Nat}
    (hw : w ≠ 0) :
    Yields (numberAbsAddUword a w) m own (Calx.numberAbsAddUword (decide (a ∉ own)) x w) := by
  rw [numberAbsAddUword, if_neg hw, Calx.numberAbsAddUword, if_neg hw]
  refine Yields.bind (mkuniq_yields h hx) le_rfl fun r m₁ hm₁ => Yields.load hm₁.content ?_
  dsimp only
  by_cases hnil : (Calx.mkuniq (decide (a ∉ own)) x).scale = (Calx.mkuniq (decide (a ∉ own)) x).nwords
  · rw [if_pos hnil, if_pos hnil]
    exact unsafePushWord_yields hm₁.counts hm₁.uniq hm₁.content w
  · rw [if_neg hnil, if_neg hnil]
    refine Yields.store hm₁.counts hm₁.uniq le_rfl fun m₂ hm₂ => ?_
    exact pushIf_yields _ hm₂.counts hm₂.uniq hm₂.content 1

theorem numberMulUword_yields (h : m.Counts (a ::ₘ own)) (hx : m.content? a = some x) (w : Nat) :
    Yields (numberMulUword a w) m own (Calx.numberMulUword (decide (a ∉ own)) x w) := by
  rw [numberMulUword, Calx.numberMulUword]
  split_ifs
  · exact Yields.copy h _
  · refine Yields.bind (mkuniq_yields h hx) le_rfl fun r m₁ hm₁ => Yields.load hm₁.content ?_
    refine Yields.store hm₁.counts hm₁.uniq le_rfl fun m₂ hm₂ => ?_
    exact pushIf_yields _ hm₂.counts hm₂.uniq hm₂.content _

/-! ### Division -/

theorem unsafeNormalizeAfterIdiv_yields (h : m.Counts (a ::ₘ own)) (ha : a ∉ own)
    (hx : m.content? a = some x) (nwr : Nat) :
    Yields (unsafeNormalizeAfterIdiv a nwr) m own (Calx.unsafeNormalizeAfterIdiv x nwr) :=
  Yields.load hx (unsafeStrip_yields h ha hx _ _)

theorem numberImod_yields (h : m.Counts (a ::ₘ b ::ₘ own)) (hx : m.content? a = some x)
    (hy : m.content? b = some y) :
    Yields (numberImod a b) m own (Calx.numberImod (decide (a ∉ b ::ₘ own)) x y) := by
  have hle := Multiset.le_cons_self own b
  refine Yields.bind (mkuniqScaleDown_yields h hx 0) hle fun r m₁ hm₁ => ?_
  have hy₁ := hm₁.content_of_mem (Multiset.mem_cons_self b own) hy
  refine Yields.load hm₁.content (Yields.load hy₁ ?_)
  refine Yields.store hm₁.counts hm₁.uniq hle fun m₂ hm₂ => ?_
  have hcounts : m₂.Counts (b ::ₘ r ::ₘ own) := Multiset.cons_swap r b own ▸ hm₂.counts
  refine Yields.decref hcounts (Multiset.le_cons_self own r) fun m₃ hm₃ hframe => ?_
  refine unsafeNormalizeAfterIdiv_yields hm₃ (fun hmem => hm₂.uniq (Multiset.mem_cons_of_mem hmem))
    ?_ _
  rw [hframe r (Multiset.mem_cons_self r own), hm₂.content]

theorem numberIdiv_yields (h : m.Counts (a ::ₘ b ::ₘ own)) (hx : m.content? a = some x)
    (hy : m.content? b = some y) :
    Yields (numberIdiv a b) m own (Calx.numberIdiv (decide (a ∉ b ::ₘ own)) x y) := by
  have hle := Multiset.le_cons_self own b
  refine Yields.bind (mkuniqScaleDown_yields h hx 0) hle fun r m₁ hm₁ => ?_
  have hy₁ := hm₁.content_of_mem (Multiset.mem_cons_self b own) hy
  refine Yields.load hm₁.content (Yields.load hy₁ ?_)
  refine Yields.store hm₁.counts hm₁.uniq hle fun m₂ hm₂ => Yields.load hm₂.content ?_
  refine Yields.store hm₂.counts hm₂.uniq hle fun m₃ hm₃ => ?_
  have hcounts : m₃.Counts (b ::ₘ r ::ₘ own) := Multiset.cons_swap r b own ▸ hm₃.counts
  refine Yields.decref hcounts (Multiset.le_cons_self own r) fun m₄ hm₄ hframe => ?_
  refine unsafeNormalizeAfterIdiv_yields hm₄ (fun hmem => hm₃.uniq (Multiset.mem_cons_of_mem hmem))
    ?_ _
  rw [hframe r (Multiset.mem_cons_self r own), hm₃.content]

/-! ### Rounding -/

theorem truncAway_yields (h : m.Counts (a ::ₘ own)) (hx : m.content? a = some x)
    (away : Number → Bool) :
    Yields (truncAway away a) m own (Calx.truncAway (decide (a ∉ own)) (away x) x) := by
  refine Yields.load hx ?_
  rw [Calx.truncAway]
  split_ifs
  · refine Yields.bind (numberAbsAddUword_yields h hx one_ne_zero) le_rfl fun r m₁ hm₁ => ?_
    have hdown := mkuniqScaleDown_yields hm₁.counts hm₁.content 0
    rwa [decide_eq_true hm₁.uniq] at hdown
  · exact mkuniqScaleDown_yields h hx 0

omit [Libdeci] in
theorem numberFrac_yields (h : m.Counts (a ::ₘ own)) (hx : m.content? a = some x) :
    Yields (numberFrac a) m own (Calx.numberFrac (decide (a ∉ own)) x) :=
  Yields.bind (mkuniq_yields h hx) le_rfl fun _ _ hm₁ =>
    Yields.load hm₁.content (unsafeStrip_yields hm₁.counts hm₁.uniq hm₁.content _ _)

/-! ### Powers of ten -/

theorem unsafeNormalizeFull_yields (h : m.Counts (a ::ₘ own)) (ha : a ∉ own)
    (hx : m.content? a = some x) :
    Yields (unsafeNormalizeFull a) m own (Calx.unsafeNormalizeFull x) :=
  Yields.load hx (unsafeStrip_yields h ha hx _ _)

theorem numberScaleUp_yields (h : m.Counts (a ::ₘ own)) (hx : m.content? a = some x) (n : Nat) :
    Yields (numberScaleUp a n) m own (Calx.numberScaleUp (decide (a ∉ own)) x n) := by
  refine Yields.load hx (Yields.bind (mkuniqScaleUp_yields h hx _) le_rfl fun r m₁ hm₁ => ?_)
  refine Yields.load hm₁.content (Yields.store hm₁.counts hm₁.uniq le_rfl fun m₂ hm₂ => ?_)
  refine Yields.bind (unsafeNormalizeFull_yields hm₂.counts hm₂.uniq hm₂.content) le_rfl
    fun r' m₃ hm₃ => ?_
  rw [Calx.numberScaleUp]
  by_cases hr : n % deciBaseLog ≠ 0
  · rw [if_pos hr, if_pos hr]
    have hmul := numberMulUword_yields hm₃.counts hm₃.content (10 ^ (n % deciBaseLog))
    rwa [decide_eq_true hm₃.uniq] at hmul
  · rw [if_neg hr, if_neg hr]
    exact Yields.pure hm₃.counts hm₃.uniq hm₃.content

theorem shiftDown_yields (h : m.Counts (a ::ₘ own)) (ha : a ∉ own) (hx : m.content? a = some x)
    (r : Nat) :
    Yields (shiftDown a r) m own
      (if r ≠ 0 then
        let d := deciDivmodUword x.words (10 ^ r)
        let x := { x with words := d.1 }
        if d.2 ≠ 0 then
          let x := Calx.mkuniqScaleUp true x (x.scale + 1)
          { x with words := x.words.set 0 (d.2 * 10 ^ (deciBaseLog - r)) }
        else x
      else x) := by
  rw [shiftDown]
  by_cases hr : r ≠ 0
  · rw [if_pos hr, if_pos hr]
    refine Yields.load hx (Yields.store h ha le_rfl fun m₁ hm₁ => ?_)
    dsimp only
    by_cases hd : (deciDivmodUword x.words (10 ^ r)).2 ≠ 0
    · rw [if_pos hd, if_pos hd]
      refine Yields.load hm₁.content ?_
      refine Yields.bind (mkuniqScaleUp_yields hm₁.counts hm₁.content _) le_rfl fun r' m₂ hm₂ => ?_
      rw [decide_eq_true hm₁.uniq] at hm₂
      refine Yields.load hm₂.content (Yields.store hm₂.counts hm₂.uniq le_rfl fun m₃ hm₃ => ?_)
      exact Yields.pure hm₃.counts hm₃.uniq hm₃.content
    · rw [if_neg hd, if_neg hd]
      exact Yields.pure hm₁.counts hm₁.uniq hm₁.content
  · rw [if_neg hr, if_neg hr]
    exact Yields.pure h ha hx

theorem numberScaleDown_yields (h : m.Counts (a ::ₘ own)) (hx : m.content? a = some x) (n : Nat) :
    Yields (numberScaleDown a n) m own (Calx.numberScaleDown (decide (a ∉ own)) x n) := by
  refine Yields.load hx (Yields.bind (mkuniqExtend_yields h hx _) le_rfl fun r m₁ hm₁ => ?_)
  refine Yields.load hm₁.content (Yields.store hm₁.counts hm₁.uniq le_rfl fun m₂ hm₂ => ?_)
  exact Yields.bind (shiftDown_yields hm₂.counts hm₂.uniq hm₂.content _) le_rfl fun r' m₃ hm₃ =>
    unsafeNormalizeFull_yields hm₃.counts hm₃.uniq hm₃.content

end

end Calx.Counted
