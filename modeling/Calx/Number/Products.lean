import Calx.Number.Counted
import Calx.Number.Radix

/-!
# Products, quotients and parsed numbers as objects

`number_mul`, `number_pow_zu`, `number_div` and `number_negate` of `number.c` on
number objects with reference counts, and `number_parse_base`, which computes with
objects of its own.

## Implementation notes

In `number_pow_zu` the power starts out as one more reference to the base, so that
the loop only says that no one else refers to its result.
-/

namespace Calx.Counted

open Refcount Libdeci

/-! ## The operations -/

/-- `number_mul`. -/
def numberMul [Libdeci] (a b : Addr) : Objects := do
  let x ← load a
  let y ← load b
  let r ← alloc ⟨x.sign ^^ y.sign, x.scale + y.scale, fancyMul (decide (a = b)) x.words y.words⟩
  let r ← unsafeNormalizeFull r
  decref a
  decref b
  pure r

/-- The loop of `number_pow_zu` over the lowest bits of the exponent. -/
def powLoop [Libdeci] (b : Addr) (e : Nat) : Nat → Addr → Objects
  | 0, s => pure s
  | h + 1, s => do
      incref s
      let s ← numberMul s s
      if e.testBit h then
        incref b
        let s ← numberMul s b
        powLoop b e h s
      else powLoop b e h s

/-- `number_pow_zu`. -/
def numberPowZu [Libdeci] (b : Addr) (e : Nat) : Objects :=
  if e = 0 then copy b (numberNewFromZu 1)
  else do
    let b ← mkuniq b
    let b ← unsafeNormalizeFull b
    incref b
    let s ← powLoop b e (Nat.log2 e) b
    decref b
    pure s

/-- `div_prepare`. -/
def divPrepare (a : Addr) (mulBasePow minScale : Nat) : Objects := do
  let x ← load a
  let sr := if minScale > x.scale then minScale else x.scale
  let a ← mkuniqScaleUp a (sr + mulBasePow)
  let x ← load a
  store a { x with scale := sr }
  pure a

/-- The end of `unsafe_normalize_after_div`: the lowest word is cut. -/
def cutLowest (a : Addr) (submod : Nat) : Objects := do
  let x ← load a
  store a { x with words := cutLow submod x.words }
  pure a

/-- `unsafe_normalize_after_div`. -/
def unsafeNormalizeAfterDiv [Libdeci] (a : Addr) (nwr : Nat) (ntp : NumberTruncateParams) :
    Objects := do
  let x ← load a
  let sa := x.scale
  let newNwa :=
    if nwr > sa then sa + (deciNormalize ((x.words.take nwr).drop sa)).length else sa
  store a (if nwr > sa then x
    else { x with words := x.words.take nwr ++ List.replicate (sa - nwr) 0 ++ x.words.drop sa })
  if sa ≥ ntp.scale then
    let a ← unsafeStrip a (newNwa - sa + ntp.scale) ntp.scale
    if ntp.scale ≠ 0 then cutLowest a ntp.submod else pure a
  else unsafeStrip a newNwa sa

/-- `number_div`. -/
def numberDiv [Libdeci] (a b : Addr) (ntp : NumberTruncateParams) : Objects := do
  let y ← load b
  let a ← divPrepare a y.scale ntp.scale
  let x ← load a
  let y ← load b
  store a { x with sign := x.sign ^^ y.sign }
  let x ← load a
  let r := fancyDiv x.words y.words
  store a { x with words := r.1 }
  decref b
  unsafeNormalizeAfterDiv a r.2 ntp

/-- `number_negate`. -/
def numberNegate (a : Addr) : Objects := do
  let a ← mkuniq a
  let x ← load a
  store a { x with sign := x.sign ^^ true }
  pure a

/-- The loop of `number_parse_base`, with the number of digits after the dot. -/
def parseBaseLoop [Libdeci] (base : Nat) : Bytes → Addr → Bool → Nat → Action Number (Addr × Nat)
  | [], a, _, baseScale => pure (a, baseScale)
  | c :: s, a, seenDot, baseScale =>
      if c = ch '.' then parseBaseLoop base s a true baseScale
      else if c = quote then parseBaseLoop base s a seenDot baseScale
      else do
        let a ← numberMulUword a base
        let a ← numberAbsAddUword a (decodeDigit c)
        parseBaseLoop base s a seenDot (if seenDot then baseScale + 1 else baseScale)

/-- The division in `number_parse_base` by the power that belongs to the digits after the dot. -/
def divideParsed [Libdeci] (a : Addr) (base baseScale : Nat) (ntp : NumberTruncateParams) : Objects :=
  if baseScale ≠ 0 then do
    let divisor ← alloc (numberNewFromZu base)
    let divisor ← numberPowZu divisor baseScale
    numberDiv a divisor ntp
  else pure a

/-- `number_parse_base`. -/
def numberParseBase [Libdeci] (s : Bytes) (base : Nat) (ntp : NumberTruncateParams) : Objects := do
  let a ← alloc (numberNewFromZu 0)
  let (a, baseScale) ← parseBaseLoop base (unsigned s) a false 0
  let a ← divideParsed a base baseScale ntp
  if s.head? = some (ch '-') then numberNegate a else pure a

/-! ## What they yield -/

variable {m : Memory Number} {own : Multiset Addr} {a b : Addr} {x y : Number}

theorem numberNegate_yields (h : m.Counts (a ::ₘ own)) (hx : m.content? a = some x) :
    Yields (numberNegate a) m own (Calx.numberNegate (decide (a ∉ own)) x) := by
  refine Yields.bind (mkuniq_yields h hx) le_rfl fun r m₁ hm₁ => Yields.load hm₁.content ?_
  refine Yields.store hm₁.counts hm₁.uniq le_rfl fun m₂ hm₂ => ?_
  exact Yields.pure hm₂.counts hm₂.uniq hm₂.content

section

variable [Libdeci]

theorem numberMul_yields (h : m.Counts (a ::ₘ b ::ₘ own)) (hx : m.content? a = some x)
    (hy : m.content? b = some y) :
    Yields (numberMul a b) m own (Calx.numberMul (decide (a = b)) x y) := by
  refine Yields.load hx (Yields.load hy ?_)
  have hle : own ≤ a ::ₘ b ::ₘ own :=
    (Multiset.le_cons_self own b).trans (Multiset.le_cons_self _ a)
  refine Yields.bind (Yields.alloc h _) hle fun r m₁ hm₁ => ?_
  refine Yields.bind (unsafeNormalizeFull_yields hm₁.counts hm₁.uniq hm₁.content) hle
    fun r' m₂ hm₂ => ?_
  have hfresh : r' ∉ own := fun hmem => hm₂.uniq (Multiset.mem_of_le hle hmem)
  have hcounts : m₂.Counts (a ::ₘ r' ::ₘ b ::ₘ own) := Multiset.cons_swap r' a _ ▸ hm₂.counts
  have hle₁ : own ≤ r' ::ₘ b ::ₘ own :=
    (Multiset.le_cons_self own b).trans (Multiset.le_cons_self _ r')
  refine Yields.decref hcounts hle₁ fun m₃ hm₃ hframe₃ => ?_
  have hcounts₃ : m₃.Counts (b ::ₘ r' ::ₘ own) := Multiset.cons_swap r' b own ▸ hm₃
  refine Yields.decref hcounts₃ (Multiset.le_cons_self own r') fun m₄ hm₄ hframe₄ => ?_
  refine Yields.pure hm₄ hfresh ?_
  rw [hframe₄ r' (Multiset.mem_cons_self r' own), hframe₃ r' (Multiset.mem_cons_self r' _),
    hm₂.content]
  rfl

/-- The loop ends with an object that no one else refers to once the base is given up. -/
theorem powLoop_yields (e k : Nat) {s : Addr} (h : m.Counts (s ::ₘ b ::ₘ own)) (hs : s ∉ own)
    (hx : m.content? s = some x) (hy : m.content? b = some y) :
    Yields (powLoop b e k s >>= fun s => do decref b; pure s) m own (Calx.powLoop y e k x) := by
  induction k generalizing m s x with
  | zero =>
      have hcounts : m.Counts (b ::ₘ s ::ₘ own) := Multiset.cons_swap s b own ▸ h
      rw [powLoop, pure_bind]
      refine Yields.decref hcounts (Multiset.le_cons_self own s) fun m₁ hm₁ hframe => ?_
      refine Yields.pure hm₁ hs ?_
      rw [hframe s (Multiset.mem_cons_self s own), hx]
      rfl
  | succ k ih =>
      have hle := Multiset.le_cons_self own b
      have hmem := Multiset.mem_cons_self b own
      rw [powLoop, Calx.powLoop]
      simp only [bind_assoc]
      refine Yields.incref h (Multiset.mem_cons_self s _) fun m₁ hm₁ hframe₁ => ?_
      have hx₁ := (hframe₁ s).trans hx
      have hsquare := numberMul_yields hm₁ hx₁ hx₁
      rw [decide_eq_true rfl] at hsquare
      refine Yields.bind hsquare hle fun r m₂ hm₂ => ?_
      have hy₂ := hm₂.content_of_mem hmem ((hframe₁ b).trans hy)
      have hr : r ∉ own := fun hr => hm₂.uniq (Multiset.mem_cons_of_mem hr)
      split
      · simp only [bind_assoc]
        refine Yields.incref hm₂.counts (Multiset.mem_cons_of_mem hmem) fun m₃ hm₃ hframe₃ => ?_
        have hcounts : m₃.Counts (r ::ₘ b ::ₘ b ::ₘ own) := Multiset.cons_swap b r _ ▸ hm₃
        have hne : r ≠ b := fun heq => hm₂.uniq (heq ▸ hmem)
        have hproduct := numberMul_yields hcounts ((hframe₃ r).trans hm₂.content)
          ((hframe₃ b).trans hy₂)
        rw [decide_eq_false hne] at hproduct
        refine Yields.bind hproduct hle fun r' m₄ hm₄ => ?_
        have hy₄ := hm₄.content_of_mem hmem ((hframe₃ b).trans hy₂)
        exact ih hm₄.counts (fun hr' => hm₄.uniq (Multiset.mem_cons_of_mem hr')) hm₄.content hy₄
      · exact ih hm₂.counts hr hm₂.content hy₂

theorem numberPowZu_yields (h : m.Counts (b ::ₘ own)) (hy : m.content? b = some y) (e : Nat) :
    Yields (numberPowZu b e) m own (Calx.numberPowZu (decide (b ∉ own)) y e) := by
  rw [numberPowZu, Calx.numberPowZu]
  split
  · exact Yields.copy h _
  · refine Yields.bind (mkuniq_yields h hy) le_rfl fun r m₁ hm₁ => ?_
    refine Yields.bind (unsafeNormalizeFull_yields hm₁.counts hm₁.uniq hm₁.content) le_rfl
      fun r' m₂ hm₂ => ?_
    refine Yields.incref hm₂.counts (Multiset.mem_cons_self r' own) fun m₃ hm₃ hframe₃ => ?_
    have hx₃ := (hframe₃ r').trans hm₂.content
    exact powLoop_yields e _ hm₃ hm₂.uniq hx₃ hx₃

/-! ### Division -/

omit [Libdeci] in
theorem divPrepare_yields (h : m.Counts (a ::ₘ own)) (hx : m.content? a = some x)
    (mulBasePow minScale : Nat) :
    Yields (divPrepare a mulBasePow minScale) m own
      (Calx.divPrepare (decide (a ∉ own)) x mulBasePow minScale) := by
  refine Yields.load hx (Yields.bind (mkuniqScaleUp_yields h hx _) le_rfl fun r m₁ hm₁ => ?_)
  refine Yields.load hm₁.content (Yields.store hm₁.counts hm₁.uniq le_rfl fun m₂ hm₂ => ?_)
  exact Yields.pure hm₂.counts hm₂.uniq hm₂.content

omit [Libdeci] in
theorem cutLowest_yields (h : m.Counts (a ::ₘ own)) (ha : a ∉ own) (hx : m.content? a = some x)
    (submod : Nat) :
    Yields (cutLowest a submod) m own { x with words := cutLow submod x.words } :=
  Yields.load hx (Yields.store h ha le_rfl fun _ hm₁ => Yields.pure hm₁.counts hm₁.uniq hm₁.content)

theorem unsafeNormalizeAfterDiv_yields (h : m.Counts (a ::ₘ own)) (ha : a ∉ own)
    (hx : m.content? a = some x) (nwr : Nat) (ntp : NumberTruncateParams) :
    Yields (unsafeNormalizeAfterDiv a nwr ntp) m own (Calx.unsafeNormalizeAfterDiv x nwr ntp) := by
  refine Yields.load hx (Yields.store h ha le_rfl fun m₁ hm₁ => ?_)
  rw [Calx.unsafeNormalizeAfterDiv]
  dsimp only
  split
  · refine Yields.bind (unsafeStrip_yields hm₁.counts hm₁.uniq hm₁.content _ _) le_rfl
      fun r m₂ hm₂ => ?_
    split
    · exact cutLowest_yields hm₂.counts hm₂.uniq hm₂.content _
    · exact Yields.pure hm₂.counts hm₂.uniq hm₂.content
  · exact unsafeStrip_yields hm₁.counts hm₁.uniq hm₁.content _ _

theorem numberDiv_yields (h : m.Counts (a ::ₘ b ::ₘ own)) (hx : m.content? a = some x)
    (hy : m.content? b = some y) (ntp : NumberTruncateParams) :
    Yields (numberDiv a b ntp) m own (Calx.numberDiv (decide (a ∉ b ::ₘ own)) x y ntp) := by
  have hle := Multiset.le_cons_self own b
  refine Yields.load hy (Yields.bind (divPrepare_yields h hx _ _) hle fun r m₁ hm₁ => ?_)
  have hy₁ := hm₁.content_of_mem (Multiset.mem_cons_self b own) hy
  refine Yields.load hm₁.content (Yields.load hy₁ ?_)
  refine Yields.store hm₁.counts hm₁.uniq hle fun m₂ hm₂ => Yields.load hm₂.content ?_
  refine Yields.store hm₂.counts hm₂.uniq hle fun m₃ hm₃ => ?_
  have hcounts : m₃.Counts (b ::ₘ r ::ₘ own) := Multiset.cons_swap r b own ▸ hm₃.counts
  refine Yields.decref hcounts (Multiset.le_cons_self own r) fun m₄ hm₄ hframe => ?_
  refine unsafeNormalizeAfterDiv_yields hm₄
    (fun hmem => hm₃.uniq (Multiset.mem_cons_of_mem hmem)) ?_ _ _
  rw [hframe r (Multiset.mem_cons_self r own), hm₃.content]

/-! ### Parsing -/

/-- A word added to an object that no one else refers to, zero or not. -/
theorem absAddUword_of_uniq (h : m.Counts (a ::ₘ own)) (ha : a ∉ own) (hx : m.content? a = some x)
    (w : Nat) : Yields (numberAbsAddUword a w) m own (Calx.numberAbsAddUword true x w) := by
  by_cases hw : w = 0
  · rw [numberAbsAddUword, if_pos hw, Calx.numberAbsAddUword, if_pos hw]
    exact Yields.pure h ha hx
  · have hrun := numberAbsAddUword_yields h hx hw
    rwa [decide_eq_true ha] at hrun

/-- The loop on an object of its own, followed by whatever the counts of digits call for. -/
theorem parseBaseLoop_yields (base : Nat) (s : Bytes) {k : Addr × Nat → Objects} {z : Number}
    (h : m.Counts (a ::ₘ own)) (ha : a ∉ own) (hx : m.content? a = some x) (seenDot : Bool)
    (baseScale : Nat)
    (hk : ∀ r m', Leaves m own (Calx.parseBaseLoop base s x seenDot baseScale).1 r m' →
      Yields (k (r, (Calx.parseBaseLoop base s x seenDot baseScale).2)) m' own z) :
    Yields (parseBaseLoop base s a seenDot baseScale >>= k) m own z := by
  induction s generalizing m a x seenDot baseScale with
  | nil => exact hk a m ⟨h, hx, ha, fun _ _ => rfl⟩
  | cons c s ih =>
      rw [Calx.parseBaseLoop] at hk
      rw [parseBaseLoop]
      split
      · rename_i hdot
        rw [if_pos hdot] at hk
        exact ih h ha hx true baseScale hk
      · rename_i hdot
        rw [if_neg hdot] at hk
        split
        · rename_i hquote
          rw [if_pos hquote] at hk
          exact ih h ha hx seenDot baseScale hk
        · rename_i hquote
          rw [if_neg hquote] at hk
          simp only [bind_assoc]
          have hmul := numberMulUword_yields h hx base
          rw [decide_eq_true ha] at hmul
          refine Yields.bind hmul le_rfl fun r m₁ hm₁ => ?_
          refine Yields.bind (absAddUword_of_uniq hm₁.counts hm₁.uniq hm₁.content _) le_rfl
            fun r' m₂ hm₂ => ?_
          refine ih hm₂.counts hm₂.uniq hm₂.content _ _ fun r₃ m₃ hm₃ => hk r₃ m₃ ?_
          exact ⟨hm₃.counts, hm₃.content, hm₃.uniq, fun p hp =>
            (hm₃.frame p hp).trans ((hm₂.frame p hp).trans (hm₁.frame p hp))⟩

theorem divideParsed_yields (h : m.Counts (a ::ₘ own)) (ha : a ∉ own) (hx : m.content? a = some x)
    (base baseScale : Nat) (ntp : NumberTruncateParams) :
    Yields (divideParsed a base baseScale ntp) m own (if baseScale ≠ 0 then
      Calx.numberDiv true x (Calx.numberPowZu true (numberNewFromZu base) baseScale) ntp else x) := by
  rw [divideParsed]
  split
  · have hle := Multiset.le_cons_self own a
    have hmem := Multiset.mem_cons_self a own
    refine Yields.bind (Yields.alloc h _) hle fun d m₁ hm₁ => ?_
    have hpow := numberPowZu_yields hm₁.counts hm₁.content baseScale
    rw [decide_eq_true hm₁.uniq] at hpow
    refine Yields.bind hpow hle fun d' m₂ hm₂ => ?_
    have hx₂ := hm₂.content_of_mem hmem (hm₁.content_of_mem hmem hx)
    have hcounts : m₂.Counts (a ::ₘ d' ::ₘ own) := Multiset.cons_swap d' a own ▸ hm₂.counts
    have hne : a ∉ d' ::ₘ own := by
      intro hr
      rcases Multiset.mem_cons.mp hr with rfl | hr
      · exact hm₂.uniq hmem
      · exact ha hr
    have hdiv := numberDiv_yields hcounts hx₂ hm₂.content ntp
    rwa [decide_eq_true hne] at hdiv
  · exact Yields.pure h ha hx

theorem numberParseBase_yields (h : m.Counts own) (s : Bytes) (base : Nat)
    (ntp : NumberTruncateParams) :
    Yields (numberParseBase s base ntp) m own (Calx.numberParseBase s base ntp) := by
  refine Yields.bind (Yields.alloc h _) le_rfl fun r m₁ hm₁ => ?_
  refine parseBaseLoop_yields base _ hm₁.counts hm₁.uniq hm₁.content false 0 fun r₂ m₂ hm₂ => ?_
  refine Yields.bind (divideParsed_yields hm₂.counts hm₂.uniq hm₂.content _ _ ntp) le_rfl
    fun r₃ m₃ hm₃ => ?_
  rw [Calx.numberParseBase]
  split
  · have hneg := numberNegate_yields hm₃.counts hm₃.content
    rwa [decide_eq_true hm₃.uniq] at hneg
  · exact Yields.pure hm₃.counts hm₃.uniq hm₃.content

end

end Calx.Counted
