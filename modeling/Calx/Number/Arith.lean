import Calx.Number.Value

/-!
# Sums, products and powers

The arithmetic of `number.c` other than division keeps the representation
invariant and computes the sum, the difference and the product of the values.
-/

namespace Calx

open Nat (ofDigits)
open Positional Libdeci

variable [Libdeci] {a b x y : Number} {uniq : Bool}

/-! ## Carries -/

theorem ofDigits_take_append (d : Nat) (w r : List Nat) (h : d ≤ w.length) :
    ofDigits deciBase (w.take d ++ r) =
      ofDigits deciBase (w.take d) + deciBase ^ d * ofDigits deciBase r := by
  rw [Nat.ofDigits_append, List.length_take_of_le h]

theorem ofDigits_split (d : Nat) (w : List Nat) (h : d ≤ w.length) :
    ofDigits deciBase w =
      ofDigits deciBase (w.take d) + deciBase ^ d * ofDigits deciBase (w.drop d) := by
  rw [← ofDigits_take_append d w _ h, List.take_append_drop]

theorem unsafePushWord_mag (a : Number) (w : Nat) :
    (unsafePushWord a w).mag = a.mag + deciBase ^ a.nwords * w := by
  simp only [unsafePushWord, Number.mag, Nat.ofDigits_append, Nat.ofDigits_singleton, Number.nwords]

/-- The result of an operation on `n` words may have one more. -/
theorem wf_of_grown {n : Nat} (hscale : a.scale ≤ n) (hw : Words a.words)
    (hn : a.nwords = n ∨ a.nwords = n + 1 ∧ deciBase ^ n ≤ a.mag)
    (htop : n = a.scale ∨ deciBase ^ (n - 1) ≤ a.mag) : a.Wf := by
  rw [Number.wf_iff]
  rcases hn with hn | ⟨hn, hle⟩
  · exact ⟨by omega, hw, by rwa [hn]⟩
  · exact ⟨by omega, hw, Or.inr (by rwa [hn, Nat.add_sub_cancel])⟩

/-- What the addition of a span at place `d` does. -/
structure Raised (r x : Number) (d v : Nat) : Prop where
  sign : r.sign = x.sign
  scale : r.scale = x.scale
  words : Words r.words
  mag : r.mag = x.mag + deciBase ^ d * v
  nwords : r.nwords = x.nwords ∨ r.nwords = x.nwords + 1 ∧ deciBase ^ x.nwords ≤ r.mag

/-- `deci_add` above the `d` lowest words, and the carry as a new word. -/
theorem raised_deciAdd {d : Nat} {w : List Nat} (hx : Words x.words) (hw : Words w)
    (hlen : d + w.length ≤ x.nwords) {r : Number}
    (hr : r = { x with words := x.words.take d ++ (deciAdd (x.words.drop d) w).1 }) :
    Raised (if (deciAdd (x.words.drop d) w).2 then unsafePushWord r 1 else r) x d
      (ofDigits deciBase w) := by
  have hd : d ≤ x.words.length := by unfold Number.nwords at hlen; omega
  have hdrop : (x.words.drop d).length = x.nwords - d := List.length_drop
  obtain ⟨hlen', hwords, hvalue⟩ := deciAdd_spec (x.words.drop d) w (hx.drop d) hw (by omega)
  rw [hdrop] at hlen' hvalue
  have hrwords : Words r.words := by
    rw [hr]
    exact digits_append.mpr ⟨hx.take d, hwords⟩
  have hrnwords : r.nwords = x.nwords := by
    rw [hr]
    simp only [Number.nwords, List.length_append, List.length_take_of_le hd, hlen']
    omega
  have hrmag : r.mag + deciBase ^ x.nwords * (deciAdd (x.words.drop d) w).2.toNat =
      x.mag + deciBase ^ d * ofDigits deciBase w := by
    have hpow : deciBase ^ x.nwords = deciBase ^ d * deciBase ^ (x.nwords - d) := by
      rw [← pow_add]
      congr 1
      omega
    rw [hr]
    simp only [Number.mag]
    rw [ofDigits_take_append d _ _ hd, ofDigits_split d x.words hd, hpow]
    calc _ = ofDigits deciBase (x.words.take d) + deciBase ^ d *
          (ofDigits deciBase (deciAdd (x.words.drop d) w).1 +
            deciBase ^ (x.nwords - d) * (deciAdd (x.words.drop d) w).2.toNat) := by ring
      _ = _ := by rw [hvalue]; ring
  cases hc : (deciAdd (x.words.drop d) w).2 with
  | false =>
      rw [hc, Bool.toNat_false, Nat.mul_zero, Nat.add_zero] at hrmag
      exact ⟨by rw [hr]; rfl, by rw [hr]; rfl, hrwords, hrmag, Or.inl hrnwords⟩
  | true =>
      rw [hc, Bool.toNat_true, Nat.mul_one] at hrmag
      have hmag : (unsafePushWord r 1).mag = x.mag + deciBase ^ d * ofDigits deciBase w := by
        rw [unsafePushWord_mag, hrnwords, Nat.mul_one, hrmag]
      refine ⟨by rw [hr]; rfl, by rw [hr]; rfl, ?_, hmag, Or.inr ⟨?_, ?_⟩⟩
      · exact digits_append.mpr ⟨hrwords, digits_cons.mpr ⟨one_lt_deciBase, digits_nil⟩⟩
      · rw [if_pos rfl]
        simp only [unsafePushWord, Number.nwords, List.length_append, List.length_singleton]
        exact congrArg (· + 1) hrnwords
      · rw [if_pos rfl, hmag, ← hrmag]
        exact Nat.le_add_left _ _

theorem Raised.absValue {r : Number} {d v : Nat} (h : Raised r x d v) :
    r.absValue = x.absValue + (deciBase : ℚ) ^ d * v / (deciBase : ℚ) ^ x.scale := by
  unfold Number.absValue
  rw [h.mag, h.scale, ← add_div]
  push_cast
  rfl

theorem Raised.wf {r : Number} {d v : Nat} (h : Raised r x d v) (hle : x.scale ≤ x.nwords)
    (htop : x.nwords = x.scale ∨ deciBase ^ (x.nwords - 1) ≤ x.mag + deciBase ^ d * v) : r.Wf := by
  rw [← h.scale, ← h.mag] at htop
  exact wf_of_grown (h.scale ▸ hle) h.words h.nwords htop

/-- A value aligned with the fraction of another number. -/
theorem aligned_absValue (h : y.scale ≤ x.scale) :
    (deciBase : ℚ) ^ (x.scale - y.scale) * y.mag / (deciBase : ℚ) ^ x.scale = y.absValue := by
  have hy := Number.deciBase_pow_pos y.scale
  have hd := Number.deciBase_pow_pos (x.scale - y.scale)
  have hx : (deciBase : ℚ) ^ x.scale = deciBase ^ (x.scale - y.scale) * deciBase ^ y.scale := by
    rw [← pow_add, Nat.sub_add_cancel h]
  rw [Number.absValue, hx]
  field_simp

/-! ## Sums and differences -/

/-- The operands of `deci_add` and `deci_sub_raw` are aligned, with room for the result. -/
structure Aligned (x y : Number) : Prop where
  scale_le : x.scale ≤ x.nwords
  words : Words x.words
  words' : Words y.words
  scale : y.scale ≤ x.scale
  room : y.nwords + (x.scale - y.scale) ≤ x.nwords
  top : x.nwords = x.scale ∨
    deciBase ^ (x.nwords - 1) ≤ x.mag + deciBase ^ (x.scale - y.scale) * y.mag

theorem makeRoom_spec (uniq : Bool) (hx : x.Wf) (hy : y.Wf) (hle : y.nwords ≤ x.nwords) :
    (makeRoom uniq x y).sign = x.sign ∧ (makeRoom uniq x y).absValue = x.absValue ∧
      Aligned (makeRoom uniq x y) y := by
  have hxs := hx.scale_le
  have hys := hy.scale_le
  have hwf := Number.wf_iff.mp hx
  have hwf' := Number.wf_iff.mp hy
  simp only [makeRoom]
  split
  · rename_i hint
    refine ⟨by rw [mkuniqExtend_eq], mkuniqExtend_absValue, ?_⟩
    rw [mkuniqExtend_eq]
    have hlen : x.nwords + (x.scale + (y.nwords - y.scale) - x.nwords) =
        x.scale + (y.nwords - y.scale) := by omega
    refine ⟨?_, ?_, hy.words, ?_, ?_, Or.inr ?_⟩ <;>
      simp only [Number.nwords_mk, List.length_append, List.length_replicate, Number.length_words]
    · omega
    · exact digits_append.mpr ⟨hx.words, digits_replicate_zero deciBase_pos⟩
    · omega
    · omega
    · have htop := hwf'.2.2.resolve_left (by omega)
      rw [hlen]
      refine Nat.le_trans ?_ (Nat.le_add_left _ _)
      calc deciBase ^ (x.scale + (y.nwords - y.scale) - 1)
          = deciBase ^ (x.scale - y.scale) * deciBase ^ (y.nwords - 1) := by
            rw [← pow_add]
            congr 1
            omega
        _ ≤ _ := Nat.mul_le_mul_left _ htop
  · split
    · rename_i hint hscale
      refine ⟨by rw [mkuniqScaleUp_eq hscale.le], mkuniqScaleUp_absValue hscale.le, ?_⟩
      rw [mkuniqScaleUp_eq hscale.le]
      refine ⟨?_, ?_, hy.words, le_rfl, ?_, ?_⟩ <;>
        simp only [Number.nwords_mk, List.length_append, List.length_replicate, Number.length_words]
      · omega
      · exact digits_append.mpr ⟨digits_replicate_zero deciBase_pos, hx.words⟩
      · omega
      · rcases hwf.2.2 with heq | hle'
        · left
          omega
        · right
          refine Nat.le_trans ?_ (Nat.le_add_right _ _)
          simp only [Number.mag, ofDigits_replicate_append]
          calc deciBase ^ (y.scale - x.scale + x.nwords - 1)
              = deciBase ^ (y.scale - x.scale) * deciBase ^ (x.nwords - 1) := by
                rw [← pow_add]
                congr 1
                omega
            _ ≤ _ := Nat.mul_le_mul_left _ hle'
    · rw [mkuniq_eq]
      refine ⟨rfl, rfl, hxs, hx.words, hy.words, by omega, by omega, ?_⟩
      exact hwf.2.2.imp_right fun h => Nat.le_trans h (Nat.le_add_right _ _)

theorem addWords_spec (h : Aligned x y) :
    (addWords x y).Wf ∧ (addWords x y).sign = x.sign ∧
      (addWords x y).absValue = x.absValue + y.absValue := by
  have hraised : Raised (addWords x y) x (x.scale - y.scale) y.mag := by
    refine raised_deciAdd h.words h.words' ?_ rfl
    have hroom := h.room
    unfold Number.nwords at hroom ⊢
    omega
  refine ⟨hraised.wf h.scale_le h.top, hraised.sign, ?_⟩
  rw [hraised.absValue, aligned_absValue h.scale]

/-- The difference of the spans, back to its magnitude. -/
theorem subSpan_spec (h : Aligned x y) {w : List Nat}
    (hw : w = x.words.take (x.scale - y.scale) ++
      (deciSubRaw (x.words.drop (x.scale - y.scale)) y.words).1) :
    ∃ r : List Nat, (if (subWords x y).2 then deciUncomplement w else w) = r ∧
      r.length = x.nwords ∧ Words r ∧
      if (subWords x y).2 then ofDigits deciBase r + x.mag = deciBase ^ (x.scale - y.scale) * y.mag
      else ofDigits deciBase r + deciBase ^ (x.scale - y.scale) * y.mag = x.mag := by
  have hroom := h.room
  have hd : x.scale - y.scale ≤ x.words.length := by unfold Number.nwords at hroom; omega
  have hdrop : (x.words.drop (x.scale - y.scale)).length = x.nwords - (x.scale - y.scale) :=
    List.length_drop
  obtain ⟨hlen, hwords, hvalue⟩ := deciSubRaw_spec (x.words.drop (x.scale - y.scale)) y.words
    (h.words.drop _) h.words' (by rw [hdrop, Number.length_words]; omega)
  rw [hdrop] at hlen hvalue
  have hwlen : w.length = x.nwords := by
    rw [hw, List.length_append, List.length_take_of_le hd, hlen]
    omega
  have hwwords : Words w := by
    rw [hw]
    exact digits_append.mpr ⟨h.words.take _, hwords⟩
  have hborrow : (subWords x y).2 = (deciSubRaw (x.words.drop (x.scale - y.scale)) y.words).2 := rfl
  have hwvalue : ofDigits deciBase w + deciBase ^ (x.scale - y.scale) * y.mag =
      x.mag + deciBase ^ x.nwords * (subWords x y).2.toNat := by
    have hpow : deciBase ^ x.nwords =
        deciBase ^ (x.scale - y.scale) * deciBase ^ (x.nwords - (x.scale - y.scale)) := by
      rw [← pow_add]
      congr 1
      omega
    rw [hw, ofDigits_take_append _ _ _ hd, hpow, hborrow, Number.mag, Number.mag,
      ofDigits_split _ x.words hd]
    calc _ = ofDigits deciBase (x.words.take (x.scale - y.scale)) +
          deciBase ^ (x.scale - y.scale) *
            (ofDigits deciBase (deciSubRaw (x.words.drop (x.scale - y.scale)) y.words).1 +
              ofDigits deciBase y.words) := by ring
      _ = _ := by rw [hvalue]; ring
  have hlt : x.mag < deciBase ^ x.nwords := Number.mag_lt h.words
  cases hb : (subWords x y).2 with
  | false =>
      rw [hb, Bool.toNat_false, Nat.mul_zero, Nat.add_zero] at hwvalue
      exact ⟨w, rfl, hwlen, hwwords, hwvalue⟩
  | true =>
      rw [hb, Bool.toNat_true, Nat.mul_one] at hwvalue
      have hwlt := hwwords.lt one_lt_deciBase
      rw [hwlen] at hwlt
      have hylt : deciBase ^ (x.scale - y.scale) * y.mag < deciBase ^ x.nwords := by
        calc deciBase ^ (x.scale - y.scale) * y.mag
            < deciBase ^ (x.scale - y.scale) * deciBase ^ y.nwords :=
              Nat.mul_lt_mul_of_pos_left (Number.mag_lt h.words') (Nat.pow_pos deciBase_pos)
          _ ≤ deciBase ^ x.nwords := by
              rw [← pow_add]
              exact Nat.pow_le_pow_right deciBase_pos (by omega)
      obtain ⟨hulen, huwords, huvalue⟩ := deciUncomplement_spec w hwwords (by omega)
      rw [hwlen] at hulen huvalue
      refine ⟨deciUncomplement w, rfl, hulen, huwords, ?_⟩
      rw [if_pos rfl]
      omega

/-- The zeros on top of the integer part are cut off, when the top word is zero. -/
theorem trimInt_eq {s : Nat} {w : List Nat} (h : s ≤ w.length) :
    (if w.length ≠ s ∧ w.getLast? = some 0 then w.take s ++ deciNormalize (w.drop s) else w) =
      w.take s ++ trimTop (w.drop s) := by
  split
  · rw [deciNormalize_eq]
  · rename_i hnot
    by_cases hlen : w.length = s
    · rw [List.drop_of_length_le hlen.le, List.take_of_length_le hlen.le]
      exact (List.append_nil w).symm
    · have htop : TopNonzero (w.drop s) := by
        have hne : w.drop s ≠ [] := fun hnil => by
          rw [List.drop_eq_nil_iff] at hnil
          omega
        have hsplit := topNonzero_append hne (w := w.take s)
        rw [List.take_append_drop] at hsplit
        exact hsplit.mp fun hz => hnot ⟨hlen, hz⟩
      rw [trimTop_of_topNonzero htop, List.take_append_drop]

theorem subWords_spec (h : Aligned x y) :
    (subWords x y).1.Wf ∧ (subWords x y).1.sign = x.sign ∧
      (subWords x y).1.absValue =
        if (subWords x y).2 then y.absValue - x.absValue else x.absValue - y.absValue := by
  obtain ⟨r, hr, hlen, hwords, hvalue⟩ := subSpan_spec h rfl
  have hscale : x.scale ≤ r.length := hlen ▸ h.scale_le
  have hrun : (subWords x y).1 = { x with words := r.take x.scale ++ trimTop (r.drop x.scale) } := by
    rw [← trimInt_eq hscale, ← hr]
    rfl
  have htake : (r.take x.scale).length = x.scale := List.length_take_of_le hscale
  have hmag : (subWords x y).1.mag = ofDigits deciBase r := by
    rw [hrun, Number.mag, Nat.ofDigits_append, ofDigits_trimTop, ← Nat.ofDigits_append,
      List.take_append_drop]
  refine ⟨?_, by rw [hrun], ?_⟩
  · rw [hrun]
    refine ⟨?_, digits_append.mpr ⟨hwords.take _, (hwords.drop _).trimTop⟩, ?_⟩
    · simp only [Number.nwords, List.length_append, htake]
      omega
    · simp only [List.drop_left' htake]
      exact topNonzero_trimTop _
  · have hx : x.absValue = x.mag / (deciBase : ℚ) ^ x.scale := rfl
    have hs : (subWords x y).1.scale = x.scale := by rw [hrun]
    rw [Number.absValue, hmag, hs, hx, ← aligned_absValue h.scale, ← sub_div, ← sub_div]
    split
    · rename_i hb
      rw [if_pos hb] at hvalue
      congr 1
      rw [eq_sub_iff_add_eq]
      exact_mod_cast hvalue
    · rename_i hb
      rw [if_neg hb] at hvalue
      congr 1
      rw [eq_sub_iff_add_eq]
      exact_mod_cast hvalue

theorem addWords_value (h : Aligned x y) {negate : Bool} :
    (⟨(addWords x y).sign ^^ negate, (addWords x y).scale, (addWords x y).words⟩ : Number).value =
      (if x.sign ^^ negate then -1 else 1) * (x.absValue + y.absValue) := by
  obtain ⟨-, hsign, habs⟩ := addWords_spec h
  rw [← habs, ← hsign]
  rfl

theorem subWords_value (h : Aligned x y) {negate : Bool} :
    (⟨(subWords x y).1.sign ^^ (negate ^^ (subWords x y).2), (subWords x y).1.scale,
      (subWords x y).1.words⟩ : Number).value =
      (if x.sign ^^ negate then -1 else 1) * (x.absValue - y.absValue) := by
  obtain ⟨-, hsign, habs⟩ := subWords_spec h
  rw [← hsign]
  change (if (subWords x y).1.sign ^^ (negate ^^ (subWords x y).2) then (-1 : ℚ) else 1) *
    (subWords x y).1.absValue = _
  rw [habs]
  cases (subWords x y).2 <;> cases (subWords x y).1.sign <;> cases negate <;> simp

/-- A number with another sign. -/
theorem Number.Wf.withSign (h : a.Wf) (sign : Bool) : ({ a with sign := sign } : Number).Wf :=
  ⟨h.scale_le, h.words, h.top⟩

/-- The operands in the order in which `do_add_or_sub` takes them. -/
theorem addOrSub_ordered (uniq : Bool) (hx : x.Wf) (hy : y.Wf) (hle : y.nwords ≤ x.nwords)
    (swap add : Bool) :
    ∃ r : Number, (if (makeRoom uniq x y).sign ^^ y.sign ^^ add then
          { addWords (makeRoom uniq x y) y with
            sign := (addWords (makeRoom uniq x y) y).sign ^^ (swap && !add) }
        else
          { (subWords (makeRoom uniq x y) y).1 with
            sign := (subWords (makeRoom uniq x y) y).1.sign ^^
              ((swap && !add) ^^ (subWords (makeRoom uniq x y) y).2) }) = r ∧ r.Wf ∧
      r.value = if add then x.value + y.value else if swap then y.value - x.value
        else x.value - y.value := by
  obtain ⟨hsign, habs, haligned⟩ := makeRoom_spec uniq hx hy hle
  have hxv : x.value = (if x.sign then -1 else 1) * x.absValue := rfl
  have hyv : y.value = (if y.sign then -1 else 1) * y.absValue := rfl
  refine ⟨_, rfl, ?_, ?_⟩
  · split
    · exact (addWords_spec haligned).1.withSign _
    · exact (subWords_spec haligned).1.withSign _
  · rw [hxv, hyv, apply_ite Number.value, addWords_value haligned, subWords_value haligned, hsign,
      habs]
    cases x.sign <;> cases y.sign <;> cases add <;> cases swap <;> simp <;> ring

/-- `do_add_or_sub` adds and subtracts the values. -/
theorem doAddOrSub_spec (ha : a.Wf) (hb : b.Wf) (uniqA uniqB add : Bool) :
    (doAddOrSub uniqA uniqB a b add).Wf ∧
      (doAddOrSub uniqA uniqB a b add).value =
        if add then a.value + b.value else a.value - b.value := by
  obtain ⟨swap, hswap⟩ : ∃ swap, swap =
    (decide (a.nwords < b.nwords) || (decide (a.nwords = b.nwords) && uniqB)) := ⟨_, rfl⟩
  simp only [doAddOrSub, ← hswap]
  cases swap with
  | false =>
      have hle : b.nwords ≤ a.nwords := by
        have hnot := (Bool.or_eq_false_iff.mp hswap.symm).1
        rw [decide_eq_false_iff_not] at hnot
        omega
      obtain ⟨r, hr, hwf, hvalue⟩ := addOrSub_ordered uniqA ha hb hle false add
      simp only [Bool.false_eq_true, if_false] at hr hvalue ⊢
      rw [hr]
      exact ⟨hwf, hvalue⟩
  | true =>
      have hle : a.nwords ≤ b.nwords := by
        have hor := hswap.symm
        simp only [Bool.or_eq_true, Bool.and_eq_true, decide_eq_true_eq] at hor
        omega
      obtain ⟨r, hr, hwf, hvalue⟩ := addOrSub_ordered uniqB hb ha hle true add
      simp only [if_true] at hr hvalue ⊢
      rw [hr]
      refine ⟨hwf, ?_⟩
      rw [hvalue, add_comm]

theorem numberAdd_spec (ha : a.Wf) (hb : b.Wf) (uniqA uniqB : Bool) :
    (numberAdd uniqA uniqB a b).Wf ∧ (numberAdd uniqA uniqB a b).value = a.value + b.value :=
  doAddOrSub_spec ha hb uniqA uniqB true

theorem numberSub_spec (ha : a.Wf) (hb : b.Wf) (uniqA uniqB : Bool) :
    (numberSub uniqA uniqB a b).Wf ∧ (numberSub uniqA uniqB a b).value = a.value - b.value :=
  doAddOrSub_spec ha hb uniqA uniqB false

/-- The sum of the magnitude and a word. -/
theorem numberAbsAddUword_spec (uniq : Bool) (ha : a.Wf) {w : Nat} (hw : w < deciBase) :
    (numberAbsAddUword uniq a w).Wf ∧ (numberAbsAddUword uniq a w).sign = a.sign ∧
      (numberAbsAddUword uniq a w).absValue = a.absValue + w := by
  have hs := Number.deciBase_pow_pos a.scale
  unfold numberAbsAddUword
  split
  · rename_i hw0
    rw [hw0, Nat.cast_zero, add_zero]
    exact ⟨ha, rfl, rfl⟩
  · rename_i hw0
    simp only [mkuniq_eq]
    split
    · rename_i hempty
      refine ⟨Number.wf_iff.mpr ⟨?_, ?_, Or.inr ?_⟩, rfl, ?_⟩
      · simp only [unsafePushWord, Number.nwords_mk, List.length_append, Number.length_words]
        omega
      · exact digits_append.mpr ⟨ha.words, digits_cons.mpr ⟨hw, digits_nil⟩⟩
      · rw [unsafePushWord_mag]
        simp only [unsafePushWord, Number.nwords_mk, List.length_append, Number.length_words,
          List.length_singleton, Nat.add_sub_cancel]
        exact Nat.le_trans (Nat.le_mul_of_pos_right _ (Nat.pos_of_ne_zero hw0)) (Nat.le_add_left _ _)
      · simp only [Number.absValue, unsafePushWord_mag, ← hempty]
        change ((_ : ℕ) : ℚ) / (deciBase : ℚ) ^ a.scale = _
        push_cast
        field_simp
    · rename_i hempty
      have hle := ha.scale_le
      have hraised := raised_deciAdd (d := a.scale) (w := [w]) ha.words
        (digits_cons.mpr ⟨hw, digits_nil⟩) (by rw [List.length_singleton]; omega) rfl
      refine ⟨hraised.wf hle ?_, hraised.sign, ?_⟩
      · exact (Number.wf_iff.mp ha).2.2.imp_right fun h => Nat.le_trans h (Nat.le_add_right _ _)
      · rw [hraised.absValue, Nat.ofDigits_singleton, mul_div_assoc, mul_div_left_comm,
          div_self hs.ne', mul_one]

/-! ## Integers -/

theorem zuWords_eq {slots x : Nat} {w : List Nat} (h : zuWords slots x = some w) :
    w = Nat.digits deciBase x := by
  induction slots generalizing x w with
  | zero =>
      cases x with
      | zero => simpa [zuWords] using h.symm
      | succ y => cases h
  | succ slots ih =>
      cases x with
      | zero => simpa [zuWords] using h.symm
      | succ y =>
          rw [zuWords] at h
          split at h
          · rename_i hlt
            cases h
            exact (Nat.digits_of_lt _ _ (Nat.succ_ne_zero y) hlt).symm
          · obtain ⟨w', hw', rfl⟩ := Option.map_eq_some_iff.mp h
            rw [Nat.digits_def' one_lt_deciBase (Nat.succ_pos y), ih hw']

theorem numberNewFromZu_eq (x : Nat) : numberNewFromZu x = ⟨false, 0, Nat.digits deciBase x⟩ := by
  unfold numberNewFromZu
  cases h : zuWords 4 x with
  | none => rfl
  | some w => rw [Option.getD_some, zuWords_eq h]

theorem numberNewFromZu_spec (x : Nat) :
    (numberNewFromZu x).Wf ∧ (numberNewFromZu x).value = x := by
  rw [numberNewFromZu_eq]
  refine ⟨⟨Nat.zero_le _, fun w hw => Nat.digits_lt_base one_lt_deciBase hw, ?_⟩, ?_⟩
  · rw [List.drop_zero, TopNonzero]
    by_cases hx : x = 0
    · simp [hx]
    · have hne : Nat.digits deciBase x ≠ [] := Nat.digits_ne_nil_iff_ne_zero.mpr hx
      rw [List.getLast?_eq_some_getLast hne]
      simpa using Nat.getLast_digit_ne_zero deciBase hx
  · simp [Number.value, Number.signFactor, Number.absValue, Number.mag, Nat.ofDigits_digits]

/-- The overflow checks of `number_to_zu` notice every integer part that is too large. -/
theorem zuLoop_eq (w : List Nat) {r : Nat} (hr : r < 2 ^ 64) :
    zuLoop w r =
      if r * deciBase ^ w.length + ofDigits deciBase w.reverse < 2 ^ 64 then
        some (r * deciBase ^ w.length + ofDigits deciBase w.reverse)
      else none := by
  induction w generalizing r with
  | nil => simpa [zuLoop] using hr
  | cons x w ih =>
      have hsum : r * deciBase ^ (x :: w).length + ofDigits deciBase (x :: w).reverse =
          (r * deciBase + x) * deciBase ^ w.length + ofDigits deciBase w.reverse := by
        rw [List.reverse_cons, Nat.ofDigits_append, Nat.ofDigits_singleton, List.length_reverse,
          List.length_cons, Nat.pow_succ]
        ring
      have hle : r * deciBase + x ≤
          (r * deciBase + x) * deciBase ^ w.length + ofDigits deciBase w.reverse :=
        Nat.le_trans (Nat.le_mul_of_pos_right _ (Nat.pow_pos deciBase_pos)) (Nat.le_add_right _ _)
      rw [zuLoop, hsum]
      split
      · split
        · rename_i hlt
          exact ih hlt
        · rw [if_neg (by omega)]
      · rw [if_neg (by omega)]

theorem numberIsZero_iff (a : Number) (h : a.Wf) : numberIsZero a = true ↔ a.mag = 0 := by
  have hle := h.scale_le
  rw [numberIsZero, Bool.and_eq_true, decide_eq_true_eq, deciIsZero_iff,
    ← ofDigits_eq_zero deciBase_pos (w := a.words.take a.scale)]
  have hsplit := ofDigits_split a.scale a.words hle
  have htop := ofDigits_eq_zero_iff_nil one_lt_deciBase (h.words.drop a.scale) h.top
  have hpow : 0 < deciBase ^ a.scale := Nat.pow_pos deciBase_pos
  rw [List.drop_eq_nil_iff, Number.length_words] at htop
  rw [Number.mag, hsplit, Nat.add_eq_zero_iff, Nat.mul_eq_zero, or_iff_right hpow.ne', htop]
  constructor
  · intro h
    exact ⟨h.2, h.1.ge⟩
  · intro h
    exact ⟨Nat.le_antisymm hle h.2, h.1⟩

/-- `number_to_zu` truncates; what does not fit into a `size_t` becomes its largest value. -/
theorem numberToZu_eq (a : Number) (h : a.Wf) :
    numberToZu a =
      if a.sign then if a.mag = 0 then 0 else sizeMax
      else if ⌊a.absValue⌋₊ < 2 ^ 64 then ⌊a.absValue⌋₊ else sizeMax := by
  rw [numberToZu, zuLoop_eq _ (by decide), List.reverse_reverse, Nat.zero_mul, Nat.zero_add,
    Number.ofDigits_drop_scale h.words, if_congr (numberIsZero_iff a h) rfl rfl]
  split
  · rfl
  · split <;> rfl

/-! ## Products -/

theorem numberMul_spec (ha : a.Wf) (hb : b.Wf) (same : Bool) (hsame : same = true → a = b) :
    (numberMul same a b).Wf ∧ (numberMul same a b).value = a.value * b.value := by
  have hproduct := fancyMul_spec ha.words hb.words same fun h => by rw [hsame h]
  have hle := ha.scale_le
  have hle' := hb.scale_le
  obtain ⟨hwf, hsign, habs⟩ := unsafeNormalizeFull_spec
    (a := ⟨a.sign ^^ b.sign, a.scale + b.scale, fancyMul same a.words b.words⟩)
    (by
      rw [Number.nwords_mk, hproduct.length, Number.length_words, Number.length_words]
      change a.scale + b.scale ≤ _
      omega)
    hproduct.words
  refine ⟨hwf, ?_⟩
  have habs' : (⟨a.sign ^^ b.sign, a.scale + b.scale, fancyMul same a.words b.words⟩ :
      Number).absValue = a.absValue * b.absValue := by
    simp only [Number.absValue, Number.mag, hproduct.value, pow_add]
    push_cast
    rw [mul_div_mul_comm]
  rw [Number.value, numberMul, habs, habs', Number.signFactor, hsign, signFactor_xor]
  simp only [Number.value, Number.signFactor]
  ring

theorem numberMulUword_sign (uniq : Bool) (a : Number) {w : Nat} (hw : w ≠ 0) :
    (numberMulUword uniq a w).sign = a.sign := by
  simp only [numberMulUword, if_neg hw, mkuniq_eq]
  split <;> rfl

theorem numberMulUword_spec (uniq : Bool) (ha : a.Wf) {w : Nat} (hw : w < deciBase) :
    (numberMulUword uniq a w).Wf ∧ (numberMulUword uniq a w).value = a.value * w := by
  unfold numberMulUword
  split
  · rename_i hw0
    obtain ⟨hwf, hvalue⟩ := numberNewFromZu_spec 0
    refine ⟨hwf, ?_⟩
    rw [hvalue, hw0]
    simp
  · rename_i hw0
    obtain ⟨hlen, hwords, hhi, hvalue⟩ := deciMulUword_spec a.words w ha.words hw
    obtain ⟨hle, -, htop⟩ := Number.wf_iff.mp ha
    have htop' : a.nwords = a.scale ∨ deciBase ^ (a.nwords - 1) ≤ a.mag * w :=
      htop.imp_right fun h => Nat.le_trans h (Nat.le_mul_of_pos_right _ (Nat.pos_of_ne_zero hw0))
    have hfinish : ∀ r : Number, r.sign = a.sign → r.scale = a.scale → r.mag = a.mag * w →
        Words r.words → (r.nwords = a.nwords ∨ r.nwords = a.nwords + 1 ∧ deciBase ^ a.nwords ≤ r.mag) →
        r.Wf ∧ r.value = a.value * w := by
      intro r hsign hscale hmag hrwords hn
      refine ⟨wf_of_grown (hscale ▸ hle) hrwords hn (by rwa [hscale, hmag]), ?_⟩
      rw [Number.value, Number.value, Number.signFactor, hsign, Number.absValue, hmag, hscale]
      simp only [Number.signFactor, Number.absValue]
      push_cast
      ring
    simp only [mkuniq_eq]
    split
    · rename_i hhi0
      refine hfinish _ rfl rfl ?_ ?_ (Or.inr ⟨?_, ?_⟩)
      · rw [unsafePushWord_mag]
        simp only [Number.nwords_mk, hlen]
        exact hvalue
      · exact digits_append.mpr ⟨hwords, digits_cons.mpr ⟨hhi, digits_nil⟩⟩
      · simp only [unsafePushWord, Number.nwords_mk, List.length_append, hlen, List.length_singleton]
        rfl
      · rw [unsafePushWord_mag]
        simp only [Number.nwords_mk, hlen]
        exact Nat.le_trans (Nat.le_mul_of_pos_right _ (Nat.pos_of_ne_zero hhi0)) (Nat.le_add_left _ _)
    · rename_i hhi0
      rw [not_not.mp hhi0, Nat.mul_zero, Nat.add_zero] at hvalue
      exact hfinish _ rfl rfl hvalue hwords (Or.inl hlen)

/-! ## Powers -/

theorem powLoop_spec (hb : b.Wf) (e h : Nat) {s : Number} (hs : s.Wf)
    (hvalue : s.value = b.value ^ (e / 2 ^ h)) :
    (powLoop b e h s).Wf ∧ (powLoop b e h s).value = b.value ^ e := by
  induction h generalizing s with
  | zero => exact ⟨hs, by simpa [powLoop] using hvalue⟩
  | succ h ih =>
      obtain ⟨hsq, hsqValue⟩ := numberMul_spec hs hs true fun _ => rfl
      rw [hvalue, ← pow_add] at hsqValue
      have hhalf : e / 2 ^ h = 2 * (e / 2 ^ (h + 1)) + e / 2 ^ h % 2 := by
        rw [Nat.pow_succ, ← Nat.div_div_eq_div_mul]
        exact (Nat.div_add_mod (e / 2 ^ h) 2).symm
      simp only [powLoop]
      have hbit := Nat.testBit_eq_decide_div_mod_eq (x := e) (i := h)
      split
      · rename_i hset
        rw [hset, eq_comm, decide_eq_true_eq] at hbit
        obtain ⟨hmul, hmulValue⟩ := numberMul_spec hsq hb false fun hf => by cases hf
        refine ih hmul ?_
        rw [hmulValue, hsqValue, ← pow_succ]
        congr 1
        omega
      · rename_i hunset
        rw [Bool.not_eq_true] at hunset
        rw [hunset, eq_comm, decide_eq_false_iff_not] at hbit
        refine ih hsq ?_
        rw [hsqValue]
        congr 1
        omega

theorem numberPowZu_spec (uniq : Bool) (hb : b.Wf) (e : Nat) :
    (numberPowZu uniq b e).Wf ∧ (numberPowZu uniq b e).value = b.value ^ e := by
  unfold numberPowZu
  split
  · rename_i he
    obtain ⟨hwf, hvalue⟩ := numberNewFromZu_spec 1
    refine ⟨hwf, ?_⟩
    rw [hvalue, he]
    simp
  · rename_i he
    rw [mkuniq_eq]
    obtain ⟨hwf, hsign, habs⟩ := unsafeNormalizeFull_spec hb.scale_le hb.words
    have hvalue : (unsafeNormalizeFull b).value = b.value := by
      rw [Number.value, Number.value, Number.signFactor, Number.signFactor, hsign, habs]
    have hlog : e / 2 ^ Nat.log2 e = 1 := by
      rw [Nat.log2_eq_log_two]
      have h1 := Nat.pow_log_le_self 2 he
      have h2 := Nat.lt_pow_succ_log_self (b := 2) (by decide) e
      rw [Nat.pow_succ, Nat.mul_comm] at h2
      exact Nat.div_eq_of_lt_le (by omega) (by omega)
    have hrun := powLoop_spec hwf e (Nat.log2 e) hwf (by rw [hlog, pow_one])
    rwa [hvalue] at hrun

end Calx
