import Calx.Number.Arith

/-!
# Division

`number_div` cuts the quotient twice, to whole words and then within the lowest
one, and both cuts together are one at the digit asked for.
-/

namespace Calx

open Nat (ofDigits)
open Positional Libdeci

/-! ## Precision -/

theorem ctzLoop_pow (k : Nat) : ∀ bits, k < bits → ctzLoop bits (10 ^ k) = k := by
  have hodd : ∀ k, 5 ^ k % 2 = 1 := fun k => Nat.odd_iff.mp (Odd.pow (by decide))
  have key : ∀ k m bits, m % 2 = 1 → k < bits → ctzLoop bits (2 ^ k * m) = k := by
    intro k
    induction k with
    | zero =>
        intro m bits hm hlt
        obtain ⟨bits, rfl⟩ := Nat.exists_eq_succ_of_ne_zero (Nat.ne_of_gt hlt)
        rw [ctzLoop, pow_zero, Nat.one_mul, if_neg (by omega)]
    | succ k ih =>
        intro m bits hm hlt
        obtain ⟨bits, rfl⟩ := Nat.exists_eq_succ_of_ne_zero (Nat.ne_of_gt (Nat.zero_lt_of_lt hlt))
        have hsplit : 2 ^ (k + 1) * m = 2 * (2 ^ k * m) := by rw [Nat.pow_succ']; ring
        rw [ctzLoop, hsplit, if_pos (Nat.mul_mod_right 2 _), Nat.mul_div_cancel_left _ (by decide),
          ih m bits hm (by omega)]
  intro bits hlt
  rw [show (10 : Nat) = 2 * 5 by rfl, Nat.mul_pow]
  exact key k (5 ^ k) bits (hodd k) hlt

section

variable [DeciBase]

/-- The lowest word is cut unless the precision is a number of whole words. -/
theorem ntpFromPrec_cases (p : Nat) :
    (p % deciBaseLog = 0 ∧ ntpFromPrec p = ⟨p / deciBaseLog, 1⟩) ∨
      (p % deciBaseLog ≠ 0 ∧
        ntpFromPrec p = ⟨p / deciBaseLog + 1, 10 ^ (deciBaseLog - p % deciBaseLog)⟩) := by
  simp only [ntpFromPrec]
  split
  · exact Or.inl ⟨‹_›, rfl⟩
  · exact Or.inr ⟨‹_›, rfl⟩

theorem ntpFromPrec_eq (p : Nat) :
    deciBase ^ (ntpFromPrec p).scale = (ntpFromPrec p).submod * 10 ^ p := by
  have hdm := Nat.div_add_mod p deciBaseLog
  have hlt := Nat.mod_lt p deciBaseLog_pos
  rcases ntpFromPrec_cases p with ⟨hr, heq⟩ | ⟨hr, heq⟩
  · rw [hr, Nat.add_zero] at hdm
    rw [heq, deciBase, Nat.one_mul, ← Nat.pow_mul, hdm]
  · rw [heq, deciBase, ← Nat.pow_mul, ← pow_add, Nat.mul_succ]
    congr 1
    omega

theorem submod_dvd (p : Nat) : (ntpFromPrec p).submod ∣ deciBase := by
  rcases ntpFromPrec_cases p with ⟨-, heq⟩ | ⟨-, heq⟩
  · rw [heq]
    exact Nat.one_dvd _
  · rw [heq]
    exact Nat.pow_dvd_pow 10 (Nat.sub_le _ _)

theorem submod_pos (p : Nat) : 0 < (ntpFromPrec p).submod :=
  Nat.pos_of_dvd_of_pos (submod_dvd p) deciBase_pos

theorem submod_of_scale_zero {p : Nat} (h : (ntpFromPrec p).scale = 0) :
    (ntpFromPrec p).submod = 1 := by
  rcases ntpFromPrec_cases p with ⟨-, heq⟩ | ⟨-, heq⟩
  · rw [heq]
  · rw [heq] at h
    cases h

/-- The precision can be read off the parameters. -/
theorem ntpToPrec_ntpFromPrec {p : Nat} (hp : p < 2 ^ 64) : ntpToPrec (ntpFromPrec p) = p := by
  have hlog : deciBaseLog ≤ 19 := by
    rcases DeciBase.baseLog_eq with h | h <;> simp [deciBaseLog, h]
  have hdm := Nat.div_add_mod p deciBaseLog
  have hlt := Nat.mod_lt p deciBaseLog_pos
  unfold ntpToPrec wordCtz
  rcases ntpFromPrec_cases p with ⟨hr, heq⟩ | ⟨hr, heq⟩
  · have hone : ctzLoop 64 1 = 0 := by decide
    rw [heq]
    change (p / deciBaseLog * deciBaseLog + (2 ^ 64 - ctzLoop 64 1)) % 2 ^ 64 = p
    rw [hone, Nat.mul_comm]
    omega
  · have hscale : (p / deciBaseLog + 1) * deciBaseLog = p + (deciBaseLog - p % deciBaseLog) := by
      rw [Nat.add_mul, Nat.one_mul, Nat.mul_comm]
      omega
    rw [heq, ctzLoop_pow (deciBaseLog - p % deciBaseLog) 64 (by omega), hscale]
    omega

end

theorem divPrepare_eq (uniq : Bool) (a : Number) (mulBasePow minScale : Nat) :
    divPrepare uniq a mulBasePow minScale =
      ⟨a.sign, max minScale a.scale,
        List.replicate (max minScale a.scale + mulBasePow - a.scale) 0 ++ a.words⟩ := by
  have hmax : (if minScale > a.scale then minScale else a.scale) = max minScale a.scale := by
    split <;> omega
  simp only [divPrepare, hmax]
  rw [mkuniqScaleUp_eq (by omega)]

variable [Libdeci] {a b : Number} {uniq : Bool}

/-! ## After the division -/

/-- The quotient with its integer part cut to size, or filled up to the fraction. -/
def quotientWords (sa : Nat) (q : List Nat) : List Nat :=
  if q.length > sa then q.take sa ++ trimTop (q.drop sa)
  else q ++ List.replicate (sa - q.length) 0

theorem quotientWords_spec (sa : Nat) {q : List Nat} (hq : Words q) :
    sa ≤ (quotientWords sa q).length ∧ Words (quotientWords sa q) ∧
      ofDigits deciBase (quotientWords sa q) = ofDigits deciBase q ∧
      TopNonzero ((quotientWords sa q).drop sa) := by
  unfold quotientWords
  split
  · rename_i hlen
    have htake : (q.take sa).length = sa := List.length_take_of_le (Nat.le_of_lt hlen)
    refine ⟨?_, digits_append.mpr ⟨hq.take _, (hq.drop _).trimTop⟩, ?_, ?_⟩
    · rw [List.length_append, htake]
      omega
    · rw [Nat.ofDigits_append, ofDigits_trimTop, ← Nat.ofDigits_append, List.take_append_drop]
    · rw [List.drop_left' htake]
      exact topNonzero_trimTop _
  · refine ⟨?_, digits_append.mpr ⟨hq, digits_replicate_zero deciBase_pos⟩, ?_, ?_⟩
    · rw [List.length_append, List.length_replicate]
      omega
    · rw [Nat.ofDigits_append_replicate_zero]
    · rw [List.drop_of_length_le (by rw [List.length_append, List.length_replicate]; omega)]
      exact topNonzero_nil

theorem cutLow_spec {m : Nat} {w : List Nat} (hw : Words w) (hm : m ∣ deciBase) (hne : w ≠ []) :
    (cutLow m w).length = w.length ∧ Words (cutLow m w) ∧
      ofDigits deciBase (cutLow m w) = ofDigits deciBase w / m * m ∧
      ∀ n, n ≠ 0 → (cutLow m w).drop n = w.drop n := by
  cases w with
  | nil => exact absurd rfl hne
  | cons x w =>
      obtain ⟨hx, hw⟩ := digits_cons.mp hw
      refine ⟨rfl, digits_cons.mpr ⟨Nat.lt_of_le_of_lt (Nat.sub_le _ _) hx, hw⟩, ?_, fun n hn => ?_⟩
      · obtain ⟨k, hk⟩ := hm
        have hmod : (x + deciBase * ofDigits deciBase w) % m = x % m := by
          rw [hk, Nat.mul_assoc, Nat.add_mul_mod_self_left]
        have hdm := Nat.div_add_mod' (x + deciBase * ofDigits deciBase w) m
        rw [hmod] at hdm
        have hle := Nat.mod_le x m
        rw [cutLow, Nat.ofDigits_cons, Nat.ofDigits_cons]
        omega
      · obtain ⟨n, rfl⟩ := Nat.exists_eq_succ_of_ne_zero hn
        rfl

/-- `unsafe_normalize_after_div` keeps the fraction words asked for, and cuts the lowest one. -/
theorem unsafeNormalizeAfterDiv_eq {n v : Nat} {ntp : NumberTruncateParams}
    (h : LeavesLow (a.words, n) a.nwords v) (hsa : a.scale ≤ a.nwords)
    (hscale : ntp.scale ≤ a.scale) :
    unsafeNormalizeAfterDiv a n ntp =
      ⟨a.sign, ntp.scale,
        if ntp.scale ≠ 0 then
          cutLow ntp.submod
            ((quotientWords a.scale (a.words.take n)).drop (a.scale - ntp.scale))
        else (quotientWords a.scale (a.words.take n)).drop (a.scale - ntp.scale)⟩ := by
  have hn : n ≤ a.nwords := h.low_le
  have hlen : (a.words.take n).length = n := List.length_take_of_le hn
  have hstrip : ∀ words : List Nat, ∀ k, (words.drop (a.scale - ntp.scale)).take k =
      (quotientWords a.scale (a.words.take n)).drop (a.scale - ntp.scale) →
      unsafeStrip { a with words := words } k ntp.scale =
        ⟨a.sign, ntp.scale,
          (quotientWords a.scale (a.words.take n)).drop (a.scale - ntp.scale)⟩ := by
    intro words k hk
    rw [unsafeStrip_eq (a := { a with words := words }) hscale]
    simp only [hk]
  have hwords : (unsafeStrip
      (if n > a.scale then a
        else { a with words := a.words.take n ++ List.replicate (a.scale - n) 0 ++
          a.words.drop a.scale })
      ((if n > a.scale then a.scale + (deciNormalize ((a.words.take n).drop a.scale)).length
        else a.scale) - a.scale + ntp.scale) ntp.scale) =
      ⟨a.sign, ntp.scale,
        (quotientWords a.scale (a.words.take n)).drop (a.scale - ntp.scale)⟩ := by
    by_cases hgt : n > a.scale
    · rw [if_pos hgt, if_pos hgt, deciNormalize_eq]
      refine hstrip a.words _ ?_
      have htop := length_trimTop_le ((a.words.take n).drop a.scale)
      rw [List.length_drop, hlen] at htop
      have htake : ((a.words.take n).take a.scale).length = a.scale :=
        List.length_take_of_le (by omega)
      obtain ⟨f, hf⟩ : ∃ f, f = ((a.words.take n).take a.scale).drop (a.scale - ntp.scale) := ⟨_, rfl⟩
      have hsplit : a.words.drop (a.scale - ntp.scale) = f ++ a.words.drop a.scale := by
        rw [hf, List.take_take, Nat.min_eq_left hgt.le, ← List.drop_append_of_le_length (by
          rw [List.length_take_of_le hsa]; omega), List.take_append_drop]
      have hfrac : f.length = ntp.scale := by
        rw [hf, List.length_drop, htake]
        omega
      rw [quotientWords, if_pos (by omega), List.drop_append_of_le_length (by omega), ← hf, hsplit,
        Nat.add_sub_cancel_left, Nat.add_comm, ← hfrac, List.take_length_add_append]
      congr 1
      conv_rhs => rw [trimTop_eq_take]
      rw [List.drop_take] at htop ⊢
      rw [List.take_take, Nat.min_eq_left htop]
    · rw [if_neg hgt, if_neg hgt, Nat.sub_self, Nat.zero_add]
      refine hstrip _ _ ?_
      have hfill : (a.words.take n ++ List.replicate (a.scale - n) 0).length = a.scale := by
        rw [List.length_append, hlen, List.length_replicate]
        omega
      rw [quotientWords, if_neg (by omega), hlen, List.drop_append_of_le_length (by omega),
        List.take_append_of_le_length (by rw [List.length_drop, hfill]; omega),
        List.take_of_length_le (by rw [List.length_drop, hfill]; omega)]
  unfold unsafeNormalizeAfterDiv
  simp only [ge_iff_le, hscale, if_true]
  rw [hwords]
  split <;> rfl

/-- What the division of a prepared operand leaves is its quotient, cut at `p` digits. -/
theorem afterDiv_spec {n v p : Nat} (h : LeavesLow (a.words, n) a.nwords v)
    (hsa : a.scale ≤ a.nwords) (hscale : (ntpFromPrec p).scale ≤ a.scale) :
    (unsafeNormalizeAfterDiv a n (ntpFromPrec p)).Wf ∧
      (unsafeNormalizeAfterDiv a n (ntpFromPrec p)).sign = a.sign ∧
      (unsafeNormalizeAfterDiv a n (ntpFromPrec p)).absValue =
        (v * 10 ^ p / deciBase ^ a.scale : Nat) / (10 : ℚ) ^ p := by
  have hq : Words (a.words.take n) := h.words.take n
  obtain ⟨hlen, hwords, hvalue, htop⟩ := quotientWords_spec a.scale hq
  obtain ⟨w, hw⟩ : ∃ w, w = (quotientWords a.scale (a.words.take n)).drop
      (a.scale - (ntpFromPrec p).scale) := ⟨_, rfl⟩
  have hwlen : (ntpFromPrec p).scale ≤ w.length := by
    rw [hw, List.length_drop]
    omega
  have hwwords : Words w := hw ▸ hwords.drop _
  have hwtop : TopNonzero (w.drop (ntpFromPrec p).scale) := by
    rw [hw, List.drop_drop, Nat.sub_add_cancel hscale]
    exact htop
  have hwvalue : ofDigits deciBase w = v / deciBase ^ (a.scale - (ntpFromPrec p).scale) := by
    rw [hw, hwords.drop_eq deciBase_pos, hvalue, h.low]
  rw [unsafeNormalizeAfterDiv_eq h hsa hscale, ← hw]
  -- The cut is one to a multiple of `submod`, also where nothing is cut.
  obtain ⟨r, hr, hrlen, hrwords, hrvalue, hrtop⟩ : ∃ r, r =
      (if (ntpFromPrec p).scale ≠ 0 then cutLow (ntpFromPrec p).submod w else w) ∧
      r.length = w.length ∧ Words r ∧ ofDigits deciBase r =
        ofDigits deciBase w / (ntpFromPrec p).submod * (ntpFromPrec p).submod ∧
      r.drop (ntpFromPrec p).scale = w.drop (ntpFromPrec p).scale := by
    by_cases hs : (ntpFromPrec p).scale = 0
    · rw [if_neg (not_not_intro hs), submod_of_scale_zero hs]
      exact ⟨w, rfl, rfl, hwwords, by rw [Nat.div_one, Nat.mul_one], rfl⟩
    · rw [if_pos hs]
      have hne : w ≠ [] := fun hnil => by
        rw [hnil, List.length_nil] at hwlen
        omega
      obtain ⟨hclen, hcwords, hcvalue, hctop⟩ := cutLow_spec hwwords (submod_dvd p) hne
      exact ⟨_, rfl, hclen, hcwords, hcvalue, hctop _ hs⟩
  rw [← hr]
  refine ⟨⟨?_, hrwords, ?_⟩, rfl, ?_⟩
  · rw [Number.nwords_mk, hrlen]
    exact hwlen
  · simp only [hrtop]
    exact hwtop
  · have hbase := ntpFromPrec_eq p
    have hsub := submod_pos p
    have hpow : deciBase ^ a.scale =
        deciBase ^ (a.scale - (ntpFromPrec p).scale) * (ntpFromPrec p).submod * 10 ^ p := by
      rw [Nat.mul_assoc, ← hbase, ← pow_add, Nat.sub_add_cancel hscale]
    have hquot : v * 10 ^ p / deciBase ^ a.scale =
        ofDigits deciBase w / (ntpFromPrec p).submod := by
      rw [hpow, Nat.mul_div_mul_right _ _ (Nat.pow_pos (by decide)), hwvalue, Nat.div_div_eq_div_mul]
    have hbase' : (deciBase : ℚ) ^ (ntpFromPrec p).scale = (ntpFromPrec p).submod * 10 ^ p := by
      exact_mod_cast hbase
    have hsub' : ((ntpFromPrec p).submod : ℚ) ≠ 0 := by exact_mod_cast hsub.ne'
    rw [hquot, Number.absValue, Number.mag]
    simp only [hrvalue, hbase']
    push_cast
    field_simp

/-- Division cuts the quotient at `p` digits. -/
theorem numberDiv_spec (uniq : Bool) (ha : a.Wf) (hb : b.Wf) (hb0 : b.mag ≠ 0) (p : Nat) :
    (numberDiv uniq a b (ntpFromPrec p)).Wf ∧
      (numberDiv uniq a b (ntpFromPrec p)).sign = (a.sign ^^ b.sign) ∧
      (numberDiv uniq a b (ntpFromPrec p)).absValue =
        ⌊a.absValue / b.absValue * 10 ^ p⌋₊ / (10 : ℚ) ^ p := by
  have hsa := ha.scale_le
  obtain ⟨sr, hsr⟩ : ∃ sr, sr = max (ntpFromPrec p).scale a.scale := ⟨_, rfl⟩
  obtain ⟨w, hw⟩ : ∃ w, w = List.replicate (sr + b.scale - a.scale) 0 ++ a.words := ⟨_, rfl⟩
  have hww : Words w := by
    rw [hw]
    exact digits_append.mpr ⟨digits_replicate_zero deciBase_pos, ha.words⟩
  have hwlen : w.length = sr + b.scale - a.scale + a.nwords := by
    rw [hw, List.length_append, List.length_replicate, Number.length_words]
  have hdiv : LeavesLow (fancyDiv w b.words) w.length
      (deciBase ^ (sr + b.scale - a.scale) * a.mag / b.mag) := by
    have hq := quotientOrRemainder_spec hww hb.words (Nat.pos_of_ne_zero hb0) true
    rwa [if_pos rfl, hw, ofDigits_replicate_append, ← hw] at hq
  obtain ⟨hwf, hsign, habs⟩ := afterDiv_spec (p := p)
    (a := ⟨a.sign ^^ b.sign, sr, (fancyDiv w b.words).1⟩) (by rwa [Number.nwords_mk, hdiv.length])
    (show sr ≤ (fancyDiv w b.words).1.length by rw [hdiv.length, hwlen]; omega)
    (show (ntpFromPrec p).scale ≤ sr by omega)
  have hrun : numberDiv uniq a b (ntpFromPrec p) = unsafeNormalizeAfterDiv
      ⟨a.sign ^^ b.sign, sr, (fancyDiv w b.words).1⟩ (fancyDiv w b.words).2 (ntpFromPrec p) := by
    simp only [numberDiv, divPrepare_eq, ← hsr, ← hw]
  rw [hrun]
  refine ⟨hwf, hsign, habs.trans ?_⟩
  congr 2
  simp only
  -- Both cuts are one of a fraction of natural numbers.
  have hsplit : (deciBase : ℚ) ^ (sr + b.scale - a.scale) * deciBase ^ a.scale =
      deciBase ^ sr * deciBase ^ b.scale := by
    rw [← pow_add, ← pow_add]
    congr 1
    omega
  have hratio : a.absValue / b.absValue * 10 ^ p =
      ((deciBase ^ (sr + b.scale - a.scale) * a.mag * 10 ^ p : Nat) : ℚ) /
        ((b.mag * deciBase ^ sr : Nat) : ℚ) := by
    have h1 := Number.deciBase_pow_pos a.scale
    have h2 := Number.deciBase_pow_pos b.scale
    have h3 := Number.deciBase_pow_pos sr
    have h4 : (b.mag : ℚ) ≠ 0 := by exact_mod_cast hb0
    unfold Number.absValue
    push_cast
    rw [div_div_div_eq, div_mul_eq_mul_div, div_eq_div_iff (by positivity) (by positivity)]
    calc _ = (a.mag : ℚ) * b.mag * 10 ^ p * (deciBase ^ sr * deciBase ^ b.scale) := by ring
      _ = _ := by rw [← hsplit]; ring
  obtain ⟨k, hk⟩ : ∃ k, deciBase ^ sr = k * 10 ^ p := by
    refine ⟨deciBase ^ (sr - (ntpFromPrec p).scale) * (ntpFromPrec p).submod, ?_⟩
    rw [Nat.mul_assoc, ← ntpFromPrec_eq, ← pow_add]
    congr 1
    omega
  have hten : 0 < 10 ^ p := Nat.pow_pos (by decide)
  rw [hratio, Nat.floor_div_eq_div, hk, Nat.mul_div_mul_right _ _ hten, ← Nat.mul_assoc,
    Nat.mul_div_mul_right _ _ hten, Nat.div_div_eq_div_mul]

/-! ## Integer division -/

theorem unsafeNormalizeAfterIdiv_spec {n v : Nat} (h : LeavesLow (a.words, n) a.nwords v)
    (hscale : a.scale = 0) :
    (unsafeNormalizeAfterIdiv a n).Wf ∧ (unsafeNormalizeAfterIdiv a n).sign = a.sign ∧
      (unsafeNormalizeAfterIdiv a n).scale = 0 ∧ (unsafeNormalizeAfterIdiv a n).absValue = v := by
  have hle := length_trimTop_le (a.words.take n)
  rw [List.length_take_of_le h.low_le] at hle
  have hrun : unsafeNormalizeAfterIdiv a n = ⟨a.sign, 0, trimTop (a.words.take n)⟩ := by
    rw [unsafeNormalizeAfterIdiv, unsafeStrip_eq (Nat.zero_le _), hscale, deciNormalize_eq]
    congr 1
    conv_rhs => rw [trimTop_eq_take]
    rw [List.take_take, Nat.min_eq_left hle]
    rfl
  have hwords : Words (a.words.take n) := h.words.take n
  have hlow : ofDigits deciBase (a.words.take n) = v := h.low
  rw [hrun]
  refine ⟨⟨Nat.zero_le _, hwords.trimTop, topNonzero_trimTop _⟩, rfl, rfl, ?_⟩
  simp [Number.absValue, Number.mag, hlow]

/-- The integer part of a number without its fraction. -/
theorem mkuniqScaleDown_zero (ha : a.Wf) :
    mkuniqScaleDown uniq a 0 = ⟨a.sign, 0, a.words.drop a.scale⟩ := by
  rw [mkuniqScaleDown_eq (Nat.zero_le _) ha.scale_le, Nat.sub_zero]

theorem floor_absValue_pos (hb : b.Wf) (hb0 : numberIsIzero b = false) : 0 < ⌊b.absValue⌋₊ := by
  have hne : b.words.drop b.scale ≠ [] := fun hnil => by
    rw [List.drop_eq_nil_iff, Number.length_words] at hnil
    rw [numberIsIzero, decide_eq_false_iff_not] at hb0
    exact hb0 (Nat.le_antisymm hnil hb.scale_le)
  rw [← Number.ofDigits_drop_scale hb.words]
  refine Nat.pos_of_ne_zero fun hzero => hne ?_
  exact (ofDigits_eq_zero_iff_nil one_lt_deciBase (hb.words.drop _) hb.top).mp hzero

/-- `//` divides the integer parts. -/
theorem numberIdiv_spec (uniq : Bool) (ha : a.Wf) (hb : b.Wf) (hb0 : numberIsIzero b = false) :
    (numberIdiv uniq a b).Wf ∧ (numberIdiv uniq a b).sign = (a.sign ^^ b.sign) ∧
      (numberIdiv uniq a b).absValue = (⌊a.absValue⌋₊ / ⌊b.absValue⌋₊ : Nat) := by
  have hpos := floor_absValue_pos hb hb0
  rw [← Number.ofDigits_drop_scale hb.words] at hpos ⊢
  rw [← Number.ofDigits_drop_scale ha.words]
  have hdiv := quotientOrRemainder_spec (ha.words.drop a.scale) (hb.words.drop b.scale) hpos true
  rw [if_pos rfl] at hdiv
  obtain ⟨hwf, hsign, -, habs⟩ := unsafeNormalizeAfterIdiv_spec
    (a := ⟨a.sign ^^ b.sign, 0, (fancyDiv (a.words.drop a.scale) (b.words.drop b.scale)).1⟩)
    (by rwa [Number.nwords_mk, fancyDiv, hdiv.length]) rfl
  simp only [numberIdiv, mkuniqScaleDown_zero ha]
  exact ⟨hwf, hsign, habs⟩

/-- `%` takes the remainder of the integer parts. -/
theorem numberImod_spec (uniq : Bool) (ha : a.Wf) (hb : b.Wf) (hb0 : numberIsIzero b = false) :
    (numberImod uniq a b).Wf ∧ (numberImod uniq a b).sign = a.sign ∧
      (numberImod uniq a b).absValue = (⌊a.absValue⌋₊ % ⌊b.absValue⌋₊ : Nat) := by
  have hpos := floor_absValue_pos hb hb0
  rw [← Number.ofDigits_drop_scale hb.words] at hpos ⊢
  rw [← Number.ofDigits_drop_scale ha.words]
  have hmod := quotientOrRemainder_spec (ha.words.drop a.scale) (hb.words.drop b.scale) hpos false
  rw [if_neg Bool.false_ne_true] at hmod
  obtain ⟨hwf, hsign, -, habs⟩ := unsafeNormalizeAfterIdiv_spec
    (a := ⟨a.sign, 0, (fancyMod (a.words.drop a.scale) (b.words.drop b.scale)).1⟩)
    (by rwa [Number.nwords_mk, fancyMod, hmod.length]) rfl
  simp only [numberImod, mkuniqScaleDown_zero ha]
  exact ⟨hwf, hsign, habs⟩

end Calx
