import Calx.Xht.Chains
import Mathlib.Data.List.Perm.Basic
import Mathlib.Data.List.Perm.Subperm

/-!
# The invariant of the hash table

Every operation keeps the table well formed: a power of two of buckets, filled
to at most three quarters, distinct keys with their own hashes, and each item
on the chain of its bucket. What an operation does to the entries is stated
next to what it returns.

## Implementation notes

`Wf hash t` takes the hash that the callers present with each key. The items of
a well-formed table number at most `maxItems`; beyond that the buckets cannot
grow.
-/

namespace Calx

/-- The items that the largest bucket array has room for. -/
def maxItems : Nat := 3 * 2 ^ 29

namespace Xht

variable {V : Type}

/-- A well-formed table. -/
structure Wf (hash : Bytes → UInt32) (t : Xht V) : Prop where
  rank : ∃ r ≤ 31, t.nbuckets = 2 ^ r
  length_buckets : t.buckets.length = t.nbuckets
  load : t.items.length * 4 ≤ t.nbuckets * 3
  capacity : t.items.length ≤ t.itemsCapacity
  hashed : ∀ e ∈ t.entries, e.2.2 = hash e.1
  distinct : (t.entries.map Prod.fst).Nodup
  linked : ∃ chain, t.Linked (fun _ => True) chain

variable {hash : Bytes → UInt32} {t : Xht V} {live : Nat → Prop} {chain : Nat → List Nat}
  {b i n : Nat} {l p q : List Nat} {key : Bytes} {value : V} {item : XhtItem V} {fuel : Nat}

/-! ## Reading -/

theorem Wf.nbuckets_pos (h : t.Wf hash) : 0 < t.nbuckets := by
  obtain ⟨r, -, hr⟩ := h.rank
  rw [hr]
  exact Nat.two_pow_pos r

theorem Wf.length_le (h : t.Wf hash) : t.items.length ≤ maxItems := by
  obtain ⟨r, hr, hn⟩ := h.rank
  have hload := h.load
  have hpow : 2 ^ r ≤ 2 ^ 31 := Nat.pow_le_pow_right (by decide) hr
  rw [hn] at hload
  unfold maxItems
  omega

theorem bucketOf_lt (hpos : 0 < t.nbuckets) (x : UInt32) : t.bucketOf x < t.nbuckets := by
  have hle : t.bucketOf x ≤ t.nbuckets - 1 := Nat.and_le_right
  omega

theorem mem_entries {e : Bytes × V × UInt32} :
    e ∈ t.entries ↔ ∃ (i : Nat) (item : XhtItem V), t.items[i]? = some item ∧
      (item.key, item.value, item.hash) = e := by
  rw [entries, List.mem_map]
  constructor
  · rintro ⟨item, hmem, he⟩
    obtain ⟨i, hi⟩ := List.mem_iff_getElem?.mp hmem
    exact ⟨i, item, hi, he⟩
  · rintro ⟨i, item, hi, he⟩
    exact ⟨item, List.mem_of_getElem? hi, he⟩

theorem key_mem (hi : t.items[i]? = some item) : item.key ∈ t.entries.map Prod.fst :=
  List.mem_map.mpr ⟨_, mem_entries.mpr ⟨i, item, hi, rfl⟩, rfl⟩

theorem Wf.hash_eq (h : t.Wf hash) (hi : t.items[i]? = some item) : item.hash = hash item.key :=
  h.hashed _ (mem_entries.mpr ⟨i, item, hi, rfl⟩)

/-- Two items with one key are the same item. -/
theorem Wf.index_inj (h : t.Wf hash) {item' : XhtItem V} (hi : t.items[i]? = some item)
    (hn : t.items[n]? = some item') (hkey : item.key = item'.key) : i = n := by
  have hlen : i < (t.entries.map Prod.fst).length := by
    simpa using (List.getElem?_eq_some_iff.mp hi).1
  refine (List.getElem?_inj hlen h.distinct).mp ?_
  simp [entries, hi, hn, hkey]

theorem Linked.length_le (h : t.Linked live chain) (hb : b < t.buckets.length) :
    (chain b).length ≤ t.items.length := by
  have hnd := (h.chained b _ (List.getElem?_eq_getElem hb)).nodup
  have hsub : chain b ⊆ List.range t.items.length := fun i hi => List.mem_range.mpr (h.lt hb hi)
  simpa using (List.Nodup.subperm hnd hsub).length_le

/-- The chain of the bucket that a hash selects. -/
theorem Wf.chain_at (h : t.Wf hash) (x : UInt32) :
    ∃ chain s, t.Linked (fun _ => True) chain ∧ t.bucketOf x < t.buckets.length ∧
      t.buckets[t.bucketOf x]? = some s ∧ (chain (t.bucketOf x)).length ≤ t.items.length := by
  obtain ⟨chain, hl⟩ := h.linked
  have hb : t.bucketOf x < t.buckets.length := by
    rw [h.length_buckets]
    exact bucketOf_lt h.nbuckets_pos x
  exact ⟨chain, _, hl, hb, List.getElem?_eq_getElem hb, hl.length_le hb⟩

/-- The chain of a key's bucket: either the key is in no item, or the chain splits at its item. -/
theorem Linked.split (h : t.Wf hash) (hl : t.Linked (fun _ => True) chain) (key : Bytes) :
    (t.Without key (chain (t.bucketOf (hash key))) ∧ key ∉ t.entries.map Prod.fst) ∨
      ∃ p i q item, chain (t.bucketOf (hash key)) = p ++ i :: q ∧ t.items[i]? = some item ∧
        item.key = key ∧ t.Without key p := by
  have hb : t.bucketOf (hash key) < t.buckets.length := by
    rw [h.length_buckets]
    exact bucketOf_lt h.nbuckets_pos _
  by_cases hkey : key ∈ t.entries.map Prod.fst
  · right
    obtain ⟨e, he, rfl⟩ := List.mem_map.mp hkey
    obtain ⟨i, item, hi, rfl⟩ := mem_entries.mp he
    have hmem : i ∈ chain (t.bucketOf (hash item.key)) := by
      rw [hl.mem_iff _ hb, home_eq hi, h.hash_eq hi]
      exact ⟨trivial, rfl⟩
    obtain ⟨p, q, hpq⟩ := List.append_of_mem hmem
    refine ⟨p, i, q, item, hpq, hi, rfl, fun j hj item' hj' heq => ?_⟩
    obtain rfl := h.index_inj hj' hi heq
    have hnd := (hl.chained _ _ (List.getElem?_eq_getElem hb)).nodup
    rw [hpq, List.nodup_append] at hnd
    exact hnd.2.2 j hj j List.mem_cons_self rfl
  · left
    refine ⟨fun i _ item hi heq => hkey ?_, hkey⟩
    exact List.mem_map.mpr ⟨_, mem_entries.mpr ⟨i, item, hi, rfl⟩, heq⟩

/-- The search for a key that no item has. -/
theorem Wf.find_none (h : t.Wf hash) (hkey : key ∉ t.entries.map Prod.fst)
    (hfuel : t.items.length < fuel) :
    ∃ s, t.buckets[t.bucketOf (hash key)]? = some s ∧ xhtFind t key fuel s = .ok none := by
  obtain ⟨chain, s, hl, hb, hs, hlen⟩ := h.chain_at (hash key)
  refine ⟨s, hs, ?_⟩
  obtain ⟨hw, -⟩ | ⟨p, i, q, item, -, hi, rfl, -⟩ := hl.split h key
  · exact xhtFind_none (hl.chained _ _ hs) (fun i => hl.lt hb) hw (by omega)
  · exact absurd (key_mem hi) hkey

/-- The search for an item's key. -/
theorem Wf.find_some (h : t.Wf hash) (hi : t.items[i]? = some item)
    (hfuel : t.items.length < fuel) :
    ∃ s, t.buckets[t.bucketOf (hash item.key)]? = some s ∧
      xhtFind t item.key fuel s = .ok (some (i, item)) := by
  obtain ⟨chain, s, hl, hb, hs, hlen⟩ := h.chain_at (hash item.key)
  refine ⟨s, hs, ?_⟩
  obtain ⟨-, hkey⟩ | ⟨p, n, q, item', hc, hn, hkey, hw⟩ := hl.split h item.key
  · exact absurd (key_mem hi) hkey
  · obtain rfl := h.index_inj hn hi hkey
    obtain rfl := Option.some.inj (hn.symm.trans hi)
    rw [hc, List.length_append, List.length_cons] at hlen
    refine xhtFind_some (hc ▸ hl.chained _ _ hs) (fun j hj => ?_) hw hi rfl (by omega)
    exact hl.lt hb (hc ▸ List.mem_append_left _ hj)

/-! ## Growing the buckets -/

/-- Two tables that differ in their links only. -/
structure Same (t t' : Xht V) : Prop where
  entries : t'.entries = t.entries
  length_buckets : t'.buckets.length = t.buckets.length
  nbuckets : t'.nbuckets = t.nbuckets
  itemsCapacity : t'.itemsCapacity = t.itemsCapacity

theorem Same.length_items {t' : Xht V} (h : Same t t') : t'.items.length = t.items.length := by
  rw [← length_entries, h.entries, length_entries]

theorem Same.trans {t' t'' : Xht V} (h : Same t t') (h' : Same t' t'') : Same t t'' :=
  ⟨h'.entries.trans h.entries, h'.length_buckets.trans h.length_buckets,
    h'.nbuckets.trans h.nbuckets, h'.itemsCapacity.trans h.itemsCapacity⟩

theorem same_write (v : Nat) (slot : Slot) : Same t (t.write v slot) :=
  ⟨entries_write, length_buckets_write, nbuckets_write, itemsCapacity_write⟩

/-- An unlinked item becomes the head of its bucket. -/
theorem Linked.push {live' : Nat → Prop} (h : t.Linked live chain) (hb : b < t.buckets.length)
    (hhome : t.home n = some b) (hnext : t.links n = ofIdx t.buckets[b]) (hsmall : n ≠ noIndex)
    (hlive : ∀ i, live' i ↔ live i ∨ i = n) :
    (t.write n (.bucket b)).Linked live' (Function.update chain b (n :: chain b)) := by
  refine h.write hb (List.nil_append (chain b)).symm _ ?_ (fun i => ?_) fun i hi => ?_
  · refine ⟨ofIdx_eq_some.mpr ⟨rfl, hsmall⟩, ?_⟩
    rw [slotAfter_nil, links_write_bucket, hnext]
    exact h.chained b _ (List.getElem?_eq_getElem hb)
  · rw [List.nil_append, List.mem_cons, h.mem_iff b hb, hlive]
    constructor
    · rintro (rfl | ⟨hi, hi'⟩)
      · exact ⟨Or.inr rfl, hhome⟩
      · exact ⟨Or.inl hi, hi'⟩
    · rintro ⟨hi | rfl, hi'⟩
      · exact Or.inr ⟨hi, hi'⟩
      · exact Or.inl rfl
  · rw [hlive, or_iff_left]
    rintro rfl
    exact hi hhome

/-- A turn of the loop of `grow_buckets` puts the next item at the head of its bucket. -/
theorem relink_spec (h : t.Linked (· < n) chain) (hn : n < t.items.length) (hsmall : n ≠ noIndex)
    (hb : t.buckets.length = t.nbuckets) (hpos : 0 < t.nbuckets) :
    ∃ t', relink t n = .ok t' ∧ (∃ chain', t'.Linked (· < n + 1) chain') ∧ Same t t' := by
  have hitem := List.getElem?_eq_getElem hn
  have hhome := home_eq hitem
  have hrun : ∀ s, t.buckets[t.bucketOf t.items[n].hash]? = some s →
      relink t n = .ok ((t.write s (.next n)).write n (.bucket (t.bucketOf t.items[n].hash))) := by
    intro s hs
    rw [relink, xhtLoad_eq_ok.mpr hitem]
    simp only [bind, Except.bind]
    rw [xhtLoad_eq_ok.mpr hs]
    rfl
  have hlt : t.bucketOf t.items[n].hash < t.buckets.length := by
    rw [hb]
    exact bucketOf_lt hpos _
  generalize t.bucketOf t.items[n].hash = b at hhome hrun hlt
  have hlink : ∃ chain', ((t.write t.buckets[b] (.next n)).write n (.bucket b)).Linked
      (· < n + 1) chain' := by
    refine ⟨_, (h.write_dead hn (Nat.lt_irrefl n)).push (by simpa using hlt) ?_ ?_ hsmall fun i => ?_⟩
    · rwa [home_write]
    · rw [links_write_next hn, Function.update_self]
      rfl
    · exact Nat.lt_succ_iff_lt_or_eq
  exact ⟨_, hrun _ (List.getElem?_eq_getElem hlt), hlink, (same_write _ _).trans (same_write _ _)⟩

/-- Rebuilding the chains links every item again. -/
theorem relinkAll_spec (hempty : t.Linked (· < 0) chain) (hsmall : t.items.length ≤ noIndex)
    (hb : t.buckets.length = t.nbuckets) (hpos : 0 < t.nbuckets) (hn : n ≤ t.items.length) :
    ∃ t', (List.range n).foldlM relink t = .ok t' ∧ (∃ chain', t'.Linked (· < n) chain') ∧
      Same t t' := by
  induction n with
  | zero => exact ⟨t, rfl, ⟨chain, hempty⟩, ⟨rfl, rfl, rfl, rfl⟩⟩
  | succ n ih =>
      obtain ⟨t₁, hrun, ⟨chain₁, hl⟩, hsame⟩ := ih (by omega)
      obtain ⟨t₂, hstep, hl', hsame'⟩ := relink_spec hl (by rw [hsame.length_items]; omega) (by omega)
        (by rw [hsame.length_buckets, hsame.nbuckets, hb]) (by rwa [hsame.nbuckets])
      refine ⟨t₂, ?_, hl', hsame.trans hsame'⟩
      rw [List.range_succ, List.foldlM_append, hrun]
      simp [bind, Except.bind, pure, Except.pure, hstep]

theorem growBuckets_spec (hgrow : t.nbuckets * 2 < 2 ^ 32) (hpos : 0 < t.nbuckets)
    (hsmall : t.items.length ≤ noIndex) :
    ∃ t', growBuckets t = .ok t' ∧ (∃ chain, t'.Linked (fun _ => True) chain) ∧
      t'.entries = t.entries ∧ t'.nbuckets = t.nbuckets * 2 ∧ t'.buckets.length = t'.nbuckets ∧
      t'.itemsCapacity = t.itemsCapacity := by
  have hempty : Linked
      { t with nbuckets := t.nbuckets * 2, buckets := List.replicate (t.nbuckets * 2) noIndex }
      (· < 0) fun _ => [] := by
    refine ⟨fun b s hs => ?_, fun b _ i => by simp⟩
    rw [List.getElem?_replicate] at hs
    split at hs
    · exact ofIdx_eq_none.mpr (Option.some.inj hs).symm
    · cases hs
  obtain ⟨t', hrun, ⟨chain, hl⟩, hsame⟩ := relinkAll_spec hempty hsmall (by simp)
    (Nat.mul_pos hpos Nat.two_pos) le_rfl
  refine ⟨t', ?_, ⟨chain, linked_true_iff.mpr ?_⟩, hsame.entries, hsame.nbuckets, ?_,
    hsame.itemsCapacity⟩
  · rw [growBuckets, if_neg (by omega)]
    exact hrun
  · rw [hsame.length_items]
    exact hl
  · rw [hsame.length_buckets, hsame.nbuckets]
    simp

/-! ## A new item -/

theorem linked_added {x : UInt32} (h : t.Linked (fun _ => True) chain)
    (hb : t.bucketOf x < t.buckets.length) (hsmall : t.items.length ≠ noIndex) :
    ∃ chain', (addItem t key x value t.buckets[t.bucketOf x]).Linked (fun _ => True) chain' := by
  obtain ⟨item, hitem⟩ : ∃ item, item = XhtItem.mk key value t.buckets[t.bucketOf x] x := ⟨_, rfl⟩
  have hhash : item.hash = x := by rw [hitem]
  have hitemNext : item.next = t.buckets[t.bucketOf x] := by rw [hitem]
  have hnew : (t.items ++ [item])[t.items.length]? = some item := by simp
  have hold : ∀ i < t.items.length, (t.items ++ [item])[i]? = t.items[i]? := fun i hi =>
    List.getElem?_append_left hi
  have h₁ : Linked { t with items := t.items ++ [item] } (· < t.items.length) chain := by
    refine (linked_true_iff.mp h).congr rfl (fun i hi => ?_) fun i b => ?_
    · simp only [links, hold i hi]
    · refine and_congr_right fun hi => ?_
      simp only [home, hold i hi]
      rfl
  have hhome : home { t with items := t.items ++ [item] } t.items.length =
      some (t.bucketOf x) := by
    simp only [home, hnew, Option.map_some, hhash]
    rfl
  have hnext : links { t with items := t.items ++ [item] } t.items.length =
      ofIdx t.buckets[t.bucketOf x] := by
    simp only [links, hnew, Option.bind_some, hitemNext]
  have hl := h₁.push hb hhome hnext hsmall fun i => Nat.lt_succ_iff_lt_or_eq
  refine ⟨Function.update chain (t.bucketOf x) (t.items.length :: chain (t.bucketOf x)),
    linked_true_iff.mpr ?_⟩
  rw [addItem, ← hitem, List.length_append, List.length_singleton]
  exact hl

theorem reserveItem_spec (h : t.Wf hash) :
    ∃ c, reserveItem t = .ok { t with itemsCapacity := c } ∧ t.items.length < c := by
  have hle := h.length_le
  have hcap := h.capacity
  unfold maxItems at hle
  rw [reserveItem]
  split
  · rw [growItems, if_neg (by omega)]
    refine ⟨_, rfl, ?_⟩
    split_ifs <;> omega
  · exact ⟨t.itemsCapacity, rfl, by omega⟩

theorem entries_added {x : UInt32} {s : Nat} :
    (addItem t key x value s).entries = t.entries ++ [(key, value, x)] := by
  simp [addItem, entries]

/-- `xht_insert_new_unchecked` up to the growth of the buckets. -/
theorem insert_eq (h : t.Wf hash) (key : Bytes) (value : V) :
    ∃ t₁ : Xht V, xhtInsertNewUnchecked t key (hash key) value =
        (reserveBuckets t₁).map (fun t' => (t.items.length, t')) ∧
      (∃ chain, t₁.Linked (fun _ => True) chain) ∧
      t₁.entries = t.entries ++ [(key, value, hash key)] ∧ t₁.nbuckets = t.nbuckets ∧
      t₁.buckets.length = t.buckets.length ∧ t₁.items.length ≤ t₁.itemsCapacity := by
  obtain ⟨c, hc, hlt⟩ := reserveItem_spec h
  obtain ⟨chain, hl⟩ := h.linked
  have hb : t.bucketOf (hash key) < t.buckets.length := by
    rw [h.length_buckets]
    exact bucketOf_lt h.nbuckets_pos _
  have hsmall : t.items.length ≠ noIndex := by
    have hle := h.length_le
    unfold maxItems at hle
    unfold noIndex
    omega
  have hl' : Linked { t with itemsCapacity := c } (fun _ => True) chain :=
    hl.congr rfl (fun _ _ => rfl) fun _ _ => Iff.rfl
  have hload : xhtLoad t.buckets (t.bucketOf (hash key)) = .ok t.buckets[t.bucketOf (hash key)] :=
    xhtLoad_eq_ok.mpr (List.getElem?_eq_getElem hb)
  refine ⟨addItem { t with itemsCapacity := c } key (hash key) value
    t.buckets[t.bucketOf (hash key)], ?_, linked_added hl' hb hsmall, entries_added, rfl, ?_, ?_⟩
  · rw [xhtInsertNewUnchecked, hc]
    simp only [bind, Except.bind]
    rw [show xhtLoad t.buckets (({ t with itemsCapacity := c } : Xht V).bucketOf (hash key)) =
      .ok t.buckets[t.bucketOf (hash key)] from hload]
    rfl
  · simp [addItem]
  · simp only [addItem, List.length_append, List.length_singleton]
    omega

/-- A new key is put at the end of the items. -/
theorem insert_spec (h : t.Wf hash) (hkey : key ∉ t.entries.map Prod.fst)
    (hlt : t.items.length < maxItems) (value : V) :
    ∃ t', xhtInsertNewUnchecked t key (hash key) value = .ok (t.items.length, t') ∧ t'.Wf hash ∧
      t'.entries = t.entries ++ [(key, value, hash key)] := by
  obtain ⟨t₁, hrun, hlinked, hentries, hnb, hlb, hcap⟩ := insert_eq h key value
  have hlen : t₁.items.length = t.items.length + 1 := by
    rw [← length_entries, hentries, List.length_append, length_entries, List.length_singleton]
  have hpos := h.nbuckets_pos
  have hload := h.load
  have hhashed : ∀ e ∈ t.entries ++ [(key, value, hash key)], e.2.2 = hash e.1 := by
    intro e he
    rcases List.mem_append.mp he with he | he
    · exact h.hashed e he
    · obtain rfl := List.mem_singleton.mp he
      rfl
  have hdistinct : ((t.entries ++ [(key, value, hash key)]).map Prod.fst).Nodup := by
    rw [List.map_append, List.nodup_append]
    refine ⟨h.distinct, by simp, fun a ha b hb hab => ?_⟩
    obtain rfl := List.mem_singleton.mp hb
    exact hkey (hab ▸ ha)
  obtain ⟨r, hr, hrank⟩ := h.rank
  unfold maxItems at hlt
  by_cases hgrow : t₁.items.length * 4 > t₁.nbuckets * 3
  · have hr' : r < 31 := by
      refine (Nat.pow_lt_pow_iff_right (a := 2) (by decide)).mp ?_
      omega
    obtain ⟨t₂, hrun₂, hlinked₂, hentries₂, hnb₂, hlb₂, hcap₂⟩ := growBuckets_spec (t := t₁)
      (by omega) (by omega) (by unfold noIndex; omega)
    have hlen₂ : t₂.items.length = t₁.items.length := by
      rw [← length_entries, hentries₂, length_entries]
    refine ⟨t₂, ?_, ⟨⟨r + 1, by omega, by rw [hnb₂, hnb, hrank, pow_succ]⟩, hlb₂, by omega,
      by omega, ?_, ?_, hlinked₂⟩, hentries₂.trans hentries⟩
    · rw [hrun, reserveBuckets, if_pos hgrow, hrun₂]
      rfl
    · rwa [hentries₂, hentries]
    · rwa [hentries₂, hentries]
  · refine ⟨t₁, ?_, ⟨⟨r, hr, by rw [hnb, hrank]⟩, by rw [hlb, hnb, h.length_buckets], by omega,
      hcap, ?_, ?_, hlinked⟩, hentries⟩
    · rw [hrun, reserveBuckets, if_neg hgrow]
      rfl
    · rwa [hentries]
    · rwa [hentries]

/-- With all buckets in use up to the last the table cannot take another key. -/
theorem insert_panics (h : t.Wf hash) (hfull : t.items.length = maxItems) (value : V) :
    xhtInsertNewUnchecked t key (hash key) value = .error .panic := by
  obtain ⟨t₁, hrun, -, hentries, hnb, -, -⟩ := insert_eq h key value
  have hlen : t₁.items.length = t.items.length + 1 := by
    rw [← length_entries, hentries, List.length_append, length_entries, List.length_singleton]
  have hload := h.load
  obtain ⟨r, hr, hrank⟩ := h.rank
  have hpow : 2 ^ r ≤ 2 ^ 31 := Nat.pow_le_pow_right (by decide) hr
  unfold maxItems at hfull
  rw [hrun, reserveBuckets, if_pos (by omega), growBuckets, if_pos (by omega)]
  rfl

end Xht

end Calx
