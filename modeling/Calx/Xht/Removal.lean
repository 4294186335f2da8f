import Calx.Xht.Invariant

/-!
# Removing from the hash table

A removal takes the item out of its chain and moves the last item into its
place. The chain of the moved item may be the one that has just been changed.

## Implementation notes

Between the two steps one index of the array is on no chain: first the index of
the removed item, then the last one. The move is the write of one link of a
table that already has the item at both indices.
-/

namespace Calx

namespace Xht

variable {V : Type} {hash : Bytes → UInt32} {t : Xht V} {live : Nat → Prop}
  {chain : Nat → List Nat} {b i n : Nat} {p q : List Nat} {key : Bytes} {item : XhtItem V}
  {fuel : Nat}

/-- Taking an item out of its chain. -/
theorem Linked.unlink (h : t.Linked (fun _ => True) chain) (hb : b < t.buckets.length)
    (hc : chain b = p ++ i :: q) (hi : t.items[i]? = some item) :
    ∃ chain', (t.write item.next (slotAfter b p)).Linked (· ≠ i) chain' := by
  have hlt : ∀ j ∈ p, j < t.items.length := fun j hj => h.lt hb (hc ▸ List.mem_append_left _ hj)
  have hchain := h.chained b _ (List.getElem?_eq_getElem hb)
  rw [hc] at hchain
  have hnd := hchain.nodup
  have hhome : t.home i = some b := ((h.mem_iff b hb i).mp (by rw [hc]; simp)).2
  refine ⟨_, h.write hb hc q ?_ (fun j => ?_) fun j hj => ?_⟩
  · have hrest := hchain.suffix
    rw [links_eq hi] at hrest
    refine hrest.congr fun j hj => links_write_slotAfter hlt fun hjp => ?_
    rw [List.nodup_append] at hnd
    exact hnd.2.2 j hjp j (List.mem_cons_of_mem i hj) rfl
  · have hmem := h.mem_iff b hb j
    rw [hc, true_and] at hmem
    rw [← hmem]
    have hi' : i ∉ p ++ q := by
      rw [List.nodup_middle, List.nodup_cons] at hnd
      exact hnd.1
    constructor
    · intro hj
      refine ⟨fun heq => hi' (heq ▸ hj), ?_⟩
      simp only [List.mem_append, List.mem_cons] at hj ⊢
      tauto
    · rintro ⟨hne, hj⟩
      simp only [List.mem_append, List.mem_cons] at hj ⊢
      tauto
  · rw [iff_true]
    rintro rfl
    exact hj hhome

/-- The last index goes out of use. -/
theorem Linked.dropLast (h : t.Linked (· ≠ t.items.length - 1) chain) :
    Linked { t with items := t.items.dropLast } (fun _ => True) chain := by
  have hget : ∀ j, j ≠ t.items.length - 1 → t.items.dropLast[j]? = t.items[j]? := by
    intro j hj
    rw [List.getElem?_dropLast]
    split
    · rfl
    · rw [List.getElem?_eq_none (by omega)]
  refine h.congr rfl (fun j hj => ?_) fun j b => ?_
  · simp only [links, hget j hj]
  · constructor
    · rintro ⟨-, hj⟩
      have hlt := lt_of_home hj
      rw [List.length_dropLast] at hlt
      have hne : j ≠ t.items.length - 1 := by omega
      refine ⟨hne, ?_⟩
      rwa [home, hget j hne] at hj
    · rintro ⟨hne, hj⟩
      refine ⟨trivial, ?_⟩
      rw [home, hget j hne]
      exact hj

/-! ## Moving the last item -/

/-- A copy of the last item at a dead index is not yet on a chain. -/
theorem Linked.copy (h : t.Linked (· ≠ i) chain) (e : XhtItem V) :
    Linked { t with items := t.items.set i e } (· ≠ i) chain := by
  have hget : ∀ j, j ≠ i → (t.items.set i e)[j]? = t.items[j]? := fun j hj =>
    List.getElem?_set_ne (Ne.symm hj)
  refine h.congr rfl (fun j hj => ?_) fun j b => and_congr_right fun hj => ?_
  · simp only [links, hget j hj]
  · simp only [home, hget j hj]
    rfl

theorem mem_of_slotAfter {b j : Nat} (h : slotAfter b p = .next j) : j ∈ p := by
  rcases List.eq_nil_or_concat p with rfl | ⟨l, k, rfl⟩
  · cases h
  · rw [List.concat_eq_append, slotAfter_concat] at h
    cases h
    simp

/-- Writing a link leaves the items before it and behind it alone. -/
theorem getElem?_write_slotAfter {b v j : Nat} (hj : j ∉ p) :
    (t.write v (slotAfter b p)).items[j]? = t.items[j]? := by
  cases hslot : slotAfter b p with
  | bucket b => rfl
  | next k =>
      have hne : k ≠ j := fun heq => hj (heq ▸ mem_of_slotAfter hslot)
      simp [write, hne]

/-- Writing a link and copying an item to another index commute. -/
theorem write_copy {v : Nat} {slot : Slot} {e : XhtItem V} (hslot : ∀ j, slot = .next j → j ≠ i) :
    { t.write v slot with items := (t.write v slot).items.set i e } =
      Xht.write { t with items := t.items.set i e } v slot := by
  cases slot with
  | bucket b => rfl
  | next j =>
      have hne := hslot j rfl
      simp only [write, Xht.mk.injEq, and_true]
      refine List.ext_getElem? fun k => ?_
      simp only [List.getElem?_modify, List.getElem?_set, List.length_modify]
      rcases eq_or_ne i k with rfl | hk
      · simp [hne]
      · simp [hk]

/-- The copy takes the last item's place on the chain. -/
theorem Linked.replaceLast {b : Nat} (h : t.Linked (· ≠ i) chain) (hb : b < t.buckets.length)
    (hc : chain b = p ++ n :: q) (hn : t.items[n]? = some item) (hi : i < t.items.length)
    (hsmall : i ≠ noIndex) :
    ∃ chain', (Xht.write { t with items := t.items.set i item } i (slotAfter b p)).Linked
      (· ≠ n) chain' := by
  have hcopy := h.copy item
  have hmem := hcopy.mem_iff b hb
  rw [hc] at hmem
  have hni : n ≠ i := ((hmem n).mp (by simp)).1
  have hip : i ∉ p ++ n :: q := fun hi => ((hmem i).mp hi).1 rfl
  simp only [List.mem_append, List.mem_cons, not_or] at hip
  have hlt : ∀ j ∈ p, j < (t.items.set i item).length := fun j hj =>
    hcopy.lt hb (hc ▸ List.mem_append_left _ hj)
  have hchain := hcopy.chained b _ (List.getElem?_eq_getElem hb)
  rw [hc] at hchain
  have hnd := hchain.nodup
  rw [List.nodup_middle, List.nodup_cons] at hnd
  have hitem : (t.items.set i item)[i]? = some item := by simp [hi]
  have hitemN : (t.items.set i item)[n]? = some item := by
    rw [List.getElem?_set_ne (Ne.symm hni)]
    exact hn
  have hhomeN : home { t with items := t.items.set i item } n = some b := ((hmem n).mp (by simp)).2
  have hhome : home { t with items := t.items.set i item } i = some b := by
    rw [← hhomeN, home_eq hitem, home_eq hitemN]
  refine ⟨_, hcopy.write hb hc (i :: q) ⟨ofIdx_eq_some.mpr ⟨rfl, hsmall⟩, ?_⟩ (fun j => ?_)
    fun j hj => ?_⟩
  · have hrest := hchain.suffix
    rw [links_eq hitemN] at hrest
    rw [links_write_slotAfter hlt hip.1, links_eq hitem]
    refine hrest.congr fun j hj => links_write_slotAfter hlt fun hjp => ?_
    exact (List.nodup_append.mp hnd.2).2.2 j hjp j hj rfl
  · have hj := hmem j
    constructor
    · intro hmem'
      rcases eq_or_ne j i with rfl | hji
      · exact ⟨hni.symm, hhome⟩
      · refine ⟨?_, (hj.mp ?_).2⟩
        · rintro rfl
          simp only [List.mem_append, List.mem_cons, hji, false_or] at hmem'
          exact hnd.1 (List.mem_append.mpr hmem')
        · simp only [List.mem_append, List.mem_cons, hji, false_or] at hmem' ⊢
          tauto
    · rintro ⟨hjn, hhomeJ⟩
      rcases eq_or_ne j i with rfl | hji
      · simp
      · have := hj.mpr ⟨hji, hhomeJ⟩
        simp only [List.mem_append, List.mem_cons, hjn, false_or] at this ⊢
        tauto
  · constructor
    · rintro - rfl
      exact hj hhome
    · rintro - rfl
      exact hj hhomeN

theorem moveLast_spec (h : t.Linked (· ≠ i) chain) (hb : t.buckets.length = t.nbuckets)
    (hpos : 0 < t.nbuckets) (hi : i < t.items.length - 1) (hsmall : t.items.length ≤ noIndex)
    (hn : t.items[t.items.length - 1]? = some item) (hfuel : t.items.length < fuel) :
    ∃ t', moveLast fuel t i = .ok t' ∧ (∃ chain', t'.Linked (· ≠ t.items.length - 1) chain') ∧
      t'.entries = t.entries.set i (item.key, item.value, item.hash) ∧ t'.nbuckets = t.nbuckets ∧
      t'.buckets.length = t.buckets.length ∧ t'.itemsCapacity = t.itemsCapacity := by
  have hlt : t.bucketOf item.hash < t.buckets.length := by
    rw [hb]
    exact bucketOf_lt hpos _
  have hs := List.getElem?_eq_getElem hlt
  have hmem : t.items.length - 1 ∈ chain (t.bucketOf item.hash) := by
    rw [h.mem_iff _ hlt]
    exact ⟨by omega, home_eq hn⟩
  obtain ⟨p, q, hc⟩ := List.append_of_mem hmem
  have hchain := h.chained _ _ hs
  rw [hc] at hchain
  have hp : ∀ j ∈ p, j < t.items.length := fun j hj => h.lt hlt (hc ▸ List.mem_append_left _ hj)
  have hlen := h.length_le hlt
  rw [hc, List.length_append, List.length_cons] at hlen
  have hslot : seekSlot t (t.items.length - 1) fuel (.bucket (t.bucketOf item.hash)) =
      .ok (slotAfter (t.bucketOf item.hash) p) :=
    seekSlot_eq hs (show LinkChain _ _ ([] ++ (p ++ _ :: q)) from hchain) hp (by omega)
  have hread : (t.write i (slotAfter (t.bucketOf item.hash) p)).items[t.items.length - 1]? =
      some item := by
    rw [getElem?_write_slotAfter, hn]
    have hnd := hchain.nodup
    rw [List.nodup_append] at hnd
    exact fun hmem => hnd.2.2 _ hmem _ List.mem_cons_self rfl
  have hcommute : { t.write i (slotAfter (t.bucketOf item.hash) p) with
      items := (t.write i (slotAfter (t.bucketOf item.hash) p)).items.set i item } =
      Xht.write { t with items := t.items.set i item } i (slotAfter (t.bucketOf item.hash) p) := by
    refine write_copy fun j hj => ?_
    exact ((h.mem_iff _ hlt j).mp (hc ▸ List.mem_append_left _ (mem_of_slotAfter hj))).1
  refine ⟨_, ?_, h.replaceLast hlt hc hn (by omega) (by omega), ?_, ?_⟩
  · rw [moveLast, xhtLoad_eq_ok.mpr hn]
    simp only [bind, Except.bind]
    rw [hslot]
    simp only
    rw [xhtLoad_eq_ok.mpr hread]
    simp only [pure, Except.pure]
    rw [hcommute]
  · rw [entries_write, entries, entries, List.map_set]
  · simp

/-! ## `xht_remove` -/

/-- The last element in the place of another one, and the list cut by one. -/
theorem set_last_dropLast_perm {α : Type} {l : List α} {a : α} (hi : i < l.length - 1)
    (ha : l[l.length - 1]? = some a) : (l.set i a).dropLast.Perm (l.eraseIdx i) := by
  have hlast : (l.set i a)[l.length - 1]? = some a := by
    rw [List.getElem?_set_ne (by omega), ha]
  rw [← List.length_set (i := i) (a := a), ← List.getLast?_eq_getElem?] at hlast
  obtain ⟨l', hl'⟩ := List.getLast?_eq_some_iff.mp hlast
  refine (List.perm_cons a).mp ?_
  have hperm := List.set_perm_cons_eraseIdx (show i < l.length by omega) a
  rw [hl'] at hperm ⊢
  rw [List.dropLast_concat]
  exact (List.perm_append_singleton a l').symm.trans hperm

/-- `pop_item_at_index` closes the gap that an unlinked item leaves. -/
theorem popItemAtIndex_spec (h : t.Linked (· ≠ i) chain) (hb : t.buckets.length = t.nbuckets)
    (hpos : 0 < t.nbuckets) (hi : i < t.items.length) (hsmall : t.items.length ≤ noIndex)
    (hfuel : t.items.length < fuel) :
    ∃ t', popItemAtIndex fuel t i = .ok t' ∧ (∃ chain', t'.Linked (fun _ => True) chain') ∧
      t'.entries.Perm (t.entries.eraseIdx i) ∧ t'.nbuckets = t.nbuckets ∧
      t'.buckets.length = t.buckets.length ∧ t'.itemsCapacity = t.itemsCapacity := by
  by_cases hlast : i = t.items.length - 1
  · refine ⟨{ t with items := t.items.dropLast }, ?_, ⟨chain, ?_⟩, ?_, rfl, rfl, rfl⟩
    · rw [popItemAtIndex, if_neg (not_not_intro hlast)]
      rfl
    · rw [hlast] at h
      exact h.dropLast
    · rw [hlast, entries, entries, List.map_dropLast, ← length_entries, entries,
        List.eraseIdx_length_sub_one]
  · have hn : t.items.length - 1 < t.items.length := by omega
    obtain ⟨t', hrun, ⟨chain', hl⟩, hentries, hnb, hlb, hcap⟩ := moveLast_spec h hb hpos
      (by omega) hsmall (List.getElem?_eq_getElem hn) hfuel
    have hlen : t'.items.length = t.items.length := by
      rw [← length_entries, hentries, List.length_set, length_entries]
    rw [← hlen] at hl
    refine ⟨{ t' with items := t'.items.dropLast }, ?_, ⟨chain', hl.dropLast⟩, ?_, hnb, hlb, hcap⟩
    · rw [popItemAtIndex, if_pos hlast, hrun]
      rfl
    · rw [entries, List.map_dropLast, ← entries, hentries]
      refine set_last_dropLast_perm (by rw [length_entries]; omega) ?_
      rw [length_entries, entries, List.getElem?_map, List.getElem?_eq_getElem hn]
      rfl

theorem xhtRemove_absent (h : t.Wf hash) (hkey : key ∉ t.entries.map Prod.fst)
    (hfuel : t.items.length < fuel) (ifAbsent : V) :
    xhtRemove fuel t key (hash key) ifAbsent = .ok (ifAbsent, t) := by
  obtain ⟨chain, s, hl, hb, hs, hlen⟩ := h.chain_at (hash key)
  obtain ⟨hw, -⟩ | ⟨p, i, q, item, -, hi, rfl, -⟩ := hl.split h key
  · rw [xhtRemove, seekKey_none hs (hl.chained _ _ hs) (fun i => hl.lt hb) hw (by omega)]
    rfl
  · exact absurd (key_mem hi) hkey

theorem xhtRemove_present (h : t.Wf hash) (hi : t.items[i]? = some item)
    (hfuel : t.items.length < fuel) (ifAbsent : V) :
    ∃ t', xhtRemove fuel t item.key (hash item.key) ifAbsent = .ok (item.value, t') ∧
      t'.Wf hash ∧ t'.entries.Perm (t.entries.eraseIdx i) := by
  obtain ⟨chain, s, hl, hb, hs, hlen⟩ := h.chain_at (hash item.key)
  have hi' : i < t.items.length := (List.getElem?_eq_some_iff.mp hi).1
  obtain ⟨-, hkey⟩ | ⟨p, n, q, item', hc, hn, hkey, hw⟩ := hl.split h item.key
  · exact absurd (key_mem hi) hkey
  obtain rfl := h.index_inj hn hi hkey
  obtain rfl := Option.some.inj (hn.symm.trans hi)
  rw [hc, List.length_append, List.length_cons] at hlen
  have hseek : seekKey t item'.key fuel (.bucket (t.bucketOf (hash item'.key))) =
      .ok (some (slotAfter (t.bucketOf (hash item'.key)) p, n, item')) :=
    seekKey_some hs (hc ▸ hl.chained _ _ hs) (fun j hj => hl.lt hb (hc ▸ List.mem_append_left _ hj))
      hw hi rfl (by omega)
  obtain ⟨chain', hl'⟩ := hl.unlink hb hc hi
  have hsmall : t.items.length ≤ noIndex := by
    have hle := h.length_le
    unfold maxItems at hle
    unfold noIndex
    omega
  obtain ⟨t', hrun, hlinked, hentries, hnb, hlb, hcap⟩ := popItemAtIndex_spec hl'
    (by simpa using h.length_buckets) (by simpa using h.nbuckets_pos) (by simpa using hi')
    (by simpa using hsmall) (show _ < fuel by simpa using hfuel)
  simp only [entries_write, nbuckets_write, length_buckets_write, itemsCapacity_write]
    at hentries hnb hlb hcap
  have hsub : ∀ e ∈ t'.entries, e ∈ t.entries := fun e he =>
    List.mem_of_mem_eraseIdx (hentries.mem_iff.mp he)
  have hlen' : t'.items.length ≤ t.items.length := by
    rw [← length_entries, hentries.length_eq, List.length_eraseIdx_of_lt (by simpa using hi'),
      length_entries]
    omega
  have hload := h.load
  have hcapacity := h.capacity
  refine ⟨t', ?_, ⟨?_, by rw [hlb, hnb, h.length_buckets], by omega, by omega,
    fun e he => h.hashed e (hsub e he), ?_, hlinked⟩, hentries⟩
  · rw [xhtRemove, hseek]
    simp only [bind, Except.bind]
    rw [hrun]
    rfl
  · rw [hnb]
    exact h.rank
  · rw [(hentries.map Prod.fst).nodup_iff]
    exact h.distinct.sublist ((List.eraseIdx_sublist t.entries n).map Prod.fst)

end Xht

end Calx
