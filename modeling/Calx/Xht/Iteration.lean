import Calx.Xht.Removal

/-!
# Iterating over the hash table

`xht_indexed_first` and `xht_indexed_next` go through the chains of the buckets
in turn. From each key the next one is found by searching the key again.

## Implementation notes

`ahead chain n b` lists the indices on the chains of the buckets from `b` on.
`Stands` ties an index that the code holds to what is still to be visited.
-/

namespace Calx

open Xht

variable {V : Type}

/-- The loop of a caller that goes from key to key, as `NextKey` lets it: the keys in turn. -/
def xhtWalk (hash : Bytes → UInt32) (fuel : Nat) (t : Xht V) :
    Nat → Nat → Except XhtFault (List Bytes)
  | 0, _ => .error .exhausted
  | turns + 1, i => do
      if i = noIndex then pure []
      else
        let item ← xhtLoad t.items i
        let next ← xhtIndexedNext fuel t item.key (hash item.key)
        let keys ← xhtWalk hash fuel t turns next
        pure (item.key :: keys)

/-- All keys, from `xht_indexed_first` at bucket 0. -/
def xhtKeys (hash : Bytes → UInt32) (fuel : Nat) (t : Xht V) : Except XhtFault (List Bytes) := do
  let i ← xhtIndexedFirst t fuel 0
  xhtWalk hash fuel t fuel i

namespace Xht

variable {hash : Bytes → UInt32} {t : Xht V} {chain : Nat → List Nat} {b i n : Nat}
  {l p q : List Nat} {item : XhtItem V} {fuel : Nat}

/-- The indices on the chains from bucket `b` on. -/
def ahead (chain : Nat → List Nat) (n b : Nat) : List Nat := (List.range' b (n - b)).flatMap chain

theorem ahead_end : ahead chain n n = [] := by
  simp [ahead]

theorem ahead_of_lt (h : b < n) : ahead chain n b = chain b ++ ahead chain n (b + 1) := by
  obtain ⟨k, hk⟩ : ∃ k, n - b = k + 1 := ⟨n - b - 1, by omega⟩
  have hk' : n - (b + 1) = k := by omega
  rw [ahead, ahead, hk, hk', List.range'_succ, List.flatMap_cons]

/-- The code stands at index `i`, and `l` is still to be visited. -/
def Stands (t : Xht V) (chain : Nat → List Nat) (i : Nat) (l : List Nat) : Prop :=
  (i = noIndex ∧ l = []) ∨
    ∃ b p q, b < t.nbuckets ∧ chain b = p ++ i :: q ∧ l = i :: q ++ ahead chain t.nbuckets (b + 1)

/-- `xht_indexed_first` finds the first index from its bucket on. -/
theorem xhtIndexedFirst_spec (h : t.Wf hash) (hl : t.Linked (fun _ => True) chain)
    (hb : b ≤ t.nbuckets) (hfuel : t.nbuckets - b < fuel) :
    ∃ i, xhtIndexedFirst t fuel b = .ok i ∧ t.Stands chain i (ahead chain t.nbuckets b) := by
  induction fuel generalizing b with
  | zero => omega
  | succ fuel ih =>
      rw [xhtIndexedFirst]
      rcases eq_or_ne b t.nbuckets with rfl | hne
      · rw [if_pos rfl]
        exact ⟨noIndex, rfl, Or.inl ⟨rfl, ahead_end⟩⟩
      · have hlt : b < t.nbuckets := by omega
        have hs := List.getElem?_eq_getElem (l := t.buckets) (i := b) (by rwa [h.length_buckets])
        have hchain := hl.chained _ _ hs
        rw [if_neg hne, xhtLoad_eq_ok.mpr hs]
        simp only [bind, Except.bind]
        rw [ahead_of_lt hlt]
        cases hc : chain b with
        | nil =>
            rw [hc] at hchain
            rw [if_pos (ofIdx_eq_none.mp hchain)]
            exact ih hlt (by omega)
        | cons i q =>
            rw [hc] at hchain
            obtain ⟨hi, hsmall⟩ := ofIdx_eq_some.mp hchain.1
            rw [if_neg (by rwa [hi])]
            exact ⟨_, rfl, Or.inr ⟨b, [], q, hlt, by rw [hc, hi]; rfl, by rw [hi]⟩⟩

/-- `xht_indexed_next` goes on to the index behind that of its key. -/
theorem xhtIndexedNext_spec (h : t.Wf hash) (hl : t.Linked (fun _ => True) chain)
    (hb : b < t.nbuckets) (hc : chain b = p ++ i :: q) (hi : t.items[i]? = some item)
    (hfuel : t.items.length < fuel) (hfuel' : t.nbuckets < fuel) :
    ∃ j, xhtIndexedNext fuel t item.key (hash item.key) = .ok j ∧
      t.Stands chain j (q ++ ahead chain t.nbuckets (b + 1)) := by
  have hb' : b < t.buckets.length := by rwa [h.length_buckets]
  have hbucket : t.bucketOf (hash item.key) = b := by
    have hhome := ((hl.mem_iff b hb' i).mp (by rw [hc]; simp)).2
    rw [home_eq hi, h.hash_eq hi] at hhome
    exact Option.some.inj hhome
  have hchain := hl.chained _ _ (List.getElem?_eq_getElem hb')
  rw [hc] at hchain
  have hrest := hchain.suffix
  rw [links_eq hi] at hrest
  obtain ⟨s, hs, hfind⟩ := h.find_some hi hfuel
  rw [xhtIndexedNext, xhtLoad_eq_ok.mpr hs]
  simp only [bind, Except.bind]
  rw [hfind]
  simp only
  cases q with
  | nil =>
      rw [if_pos (ofIdx_eq_none.mp hrest), hbucket, List.nil_append]
      exact xhtIndexedFirst_spec h hl hb (by omega)
  | cons j q =>
      obtain ⟨hj, hsmall⟩ := ofIdx_eq_some.mp hrest.1
      rw [if_neg (by rwa [hj])]
      exact ⟨_, rfl, Or.inr ⟨b, p ++ [i], q, hb, by rw [hc, hj]; simp, by rw [hj]⟩⟩

/-- Going from key to key visits everything that is still to be visited. -/
theorem xhtWalk_spec (h : t.Wf hash) (hl : t.Linked (fun _ => True) chain)
    (hfuel : t.items.length < fuel) (hfuel' : t.nbuckets < fuel) {turns : Nat}
    (hstands : t.Stands chain i l) (hturns : l.length < turns) :
    ∃ keys, xhtWalk hash fuel t turns i = .ok keys ∧
      keys.map some = l.map fun j => t.items[j]?.map (·.key) := by
  induction turns generalizing i l with
  | zero => omega
  | succ turns ih =>
      rw [xhtWalk]
      obtain ⟨rfl, rfl⟩ | ⟨b, p, q, hb, hc, rfl⟩ := hstands
      · rw [if_pos rfl]
        exact ⟨[], rfl, rfl⟩
      · have hmem : i ∈ chain b := by simp [hc]
        have hb' : b < t.buckets.length := by rwa [h.length_buckets]
        have hi := hl.lt hb' hmem
        have hsmall : i ≠ noIndex := by
          have hle := h.length_le
          unfold maxItems at hle
          unfold noIndex
          omega
        have hitem := List.getElem?_eq_getElem hi
        obtain ⟨j, hnext, hstands'⟩ := xhtIndexedNext_spec h hl hb hc hitem hfuel hfuel'
        obtain ⟨keys, hwalk, hkeys⟩ := ih hstands' (by simpa using hturns)
        refine ⟨t.items[i].key :: keys, ?_, ?_⟩
        · rw [if_neg hsmall, xhtLoad_eq_ok.mpr hitem]
          simp only [bind, Except.bind]
          rw [hnext]
          simp only
          rw [hwalk]
          rfl
        · rw [List.map_cons, hkeys, List.cons_append, List.map_cons, hitem]
          rfl

/-- The chains of all buckets hold every index once. -/
theorem ahead_perm (h : t.Wf hash) (hl : t.Linked (fun _ => True) chain) :
    (ahead chain t.nbuckets 0).Perm (List.range t.items.length) := by
  have hlen := h.length_buckets
  have hrange : List.range' 0 (t.nbuckets - 0) = List.range t.nbuckets := by
    rw [Nat.sub_zero, List.range_eq_range']
  rw [ahead, hrange]
  refine (List.perm_ext_iff_of_nodup ?_ List.nodup_range).mpr fun i => ?_
  · refine List.nodup_flatMap.mpr ⟨fun b hb => ?_, ?_⟩
    · have hb' : b < t.buckets.length := by rw [hlen]; exact List.mem_range.mp hb
      exact (hl.chained b _ (List.getElem?_eq_getElem hb')).nodup
    · refine List.nodup_range.imp_of_mem fun {b b'} hb hb' hne i hi hi' => hne ?_
      rw [List.mem_range, ← hlen] at hb hb'
      exact hl.ne_of_mem hb hb' hi hi'
  · rw [List.mem_flatMap, List.mem_range]
    constructor
    · rintro ⟨b, hb, hi⟩
      rw [List.mem_range, ← hlen] at hb
      exact hl.lt hb hi
    · intro hi
      have hb : t.bucketOf t.items[i].hash < t.nbuckets := bucketOf_lt h.nbuckets_pos _
      refine ⟨_, List.mem_range.mpr hb, ?_⟩
      rw [hl.mem_iff _ (by rwa [hlen])]
      exact ⟨trivial, home_eq (List.getElem?_eq_getElem hi)⟩

/-- Iterating over a table gives each of its keys once. -/
theorem Wf.keys (h : t.Wf hash) (hfuel : t.items.length < fuel) (hfuel' : t.nbuckets < fuel) :
    ∃ keys, xhtKeys hash fuel t = .ok keys ∧ keys.Perm (t.entries.map Prod.fst) := by
  obtain ⟨chain, hl⟩ := h.linked
  have hperm := ahead_perm h hl
  obtain ⟨i, hfirst, hstands⟩ := xhtIndexedFirst_spec h hl (Nat.zero_le _)
    (show t.nbuckets - 0 < fuel by omega)
  obtain ⟨keys, hwalk, hkeys⟩ := xhtWalk_spec h hl hfuel hfuel' hstands
    (by rw [hperm.length_eq, List.length_range]; exact hfuel)
  refine ⟨keys, ?_, ?_⟩
  · rw [xhtKeys, hfirst]
    exact hwalk
  · refine (List.map_perm_map_iff (fun _ _ => Option.some.inj)).mp ?_
    rw [hkeys]
    refine (hperm.map _).trans (List.Perm.of_eq (List.ext_getElem? fun j => ?_))
    rcases Nat.lt_or_ge j t.items.length with hj | hj
    · simp [entries, hj]
    · simp [entries, hj]

/-! ## From key to key -/

/-- The index is that of an entry, or none. -/
def Points (t : Xht V) (i : Nat) : Prop := i = noIndex ∨ ∃ item, t.items[i]? = some item

theorem Stands.points (hb : t.buckets.length = t.nbuckets) (hl : t.Linked (fun _ => True) chain)
    (h : t.Stands chain i l) : t.Points i := by
  obtain ⟨rfl, -⟩ | ⟨b, p, q, hlt, hc, -⟩ := h
  · exact .inl rfl
  · have hmem : i ∈ chain b := by simp [hc]
    exact .inr ⟨_, List.getElem?_eq_getElem (hl.lt (by rwa [hb]) hmem)⟩

/-- Iterating can begin. -/
theorem Wf.first (h : t.Wf hash) (hfuel : t.nbuckets < fuel) :
    ∃ i, xhtIndexedFirst t fuel 0 = .ok i ∧ t.Points i := by
  obtain ⟨chain, hl⟩ := h.linked
  obtain ⟨i, hi, hstands⟩ := xhtIndexedFirst_spec h hl (Nat.zero_le _)
    (show t.nbuckets - 0 < fuel by omega)
  exact ⟨i, hi, hstands.points h.length_buckets hl⟩

/-- Iterating can go on from a key, whether it is there or not. -/
theorem Wf.next (h : t.Wf hash) (key : Bytes) (hfuel : t.items.length < fuel)
    (hfuel' : t.nbuckets < fuel) :
    ∃ i, xhtIndexedNext fuel t key (hash key) = .ok i ∧ t.Points i := by
  by_cases hkey : key ∈ t.entries.map Prod.fst
  · obtain ⟨chain, hl⟩ := h.linked
    obtain ⟨e, he, rfl⟩ := List.mem_map.mp hkey
    obtain ⟨n, item, hi, rfl⟩ := mem_entries.mp he
    have hb : t.bucketOf item.hash < t.nbuckets := bucketOf_lt h.nbuckets_pos _
    have hmem : n ∈ chain (t.bucketOf item.hash) :=
      (hl.mem_iff _ (by rwa [h.length_buckets]) n).mpr ⟨trivial, home_eq hi⟩
    obtain ⟨p, q, hc⟩ := List.append_of_mem hmem
    obtain ⟨i, hnext, hstands⟩ := xhtIndexedNext_spec h hl hb hc hi hfuel hfuel'
    exact ⟨i, hnext, hstands.points h.length_buckets hl⟩
  · obtain ⟨s, hs, hfind⟩ := h.find_none hkey hfuel
    refine ⟨noIndex, ?_, .inl rfl⟩
    rw [xhtIndexedNext, xhtLoad_eq_ok.mpr hs]
    simp only [bind, Except.bind]
    rw [hfind]
    rfl

end Xht

end Calx
