import Calx.Xht.Iteration
import Mathlib.Data.Finmap

/-!
# The hash table as a finite map

Any sequence of calls on a new table gives what a finite map gives, whatever the
hash function, and iterating over the table gives the keys of the map. The table
has room for `maxItems` items; a further key stops the program.

## Implementation notes

`MapCall` lists the calls of the interface, `xhtCall` makes one on a table and
`mapCall` on a finite map. A caller of `xht_put` sees the entry, with the key
and the value it holds. `RefinesMap` leaves the loops as much fuel as they need.
-/

namespace Calx

open Xht

variable {V : Type}

/-- A call of the hash table's interface. -/
inductive MapCall (V : Type)
  | put (key : Bytes) (value : V)
  | get (key : Bytes) (ifAbsent : V)
  | remove (key : Bytes) (ifAbsent : V)
  | size

/-- What a call returns. -/
inductive MapResult (V : Type)
  /-- The entry whose address `xht_put` returns. -/
  | entry (key : Bytes) (value : V)
  | value (value : V)
  | size (n : Nat)

/-- One call on a table, each key with its hash. -/
def xhtCall (hash : Bytes → UInt32) (fuel : Nat) (t : Xht V) :
    MapCall V → Except XhtFault (MapResult V × Xht V)
  | .put key value => do
      let (i, t) ← xhtPut fuel t key (hash key) value
      let item ← xhtLoad t.items i
      pure (.entry item.key item.value, t)
  | .get key ifAbsent => do
      let value ← xhtGet fuel t key (hash key) ifAbsent
      pure (.value value, t)
  | .remove key ifAbsent => do
      let (value, t) ← xhtRemove fuel t key (hash key) ifAbsent
      pure (.value value, t)
  | .size => pure (.size (xhtSize t), t)

/-- The calls in turn: their results and the table left. -/
def xhtRun (hash : Bytes → UInt32) (fuel : Nat) (t : Xht V) :
    List (MapCall V) → Except XhtFault (List (MapResult V) × Xht V)
  | [] => pure ([], t)
  | call :: calls => do
      let (result, t) ← xhtCall hash fuel t call
      let (results, t) ← xhtRun hash fuel t calls
      pure (result :: results, t)

/-- A finite map from byte strings to values. -/
abbrev ByteMap (V : Type) := Finmap fun _ : Bytes => V

/-- One call on a finite map. -/
def mapCall (m : ByteMap V) : MapCall V → MapResult V × ByteMap V
  | .put key value =>
      match m.lookup key with
      | some old => (.entry key old, m)
      | none => (.entry key value, m.insert key value)
  | .get key ifAbsent => (.value ((m.lookup key).getD ifAbsent), m)
  | .remove key ifAbsent => (.value ((m.lookup key).getD ifAbsent), m.erase key)
  | .size => (.size m.keys.card, m)

/-- The calls in turn on a finite map. -/
def mapRun (m : ByteMap V) : List (MapCall V) → List (MapResult V) × ByteMap V
  | [] => ([], m)
  | call :: calls =>
      let (result, m) := mapCall m call
      let (results, m) := mapRun m calls
      (result :: results, m)

/-- With enough fuel the calls on a new table give the results of the map, and iterating over the
table they leave gives each key of the map once. -/
def RefinesMap (hash : Bytes → UInt32) (rank : Nat) (calls : List (MapCall V)) : Prop :=
  ∃ enough, ∀ fuel ≥ enough, ∃ t keys,
    xhtRun hash fuel (xhtNew rank) calls = .ok ((mapRun ∅ calls).1, t) ∧
      xhtKeys hash fuel t = .ok keys ∧ keys.Nodup ∧ keys.toFinset = (mapRun ∅ calls).2.keys

namespace Xht

/-- The map has the entries of the table. -/
def Represents (t : Xht V) (m : ByteMap V) : Prop :=
  ∀ key value, m.lookup key = some value ↔ ∃ x, (key, value, x) ∈ t.entries

variable {hash : Bytes → UInt32} {t : Xht V} {m : ByteMap V} {key : Bytes} {value : V} {fuel : Nat}

theorem Represents.item (h : t.Represents m) (hm : m.lookup key = some value) :
    ∃ (i : Nat) (item : XhtItem V), t.items[i]? = some item ∧ item.key = key ∧
      item.value = value := by
  obtain ⟨x, hx⟩ := (h key value).mp hm
  obtain ⟨i, item, hi, he⟩ := mem_entries.mp hx
  simp only [Prod.mk.injEq] at he
  exact ⟨i, item, hi, he.1, he.2.1⟩

theorem Represents.mem_keys (h : t.Represents m) :
    key ∈ m.keys ↔ key ∈ t.entries.map Prod.fst := by
  rw [Finmap.mem_keys, Finmap.mem_iff, List.mem_map]
  constructor
  · rintro ⟨value, hv⟩
    obtain ⟨x, hx⟩ := (h key value).mp hv
    exact ⟨_, hx, rfl⟩
  · rintro ⟨⟨k, value, x⟩, hx, rfl⟩
    exact ⟨value, (h k value).mpr ⟨x, hx⟩⟩

theorem Represents.absent (h : t.Represents m) (hm : m.lookup key = none) :
    key ∉ t.entries.map Prod.fst := by
  rw [← h.mem_keys, Finmap.mem_keys]
  exact Finmap.lookup_eq_none.mp hm

theorem Represents.card (h : t.Represents m) (hwf : t.Wf hash) : m.keys.card = t.items.length := by
  have hkeys : m.keys = (t.entries.map Prod.fst).toFinset := by
    ext key
    rw [List.mem_toFinset, h.mem_keys]
  rw [hkeys, List.toFinset_card_of_nodup hwf.distinct, List.length_map, length_entries]

/-! ## One call -/

theorem wf_new {rank : Nat} (hrank : rank ≤ 31) : (xhtNew rank : Xht V).Wf hash := by
  refine ⟨⟨rank, hrank, rfl⟩, by simp [xhtNew], by simp [xhtNew], by simp [xhtNew],
    by simp [xhtNew, entries], by simp [xhtNew, entries], fun _ => [], ⟨fun b s hs => ?_, ?_⟩⟩
  · rw [xhtNew, List.getElem?_replicate] at hs
    split at hs
    · exact ofIdx_eq_none.mpr (Option.some.inj hs).symm
    · cases hs
  · intro b hb i
    simp [xhtNew, home]

theorem represents_new {rank : Nat} : (xhtNew rank : Xht V).Represents ∅ := by
  intro key value
  simp [xhtNew, entries]

theorem Represents.insert (h : t.Represents m) {t' : Xht V} (hm : m.lookup key = none)
    (hentries : t'.entries = t.entries ++ [(key, value, hash key)]) :
    t'.Represents (m.insert key value) := by
  intro k v
  rw [hentries]
  rcases eq_or_ne k key with rfl | hne
  · rw [Finmap.lookup_insert]
    have habsent : ∀ v x, (k, v, x) ∉ t.entries := fun v x hmem =>
      h.absent hm (List.mem_map.mpr ⟨_, hmem, rfl⟩)
    simp [habsent, eq_comm]
  · rw [Finmap.lookup_insert_of_ne _ hne, h]
    simp [hne]

theorem Represents.erase (h : t.Represents m) (hwf : t.Wf hash) {t' : Xht V} {i : Nat}
    {item : XhtItem V} (hi : t.items[i]? = some item)
    (hentries : t'.entries.Perm (t.entries.eraseIdx i)) :
    t'.Represents (m.erase item.key) := by
  have hmem : ∀ e, e ∈ t'.entries ↔ e.1 ≠ item.key ∧ e ∈ t.entries := by
    intro e
    rw [hentries.mem_iff, List.mem_eraseIdx_iff_getElem?, mem_entries]
    constructor
    · rintro ⟨j, hj, he⟩
      rw [entries, List.getElem?_map, Option.map_eq_some_iff] at he
      obtain ⟨item', hj', rfl⟩ := he
      exact ⟨fun heq => hj (hwf.index_inj hj' hi heq), j, item', hj', rfl⟩
    · rintro ⟨hne, j, item', hj', rfl⟩
      refine ⟨j, ?_, by simp [entries, hj']⟩
      rintro rfl
      obtain rfl := Option.some.inj (hi.symm.trans hj')
      exact hne rfl
  intro k v
  simp only [hmem]
  rcases eq_or_ne k item.key with rfl | hne
  · simp
  · rw [Finmap.lookup_erase_ne hne, h]
    simp [hne]

theorem getElem?_setValue {i : Nat} {item : XhtItem V} (hi : t.items[i]? = some item) (v : V)
    (j : Nat) : (t.setValue i v).items[j]? =
      if i = j then some { item with value := v } else t.items[j]? := by
  rw [setValue, List.getElem?_modify]
  split
  · rename_i heq
    rw [← heq, hi]
    rfl
  · simp

/-- A value may be written through a pointer to it. -/
theorem Wf.setValue (hwf : t.Wf hash) {i : Nat} {item : XhtItem V} (hi : t.items[i]? = some item)
    (v : V) : (t.setValue i v).Wf hash := by
  have hlen : (t.setValue i v).items.length = t.items.length := List.length_modify _ _ _
  -- What does not read the value reads the same of an item.
  have hkeep : ∀ {α : Type} (f : XhtItem V → α) (j : Nat), f { item with value := v } = f item →
      (t.setValue i v).items[j]?.map f = t.items[j]?.map f := fun f j hf => by
    rw [getElem?_setValue hi]
    split
    · rename_i heq
      rw [← heq, hi, Option.map_some, Option.map_some, hf]
    · rfl
  have hlinks : ∀ j, (t.setValue i v).links j = t.links j := fun j => by
    have hjoin : ∀ o : Option (XhtItem V), (o.bind fun item => ofIdx item.next) =
        (o.map fun item => ofIdx item.next).join := fun o => by cases o <;> rfl
    rw [links, links, hjoin, hjoin, hkeep _ j rfl]
  have hhome : ∀ j, (t.setValue i v).home j = t.home j := fun j =>
    hkeep (fun item => t.bucketOf item.hash) j rfl
  have hhashed : (t.setValue i v).entries.map (fun e => (e.1, e.2.2)) =
      t.entries.map fun e => (e.1, e.2.2) := by
    refine List.ext_getElem? fun j => ?_
    simp only [entries, List.map_map, List.getElem?_map]
    exact hkeep _ j rfl
  have hkeys : (t.setValue i v).entries.map Prod.fst = t.entries.map Prod.fst := by
    simpa [List.map_map, Function.comp_def] using congrArg (List.map Prod.fst) hhashed
  obtain ⟨chain, hl⟩ := hwf.linked
  exact
    { rank := hwf.rank
      length_buckets := hwf.length_buckets
      load := by rw [hlen]; exact hwf.load
      capacity := by rw [hlen]; exact hwf.capacity
      hashed := fun e he => by
        have hmem := List.mem_map_of_mem (f := fun e => (e.1, e.2.2)) he
        rw [hhashed, List.mem_map] at hmem
        obtain ⟨e', he', heq⟩ := hmem
        obtain ⟨hkey, hhash⟩ := Prod.mk.inj heq
        rw [← hkey, ← hhash]
        exact hwf.hashed e' he'
      distinct := by rw [hkeys]; exact hwf.distinct
      linked := ⟨chain, hl.congr rfl (fun j _ => hlinks j) fun j b => by rw [hhome]⟩ }

theorem Represents.setValue (h : t.Represents m) (hwf : t.Wf hash) {i : Nat} {item : XhtItem V}
    (hi : t.items[i]? = some item) (v : V) :
    (t.setValue i v).Represents (m.insert item.key v) := by
  intro key value
  simp only [mem_entries, getElem?_setValue hi]
  rcases eq_or_ne key item.key with rfl | hne
  · rw [Finmap.lookup_insert]
    constructor
    · intro hv
      exact ⟨item.hash, i, _, if_pos rfl, by rw [← Option.some.inj hv]⟩
    · rintro ⟨x, j, item', hj, he⟩
      simp only [Prod.mk.injEq] at he
      obtain ⟨hkey, hvalue, -⟩ := he
      split at hj
      · rw [← hvalue, ← Option.some.inj hj]
      · rename_i hij
        exact absurd (hwf.index_inj hi hj hkey.symm) hij
  · rw [Finmap.lookup_insert_of_ne _ hne, h]
    simp only [mem_entries]
    refine exists_congr fun x => exists_congr fun j => exists_congr fun item' =>
      and_congr_left fun he => ?_
    have hkey : item'.key = key := congrArg Prod.fst he
    split
    · rename_i hij
      rw [← hij, hi]
      constructor
      · intro hitem
        rw [← Option.some.inj hitem] at hkey
        exact absurd hkey.symm hne
      · intro hitem
        rw [← Option.some.inj hitem] at hkey
        exact absurd hkey.symm hne
    · rfl

theorem keys_put : (mapCall m (.put key value)).2.keys = insert key m.keys := by
  cases hm : m.lookup key with
  | none =>
      ext k
      simp [mapCall, hm, Finmap.mem_keys, Finmap.mem_insert]
  | some old =>
      have hmem : key ∈ m.keys := Finmap.mem_keys.mpr (Finmap.mem_of_lookup_eq_some hm)
      simp [mapCall, hm, hmem]

/-- `xht_get` looks the key up. -/
theorem xhtGet_spec (hwf : t.Wf hash) (h : t.Represents m) (hfuel : t.items.length < fuel)
    (ifAbsent : V) :
    xhtGet fuel t key (hash key) ifAbsent = .ok ((m.lookup key).getD ifAbsent) := by
  cases hm : m.lookup key with
  | none =>
      obtain ⟨s, hs, hfind⟩ := hwf.find_none (h.absent hm) hfuel
      simp [xhtGet, xhtLoad_eq_ok.mpr hs, hfind, bind, Except.bind, pure, Except.pure]
  | some value =>
      obtain ⟨i, item, hi, rfl, rfl⟩ := h.item hm
      obtain ⟨s, hs, hfind⟩ := hwf.find_some hi hfuel
      simp [xhtGet, xhtLoad_eq_ok.mpr hs, hfind, bind, Except.bind, pure, Except.pure]

/-- `xht_put` finds the entry of a key that is there. -/
theorem xhtPut_present (hwf : t.Wf hash) (h : t.Represents m) (hfuel : t.items.length < fuel)
    {old : V} (hm : m.lookup key = some old) (value : V) :
    ∃ i item, xhtPut fuel t key (hash key) value = .ok (i, t) ∧ t.items[i]? = some item ∧
      item.key = key ∧ item.value = old := by
  obtain ⟨i, item, hi, rfl, rfl⟩ := h.item hm
  obtain ⟨s, hs, hfind⟩ := hwf.find_some hi hfuel
  refine ⟨i, item, ?_, hi, rfl, rfl⟩
  simp [xhtPut, xhtLoad_eq_ok.mpr hs, hfind, bind, Except.bind, pure, Except.pure]

/-- `xht_put` returns the entry of the key, which is a new one when the key is new. -/
theorem xhtPut_spec (hwf : t.Wf hash) (h : t.Represents m) (hfuel : t.items.length < fuel)
    (hfits : (insert key m.keys).card ≤ maxItems) (value : V) :
    ∃ i item t', xhtPut fuel t key (hash key) value = .ok (i, t') ∧ t'.items[i]? = some item ∧
      item.key = key ∧ item.value = (m.lookup key).getD value ∧ t'.Wf hash ∧
      t'.Represents (mapCall m (.put key value)).2 := by
  cases hm : m.lookup key with
  | none =>
      have habsent := h.absent hm
      obtain ⟨s, hs, hfind⟩ := hwf.find_none habsent hfuel
      have hroom : t.items.length < maxItems := by
        rw [Finset.card_insert_of_notMem (by rwa [h.mem_keys]), h.card hwf] at hfits
        exact hfits
      obtain ⟨t', hrun, hwf', hentries⟩ := insert_spec hwf habsent hroom value
      have hnew : t'.entries[t.items.length]? = some (key, value, hash key) := by
        simp [hentries]
      rw [entries, List.getElem?_map, Option.map_eq_some_iff] at hnew
      obtain ⟨item, hi, he⟩ := hnew
      simp only [Prod.mk.injEq] at he
      refine ⟨_, item, t', ?_, hi, he.1, he.2.1, hwf', ?_⟩
      · simp [xhtPut, xhtLoad_eq_ok.mpr hs, hfind, hrun, bind, Except.bind]
      · simpa [mapCall, hm] using h.insert hm hentries
  | some old =>
      obtain ⟨i, item, hrun, hi, hkey, hold⟩ := xhtPut_present hwf h hfuel hm value
      exact ⟨i, item, t, hrun, hi, hkey, hold, hwf, by simpa [mapCall, hm] using h⟩

/-- `xht_remove` removes the entry of the key. -/
theorem xhtRemove_spec (hwf : t.Wf hash) (h : t.Represents m) (hfuel : t.items.length < fuel)
    (ifAbsent : V) :
    ∃ t', xhtRemove fuel t key (hash key) ifAbsent = .ok ((m.lookup key).getD ifAbsent, t') ∧
      t'.Wf hash ∧ t'.Represents (m.erase key) := by
  cases hm : m.lookup key with
  | none =>
      have herase : m.erase key = m := by
        refine Finmap.ext_lookup fun k => ?_
        rcases eq_or_ne k key with rfl | hne
        · rw [Finmap.lookup_erase, hm]
        · rw [Finmap.lookup_erase_ne hne]
      rw [herase]
      exact ⟨t, xhtRemove_absent hwf (h.absent hm) hfuel ifAbsent, hwf, h⟩
  | some value =>
      obtain ⟨i, item, hi, rfl, rfl⟩ := h.item hm
      obtain ⟨t', hrun, hwf', hentries⟩ := xhtRemove_present hwf hi hfuel ifAbsent
      exact ⟨t', hrun, hwf', h.erase hwf hi hentries⟩

/-- One call on a well-formed table does what it does on the map. -/
theorem xhtCall_spec (hwf : t.Wf hash) (h : t.Represents m) (hfuel : maxItems < fuel)
    (call : MapCall V) (hfits : (mapCall m call).2.keys.card ≤ maxItems) :
    ∃ t', xhtCall hash fuel t call = .ok ((mapCall m call).1, t') ∧ t'.Wf hash ∧
      t'.Represents (mapCall m call).2 := by
  have hlen := hwf.length_le
  have hfuel' : t.items.length < fuel := by omega
  cases call with
  | size =>
      refine ⟨t, ?_, hwf, h⟩
      simp only [xhtCall, xhtSize, mapCall]
      rw [h.card hwf]
      rfl
  | get key ifAbsent =>
      refine ⟨t, ?_, hwf, h⟩
      rw [xhtCall, xhtGet_spec hwf h hfuel']
      rfl
  | put key value =>
      rw [keys_put] at hfits
      obtain ⟨i, item, t', hrun, hi, hkey, hvalue, hwf', h'⟩ :=
        xhtPut_spec hwf h hfuel' hfits value
      refine ⟨t', ?_, hwf', h'⟩
      rw [xhtCall, hrun]
      simp only [bind, Except.bind, xhtLoad_eq_ok.mpr hi, pure, Except.pure, hkey, hvalue, mapCall]
      cases m.lookup key <;> rfl
  | remove key ifAbsent =>
      obtain ⟨t', hrun, hwf', h'⟩ := xhtRemove_spec hwf h hfuel' ifAbsent
      refine ⟨t', ?_, hwf', h'⟩
      rw [xhtCall, hrun]
      rfl

/-- A full table has no room for another key. -/
theorem xhtPut_panics (hwf : t.Wf hash) (h : t.Represents m) (hfuel : maxItems < fuel)
    (hm : m.lookup key = none) (hfull : m.keys.card = maxItems) :
    xhtPut fuel t key (hash key) value = .error .panic := by
  rw [h.card hwf] at hfull
  obtain ⟨s, hs, hfind⟩ := hwf.find_none (h.absent hm) (hfull.symm ▸ hfuel)
  simp [xhtPut, xhtLoad_eq_ok.mpr hs, hfind, insert_panics hwf hfull, bind, Except.bind]

/-! ## Runs -/

theorem card_mapCall_le (call : MapCall V) : (mapCall m call).2.keys.card ≤ m.keys.card + 1 := by
  cases call with
  | put key value =>
      rw [keys_put]
      exact Finset.card_insert_le key m.keys
  | get key ifAbsent => exact Nat.le_succ _
  | remove key ifAbsent =>
      have hle := Finset.card_erase_le (s := m.keys) (a := key)
      simp only [mapCall, Finmap.keys_erase]
      omega
  | size => exact Nat.le_succ _

/-- Calls add as many keys as they are at most. -/
theorem card_mapRun_le (m : ByteMap V) (calls : List (MapCall V)) :
    (mapRun m calls).2.keys.card ≤ m.keys.card + calls.length := by
  induction calls generalizing m with
  | nil => exact Nat.le_refl _
  | cons call calls ih =>
      have hcall := card_mapCall_le (m := m) call
      have hcalls := ih (mapCall m call).2
      rw [List.length_cons]
      simp only [mapRun]
      omega

theorem mapRun_append (m : ByteMap V) (calls calls' : List (MapCall V)) :
    (mapRun m (calls ++ calls')).2 = (mapRun (mapRun m calls).2 calls').2 := by
  induction calls generalizing m with
  | nil => rfl
  | cons call calls ih => exact ih _

/-- A run stops where a call stops. -/
theorem xhtRun_error {t' : Xht V} {results : List (MapResult V)} {call : MapCall V} {e : XhtFault}
    {calls : List (MapCall V)} (hrun : xhtRun hash fuel t calls = .ok (results, t'))
    (hcall : xhtCall hash fuel t' call = .error e) :
    xhtRun hash fuel t (calls ++ [call]) = .error e := by
  induction calls generalizing t results with
  | nil =>
      obtain ⟨-, rfl⟩ := Prod.mk.inj (Except.ok.inj hrun)
      rw [List.nil_append, xhtRun, hcall]
      rfl
  | cons first calls ih =>
      rw [xhtRun] at hrun
      rw [List.cons_append, xhtRun]
      cases hfirst : xhtCall hash fuel t first with
      | error e' =>
          rw [hfirst] at hrun
          cases hrun
      | ok a =>
          obtain ⟨result, t₁⟩ := a
          rw [hfirst] at hrun
          simp only [bind, Except.bind] at hrun ⊢
          cases hrest : xhtRun hash fuel t₁ calls with
          | error e' =>
              rw [hrest] at hrun
              cases hrun
          | ok a =>
              obtain ⟨results₁, t₂⟩ := a
              rw [hrest] at hrun
              obtain ⟨-, rfl⟩ := Prod.mk.inj (Except.ok.inj hrun)
              rw [ih hrest]

/-- Calls on a well-formed table do what they do on the map. -/
theorem xhtRun_spec (hwf : t.Wf hash) (h : t.Represents m) (hfuel : maxItems < fuel)
    (calls : List (MapCall V))
    (hfits : ∀ calls', calls' <+: calls → (mapRun m calls').2.keys.card ≤ maxItems) :
    ∃ t', xhtRun hash fuel t calls = .ok ((mapRun m calls).1, t') ∧ t'.Wf hash ∧
      t'.Represents (mapRun m calls).2 := by
  induction calls generalizing t m with
  | nil => exact ⟨t, rfl, hwf, h⟩
  | cons call calls ih =>
      have hcall : (mapCall m call).2.keys.card ≤ maxItems :=
        hfits [call] (List.prefix_append [call] calls)
      obtain ⟨t₁, hrun₁, hwf₁, h₁⟩ := xhtCall_spec hwf h hfuel call hcall
      obtain ⟨t₂, hrun₂, hwf₂, h₂⟩ := ih hwf₁ h₁ fun calls' hcalls' =>
        hfits (call :: calls') (List.cons_prefix_cons.mpr ⟨rfl, hcalls'⟩)
      refine ⟨t₂, ?_, hwf₂, h₂⟩
      rw [xhtRun, hrun₁]
      simp only [bind, Except.bind]
      rw [hrun₂]
      rfl

theorem Wf.nbuckets_le (h : t.Wf hash) : t.nbuckets ≤ 2 ^ 31 := by
  obtain ⟨r, hr, hn⟩ := h.rank
  rw [hn]
  exact Nat.pow_le_pow_right (by decide) hr

/-- Iterating gives the keys of the map. -/
theorem Represents.keys (hwf : t.Wf hash) (h : t.Represents m) (hfuel : 2 ^ 31 < fuel) :
    ∃ keys, xhtKeys hash fuel t = .ok keys ∧ keys.Nodup ∧ keys.toFinset = m.keys := by
  have hlen := hwf.length_le
  unfold maxItems at hlen
  obtain ⟨keys, hrun, hperm⟩ := hwf.keys (show t.items.length < fuel by omega)
    (Nat.lt_of_le_of_lt hwf.nbuckets_le hfuel)
  refine ⟨keys, hrun, hperm.nodup_iff.mpr hwf.distinct, ?_⟩
  ext key
  rw [List.mem_toFinset, hperm.mem_iff, h.mem_keys]

end Xht

/-- A table behaves as a finite map for as long as the map has at most `maxItems` keys. -/
theorem xht_refines_map (hash : Bytes → UInt32) (rank : Nat) (hrank : rank ≤ 31)
    (calls : List (MapCall V))
    (hfits : ∀ calls', calls' <+: calls → (mapRun ∅ calls').2.keys.card ≤ maxItems) :
    RefinesMap hash rank calls := by
  refine ⟨2 ^ 31 + 1, fun fuel hfuel => ?_⟩
  have hfuel' : maxItems < fuel := by
    unfold maxItems
    omega
  obtain ⟨t, hrun, hwf, h⟩ := xhtRun_spec (wf_new hrank) represents_new hfuel' calls hfits
  obtain ⟨keys, hkeys, hnodup, hset⟩ := h.keys hwf hfuel
  exact ⟨t, keys, hrun, hkeys, hnodup, hset⟩

theorem xht_refines_map_colliding :
    RefinesMap (fun _ => 0) 0
      [.put [1] 5, .put [2] 6, .put [1] 7, .remove [1] 0, .get [2] 0, .size] :=
  xht_refines_map (fun _ => 0) 0 (by decide) _ fun calls' hcalls' => by
    have hlen := hcalls'.length_le
    have hcard := card_mapRun_le ∅ calls'
    unfold maxItems
    simp only [Finmap.keys_empty, Finset.card_empty, List.length_cons, List.length_nil] at hlen hcard
    omega

/-! ## The largest table -/

/-- A key of four bytes for a number. -/
def keyAt (i : Nat) : Bytes :=
  [i.toUInt8, (i / 2 ^ 8).toUInt8, (i / 2 ^ 16).toUInt8, (i / 2 ^ 24).toUInt8]

/-- The calls that put the first `n` keys of four bytes. -/
def putAll (n : Nat) : List (MapCall Unit) := (List.range n).map fun i => .put (keyAt i) ()

/-- One key more than the table has room for. -/
def overfull : List (MapCall Unit) := putAll (maxItems + 1)

theorem keyAt_inj {i j : Nat} (hi : i < 2 ^ 32) (hj : j < 2 ^ 32) (h : keyAt i = keyAt j) :
    i = j := by
  have hbyte : ∀ {x y : Nat}, x.toUInt8 = y.toUInt8 → x % 2 ^ 8 = y % 2 ^ 8 := fun hxy => by
    simpa only [Nat.toUInt8_eq, UInt8.toNat_ofNat'] using congrArg UInt8.toNat hxy
  simp only [keyAt, List.cons.injEq, and_true] at h
  obtain ⟨h₀, h₁, h₂, h₃⟩ := h
  have h₀ := hbyte h₀
  have h₁ := hbyte h₁
  have h₂ := hbyte h₂
  have h₃ := hbyte h₃
  omega

theorem putAll_succ (n : Nat) : putAll (n + 1) = putAll n ++ [.put (keyAt n) ()] := by
  rw [putAll, List.range_succ, List.map_append]
  rfl

theorem keys_putAll (n : Nat) :
    (mapRun ∅ (putAll n)).2.keys = ((List.range n).map keyAt).toFinset := by
  induction n with
  | zero => rfl
  | succ n ih =>
      rw [putAll_succ, mapRun_append]
      simp only [mapRun]
      rw [Xht.keys_put, ih, List.range_succ, List.map_append, List.toFinset_append,
        Finset.insert_eq, Finset.union_comm]
      rfl

theorem card_putAll {n : Nat} (hn : n ≤ 2 ^ 32) : (mapRun ∅ (putAll n)).2.keys.card = n := by
  have hnodup : ((List.range n).map keyAt).Nodup := by
    refine List.nodup_range.map_on fun i hi j hj h => ?_
    rw [List.mem_range] at hi hj
    exact keyAt_inj (hi.trans_le hn) (hj.trans_le hn) h
  rw [keys_putAll, List.toFinset_card_of_nodup hnodup, List.length_map, List.length_range]

theorem card_putAll_prefix {n : Nat} {calls : List (MapCall Unit)} (h : calls <+: putAll n) :
    (mapRun ∅ calls).2.keys.card ≤ n := by
  have hlen := h.length_le
  have hcard := card_mapRun_le ∅ calls
  rw [putAll, List.length_map, List.length_range] at hlen
  rw [Finmap.keys_empty, Finset.card_empty] at hcard
  omega

/-- The last put of `overfull` finds the buckets at their largest. -/
theorem overfull_panics {fuel : Nat} (hfuel : maxItems < fuel) :
    xhtRun (fun _ => 0) fuel (xhtNew 0) overfull = .error .panic := by
  obtain ⟨t, hrun, hwf, h⟩ := xhtRun_spec
    (show (xhtNew 0 : Xht Unit).Wf fun _ => 0 from wf_new (Nat.zero_le 31))
    represents_new hfuel (putAll maxItems) fun calls' hcalls' => card_putAll_prefix hcalls'
  rw [overfull, putAll_succ]
  refine xhtRun_error hrun ?_
  have hmax : maxItems < 2 ^ 32 := by decide
  have hcard : (mapRun ∅ (putAll maxItems)).2.keys.card = maxItems := card_putAll hmax.le
  have hnew : (mapRun ∅ (putAll maxItems)).2.lookup (keyAt maxItems) = none := by
    rw [Finmap.lookup_eq_none, ← Finmap.mem_keys, keys_putAll, List.mem_toFinset, List.mem_map]
    rintro ⟨i, hi, hkey⟩
    have hlt := List.mem_range.mp hi
    have heq := keyAt_inj (hlt.trans hmax) hmax hkey
    omega
  rw [xhtCall, xhtPut_panics hwf h hfuel hnew hcard]
  rfl

/-- Fewer than `2 ^ 31` keys can be too many. -/
theorem xht_overfull_not_map :
    (∀ calls', calls' <+: overfull → (mapRun ∅ calls').2.keys.card < 2 ^ 31) ∧
      ¬ RefinesMap (fun _ => 0) 0 overfull := by
  constructor
  · intro calls' hcalls'
    have hle := card_putAll_prefix hcalls'
    unfold maxItems at hle
    omega
  · rintro ⟨enough, h⟩
    obtain ⟨t, keys, hrun, -⟩ := h (enough + maxItems + 1) (by omega)
    rw [overfull_panics (by omega)] at hrun
    cases hrun

end Calx
