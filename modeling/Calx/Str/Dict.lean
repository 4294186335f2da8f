import Calx.Str.Compare
import Calx.Xht.Refines

/-!
# Dicts

The dicts of `dict.h`: hash tables that are given the data, the size and the hash
of a string. A dict is a finite map from texts, whatever strings hold them.

## Implementation notes

A null value is `none`. The references that a dict holds to its values are left
out. Storing at a key is what the machine does with the pointer of `dict_get_ptr`.
-/

namespace Calx.Str

open Refcount

/-- `Dict`. -/
abbrev Dict := Xht (Option Value)

/-- A chain has no more items than the table. -/
def chainFuel : Nat := maxItems + 1

/-- A call on a table, in a program on strings. -/
def ofXht {β : Type} : Except XhtFault β → Strings β
  | .ok b => pure b
  | .error .panic => throw .table
  | .error _ => Attempt.compute none

/-- The text and the hash of a key. -/
def keyOf (key : Addr) : Strings (Bytes × UInt32) := do
  let x ← Attempt.load key
  let text ← Attempt.compute (Block.read x.data 0 x.size)
  pure (text, x.hash)

/-- `dict_get`. -/
def dictGet (d : Dict) (key : Addr) : Strings (Option Value) := do
  let (text, hash) ← keyOf key
  ofXht (xhtGet chainFuel d text hash none)

/-- `dict_get_ptr`: the index of the entry. -/
def dictGetPtr (d : Dict) (key : Addr) : Strings (Nat × Dict) := do
  let (text, hash) ← keyOf key
  let (r, d) ← ofXht (xhtPut chainFuel d text hash none)
  let item ← ofXht (xhtLoad d.items r)
  if item.value = none then pure (r, d.setValue r (some .nil)) else pure (r, d)

/-- `dict_get_ptr` with the text of the key. -/
def dictEntry (d : Dict) (text : Bytes) : Except XhtFault (Nat × Dict) := do
  let (r, d) ← xhtPut chainFuel d text (hashStr text) none
  let item ← xhtLoad d.items r
  if item.value = none then pure (r, d.setValue r (some .nil)) else pure (r, d)

/-- `checked_store` through `dict_get_ptr`. -/
def dictStore (d : Dict) (key : Addr) (v : Value) : Strings Dict := do
  let (r, d) ← dictGetPtr d key
  pure (d.setValue r (some v))

/-- `dict_remove`. -/
def dictRemove (d : Dict) (key : Addr) : Strings (Bool × Dict) := do
  let (text, hash) ← keyOf key
  let (r, d) ← ofXht (xhtRemove chainFuel d text hash none)
  pure (r.isSome, d)

open Xht

/-- The dict has the entries of a map from texts. -/
def Holds (d : Dict) (m : ByteMap Value) : Prop :=
  d.Wf hashStr ∧ ∃ M, d.Represents M ∧ ∀ key, M.lookup key = (m.lookup key).map some

variable {mem : Memory StringObj} {key : Addr} {x : StringObj} {text : Bytes}
  {room : List (Option UInt8)} {d : Dict} {m : ByteMap Value} {M : ByteMap (Option Value)}

theorem holds_new : Holds (xhtNew 0) ∅ :=
  ⟨wf_new (Nat.zero_le 31), ∅, represents_new, fun _ => rfl⟩

theorem keys_eq (h : ∀ key, M.lookup key = (m.lookup key).map some) : M.keys = m.keys := by
  ext key
  rw [Finmap.mem_keys, Finmap.mem_keys, ← Finmap.lookup_isSome, ← Finmap.lookup_isSome, h,
    Option.isSome_map]

/-- A key is its text with the hash of it, whichever string it is. -/
theorem keyOf_bind {β : Type} {f : Bytes × UInt32 → Strings β} (hx : mem.content? key = some x)
    (hold : x.Holds text room) : (keyOf key >>= f) mem = f (text, hashStr text) mem := by
  have hread := hold.read (Nat.le_refl text.length)
  rw [List.take_length] at hread
  rw [keyOf, bind_assoc, Attempt.load_bind hx, hold.size, bind_assoc, Attempt.compute_bind hread,
    pure_bind, hold.hash]

theorem ofXht_bind {α β : Type} {c : Except XhtFault α} {f : α → Strings β} {a : α}
    (h : c = .ok a) : (ofXht c >>= f) mem = f a mem := by
  rw [h]
  rfl

/-- A lookup finds what is stored under the text. -/
theorem xhtGet_holds (h : Holds d m) :
    xhtGet chainFuel d text (hashStr text) none = .ok (m.lookup text) := by
  obtain ⟨hwf, M, hM, hlookup⟩ := h
  have hfuel : d.items.length < chainFuel := Nat.lt_succ_of_le hwf.length_le
  have hget : xhtGet chainFuel d text (hashStr text) none = .ok ((M.lookup text).getD none) :=
    xhtGet_spec hwf hM hfuel none
  rw [hget, hlookup]
  cases m.lookup text <;> rfl

theorem dictGet_run (h : Holds d m) (hx : mem.content? key = some x) (hold : x.Holds text room) :
    dictGet d key mem = some (.ok (m.lookup text), mem) := by
  rw [dictGet, keyOf_bind hx hold]
  dsimp only
  rw [xhtGet_holds h]
  rfl

/-- Removing removes what is stored under the text. -/
theorem xhtRemove_holds (h : Holds d m) (text : Bytes) :
    ∃ d', xhtRemove chainFuel d text (hashStr text) none = .ok (m.lookup text, d') ∧
      Holds d' (m.erase text) := by
  obtain ⟨hwf, M, hM, hlookup⟩ := h
  have hfuel : d.items.length < chainFuel := Nat.lt_succ_of_le hwf.length_le
  obtain ⟨d', hrun, hwf', hM'⟩ :
      ∃ d', xhtRemove chainFuel d text (hashStr text) none =
          .ok ((M.lookup text).getD none, d') ∧ d'.Wf hashStr ∧ d'.Represents (M.erase text) :=
    xhtRemove_spec hwf hM hfuel none
  refine ⟨d', ?_, hwf', M.erase text, hM', fun k => ?_⟩
  · rw [hrun, hlookup]
    cases m.lookup text <;> rfl
  · rcases eq_or_ne k text with rfl | hne
    · rw [Finmap.lookup_erase, Finmap.lookup_erase, Option.map_none]
    · rw [Finmap.lookup_erase_ne hne, Finmap.lookup_erase_ne hne, hlookup]

theorem dictRemove_run (h : Holds d m) (hx : mem.content? key = some x)
    (hold : x.Holds text room) :
    ∃ d', dictRemove d key mem = some (.ok ((m.lookup text).isSome, d'), mem) ∧
      Holds d' (m.erase text) := by
  obtain ⟨d', hrun, hholds⟩ := xhtRemove_holds h text
  refine ⟨d', ?_, hholds⟩
  rw [dictRemove, keyOf_bind hx hold]
  dsimp only
  rw [ofXht_bind hrun]
  rfl

/-- What is written to an entry is stored under its key. -/
theorem Holds.setValue {i : Nat} {item : XhtItem (Option Value)} (h : Holds d m)
    (hi : d.items[i]? = some item) (v : Value) :
    Holds (d.setValue i (some v)) (m.insert item.key v) := by
  obtain ⟨hwf, M, hM, hlookup⟩ := h
  refine ⟨hwf.setValue hi _, _, hM.setValue hwf hi _, fun k => ?_⟩
  rcases eq_or_ne k item.key with rfl | hk
  · rw [Finmap.lookup_insert, Finmap.lookup_insert, Option.map_some]
  · rw [Finmap.lookup_insert_of_ne _ hk, Finmap.lookup_insert_of_ne _ hk, hlookup]

/-! ## Entries -/

theorem Holds.card (h : Holds d m) : m.keys.card = d.items.length := by
  obtain ⟨hwf, M, hM, hlookup⟩ := h
  rw [← keys_eq hlookup, hM.card hwf]

/-- A text that no entry has for its key is not there. -/
theorem Holds.absent_iff (h : Holds d m) :
    (∀ item ∈ d.items, item.key ≠ text) ↔ m.lookup text = none := by
  obtain ⟨-, M, hM, hlookup⟩ := h
  have hkeys : m.lookup text = none ↔ text ∉ d.entries.map Prod.fst := by
    rw [← hM.mem_keys, keys_eq hlookup, Finmap.mem_keys, Finmap.lookup_eq_none]
  rw [hkeys, List.mem_map]
  constructor
  · rintro hall ⟨e, he, rfl⟩
    obtain ⟨n, item, hitem, rfl⟩ := mem_entries.mp he
    exact hall item (List.mem_of_getElem? hitem) rfl
  · intro hnot item hitem heq
    obtain ⟨n, hn⟩ := List.mem_iff_getElem?.mp hitem
    exact hnot ⟨_, mem_entries.mpr ⟨n, item, hn, rfl⟩, heq⟩

/-- What an entry holds is stored under its key. -/
theorem Holds.lookup_item (h : Holds d m) {i : Nat} {item : XhtItem (Option Value)}
    (hi : d.items[i]? = some item) {v : Value} (hv : item.value = some v) :
    m.lookup item.key = some v := by
  obtain ⟨-, M, hM, hlookup⟩ := h
  have hentry : M.lookup item.key = some (some v) :=
    (hM _ _).mpr ⟨_, mem_entries.mpr ⟨i, item, hi, by rw [hv]⟩⟩
  rw [hlookup, Option.map_eq_some_iff] at hentry
  obtain ⟨w, hw, heq⟩ := hentry
  rw [hw, Option.some.inj heq]

/-- The entry of a text that is there. -/
theorem dictEntry_present (h : Holds d m) {v : Value} (hkey : m.lookup text = some v) :
    ∃ r item, dictEntry d text = .ok (r, d) ∧ d.items[r]? = some item ∧ item.key = text ∧
      item.value = some v := by
  obtain ⟨hwf, M, hM, hlookup⟩ := h
  have hfuel : d.items.length < chainFuel := Nat.lt_succ_of_le hwf.length_le
  have hM' : M.lookup text = some (some v) := by rw [hlookup, hkey, Option.map_some]
  obtain ⟨r, item, hput, hr, hitem, hvalue⟩ := xhtPut_present hwf hM hfuel hM' none
  refine ⟨r, item, ?_, hr, hitem, hvalue⟩
  rw [dictEntry, hput]
  simp [bind, Except.bind, pure, Except.pure, xhtLoad_eq_ok.mpr hr, hvalue]

/-- The entry of a new text is nil. -/
theorem dictEntry_new (h : Holds d m) (hkey : m.lookup text = none)
    (hroom : d.items.length < maxItems) :
    ∃ r item d', dictEntry d text = .ok (r, d') ∧ d'.items[r]? = some item ∧ item.key = text ∧
      item.value = some .nil ∧ Holds d' (m.insert text .nil) := by
  have hcard := h.card
  obtain ⟨hwf, M, hM, hlookup⟩ := h
  have hfuel : d.items.length < chainFuel := Nat.lt_succ_of_le hwf.length_le
  have hM' : M.lookup text = none := by rw [hlookup, hkey, Option.map_none]
  have hfits : (insert text M.keys).card ≤ maxItems := by
    have hle := Finset.card_insert_le text M.keys
    rw [keys_eq hlookup] at hle ⊢
    omega
  obtain ⟨r, item, t, hput, hr, rfl, hvalue, hwf', hM''⟩ := xhtPut_spec hwf hM hfuel hfits none
  have hnull : item.value = none := by rw [hvalue, hM', Option.getD_none]
  refine ⟨r, { item with value := some .nil }, t.setValue r (some .nil), ?_, ?_, rfl, rfl, ?_⟩
  · rw [dictEntry, hput]
    simp [bind, Except.bind, pure, Except.pure, xhtLoad_eq_ok.mpr hr, hnull]
  · rw [getElem?_setValue hr, if_pos rfl]
  · refine ⟨hwf'.setValue hr _, _, hM''.setValue hwf' hr _, fun k => ?_⟩
    rcases eq_or_ne k item.key with rfl | hk
    · rw [Finmap.lookup_insert, Finmap.lookup_insert, Option.map_some]
    · rw [Finmap.lookup_insert_of_ne _ hk, Finmap.lookup_insert_of_ne _ hk, ← hlookup]
      simp only [mapCall, hM', Finmap.lookup_insert_of_ne _ hk]

/-- A full table takes no new text. -/
theorem dictEntry_full (h : Holds d m) (hkey : m.lookup text = none)
    (hfull : maxItems ≤ d.items.length) : dictEntry d text = .error .panic := by
  have hcard := h.card
  obtain ⟨hwf, M, hM, hlookup⟩ := h
  have hM' : M.lookup text = none := by rw [hlookup, hkey, Option.map_none]
  have hfull' : M.keys.card = maxItems := by
    have hle := hwf.length_le
    rw [keys_eq hlookup]
    omega
  have hput : xhtPut chainFuel d text (hashStr text) none = .error .panic :=
    xhtPut_panics hwf hM (Nat.lt_succ_self maxItems) hM' hfull'
  rw [dictEntry, hput]
  rfl

theorem ofXht_andThen {α β : Type} (c : Except XhtFault α) (f : α → Except XhtFault β) :
    ofXht (c >>= f) = ofXht c >>= fun a => ofXht (f a) := by
  cases c with
  | ok a => exact (pure_bind a fun a => ofXht (f a)).symm
  | error e => cases e <;> rfl

/-- The string that is the key matters by its text only. -/
theorem dictGetPtr_bind {β : Type} {f : Nat × Dict → Strings β} (hx : mem.content? key = some x)
    (hold : x.Holds text room) :
    (dictGetPtr d key >>= f) mem = (ofXht (dictEntry d text) >>= f) mem := by
  have hentry : ofXht (dictEntry d text) =
      ofXht (xhtPut chainFuel d text (hashStr text) none) >>= fun r =>
        ofXht (xhtLoad r.2.items r.1) >>= fun item =>
          if item.value = none then pure (r.1, r.2.setValue r.1 (some .nil)) else pure r := by
    rw [dictEntry, ofXht_andThen]
    congr 1
    funext r
    rw [ofXht_andThen]
    congr 1
    funext item
    split <;> rfl
  rw [dictGetPtr, bind_assoc, keyOf_bind hx hold, hentry]

/-- Storing stores under the text, unless the table is full. -/
theorem dictStore_run (h : Holds d m) (hx : mem.content? key = some x) (hold : x.Holds text room)
    (v : Value) :
    (dictStore d key v mem = some (.error .table, mem) ∧
        maxItems < (m.insert text v).keys.card) ∨
      ∃ d', dictStore d key v mem = some (.ok d', mem) ∧ Holds d' (m.insert text v) := by
  rw [dictStore, dictGetPtr_bind hx hold]
  cases hkey : m.lookup text with
  | some old =>
      right
      obtain ⟨r, item, hentry, hr, rfl, -⟩ := dictEntry_present h hkey
      refine ⟨d.setValue r (some v), ?_, h.setValue hr v⟩
      rw [ofXht_bind hentry]
      rfl
  | none =>
      by_cases hroom : d.items.length < maxItems
      · right
        obtain ⟨r, item, d', hentry, hr, rfl, -, hd⟩ := dictEntry_new h hkey hroom
        have hstored := hd.setValue hr v
        rw [Finmap.insert_insert] at hstored
        refine ⟨d'.setValue r (some v), ?_, hstored⟩
        rw [ofXht_bind hentry]
        rfl
      · left
        have hnew : text ∉ m.keys := by
          rw [Finmap.mem_keys]
          exact Finmap.lookup_eq_none.mp hkey
        have hkeys : (m.insert text v).keys = insert text m.keys := by
          ext k
          simp [Finmap.mem_keys, Finmap.mem_insert]
        refine ⟨?_, ?_⟩
        · rw [dictEntry_full h hkey (not_lt.mp hroom)]
          rfl
        · rw [hkeys, Finset.card_insert_of_notMem hnew, h.card]
          omega

end Calx.Str
