import Calx.Xht.Basic
import Calx.Lib.Chain

/-!
# Chains of the hash table

Each bucket heads a chain of items. The loops of the hash table walk along one
chain; its writes replace one link. What a write does to the chain through the
written link, and to the other chains, is stated once for all operations.

## Implementation notes

`Linked t live chain` says that the chain of every bucket holds exactly the
live items that hash into it. The links are the table's own; `chain` is
determined by them.
-/

namespace Calx

/-- A link as a node: `(uint32_t) -1` is the end of a chain. -/
def ofIdx (i : Nat) : Option Nat := if i = noIndex then none else some i

theorem ofIdx_eq_none {i : Nat} : ofIdx i = none ↔ i = noIndex := by
  simp [ofIdx]

theorem ofIdx_eq_some {i j : Nat} : ofIdx i = some j ↔ i = j ∧ j ≠ noIndex := by
  unfold ofIdx
  split
  · simp_all
  · constructor
    · rintro h
      obtain rfl := Option.some.inj h
      exact ⟨rfl, ‹_›⟩
    · rintro ⟨rfl, -⟩
      rfl

@[simp] theorem xhtLoad_eq_ok {α : Type} {l : List α} {i : Nat} {a : α} :
    xhtLoad l i = .ok a ↔ l[i]? = some a := by
  unfold xhtLoad
  cases l[i]? <;> simp

namespace Xht

variable {V : Type}

/-- The link function of the items. -/
def links (t : Xht V) (i : Nat) : Option Nat := t.items[i]?.bind fun item => ofIdx item.next

/-- The bucket of an item. -/
def home (t : Xht V) (i : Nat) : Option Nat :=
  t.items[i]?.map fun item => t.bucketOf item.hash

/-- Each bucket's chain holds the live items that hash into the bucket. -/
structure Linked (t : Xht V) (live : Nat → Prop) (chain : Nat → List Nat) : Prop where
  chained : ∀ b s, t.buckets[b]? = some s → LinkChain t.links (ofIdx s) (chain b)
  mem_iff : ∀ b < t.buckets.length, ∀ i, i ∈ chain b ↔ live i ∧ t.home i = some b

/-- What of the items does not depend on the links. -/
def entries (t : Xht V) : List (Bytes × V × UInt32) :=
  t.items.map fun item => (item.key, item.value, item.hash)

variable {t : Xht V} {live : Nat → Prop} {chain : Nat → List Nat} {b i j n s v : Nat}
  {l l₁ l₂ l₃ p q : List Nat} {key : Bytes} {item : XhtItem V} {fuel : Nat} {slot : Slot}

theorem home_eq (h : t.items[i]? = some item) : t.home i = some (t.bucketOf item.hash) := by
  simp [home, h]

theorem lt_of_home (h : t.home i = some b) : i < t.items.length := by
  by_contra hge
  simp [home, List.getElem?_eq_none (Nat.le_of_not_lt hge)] at h

theorem Linked.lt (h : t.Linked live chain) (hb : b < t.buckets.length) (hi : i ∈ chain b) :
    i < t.items.length :=
  lt_of_home ((h.mem_iff b hb i).mp hi).2

theorem Linked.ne_of_mem (h : t.Linked live chain) (hb : b < t.buckets.length)
    (hb' : n < t.buckets.length) (hi : i ∈ chain b) (hi' : i ∈ chain n) : b = n := by
  have h1 := ((h.mem_iff b hb i).mp hi).2
  have h2 := ((h.mem_iff n hb' i).mp hi').2
  exact Option.some.inj (h1.symm.trans h2)

@[simp] theorem length_entries : t.entries.length = t.items.length := by
  simp [entries]

@[simp] theorem entries_write : (t.write v slot).entries = t.entries := by
  cases slot with
  | bucket b => rfl
  | next i =>
      refine List.ext_getElem? fun j => ?_
      simp only [entries, write, List.getElem?_map, List.getElem?_modify]
      split
      · cases t.items[j]? <;> rfl
      · simp

@[simp] theorem length_items_write : (t.write v slot).items.length = t.items.length := by
  cases slot <;> simp [write]

@[simp] theorem length_buckets_write : (t.write v slot).buckets.length = t.buckets.length := by
  cases slot <;> simp [write]

@[simp] theorem nbuckets_write : (t.write v slot).nbuckets = t.nbuckets := by
  cases slot <;> rfl

@[simp] theorem itemsCapacity_write : (t.write v slot).itemsCapacity = t.itemsCapacity := by
  cases slot <;> rfl

theorem home_eq_entries : t.home i = t.entries[i]?.map fun e => e.2.2.toNat &&& (t.nbuckets - 1) := by
  simp [home, entries, bucketOf, Function.comp_def]

@[simp] theorem home_write : (t.write v slot).home i = t.home i := by
  simp [home_eq_entries]

/-! ## Links and slots -/

theorem links_eq (h : t.items[i]? = some item) : t.links i = ofIdx item.next := by
  simp [links, h]

/-- The slot behind the first nodes of a bucket's chain. -/
def slotAfter (b : Nat) (l : List Nat) : Slot :=
  match l.getLast? with
  | none => .bucket b
  | some i => .next i

@[simp] theorem slotAfter_nil : slotAfter b [] = .bucket b := rfl

@[simp] theorem slotAfter_concat : slotAfter b (l ++ [i]) = .next i := by
  simp [slotAfter]

/-- The slot behind the first nodes of a chain holds the rest of the chain. -/
theorem read_slotAfter (hs : t.buckets[b]? = some s) (hc : LinkChain t.links (ofIdx s) (l₁ ++ l₂))
    (hlt : ∀ i ∈ l₁, i < t.items.length) :
    ∃ n, t.read (slotAfter b l₁) = .ok n ∧ LinkChain t.links (ofIdx n) l₂ := by
  rcases List.eq_nil_or_concat l₁ with rfl | ⟨l, j, rfl⟩
  · exact ⟨s, by simpa [read] using hs, hc⟩
  · rw [List.concat_eq_append] at *
    have hj : j < t.items.length := hlt j (by simp)
    have hitem := List.getElem?_eq_getElem hj
    refine ⟨t.items[j].next, ?_, ?_⟩
    · simp [read, xhtLoad, hitem]
    · rw [← links_eq hitem]
      simp only [List.append_assoc, List.singleton_append] at hc
      exact hc.suffix

theorem links_write_next (hj : j < t.items.length) :
    (t.write v (.next j)).links = Function.update t.links j (ofIdx v) := by
  funext i
  simp only [links, write]
  rcases eq_or_ne i j with rfl | hne
  · simp [hj]
  · simp [hne, Ne.symm hne, links]

@[simp] theorem links_write_bucket : (t.write v (.bucket b)).links = t.links := rfl

/-- Writing a slot leaves the links of the nodes outside its first part alone. -/
theorem links_write_slotAfter (hlt : ∀ i ∈ l₁, i < t.items.length) (hj : j ∉ l₁) :
    (t.write v (slotAfter b l₁)).links j = t.links j := by
  rcases List.eq_nil_or_concat l₁ with rfl | ⟨l, i, rfl⟩
  · rfl
  · rw [List.concat_eq_append] at *
    rw [slotAfter_concat, links_write_next (hlt i (by simp)), Function.update_of_ne]
    rintro rfl
    simp at hj

/-- Writing a slot gives the chain through it a new rest. -/
theorem chained_write (hs : t.buckets[b]? = some s)
    (hc : LinkChain t.links (ofIdx s) (l₁ ++ l₂)) (hlt : ∀ i ∈ l₁, i < t.items.length)
    (h3 : LinkChain (t.write v (slotAfter b l₁)).links (ofIdx v) l₃) :
    ∃ s', (t.write v (slotAfter b l₁)).buckets[b]? = some s' ∧
      LinkChain (t.write v (slotAfter b l₁)).links (ofIdx s') (l₁ ++ l₃) := by
  rcases List.eq_nil_or_concat l₁ with rfl | ⟨l, j, rfl⟩
  · refine ⟨v, ?_, h3⟩
    simp [write, (List.getElem?_eq_some_iff.mp hs).1]
  · rw [List.concat_eq_append] at *
    simp only [slotAfter_concat, List.append_assoc, List.singleton_append] at *
    rw [links_write_next (hlt j (by simp))] at h3 ⊢
    exact ⟨s, hs, hc.update h3⟩

/-- Writing a slot leaves the chains of the other buckets alone. -/
theorem chained_write_of_ne (hne : b ≠ i) (hs : t.buckets[i]? = some s)
    (hc : LinkChain t.links (ofIdx s) l) (hlt : ∀ i ∈ l₁, i < t.items.length)
    (hdisj : ∀ j ∈ l₁, j ∉ l) :
    (t.write v (slotAfter b l₁)).buckets[i]? = some s ∧
      LinkChain (t.write v (slotAfter b l₁)).links (ofIdx s) l := by
  rcases List.eq_nil_or_concat l₁ with rfl | ⟨l', j, rfl⟩
  · exact ⟨by simpa [write, List.getElem?_set_ne hne] using hs, hc⟩
  · rw [List.concat_eq_append] at *
    simp only [slotAfter_concat]
    rw [links_write_next (hlt j (by simp))]
    exact ⟨hs, hc.update_of_notMem (hdisj j (by simp))⟩

/-- Writing a slot of a bucket's chain. -/
theorem Linked.write {live' : Nat → Prop} (h : t.Linked live chain) (hb : b < t.buckets.length)
    (hc : chain b = l₁ ++ l₂) (l₃ : List Nat)
    (h3 : LinkChain (t.write v (slotAfter b l₁)).links (ofIdx v) l₃)
    (hmem : ∀ i, i ∈ l₁ ++ l₃ ↔ live' i ∧ t.home i = some b)
    (hlive : ∀ i, t.home i ≠ some b → (live' i ↔ live i)) :
    (t.write v (slotAfter b l₁)).Linked live' (Function.update chain b (l₁ ++ l₃)) := by
  have hlt : ∀ i ∈ l₁, i < t.items.length := fun i hi =>
    h.lt hb (hc ▸ List.mem_append_left _ hi)
  refine ⟨fun b' s' hs' => ?_, fun b' hb' i => ?_⟩
  · rcases eq_or_ne b' b with rfl | hne
    · have hs := List.getElem?_eq_getElem hb
      obtain ⟨s'', hs'', hchain⟩ := chained_write hs (hc ▸ h.chained _ _ hs) hlt h3
      obtain rfl := Option.some.inj (hs''.symm.trans hs')
      rwa [Function.update_self]
    · have hb' : b' < t.buckets.length := by
        simpa using (List.getElem?_eq_some_iff.mp hs').1
      have hs := List.getElem?_eq_getElem hb'
      obtain ⟨hs'', hchain⟩ := chained_write_of_ne (v := v) (Ne.symm hne) hs (h.chained _ _ hs) hlt
        fun j hj hj' => hne (h.ne_of_mem hb' hb hj' (hc ▸ List.mem_append_left _ hj))
      obtain rfl := Option.some.inj (hs''.symm.trans hs')
      rwa [Function.update_of_ne hne]
  · rw [length_buckets_write] at hb'
    rw [home_write]
    rcases eq_or_ne b' b with rfl | hne
    · rw [Function.update_self, hmem]
    · rw [Function.update_of_ne hne, h.mem_iff b' hb']
      refine and_congr_left fun hhome => (hlive i ?_).symm
      rw [hhome]
      exact fun heq => hne (Option.some.inj heq)

/-- Writing the link of an item that no chain holds. -/
theorem Linked.write_dead (h : t.Linked live chain) (hi : i < t.items.length) (hdead : ¬ live i) :
    (t.write v (.next i)).Linked live chain := by
  refine ⟨fun b s hs => ?_, fun b hb j => ?_⟩
  · have hb : b < t.buckets.length := (List.getElem?_eq_some_iff.mp hs).1
    rw [links_write_next hi]
    exact (h.chained b s hs).update_of_notMem fun hmem => hdead ((h.mem_iff b hb i).mp hmem).1
  · rw [home_write]
    exact h.mem_iff b hb j

/-- A state whose items agree on all live indices has the same chains. -/
theorem Linked.congr {t' : Xht V} {live' : Nat → Prop} (h : t.Linked live chain)
    (hb : t'.buckets = t.buckets) (hlinks : ∀ i, live i → t'.links i = t.links i)
    (hlive : ∀ i b, live' i ∧ t'.home i = some b ↔ live i ∧ t.home i = some b) :
    t'.Linked live' chain := by
  refine ⟨fun b s hs => ?_, fun b hb' i => ?_⟩
  · rw [hb] at hs
    refine (h.chained b s hs).congr fun i hi => hlinks i ?_
    exact ((h.mem_iff b (List.getElem?_eq_some_iff.mp hs).1 i).mp hi).1
  · rw [hb] at hb'
    rw [hlive, h.mem_iff b hb']

/-- All items are live when all indices of the array are. -/
theorem linked_true_iff :
    t.Linked (fun _ => True) chain ↔ t.Linked (· < t.items.length) chain := by
  have hiff : ∀ i b, (True ∧ t.home i = some b) ↔ i < t.items.length ∧ t.home i = some b :=
    fun i b => ⟨fun h => ⟨lt_of_home h.2, h.2⟩, fun h => ⟨trivial, h.2⟩⟩
  exact ⟨fun h => h.congr rfl (fun _ _ => rfl) fun i b => (hiff i b).symm,
    fun h => h.congr rfl (fun _ _ => rfl) hiff⟩

/-! ## Walking along a chain -/

/-- The items of these indices do not have the key. -/
def Without (t : Xht V) (key : Bytes) (l : List Nat) : Prop :=
  ∀ i ∈ l, ∀ item, t.items[i]? = some item → item.key ≠ key

theorem Without.tail (h : t.Without key (i :: l)) : t.Without key l :=
  fun j hj => h j (List.mem_cons_of_mem i hj)

/-- The search passes over items with other keys. -/
theorem xhtFind_skip (hc : LinkChain t.links (ofIdx n) (p ++ q))
    (hlt : ∀ i ∈ p, i < t.items.length) (hw : t.Without key p) :
    ∃ m, LinkChain t.links (ofIdx m) q ∧
      ∀ fuel, xhtFind t key (p.length + fuel) n = xhtFind t key fuel m := by
  induction p generalizing n with
  | nil => exact ⟨n, hc, fun fuel => by rw [List.length_nil, Nat.zero_add]⟩
  | cons i p ih =>
      obtain ⟨rfl, hne⟩ := ofIdx_eq_some.mp hc.1
      have hitem := List.getElem?_eq_getElem (hlt n List.mem_cons_self)
      have hrest := hc.2
      rw [links_eq hitem] at hrest
      obtain ⟨m, hm, hstep⟩ := ih hrest (fun j hj => hlt j (List.mem_cons_of_mem n hj)) hw.tail
      refine ⟨m, hm, fun fuel => ?_⟩
      rw [List.length_cons, Nat.add_right_comm, xhtFind, if_neg hne, xhtLoad_eq_ok.mpr hitem, ← hstep]
      simp only [bind, Except.bind]
      rw [if_neg (hw n List.mem_cons_self _ hitem)]

theorem xhtFind_none (hc : LinkChain t.links (ofIdx n) l) (hlt : ∀ i ∈ l, i < t.items.length)
    (hw : t.Without key l) (hfuel : l.length < fuel) : xhtFind t key fuel n = .ok none := by
  obtain ⟨m, hm, hstep⟩ := xhtFind_skip (q := []) (by simpa using hc) hlt hw
  obtain ⟨k, rfl⟩ : ∃ k, fuel = l.length + (k + 1) := ⟨fuel - l.length - 1, by omega⟩
  rw [hstep, xhtFind, if_pos (ofIdx_eq_none.mp hm)]
  rfl

theorem xhtFind_some (hc : LinkChain t.links (ofIdx n) (p ++ i :: q))
    (hlt : ∀ j ∈ p, j < t.items.length) (hw : t.Without key p) (hitem : t.items[i]? = some item)
    (hkey : item.key = key) (hfuel : p.length < fuel) :
    xhtFind t key fuel n = .ok (some (i, item)) := by
  obtain ⟨m, hm, hstep⟩ := xhtFind_skip hc hlt hw
  obtain ⟨k, rfl⟩ : ∃ k, fuel = p.length + (k + 1) := ⟨fuel - p.length - 1, by omega⟩
  obtain ⟨rfl, hne⟩ := ofIdx_eq_some.mp hm.1
  rw [hstep, xhtFind, if_neg hne, xhtLoad_eq_ok.mpr hitem]
  simp only [bind, Except.bind]
  rw [if_pos hkey]
  rfl

/-- The search for the link to an item passes over items with other keys. -/
theorem seekKey_skip (hs : t.buckets[b]? = some s)
    (hc : LinkChain t.links (ofIdx s) (l₁ ++ (p ++ q)))
    (hlt : ∀ i ∈ l₁ ++ p, i < t.items.length) (hw : t.Without key p) (fuel : Nat) :
    seekKey t key (p.length + fuel) (slotAfter b l₁) =
      seekKey t key fuel (slotAfter b (l₁ ++ p)) := by
  induction p generalizing l₁ with
  | nil => simp
  | cons i p ih =>
      obtain ⟨n, hn, hrest⟩ := read_slotAfter hs hc fun j hj => hlt j (List.mem_append_left _ hj)
      obtain ⟨rfl, hne⟩ := ofIdx_eq_some.mp hrest.1
      have hitem := List.getElem?_eq_getElem (hlt n (by simp))
      have hstep : seekKey t key (p.length + fuel) (slotAfter b (l₁ ++ [n])) =
          seekKey t key fuel (slotAfter b (l₁ ++ [n] ++ p)) :=
        ih (by simpa using hc) (by simpa using hlt) hw.tail
      rw [List.length_cons, Nat.add_right_comm, seekKey, hn]
      simp only [bind, Except.bind]
      rw [if_neg hne, xhtLoad_eq_ok.mpr hitem]
      simp only
      rw [if_neg (hw n List.mem_cons_self _ hitem)]
      simpa using hstep

theorem seekKey_none (hs : t.buckets[b]? = some s) (hc : LinkChain t.links (ofIdx s) l)
    (hlt : ∀ i ∈ l, i < t.items.length) (hw : t.Without key l) (hfuel : l.length < fuel) :
    seekKey t key fuel (.bucket b) = .ok none := by
  obtain ⟨k, rfl⟩ : ∃ k, fuel = l.length + (k + 1) := ⟨fuel - l.length - 1, by omega⟩
  obtain ⟨n, hn, hrest⟩ := read_slotAfter hs
    (show LinkChain t.links (ofIdx s) (l ++ []) by simpa using hc) hlt
  rw [← slotAfter_nil, seekKey_skip (q := []) hs (by simpa using hc) hlt hw, List.nil_append,
    seekKey, hn]
  simp only [bind, Except.bind]
  rw [if_pos (ofIdx_eq_none.mp hrest)]
  rfl

theorem seekKey_some (hs : t.buckets[b]? = some s) (hc : LinkChain t.links (ofIdx s) (p ++ i :: q))
    (hlt : ∀ j ∈ p, j < t.items.length) (hw : t.Without key p) (hitem : t.items[i]? = some item)
    (hkey : item.key = key) (hfuel : p.length < fuel) :
    seekKey t key fuel (.bucket b) = .ok (some (slotAfter b p, i, item)) := by
  obtain ⟨k, rfl⟩ : ∃ k, fuel = p.length + (k + 1) := ⟨fuel - p.length - 1, by omega⟩
  obtain ⟨n, hn, hrest⟩ := read_slotAfter hs hc hlt
  obtain ⟨rfl, hne⟩ := ofIdx_eq_some.mp hrest.1
  rw [← slotAfter_nil, seekKey_skip hs hc hlt hw, List.nil_append, seekKey, hn]
  simp only [bind, Except.bind]
  rw [if_neg hne, xhtLoad_eq_ok.mpr hitem]
  simp only
  rw [if_pos hkey]
  rfl

/-- The search for the link to an index finds the slot before it. -/
theorem seekSlot_eq (hs : t.buckets[b]? = some s)
    (hc : LinkChain t.links (ofIdx s) (l₁ ++ (p ++ i :: q)))
    (hlt : ∀ j ∈ l₁ ++ p, j < t.items.length) (hfuel : p.length < fuel) :
    seekSlot t i fuel (slotAfter b l₁) = .ok (slotAfter b (l₁ ++ p)) := by
  obtain ⟨fuel, rfl⟩ : ∃ k, fuel = k + 1 := ⟨fuel - 1, by omega⟩
  obtain ⟨n, hn, hrest⟩ := read_slotAfter hs hc fun j hj => hlt j (List.mem_append_left _ hj)
  induction p generalizing l₁ fuel n with
  | nil =>
      obtain ⟨rfl, hne⟩ := ofIdx_eq_some.mp hrest.1
      rw [seekSlot, hn]
      simp [bind, Except.bind, pure, Except.pure]
  | cons j p ih =>
      obtain ⟨rfl, hne⟩ := ofIdx_eq_some.mp hrest.1
      obtain ⟨fuel, rfl⟩ : ∃ k, fuel = k + 1 := ⟨fuel - 1, by simp at hfuel; omega⟩
      have hni : n ≠ i := by
        rintro rfl
        have := hrest.nodup
        simp at this
      have hc' : LinkChain t.links (ofIdx s) ((l₁ ++ [n]) ++ (p ++ i :: q)) := by simpa using hc
      have hlt' : ∀ j ∈ l₁ ++ [n] ++ p, j < t.items.length := by simpa using hlt
      obtain ⟨m, hm, hrest'⟩ := read_slotAfter hs hc' fun j hj => hlt' j (List.mem_append_left _ hj)
      have hstep := ih hc' hlt' fuel (by simp at hfuel; omega) m hm hrest'
      rw [seekSlot, hn]
      simp only [bind, Except.bind]
      rw [if_neg hni]
      simpa using hstep

end Xht

end Calx
