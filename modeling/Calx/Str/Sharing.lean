import Calx.Str.Holders

/-!
# Shared strings are texts

The operations on strings follow the operations on texts, in every order and
however the strings are shared. A run on texts that its holders may make ends
early on strings only where memory or the dict does not provide what it needs.

## Implementation notes

A step that takes over a reference is described by `update_follows`: what the
program hands out goes to the holder, and the frame of the program keeps the
strings of all others.
-/

namespace Calx.Str

open Refcount

variable {σ : Holders} {τ τ' : Texts} {i j n : Nat} {s : Addr} {h h' : Holder} {text : Bytes}
  {hot : Option (List (Option UInt8))} {m : Memory StringObj}

/-- Every holder's string holds its text, the objects count their holders, and who has begun a
buffer is the only holder. -/
structure Represents (σ : Holders) (τ : Texts) : Prop where
  counts : σ.mem.Counts σ.refs
  length : σ.refs.length = τ.holders.length
  held : ∀ (i : Nat) (s : Addr) (h : Holder), σ.refs[i]? = some s → τ.holders[i]? = some h →
    ∃ x, σ.mem.content? s = some x ∧ x.Holds h.text (h.hot.getD []) ∧ x.capacity ≤ τ.limit
  alone : ∀ (i j : Nat) (s : Addr) (h : Holder), σ.refs[i]? = some s → σ.refs[j]? = some s →
    τ.holders[i]? = some h → h.hot ≠ none → j = i
  dict : Holds σ.dict τ.dict

theorem represents_empty : Represents .empty .empty where
  counts := fun p => rfl
  length := rfl
  held := fun i s h hs => by cases hs
  alone := fun i j s h hs => by cases hs
  dict := holds_new

/-- The string of a holder. -/
theorem Represents.string (hr : Represents σ τ) (hh : τ.holders[i]? = some h) :
    ∃ s x, σ.refs[i]? = some s ∧ σ.mem.content? s = some x ∧ x.Holds h.text (h.hot.getD []) ∧
      x.capacity ≤ τ.limit := by
  have hlt : i < σ.refs.length := by
    rw [hr.length]
    exact (List.getElem?_eq_some_iff.mp hh).1
  have hs := List.getElem?_eq_getElem hlt
  obtain ⟨x, hx, hold, hcap⟩ := hr.held i _ h hs hh
  exact ⟨_, x, hs, hx, hold, hcap⟩

theorem coe_eq_cons (hs : σ.refs[i]? = some s) :
    (σ.refs : Multiset Nat) = s ::ₘ (σ.refs.eraseIdx i : List Nat) := by
  obtain ⟨hlt, rfl⟩ := List.getElem?_eq_some_iff.mp hs
  exact Multiset.coe_eq_coe.mpr (List.getElem_cons_eraseIdx_perm hlt).symm

/-- A holder that has begun a buffer has no other holder beside it. -/
theorem Represents.not_mem (hr : Represents σ τ) (hs : σ.refs[i]? = some s)
    (hh : τ.holders[i]? = some h) (hhot : h.hot ≠ none) :
    s ∉ (σ.refs.eraseIdx i : Multiset Nat) := fun hmem => by
  obtain ⟨j, hne, hj⟩ := List.mem_eraseIdx_iff_getElem?.mp (Multiset.mem_coe.mp hmem)
  exact hne (hr.alone i j s h hs hj hh hhot)

theorem Texts.limit_le_grow (τ : Texts) (need : Nat) : τ.limit ≤ (τ.grow need).limit := by
  simp only [Texts.limit, Texts.grow]
  omega

theorem Texts.lt_limit (τ : Texts) : 2 * τ.need < τ.limit := by
  unfold Texts.limit
  omega

/-- What a step that needs a longer string starts from. -/
theorem Represents.grows (hr : Represents σ τ) (hh : τ.holders[i]? = some h) (need : Nat) :
    ∃ s x, σ.refs[i]? = some s ∧ σ.mem.Counts (s ::ₘ (σ.refs.eraseIdx i : List Nat)) ∧
      σ.mem.content? s = some x ∧ x.Holds h.text (h.hot.getD []) ∧
      x.capacity ≤ (τ.grow need).limit := by
  obtain ⟨s, x, hs, hx, hold, hcap⟩ := hr.string hh
  have hcounts := hr.counts
  rw [coe_eq_cons hs] at hcounts
  exact ⟨s, x, hs, hcounts, hx, hold, hcap.trans (τ.limit_le_grow need)⟩

/-- What a step on a buffer that has been begun starts from. -/
theorem Represents.begun (hr : Represents σ τ) (hh : τ.holders[i]? = some h)
    {room : List (Option UInt8)} (hhot : h.hot = some room) :
    ∃ s x, σ.refs[i]? = some s ∧ σ.mem.Counts (s ::ₘ (σ.refs.eraseIdx i : List Nat)) ∧
      s ∉ (σ.refs.eraseIdx i : Multiset Nat) ∧ σ.mem.content? s = some x ∧ x.Holds h.text room ∧
      x.capacity ≤ τ.limit := by
  obtain ⟨s, x, hs, hx, hold, hcap⟩ := hr.string hh
  have hcounts := hr.counts
  rw [coe_eq_cons hs] at hcounts
  rw [hhot, Option.getD_some] at hold
  have hne : h.hot ≠ none := hhot ▸ Option.some_ne_none room
  exact ⟨s, x, hs, hcounts, hr.not_mem hs hh hne, hx, hold, hcap⟩

/-! ## Changes of one holder -/

/-- What a program hands out goes to the holder. -/
theorem Represents.set (hr : Represents σ τ) (hs : σ.refs[i]? = some s) {r : Addr} {z : StringObj}
    (hleaves : Leaves σ.mem (σ.refs.eraseIdx i : List Nat) z r m)
    (hz : z.Holds text (hot.getD [])) (hcap : z.capacity ≤ τ'.limit)
    (hset : τ'.holders = τ.holders.set i ⟨text, hot⟩) (hdict : τ'.dict = τ.dict)
    (hle : τ.limit ≤ τ'.limit) : Represents { σ with mem := m, refs := σ.refs.set i r } τ' := by
  have hlt : i < σ.refs.length := (List.getElem?_eq_some_iff.mp hs).1
  have hlt' : i < τ.holders.length := hr.length ▸ hlt
  have hothers : ∀ j p, i ≠ j → σ.refs[j]? = some p → p ∈ (σ.refs.eraseIdx i : Multiset Nat) :=
    fun j p hne hp => Multiset.mem_coe.mpr (List.mem_eraseIdx_iff_getElem?.mpr ⟨j, hne.symm, hp⟩)
  have hother : ∀ j p, i ≠ j → (σ.refs.set i r)[j]? = some p → σ.refs[j]? = some p :=
    fun j p hne hp => by rwa [List.getElem?_set_ne hne] at hp
  have hself : ∀ p, (σ.refs.set i r)[i]? = some p → p = r := fun p hp => by
    rw [List.getElem?_set_self hlt] at hp
    exact (Option.some.inj hp).symm
  exact
    { counts := by
        have hperm : (σ.refs.set i r : Multiset Nat) = r ::ₘ (σ.refs.eraseIdx i : List Nat) :=
          Multiset.coe_eq_coe.mpr (List.set_perm_cons_eraseIdx hlt r)
        rw [hperm]
        exact hleaves.counts
      length := by rw [hset, List.length_set, List.length_set, hr.length]
      held := fun j p h hp hh => by
        rw [hset] at hh
        rcases eq_or_ne i j with rfl | hne
        · obtain rfl := hself p hp
          rw [List.getElem?_set_self hlt'] at hh
          rw [← Option.some.inj hh]
          exact ⟨z, hleaves.content, hz, hcap⟩
        · rw [List.getElem?_set_ne hne] at hh
          obtain ⟨x, hx, hold, hxcap⟩ := hr.held j p h (hother j p hne hp) hh
          have hframe := hleaves.frame p (hothers j p hne (hother j p hne hp))
          exact ⟨x, hframe.trans hx, hold, hxcap.trans hle⟩
      alone := fun j k p h hp hp' hh hhot => by
        rw [hset] at hh
        rcases eq_or_ne i j with rfl | hne
        · obtain rfl := hself p hp
          by_contra hki
          exact hleaves.uniq (hothers k p (Ne.symm hki) (hother k p (Ne.symm hki) hp'))
        · rcases eq_or_ne i k with rfl | hne'
          · obtain rfl := hself p hp'
            exact absurd (hothers j p hne (hother j p hne hp)) hleaves.uniq
          · rw [List.getElem?_set_ne hne] at hh
            exact hr.alone j k p h (hother j p hne hp) (hother k p hne' hp') hh hhot
      dict := hdict ▸ hr.dict }

/-- Another reference. -/
theorem Represents.concat (hr : Represents σ τ) {r : Addr} {z : StringObj}
    (hcounts : m.Counts (r ::ₘ (σ.refs : Multiset Nat))) (hr' : m.content? r = some z)
    (hframe : ∀ p ∈ σ.refs, m.content? p = σ.mem.content? p) (hz : z.Holds text [])
    (hcap : z.capacity ≤ τ'.limit) (hset : τ'.holders = τ.holders ++ [⟨text, none⟩])
    (hdict : τ'.dict = τ.dict) (hle : τ.limit ≤ τ'.limit)
    (hshared : ∀ (i : Nat) (h : Holder), σ.refs[i]? = some r → τ.holders[i]? = some h → h.hot = none) :
    Represents { σ with mem := m, refs := σ.refs ++ [r] } τ' := by
  have hnew : ∀ j p, (σ.refs ++ [r])[j]? = some p →
      σ.refs[j]? = some p ∨ j = σ.refs.length ∧ p = r := fun j p hp => by
    rcases Nat.lt_trichotomy j σ.refs.length with hlt | rfl | hgt
    · rw [List.getElem?_append_left hlt] at hp
      exact Or.inl hp
    · rw [List.getElem?_concat_length] at hp
      exact Or.inr ⟨rfl, (Option.some.inj hp).symm⟩
    · rw [List.getElem?_eq_none (by rw [List.length_append]; exact hgt)] at hp
      cases hp
  have hold : ∀ j p, σ.refs[j]? = some p → (τ.holders ++ [⟨text, none⟩])[j]? = τ.holders[j]? :=
    fun j p hp => List.getElem?_append_left (hr.length ▸ (List.getElem?_eq_some_iff.mp hp).1)
  have hlast : (τ.holders ++ [⟨text, none⟩])[σ.refs.length]? = some ⟨text, none⟩ := by
    rw [hr.length, List.getElem?_concat_length]
  exact
    { counts := by
        have hperm : ((σ.refs ++ [r] : List Nat) : Multiset Nat) = r ::ₘ (σ.refs : Multiset Nat) :=
          Multiset.coe_eq_coe.mpr (List.perm_append_singleton r σ.refs)
        rw [hperm]
        exact hcounts
      length := by rw [hset, List.length_append, List.length_append, hr.length]; rfl
      held := fun j p h hp hh => by
        rw [hset] at hh
        obtain hold' | ⟨rfl, rfl⟩ := hnew j p hp
        · rw [hold j p hold'] at hh
          obtain ⟨x, hx, hxold, hxcap⟩ := hr.held j p h hold' hh
          have hmem : p ∈ σ.refs := List.mem_of_getElem? hold'
          exact ⟨x, (hframe p hmem).trans hx, hxold, hxcap.trans hle⟩
        · rw [hlast] at hh
          rw [← Option.some.inj hh]
          exact ⟨z, hr', hz, hcap⟩
      alone := fun j k p h hp hp' hh hhot => by
        rw [hset] at hh
        obtain hold' | ⟨rfl, rfl⟩ := hnew j p hp
        · rw [hold j p hold'] at hh
          obtain hk | ⟨rfl, rfl⟩ := hnew k p hp'
          · exact hr.alone j k p h hold' hk hh hhot
          · exact absurd (hshared j h hold' hh) hhot
        · rw [hlast] at hh
          rw [← Option.some.inj hh] at hhot
          exact absurd rfl hhot
      dict := hdict ▸ hr.dict }

/-- A reference is given up. -/
theorem Represents.erase (hr : Represents σ τ) (hcounts : m.Counts (σ.refs.eraseIdx i : List Nat))
    (hframe : ∀ p ∈ (σ.refs.eraseIdx i : Multiset Nat), m.content? p = σ.mem.content? p) :
    Represents { σ with mem := m, refs := σ.refs.eraseIdx i }
      { τ with holders := τ.holders.eraseIdx i } := by
  -- The holders behind the one that goes move up.
  have hold : ∀ j, ∃ k, (σ.refs.eraseIdx i)[j]? = σ.refs[k]? ∧
      (τ.holders.eraseIdx i)[j]? = τ.holders[k]? ∧ k = if j < i then j else j + 1 := fun j => by
    refine ⟨_, ?_, ?_, rfl⟩
    · rw [List.getElem?_eraseIdx]
      split <;> rfl
    · rw [List.getElem?_eraseIdx]
      split <;> rfl
  exact
    { counts := hcounts
      length := by rw [List.length_eraseIdx, List.length_eraseIdx, hr.length]
      held := fun j p h hp hh => by
        obtain ⟨k, hk, hk', -⟩ := hold j
        obtain ⟨x, hx, hxold, hxcap⟩ := hr.held k p h (hk ▸ hp) (hk' ▸ hh)
        have hmem : p ∈ (σ.refs.eraseIdx i : Multiset Nat) :=
          Multiset.mem_coe.mpr (List.mem_of_getElem? hp)
        exact ⟨x, (hframe p hmem).trans hx, hxold, hxcap⟩
      alone := fun j j' p h hp hp' hh hhot => by
        obtain ⟨k, hk, hk', hkeq⟩ := hold j
        obtain ⟨l, hl, -, hleq⟩ := hold j'
        have hkl := hr.alone k l p h (hk ▸ hp) (hl ▸ hp') (hk' ▸ hh) hhot
        rw [hkeq, hleq] at hkl
        split at hkl <;> split at hkl <;> omega
      dict := hr.dict }

/-! ## What follows what -/

theorem get_bind {α β : Type} {l : List α} {a : α} {f : α → Outcome β} (ha : l[i]? = some a) :
    (get l i >>= f) = f a := by
  rw [get, ha]
  rfl

/-- What a program answers that leaves the memory alone. -/
theorem exec_bind {α β : Type} {c : Strings α} {a : α} {f : α × Memory StringObj → Outcome β}
    (h : c σ.mem = some (.ok a, σ.mem)) : (exec c σ.mem >>= f) = f (a, σ.mem) := by
  rw [exec, h]
  rfl

section

variable [Allocator]

/-- The reasons to end that texts admit. -/
def Texts.Excuses (τ : Texts) : StrPanic → Prop
  | .table => maxItems < τ.dict.keys.card
  | e => Excused τ.need τ.limit e

/-- A step ends for a reason that the texts admit, or answers as they do. -/
def Follows {α : Type} (c : Outcome (Holders × α)) (τ : Texts) (a : α) : Prop :=
  (∃ e, c = throw e ∧ τ.Excuses e) ∨ ∃ σ, c = pure (σ, a) ∧ Represents σ τ

theorem Texts.excuses_of_excused (τ : Texts) {e : StrPanic} (he : Excused τ.need τ.limit e) :
    τ.Excuses e := by
  cases e with
  | length n => exact he
  | block n => exact he
  | table => exact he.elim

/-! ## Steps -/

/-- A program that takes over a reference and keeps to its frame. -/
theorem update_follows (hr : Represents σ τ) (hs : σ.refs[i]? = some s) {c : Addr → Strings Addr}
    (hset : τ'.holders = τ.holders.set i ⟨text, hot⟩) (hdict : τ'.dict = τ.dict)
    (hle : τ.limit ≤ τ'.limit)
    (hc : Attempts (c s) σ.mem (σ.refs.eraseIdx i : List Nat) (Excused τ'.need τ'.limit)
      fun z => z.Holds text (hot.getD []) ∧ z.capacity ≤ τ'.limit) :
    Follows (σ.update i c) τ' Answer.done := by
  rw [Holders.update, get_bind hs]
  obtain ⟨e, m, hrun, he⟩ | ⟨r, m, hrun, z, ⟨hz, hcap⟩, hleaves⟩ := hc
  · refine Or.inl ⟨e, ?_, Texts.excuses_of_excused _ he⟩
    rw [exec, hrun]
    rfl
  · refine Or.inr ⟨_, ?_, hr.set hs hleaves hz hcap hset hdict hle⟩
    rw [exec, hrun]
    rfl

/-- A new string. -/
theorem new_follows [DeciBase] (hr : Represents σ τ) {x : Bytes} {capacity : Nat}
    (hle : x.length ≤ capacity) : Follows (σ.step (.new x capacity))
      { τ with holders := τ.holders ++ [⟨x, none⟩], capacity := max τ.capacity capacity }
      Answer.done := by
  obtain ⟨τ', hτ'⟩ : ∃ τ' : Texts, τ' =
    { τ with holders := τ.holders ++ [⟨x, none⟩], capacity := max τ.capacity capacity } := ⟨_, rfl⟩
  have hlimit : τ.limit ≤ τ'.limit ∧ capacity ≤ τ'.limit := by
    simp only [hτ', Texts.limit]
    omega
  rw [Holders.step, ← hτ']
  obtain ⟨e, m, hrun, he⟩ | ⟨r, m, hrun, z, ⟨hz, hcap⟩, hleaves⟩ :=
    stringNewWithCapacity_spec hr.counts hlimit.2 hle
  · refine Or.inl ⟨e, ?_, τ'.excuses_of_excused he⟩
    rw [exec, hrun]
    rfl
  · refine Or.inr ⟨_, by rw [exec, hrun]; rfl, hr.concat hleaves.counts hleaves.content
      hleaves.frame hz (hcap.le.trans hlimit.2) (by rw [hτ']) (by rw [hτ']) hlimit.1 ?_⟩
    intro i h hi hh
    exact absurd (Multiset.mem_coe.mpr (List.mem_of_getElem? hi)) hleaves.uniq

/-- Sharing a string that is not being written to. -/
theorem ref_follows [DeciBase] (hr : Represents σ τ) (hh : τ.holders[i]? = some h)
    (hhot : h.hot = none) :
    Follows (σ.step (.ref i)) { τ with holders := τ.holders ++ [h] } Answer.done := by
  obtain ⟨s, x, hs, hx, hold, hcap⟩ := hr.string hh
  have hmem : s ∈ (σ.refs : Multiset Nat) := Multiset.mem_coe.mpr (List.mem_of_getElem? hs)
  obtain ⟨m, hrun, hcounts, hframe⟩ := incref_counts hr.counts hmem
  have hh' : h = ⟨h.text, none⟩ := by rw [← hhot]
  rw [hhot, Option.getD_none] at hold
  rw [hh', Holders.step, get_bind hs]
  refine Or.inr ⟨_, by rw [hrun], hr.concat hcounts ((hframe s).trans hx) (fun p _ => hframe p)
    hold hcap rfl rfl (Nat.le_refl τ.limit) fun j h' hj hj' => ?_⟩
  by_contra hne
  obtain rfl := hr.alone j i s h' hj hs hj' hne
  rw [hh] at hj'
  rw [← Option.some.inj hj', hhot] at hne
  exact hne rfl

theorem unref_follows [DeciBase] (hr : Represents σ τ) (hh : τ.holders[i]? = some h) :
    Follows (σ.step (.unref i)) { τ with holders := τ.holders.eraseIdx i } Answer.done := by
  obtain ⟨s, -, hs, -⟩ := hr.string hh
  have hcounts := hr.counts
  rw [coe_eq_cons hs] at hcounts
  obtain ⟨m, hrun, hcounts', hframe⟩ := decref_counts hcounts
  rw [Holders.step, get_bind hs]
  exact Or.inr ⟨_, by rw [hrun], hr.erase hcounts' hframe⟩

theorem append_follows [DeciBase] (hr : Represents σ τ) (hh : τ.holders[i]? = some h) (x : Bytes) :
    Follows (σ.step (.append i x))
      ((τ.set i ⟨h.text ++ x, none⟩).grow (h.text ++ x).length) Answer.done := by
  obtain ⟨s, y, hs, hcounts, hy, hold, hcap⟩ := hr.grows hh (h.text ++ x).length
  have hneed : h.text.length + x.length ≤ max τ.need (h.text ++ x).length := by
    rw [← List.length_append]
    exact Nat.le_max_right _ _
  refine update_follows hr hs rfl rfl (τ.limit_le_grow _) ?_
  exact stringAppend_spec hcounts hy hold hcap (Source.gives_bytes x) hneed (Texts.lt_limit _)

theorem repr_follows [DeciBase] (hr : Represents σ τ) (hh : τ.holders[i]? = some h) {v : Value}
    (hv : Printable v) : Follows (σ.step (.repr i v))
      ((τ.set i ⟨Calx.appendStringRepr h.text v, none⟩).grow (reprNeed h.text v)) Answer.done := by
  obtain ⟨s, y, hs, hcounts, hy, hold, hcap⟩ := hr.grows hh (reprNeed h.text v)
  refine update_follows hr hs rfl rfl (τ.limit_le_grow _) ?_
  exact appendStringRepr_spec hv hcounts hy hold hcap (Nat.le_max_right _ _) (Texts.lt_limit _)

/-- The string of another holder, which may be the same string. -/
theorem concat_follows [DeciBase] (hr : Represents σ τ) (hh : τ.holders[i]? = some h)
    (hh' : τ.holders[j]? = some h') (hij : i ≠ j) : Follows (σ.step (.concat i j))
      ((τ.set i ⟨h.text ++ h'.text, none⟩).grow (h.text ++ h'.text).length) Answer.done := by
  obtain ⟨s, y, hs, hcounts, hy, hold, hcap⟩ := hr.grows hh (h.text ++ h'.text).length
  obtain ⟨t, z, ht, hz, hold', -⟩ := hr.string hh'
  have hmem : t ∈ (σ.refs.eraseIdx i : Multiset Nat) :=
    Multiset.mem_coe.mpr (List.mem_eraseIdx_iff_getElem?.mpr ⟨j, hij.symm, ht⟩)
  rw [Holders.step, get_bind ht]
  refine update_follows hr hs rfl rfl (τ.limit_le_grow _) ?_
  exact appendStringRepr_str hcounts hy hold hcap hmem hz hold' (Nat.le_max_right _ _)
    (Texts.lt_limit _)

theorem hotBegin_follows [DeciBase] (hr : Represents σ τ) (hh : τ.holders[i]? = some h) (n : Nat) :
    Follows (σ.step (.hotBegin i n))
      ((τ.set i ⟨h.text, some (List.replicate n none)⟩).grow (h.text.length + n))
      Answer.done := by
  obtain ⟨s, y, hs, hcounts, hy, hold, hcap⟩ := hr.grows hh (h.text.length + n)
  refine update_follows hr hs rfl rfl (τ.limit_le_grow _) ?_
  exact stringHotAppendBegin_spec hcounts hy hold hcap (Nat.le_max_right _ _) (Texts.lt_limit _)

theorem hotWrite_follows [DeciBase] (hr : Represents σ τ) (hh : τ.holders[i]? = some h)
    {room room' : List (Option UInt8)} (hhot : h.hot = some room) {off : Nat} {w : Bytes}
    (hw : Block.write room off w = some room') :
    Follows (σ.step (.hotWrite i off w)) (τ.set i ⟨h.text, some room'⟩) Answer.done := by
  obtain ⟨s, x, hs, hcounts, huniq, hx, hold, hcap⟩ := hr.begun hh hhot
  refine update_follows hr hs rfl rfl (Nat.le_refl τ.limit) (stringHotAppendBuf_bind hx ?_)
  refine (writeHotBuf_spec hcounts huniq hx hold hw).mono (fun _ he => he) ?_
  rintro z ⟨hz, hzcap⟩
  exact ⟨hz, hzcap.le.trans hcap⟩

theorem hotEnd_follows [DeciBase] (hr : Represents σ τ) (hh : τ.holders[i]? = some h)
    {room : List (Option UInt8)} (hhot : h.hot = some room) {w : Bytes}
    (hw : Block.read room 0 n = some w) :
    Follows (σ.step (.hotEnd i n)) (τ.set i ⟨h.text ++ w, none⟩) Answer.done := by
  obtain ⟨s, x, hs, hcounts, huniq, hx, hold, hcap⟩ := hr.begun hh hhot
  refine update_follows hr hs rfl rfl (Nat.le_refl τ.limit) ?_
  refine (stringHotAppendEnd_spec hcounts huniq hx hold hw).mono (fun _ he => he) ?_
  rintro z ⟨hz, hzcap⟩
  exact ⟨hz, hzcap.le.trans hcap⟩

/-! ## Questions and the dict -/

theorem equal_follows [DeciBase] (hr : Represents σ τ) (hh : τ.holders[i]? = some h)
    (hh' : τ.holders[j]? = some h') :
    Follows (σ.step (.equal i j)) τ (Answer.flag (decide (h.text = h'.text))) := by
  obtain ⟨s, x, hs, hx, hold, -⟩ := hr.string hh
  obtain ⟨t, y, ht, hy, hold', -⟩ := hr.string hh'
  rw [Holders.step, get_bind hs, get_bind ht, exec_bind (stringEqual_run hx hold hy hold')]
  exact Or.inr ⟨σ, rfl, hr⟩

theorem compare_follows [DeciBase] (hr : Represents σ τ) (hh : τ.holders[i]? = some h)
    (hh' : τ.holders[j]? = some h') : Follows (σ.step (.compare i j)) τ
      (Answer.order (compareFlag (compareOfLessAndEq h.text h'.text))) := by
  obtain ⟨s, x, hs, hx, hold, -⟩ := hr.string hh
  obtain ⟨t, y, ht, hy, hold', -⟩ := hr.string hh'
  rw [Holders.step, get_bind hs, get_bind ht, exec_bind (stringCompare_run hx hold hy hold')]
  exact Or.inr ⟨σ, rfl, hr⟩

theorem dictGet_follows [DeciBase] (hr : Represents σ τ) (hh : τ.holders[i]? = some h) :
    Follows (σ.step (.dictGet i)) τ (Answer.value (τ.dict.lookup h.text)) := by
  obtain ⟨s, x, hs, hx, hold, -⟩ := hr.string hh
  rw [Holders.step, get_bind hs, exec_bind (dictGet_run hr.dict hx hold)]
  exact Or.inr ⟨σ, rfl, hr⟩

theorem dictStore_follows [DeciBase] (hr : Represents σ τ) (hh : τ.holders[i]? = some h)
    (v : Value) : Follows (σ.step (.dictStore i v))
      { τ with dict := τ.dict.insert h.text v } Answer.done := by
  obtain ⟨s, x, hs, hx, hold, -⟩ := hr.string hh
  rw [Holders.step, get_bind hs]
  obtain ⟨hrun, hfull⟩ | ⟨d, hrun, hd⟩ := dictStore_run hr.dict hx hold v
  · refine Or.inl ⟨.table, ?_, hfull⟩
    rw [exec, hrun]
    rfl
  · rw [exec_bind hrun]
    exact Or.inr ⟨_, rfl, { hr with dict := hd }⟩

theorem dictRemove_follows [DeciBase] (hr : Represents σ τ) (hh : τ.holders[i]? = some h) :
    Follows (σ.step (.dictRemove i)) { τ with dict := τ.dict.erase h.text }
      (Answer.flag (τ.dict.lookup h.text).isSome) := by
  obtain ⟨s, x, hs, hx, hold, -⟩ := hr.string hh
  obtain ⟨d, hrun, hd⟩ := dictRemove_run hr.dict hx hold
  rw [Holders.step, get_bind hs, exec_bind hrun]
  exact Or.inr ⟨_, rfl, { hr with dict := hd }⟩

/-! ## Runs -/

/-- Every step on strings follows the step on texts. -/
theorem step_follows [DeciBase] (hr : Represents σ τ) {op : Op} {a : Answer}
    (hstep : τ.step op = some (τ', a)) : Follows (σ.step op) τ' a := by
  cases op <;> simp only [Texts.step, Option.bind_eq_bind, Option.bind_eq_some_iff,
    Option.ite_none_right_eq_some, Option.ite_none_left_eq_some, Option.some.injEq,
    Prod.mk.injEq] at hstep
  case new =>
    obtain ⟨hle, rfl, rfl⟩ := hstep
    exact new_follows hr hle
  case ref =>
    obtain ⟨h, hh, hhot, rfl, rfl⟩ := hstep
    exact ref_follows hr hh hhot
  case unref =>
    obtain ⟨h, hh, rfl, rfl⟩ := hstep
    exact unref_follows hr hh
  case append x =>
    obtain ⟨h, hh, rfl, rfl⟩ := hstep
    exact append_follows hr hh x
  case repr =>
    obtain ⟨h, hh, hv, rfl, rfl⟩ := hstep
    exact repr_follows hr hh hv
  case concat =>
    obtain ⟨h, hh, h', hh', hij, rfl, rfl⟩ := hstep
    exact concat_follows hr hh hh' hij
  case hotBegin n =>
    obtain ⟨h, hh, rfl, rfl⟩ := hstep
    exact hotBegin_follows hr hh n
  case hotWrite =>
    obtain ⟨h, hh, room, hhot, room', hw, rfl, rfl⟩ := hstep
    exact hotWrite_follows hr hh hhot hw
  case hotEnd =>
    obtain ⟨h, hh, room, hhot, w, hw, rfl, rfl⟩ := hstep
    exact hotEnd_follows hr hh hhot hw
  case equal =>
    obtain ⟨h, hh, h', hh', rfl, rfl⟩ := hstep
    exact equal_follows hr hh hh'
  case compare =>
    obtain ⟨h, hh, h', hh', rfl, rfl⟩ := hstep
    exact compare_follows hr hh hh'
  case dictGet =>
    obtain ⟨h, hh, rfl, rfl⟩ := hstep
    exact dictGet_follows hr hh
  case dictStore v =>
    obtain ⟨h, hh, rfl, rfl⟩ := hstep
    exact dictStore_follows hr hh v
  case dictRemove =>
    obtain ⟨h, hh, rfl, rfl⟩ := hstep
    exact dictRemove_follows hr hh

/-- A run on strings follows the run on texts, or ends with one of its steps. -/
theorem run_follows [DeciBase] (hr : Represents σ τ) {ops : List Op} {answers : List Answer}
    (hrun : τ.run ops = some (τ', answers)) :
    (∃ σ', σ.run ops = pure (σ', answers) ∧ Represents σ' τ') ∨
      ∃ e ops₁ τ₁ answers₁, ops₁ <+: ops ∧ τ.run ops₁ = some (τ₁, answers₁) ∧
        σ.run ops = throw e ∧ τ₁.Excuses e := by
  induction ops generalizing σ τ answers with
  | nil =>
      obtain ⟨rfl, rfl⟩ := Prod.mk.inj (Option.some.inj hrun)
      exact Or.inl ⟨σ, rfl, hr⟩
  | cons op ops ih =>
      simp only [Texts.run, Option.bind_eq_bind, Option.bind_eq_some_iff, Option.some.injEq,
        Prod.mk.injEq] at hrun
      obtain ⟨⟨τ₁, a⟩, hstep, ⟨τ₂, as⟩, hrest, rfl, rfl⟩ := hrun
      obtain ⟨e, hthrow, he⟩ | ⟨σ₁, hpure, hr₁⟩ := step_follows hr hstep
      · refine Or.inr ⟨e, [op], τ₁, [a], ⟨ops, rfl⟩, ?_, ?_, he⟩
        · simp [Texts.run, hstep]
        · rw [Holders.run, hthrow]
          rfl
      · obtain ⟨σ', hpure', hr'⟩ | ⟨e, ops₁, τ', as', hpre, hrun₁, hthrow, he⟩ := ih hr₁ hrest
        · refine Or.inl ⟨σ', ?_, hr'⟩
          rw [Holders.run, hpure]
          change (σ₁.run ops >>= _) = _
          rw [hpure']
          rfl
        · refine Or.inr ⟨e, op :: ops₁, τ', a :: as', List.cons_prefix_cons.mpr ⟨rfl, hpre⟩, ?_, ?_,
            he⟩
          · simp [Texts.run, hstep, hrun₁]
          · rw [Holders.run, hpure]
            change (σ₁.run ops >>= _) = _
            rw [hthrow]
            rfl

end

/-- What of two strings the program reads is read of their texts. -/
def ReadsTexts (σ : Holders) (τ : Texts) : Prop :=
  (∀ (i j : Nat) (s t : Addr) (h h' : Holder), σ.refs[i]? = some s → σ.refs[j]? = some t →
    τ.holders[i]? = some h → τ.holders[j]? = some h' →
    ∃ (b : Bool) (n : Nat), stringEqual s t σ.mem = some (.ok b, σ.mem) ∧
      stringCompare s t σ.mem = some (.ok n, σ.mem) ∧ (b = true ↔ h.text = h'.text) ∧
      (n = compareEq ↔ b = true) ∧ (n = compareLess ↔ h.text < h'.text) ∧
      (n = compareGreater ↔ h'.text < h.text)) ∧
  ∀ (i : Nat) (s : Addr) (h : Holder), σ.refs[i]? = some s → τ.holders[i]? = some h →
    dictGet σ.dict s σ.mem = some (.ok (τ.dict.lookup h.text), σ.mem)

theorem Represents.reads (hr : Represents σ τ) : ReadsTexts σ τ := by
  constructor
  · intro i j s t h h' hs ht hh hh'
    obtain ⟨x, hx, hold, -⟩ := hr.held i s h hs hh
    obtain ⟨y, hy, hold', -⟩ := hr.held j t h' ht hh'
    obtain ⟨hless, heq, hgreater⟩ := lexFlag_iff h.text h'.text
    refine ⟨_, _, stringEqual_run hx hold hy hold', stringCompare_run hx hold hy hold',
      decide_eq_true_iff, ?_, hless, hgreater⟩
    rw [heq, decide_eq_true_iff]
  · intro i s h hs hh
    obtain ⟨x, hx, hold, -⟩ := hr.held i s h hs hh
    exact dictGet_run hr.dict hx hold

/-- The strings answer as the texts do and hold them in the end, or the process ends with a step that
the texts excuse. -/
def HoldsTexts [DeciBase] [Allocator] (ops : List Op) (τ : Texts) (answers : List Answer) : Prop :=
  (∃ σ, Holders.empty.run ops = pure (σ, answers) ∧ Represents σ τ ∧ ReadsTexts σ τ) ∨
    ∃ e ops₁ τ₁ answers₁, ops₁ <+: ops ∧ Texts.empty.run ops₁ = some (τ₁, answers₁) ∧
      Holders.empty.run ops = throw e ∧ τ₁.Excuses e

/-- Strings behave as texts of their own in every run on new strings and a new dict. -/
theorem strings_hold_texts [DeciBase] [Allocator] {ops : List Op} {τ : Texts}
    {answers : List Answer} (hrun : Texts.empty.run ops = some (τ, answers)) :
    HoldsTexts ops τ answers := by
  obtain ⟨σ, hpure, hr⟩ | hended := run_follows represents_empty hrun
  · exact Or.inl ⟨σ, hpure, hr, hr.reads⟩
  · exact Or.inr hended

/-- A string that is appended to itself while it is shared, and found in a dict as another one. -/
theorem strings_hold_texts_shared : ∃ τ, @HoldsTexts deciBase64 ⟨fun _ _ => true⟩
    [.new [97, 98] 2, .ref 0, .concat 0 1, .hotBegin 1 3, .hotWrite 1 0 [99], .hotEnd 1 1,
      .compare 0 1, .dictStore 0 (.flag true), .new [97, 98, 97, 98] 9, .equal 0 2, .dictGet 2] τ
    [.done, .done, .done, .done, .done, .done, .order compareLess, .done, .done, .flag true,
      .value (some (.flag true))] :=
  ⟨_, @strings_hold_texts deciBase64 ⟨fun _ _ => true⟩ _ _ _ rfl⟩

end Calx.Str
