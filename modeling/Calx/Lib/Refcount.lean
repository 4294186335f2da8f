import Mathlib.Data.Multiset.Count
import Mathlib.Data.Multiset.Replicate

/-!
# Objects with reference counts

A memory of counted objects, and what programs do with them: reading, writing in
place, copying, reallocating, and giving up a reference.

## Implementation notes

Addresses are positions in the memory, a new object gets a new address, and a
freed one is never used again: an action that touches it fails. Reallocating
always moves the object. The references that exist are a multiset of addresses;
`Counts` says that every object counts its own. An action that takes over one
reference and hands one out is described by `Yields`: the object handed out has
no other reference, and the objects behind all other references are unchanged.
-/

namespace Refcount

/-- A counted object. -/
structure Obj (α : Type) where
  nrefs : Nat
  content : α

/-- The objects by address; `none` has been freed. -/
abbrev Memory (α : Type) := List (Option (Obj α))

/-- A program on the memory; `none` is an access to an object that is not there. -/
abbrev Action (α β : Type) := StateT (Memory α) Option β

variable {α β : Type}

namespace Memory

/-- The object at an address. -/
def obj? (m : Memory α) (p : Nat) : Option (Obj α) := m[p]?.join

/-- What the object at an address holds. -/
def content? (m : Memory α) (p : Nat) : Option α := (m.obj? p).map Obj.content

/-- The count of the object at an address. -/
def nrefs (m : Memory α) (p : Nat) : Nat := (m.obj? p).elim 0 Obj.nrefs

/-- Every object counts the references to it. -/
def Counts (m : Memory α) (refs : Multiset Nat) : Prop := ∀ p, m.nrefs p = refs.count p

end Memory

/-! ## Actions -/

/-- Read an object. -/
def load (p : Nat) : Action α α := fun m => (m.content? p).map (·, m)

/-- Ask whether the object has one reference. -/
def isUniq (p : Nat) : Action α Bool := fun m =>
  (m.obj? p).map fun o => (decide (o.nrefs = 1), m)

/-- Write an object in place. -/
def store (p : Nat) (a : α) : Action α Unit := fun m =>
  (m.obj? p).map fun o => ((), m.set p (some { o with content := a }))

/-- Make a new object with one reference. -/
def alloc (a : α) : Action α Nat := fun m => some (m.length, m ++ [some ⟨1, a⟩])

/-- Move an object to another address and write it there. -/
def realloc (p : Nat) (a : α) : Action α Nat := fun m =>
  (m.obj? p).map fun o => (m.length, m.set p none ++ [some { o with content := a }])

/-- Take one more reference. -/
def incref (p : Nat) : Action α Unit := fun m =>
  (m.obj? p).map fun o => ((), m.set p (some { o with nrefs := o.nrefs + 1 }))

/-- Give up a reference; the last one frees the object. -/
def decref (p : Nat) : Action α Unit := fun m =>
  (m.obj? p).map fun o =>
    ((), m.set p (if o.nrefs = 1 then none else some { o with nrefs := o.nrefs - 1 }))

/-- Give up a reference for a new object. -/
def copy (p : Nat) (a : α) : Action α Nat := do
  let r ← alloc a
  decref p
  pure r

/-! ## Objects at addresses -/

variable {m m' : Memory α} {own own' refs : Multiset Nat} {p q r : Nat} {a z z' : α}

theorem Memory.obj?_set (m : Memory α) (p q : Nat) (o : Option (Obj α)) (hp : p < m.length) :
    Memory.obj? (m.set p o) q = if p = q then o else m.obj? q := by
  simp only [Memory.obj?, List.getElem?_set]
  split
  · rename_i h
    subst h
    rfl
  · rfl

theorem Memory.obj?_append (m : Memory α) (q : Nat) (o : Obj α) :
    Memory.obj? (m ++ [some o]) q = if q = m.length then some o else m.obj? q := by
  simp only [Memory.obj?]
  rcases lt_trichotomy q m.length with h | h | h
  · rw [List.getElem?_append_left h, if_neg h.ne]
  · rw [if_pos h, h, List.getElem?_concat_length]
    rfl
  · rw [if_neg h.ne', List.getElem?_eq_none (by rw [List.length_append]; exact h),
      List.getElem?_eq_none h.le]

theorem Memory.lt_length {o : Obj α} (h : m.obj? p = some o) : p < m.length := by
  by_contra hge
  rw [Memory.obj?, List.getElem?_eq_none (not_lt.mp hge)] at h
  cases h

/-- A counted address holds an object. -/
theorem Memory.Counts.obj? (h : m.Counts refs) (hp : p ∈ refs) :
    ∃ o, m.obj? p = some o ∧ o.nrefs = refs.count p := by
  have hcount := h p
  have hpos := Multiset.one_le_count_iff_mem.mpr hp
  rw [Memory.nrefs] at hcount
  cases ho : m.obj? p with
  | none =>
      rw [ho, Option.elim_none] at hcount
      omega
  | some o => exact ⟨o, rfl, by rwa [ho] at hcount⟩

theorem Memory.Counts.length_not_mem (h : m.Counts refs) : m.length ∉ refs := fun hmem => by
  obtain ⟨o, ho, -⟩ := h.obj? hmem
  exact lt_irrefl _ (Memory.lt_length ho)

/-- A reference is the only one when its object counts one. -/
theorem count_eq_one_iff : (p ::ₘ own).count p = 1 ↔ p ∉ own := by
  rw [Multiset.count_cons_self, ← Multiset.count_eq_zero]
  omega

theorem run_bind {γ : Type} {c : Action α β} {f : β → Action α γ} {b : β} (h : c m = some (b, m')) :
    (c >>= f) m = f b m' := by
  change Option.bind (c m) (fun x => f x.1 x.2) = _
  rw [h]
  rfl

theorem load_eq (h : m.content? p = some a) : load p m = some (a, m) := by
  rw [load, h]
  rfl

theorem isUniq_eq (h : m.Counts (p ::ₘ refs)) :
    isUniq p m = some (decide (p ∉ refs), m) := by
  obtain ⟨o, ho, hcount⟩ := h.obj? (Multiset.mem_cons_self p refs)
  rw [isUniq, ho, Option.map_some, hcount, decide_eq_decide.mpr count_eq_one_iff]

/-- A memory of one object. -/
theorem Memory.counts_replicate (a : α) (n : Nat) :
    Memory.Counts [some ⟨n, a⟩] (Multiset.replicate n 0) := fun p => by
  rw [Multiset.count_replicate]
  cases p with
  | zero => rfl
  | succ p => rfl

/-! ## What an action leaves behind -/

/-- The object at `r` holds `z` and has no reference but the one handed out; those behind the
references `own` are as they were. -/
structure Leaves (m : Memory α) (own : Multiset Nat) (z : α) (r : Nat) (m' : Memory α) : Prop where
  counts : m'.Counts (r ::ₘ own)
  content : m'.content? r = some z
  uniq : r ∉ own
  frame : ∀ p ∈ own, m'.content? p = m.content? p

/-- The action succeeds and hands out a reference to an object of its own that holds `z`. -/
def Yields (c : Action α Nat) (m : Memory α) (own : Multiset Nat) (z : α) : Prop :=
  ∃ r m', c m = some (r, m') ∧ Leaves m own z r m'

theorem Leaves.content_of_mem (h : Leaves m own z r m') (hq : q ∈ own) (ha : m.content? q = some a) :
    m'.content? q = some a := (h.frame q hq).trans ha

/-- What an action yields is determined. -/
theorem Yields.unique {c : Action α Nat} (h : Yields c m own z) (h' : Yields c m own z') :
    z = z' := by
  obtain ⟨r, m₁, hrun, hleaves⟩ := h
  obtain ⟨r', m₂, hrun', hleaves'⟩ := h'
  rw [hrun] at hrun'
  obtain ⟨rfl, rfl⟩ := Prod.mk.inj (Option.some.inj hrun')
  exact Option.some.inj (hleaves.content.symm.trans hleaves'.content)

/-! ## What one action does -/

/-- The object of a reference that is the only one may be written. -/
theorem store_leaves (h : m.Counts (p ::ₘ own)) (hp : p ∉ own) :
    ∃ m', store p a m = some ((), m') ∧ Leaves m own a p m' := by
  obtain ⟨o, ho, hcount⟩ := h.obj? (Multiset.mem_cons_self p own)
  have hlt := Memory.lt_length ho
  refine ⟨m.set p (some { o with content := a }), by rw [store, ho]; rfl, fun q => ?_, ?_, hp,
    fun q hq => ?_⟩
  · rw [← h q, Memory.nrefs, Memory.nrefs, Memory.obj?_set m p q _ hlt]
    split
    · rename_i heq
      rw [← heq, ho]
      rfl
    · rfl
  · rw [Memory.content?, Memory.obj?_set m p p _ hlt, if_pos rfl]
    rfl
  · have hne : p ≠ q := fun heq => hp (heq ▸ hq)
    rw [Memory.content?, Memory.obj?_set m p q _ hlt, if_neg hne]
    rfl

/-- Taking one more reference leaves the objects as they are. -/
theorem incref_counts (h : m.Counts refs) (hp : p ∈ refs) :
    ∃ m', incref p m = some ((), m') ∧ m'.Counts (p ::ₘ refs) ∧
      ∀ q, m'.content? q = m.content? q := by
  obtain ⟨o, ho, hcount⟩ := h.obj? hp
  have hlt := Memory.lt_length ho
  refine ⟨m.set p (some { o with nrefs := o.nrefs + 1 }), by rw [incref, ho]; rfl, fun q => ?_,
    fun q => ?_⟩
  · rw [Memory.nrefs, Memory.obj?_set m p q _ hlt]
    split
    · rename_i heq
      rw [← heq, Multiset.count_cons_self, ← hcount]
      rfl
    · rename_i hne
      rw [Multiset.count_cons_of_ne (Ne.symm hne), ← h q]
      rfl
  · rw [Memory.content?, Memory.content?, Memory.obj?_set m p q _ hlt]
    split
    · rename_i heq
      rw [← heq, ho]
      rfl
    · rfl

/-- Giving up a reference leaves the objects behind the others. -/
theorem decref_counts (h : m.Counts (q ::ₘ refs)) :
    ∃ m', decref q m = some ((), m') ∧ m'.Counts refs ∧
      ∀ p ∈ refs, m'.content? p = m.content? p := by
  obtain ⟨o, ho, hcount⟩ := h.obj? (Multiset.mem_cons_self q refs)
  have hlt := Memory.lt_length ho
  have hone : o.nrefs = 1 ↔ q ∉ refs := by rw [hcount, count_eq_one_iff]
  obtain ⟨m₀, hm₀⟩ : ∃ m₀ : Memory α, m₀ =
    m.set q (if o.nrefs = 1 then none else some { o with nrefs := o.nrefs - 1 }) := ⟨_, rfl⟩
  have hobj : ∀ p, m₀.obj? p = if q = p then
      (if o.nrefs = 1 then none else some { o with nrefs := o.nrefs - 1 }) else m.obj? p := fun p => by
    rw [hm₀, Memory.obj?_set m q p _ hlt]
  refine ⟨m₀, by rw [decref, ho, hm₀]; rfl, fun p => ?_, fun p hp => ?_⟩
  · have hp := h p
    rw [Memory.nrefs] at hp ⊢
    rw [hobj]
    split
    · rename_i heq
      subst heq
      rw [Multiset.count_cons_self] at hcount
      split
      · rw [Option.elim_none]
        omega
      · change o.nrefs - 1 = refs.count q
        omega
    · rename_i hne
      rwa [Multiset.count_cons_of_ne (Ne.symm hne)] at hp
  · rw [Memory.content?, hobj, Memory.content?]
    split
    · rename_i heq
      subst heq
      rw [if_neg fun h1 => hone.mp h1 hp, ho]
      rfl
    · rfl

/-! ## What programs yield -/

/-- A new object. -/
theorem Yields.alloc (h : m.Counts own) (a : α) : Yields (Refcount.alloc a) m own a := by
  have hnew := h.length_not_mem
  have hcontent : ∀ q, Memory.content? (m ++ [some ⟨1, a⟩]) q =
      if q = m.length then some a else m.content? q := fun q => by
    rw [Memory.content?, Memory.obj?_append]
    split <;> rfl
  refine ⟨m.length, m ++ [some ⟨1, a⟩], rfl, fun q => ?_, ?_, hnew, fun q hq => ?_⟩
  · rw [Memory.nrefs, Memory.obj?_append]
    split
    · rename_i heq
      rw [heq, Multiset.count_cons_self, Multiset.count_eq_zero.mpr hnew]
      rfl
    · rename_i hne
      rw [Multiset.count_cons_of_ne hne, ← h q]
      rfl
  · rw [hcontent, if_pos rfl]
  · have hne : q ≠ m.length := fun heq => hnew (heq ▸ hq)
    rw [hcontent, if_neg hne]

theorem Yields.pure (h : m.Counts (p ::ₘ own)) (hp : p ∉ own) (hz : m.content? p = some z) :
    Yields (pure p) m own z := ⟨p, m, rfl, h, hz, hp, fun _ _ => rfl⟩

/-- An action goes on from what another one hands out, with fewer references in use perhaps. -/
theorem Yields.bind {c : Action α Nat} {f : Nat → Action α Nat} (h : Yields c m own z)
    (hle : own' ≤ own) (hf : ∀ r m', Leaves m own z r m' → Yields (f r) m' own' z') :
    Yields (c >>= f) m own' z' := by
  obtain ⟨r, m₁, hc, hleaves⟩ := h
  obtain ⟨r', m₂, hfr, hleaves'⟩ := hf r m₁ hleaves
  refine ⟨r', m₂, ?_, hleaves'.counts, hleaves'.content, hleaves'.uniq, fun p hp => ?_⟩
  · rw [run_bind hc, hfr]
  · exact (hleaves'.frame p hp).trans (hleaves.frame p (Multiset.mem_of_le hle hp))

theorem Yields.load {f : α → Action α Nat} (h : m.content? p = some a)
    (hf : Yields (f a) m own z) : Yields (load p >>= f) m own z := by
  obtain ⟨r, m', hrun, hleaves⟩ := hf
  exact ⟨r, m', by rw [run_bind (load_eq h), hrun], hleaves⟩

theorem Yields.isUniq {f : Bool → Action α Nat} (h : m.Counts (p ::ₘ refs))
    (hf : Yields (f (decide (p ∉ refs))) m own z) : Yields (isUniq p >>= f) m own z := by
  obtain ⟨r, m', hrun, hleaves⟩ := hf
  exact ⟨r, m', by rw [run_bind (isUniq_eq h), hrun], hleaves⟩

/-- The object of a reference that is the only one may be written. -/
theorem Yields.store {f : Unit → Action α Nat} (h : m.Counts (p ::ₘ own)) (hp : p ∉ own)
    (hle : own' ≤ own) (hf : ∀ m', Leaves m own a p m' → Yields (f ()) m' own' z) :
    Yields (store p a >>= f) m own' z := by
  obtain ⟨m₁, hstore, hleaves⟩ := store_leaves (a := a) h hp
  obtain ⟨r, m₂, hrun, hleaves'⟩ := hf m₁ hleaves
  refine ⟨r, m₂, ?_, hleaves'.counts, hleaves'.content, hleaves'.uniq, fun q hq => ?_⟩
  · rw [run_bind hstore, hrun]
  · exact (hleaves'.frame q hq).trans (hleaves.frame q (Multiset.mem_of_le hle hq))

/-- Taking one more reference to an object. -/
theorem Yields.incref {f : Unit → Action α Nat} (h : m.Counts refs) (hp : p ∈ refs)
    (hf : ∀ m', m'.Counts (p ::ₘ refs) → (∀ q, m'.content? q = m.content? q) →
      Yields (f ()) m' own z) : Yields (incref p >>= f) m own z := by
  obtain ⟨m₀, hincref, hcounts, hframe⟩ := incref_counts h hp
  obtain ⟨r, m₁, hrun, hleaves⟩ := hf m₀ hcounts hframe
  refine ⟨r, m₁, ?_, hleaves.counts, hleaves.content, hleaves.uniq, fun q hq => ?_⟩
  · rw [run_bind hincref, hrun]
  · exact (hleaves.frame q hq).trans (hframe q)

/-- Giving up a reference to another object. -/
theorem Yields.decref {f : Unit → Action α Nat} (h : m.Counts (q ::ₘ refs)) (hle : own ≤ refs)
    (hf : ∀ m', m'.Counts refs → (∀ p ∈ refs, m'.content? p = m.content? p) →
      Yields (f ()) m' own z) : Yields (decref q >>= f) m own z := by
  obtain ⟨m₀, hdecref, hcounts, hframe⟩ := decref_counts h
  obtain ⟨r, m₁, hrun, hleaves⟩ := hf m₀ hcounts hframe
  refine ⟨r, m₁, ?_, hleaves.counts, hleaves.content, hleaves.uniq, fun p hp => ?_⟩
  · rw [run_bind hdecref, hrun]
  · exact (hleaves.frame p hp).trans (hframe p (Multiset.mem_of_le hle hp))

/-- A new object instead of a reference that is given up. -/
theorem Yields.copy (h : m.Counts (p ::ₘ own)) (a : α) :
    Yields (Refcount.copy p a) m own a := by
  obtain ⟨r, m₁, halloc, hleaves⟩ := Yields.alloc h a
  have hr : r ∉ own := fun hmem => hleaves.uniq (Multiset.mem_cons_of_mem hmem)
  have hcounts : m₁.Counts (p ::ₘ r ::ₘ own) := Multiset.cons_swap r p own ▸ hleaves.counts
  have hdecref : Yields (Refcount.decref p >>= fun _ => Pure.pure r) m₁ own a := by
    refine Yields.decref hcounts (Multiset.le_cons_self own _) fun m₂ hm₂ hframe => ?_
    refine Yields.pure hm₂ hr ?_
    rw [hframe _ (Multiset.mem_cons_self _ _), hleaves.content]
  obtain ⟨r', m₂, hrun, hleaves'⟩ := hdecref
  refine ⟨r', m₂, ?_, hleaves'.counts, hleaves'.content, hleaves'.uniq, fun q hq => ?_⟩
  · rw [Refcount.copy, run_bind halloc, hrun]
  · rw [hleaves'.frame q hq, hleaves.frame q (Multiset.mem_cons_of_mem hq)]

/-- Moving the object of a reference that is the only one. -/
theorem Yields.realloc (h : m.Counts (p ::ₘ own)) (hp : p ∉ own) (a : α) :
    Yields (Refcount.realloc p a) m own a := by
  have hnew := h.length_not_mem
  obtain ⟨o, ho, hcount⟩ := h.obj? (Multiset.mem_cons_self p own)
  have hlt := Memory.lt_length ho
  have hone : o.nrefs = 1 := by rw [hcount, count_eq_one_iff]; exact hp
  obtain ⟨m₁, hm₁⟩ : ∃ m₁ : Memory α, m₁ = m.set p none ++ [some { o with content := a }] :=
    ⟨_, rfl⟩
  have hobj : ∀ q, m₁.obj? q = if q = m.length then some { o with content := a }
      else if p = q then none else m.obj? q := fun q => by
    rw [hm₁, Memory.obj?_append, List.length_set, Memory.obj?_set m p q _ hlt]
  refine ⟨m.length, m₁, ?_, fun q => ?_, ?_, fun hmem => hnew (Multiset.mem_cons_of_mem hmem),
    fun q hq => ?_⟩
  · change (m.obj? p).map _ = _
    rw [ho, hm₁]
    rfl
  · have hq := h q
    rw [Memory.nrefs] at hq ⊢
    rw [hobj]
    split
    · rename_i heq
      rw [heq, Multiset.count_cons_self,
        Multiset.count_eq_zero.mpr fun hmem => hnew (Multiset.mem_cons_of_mem hmem)]
      exact hone
    · rename_i hne
      rw [Multiset.count_cons_of_ne hne]
      split
      · rename_i heq
        rw [← heq, Multiset.count_eq_zero.mpr hp]
        rfl
      · rename_i hne'
        rwa [Multiset.count_cons_of_ne (Ne.symm hne')] at hq
  · rw [Memory.content?, hobj, if_pos rfl]
    rfl
  · have hne : q ≠ m.length := fun heq => hnew (heq ▸ Multiset.mem_cons_of_mem hq)
    have hne' : p ≠ q := fun heq => hp (heq ▸ hq)
    rw [Memory.content?, hobj, if_neg hne, if_neg hne']
    rfl

/-! ## A kind of contents -/

/-- The counts are right, and every object that is referred to holds something of the kind `P`. -/
structure Holding (P : α → Prop) (m : Memory α) (refs : Multiset Nat) : Prop where
  counts : m.Counts refs
  content : ∀ p ∈ refs, ∃ a, m.content? p = some a ∧ P a

/-- The action succeeds and hands out a reference. All objects stay of the kind `P`, and those
behind the references `own` are as they were. -/
def Provides (P : α → Prop) (c : Action α Nat) (m : Memory α) (own : Multiset Nat) : Prop :=
  ∃ r m', c m = some (r, m') ∧ Holding P m' (r ::ₘ own) ∧ ∀ p ∈ own, m'.content? p = m.content? p

variable {P : α → Prop}

/-- An empty memory. -/
theorem Holding.empty : Holding P ([] : Memory α) 0 :=
  ⟨fun _ => rfl, fun _ hp => absurd hp (Multiset.notMem_zero _)⟩

theorem Holding.mono (h : Holding P m refs) (hcounts : m'.Counts own) (hle : ∀ p ∈ own, p ∈ refs)
    (hframe : ∀ p ∈ own, m'.content? p = m.content? p) : Holding P m' own := by
  refine ⟨hcounts, fun p hp => ?_⟩
  rw [hframe p hp]
  exact h.content p (hle p hp)

/-- One more reference. -/
theorem Holding.incref (h : Holding P m refs) (hp : p ∈ refs) :
    ∃ m', Refcount.incref p m = some ((), m') ∧ Holding P m' (p ::ₘ refs) := by
  obtain ⟨m', hrun, hcounts, hframe⟩ := incref_counts h.counts hp
  refine ⟨m', hrun, h.mono hcounts (fun q hq => ?_) fun q _ => hframe q⟩
  rcases Multiset.mem_cons.mp hq with rfl | hq
  · exact hp
  · exact hq

/-- One reference less. -/
theorem Holding.decref (h : Holding P m (p ::ₘ refs)) :
    ∃ m', Refcount.decref p m = some ((), m') ∧ Holding P m' refs := by
  obtain ⟨m', hrun, hcounts, hframe⟩ := decref_counts h.counts
  exact ⟨m', hrun, h.mono hcounts (fun q hq => Multiset.mem_cons_of_mem hq) hframe⟩

theorem Yields.provides {c : Action α Nat} (h : Yields c m own z) (hz : P z)
    (hown : ∀ p ∈ own, ∃ a, m.content? p = some a ∧ P a) : Provides P c m own := by
  obtain ⟨r, m', hrun, hleaves⟩ := h
  refine ⟨r, m', hrun, ⟨hleaves.counts, fun p hp => ?_⟩, hleaves.frame⟩
  rcases Multiset.mem_cons.mp hp with rfl | hp
  · exact ⟨z, hleaves.content, hz⟩
  · rw [hleaves.frame p hp]
    exact hown p hp

/-- An operand is handed out as it is. -/
theorem Provides.pure (h : Holding P m (p ::ₘ own)) : Provides P (pure p) m own :=
  ⟨p, m, rfl, h, fun _ _ => rfl⟩

end Refcount
