import Calx.Lib.Refcount

/-!
# Programs that can give up

A program on counted objects that can also end for a reason of its own, such as
memory that is not provided. `Attempts` says what it hands out when it does not.

## Implementation notes

Giving up ends everything, so that nothing is said about the memory then. The
actions on objects keep their names; a computation without memory that fails
makes the program fail.
-/

namespace Refcount

/-- The address that the next object gets. -/
def nextAddr {α : Type} : Action α Nat := fun m => some (m.length, m)

/-- A program that can give up. -/
abbrev Attempt (ε α β : Type) := ExceptT ε (Action α) β

namespace Attempt

variable {ε α β : Type}

def load (p : Nat) : Attempt ε α α := liftM (Refcount.load p : Action α α)

def isUniq (p : Nat) : Attempt ε α Bool := liftM (Refcount.isUniq p : Action α Bool)

def store (p : Nat) (a : α) : Attempt ε α Unit := liftM (Refcount.store p a)

def alloc (a : α) : Attempt ε α Nat := liftM (Refcount.alloc a)

def realloc (p : Nat) (a : α) : Attempt ε α Nat := liftM (Refcount.realloc p a)

def decref (p : Nat) : Attempt ε α Unit := liftM (Refcount.decref p : Action α Unit)

def nextAddr : Attempt ε α Nat := liftM (Refcount.nextAddr : Action α Nat)

/-- A computation without memory. -/
def compute (c : Option β) : Attempt ε α β := liftM (liftM c : Action α β)

variable {γ : Type} {m m' : Memory α} {b : β} {a : α} {p : Nat}

/-- A program goes on from what an action leaves. -/
theorem lift_bind {c : Action α β} {f : β → Attempt ε α γ} (h : c m = some (b, m')) :
    ((liftM c : Attempt ε α β) >>= f) m = f b m' := by
  change ((c >>= fun r => Pure.pure (Except.ok r)) >>= ExceptT.bindCont f) m = _
  rw [run_bind (run_bind h)]
  rfl

theorem load_bind {f : α → Attempt ε α γ} (h : m.content? p = some a) :
    (load p >>= f) m = f a m := lift_bind (load_eq h)

theorem compute_bind {c : Option β} {f : β → Attempt ε α γ} (h : c = some b) :
    (compute c >>= f) m = f b m := by
  refine lift_bind ?_
  rw [h]
  rfl

end Attempt

variable {ε α β : Type} {m m' : Memory α} {own own' refs : Multiset Nat} {p q r : Nat} {a z : α}
  {b : β} {e : ε} {E E' : ε → Prop} {Q Q' : α → Prop}

/-- The program gives up for a reason that `E` admits, or hands out a reference to an object of its
own of which `Q` holds. -/
def Attempts (c : Attempt ε α Nat) (m : Memory α) (own : Multiset Nat) (E : ε → Prop)
    (Q : α → Prop) : Prop :=
  (∃ e m', c m = some (.error e, m') ∧ E e) ∨
    ∃ r m', c m = some (.ok r, m') ∧ ∃ z, Q z ∧ Leaves m own z r m'

namespace Attempts

theorem throw (h : E e) : Attempts (throw e : Attempt ε α Nat) m own E Q :=
  Or.inl ⟨e, m, rfl, h⟩

theorem pure (h : m.Counts (p ::ₘ own)) (hp : p ∉ own) (hz : m.content? p = some z) (hQ : Q z) :
    Attempts (Pure.pure p : Attempt ε α Nat) m own E Q :=
  Or.inr ⟨p, m, rfl, z, hQ, h, hz, hp, fun _ _ => rfl⟩

/-- What an action yields. -/
theorem of_yields {c : Action α Nat} (h : Yields c m own z) (hz : Q z) :
    Attempts (liftM c : Attempt ε α Nat) m own E Q := by
  obtain ⟨r, m', hrun, hleaves⟩ := h
  refine Or.inr ⟨r, m', ?_, z, hz, hleaves⟩
  change (c >>= fun r => Pure.pure (Except.ok r)) m = _
  rw [run_bind hrun]
  rfl

theorem mono {c : Attempt ε α Nat} (h : Attempts c m own E Q) (hE : ∀ e, E e → E' e)
    (hQ : ∀ z, Q z → Q' z) : Attempts c m own E' Q' := by
  obtain ⟨e, m', hrun, he⟩ | ⟨r, m', hrun, z, hz, hleaves⟩ := h
  · exact Or.inl ⟨e, m', hrun, hE e he⟩
  · exact Or.inr ⟨r, m', hrun, z, hQ z hz, hleaves⟩

/-- A program goes on from what another one hands out. -/
theorem bind {c : Attempt ε α Nat} {f : Nat → Attempt ε α Nat} (h : Attempts c m own E Q)
    (hle : own' ≤ own)
    (hf : ∀ r m' z, Q z → Leaves m own z r m' → Attempts (f r) m' own' E Q') :
    Attempts (c >>= f) m own' E Q' := by
  have hbind : (c >>= f) m = (c m).bind fun out => ExceptT.bindCont f out.1 out.2 := rfl
  obtain ⟨e, m', hrun, he⟩ | ⟨r, m₁, hrun, z, hz, hleaves⟩ := h
  · exact Or.inl ⟨e, m', by rw [hbind, hrun]; rfl, he⟩
  have hrest : (c >>= f) m = f r m₁ := by
    rw [hbind, hrun]
    rfl
  obtain ⟨e, m', hrun', he⟩ | ⟨r', m₂, hrun', z', hz', hleaves'⟩ := hf r m₁ z hz hleaves
  · exact Or.inl ⟨e, m', by rw [hrest, hrun'], he⟩
  · refine Or.inr ⟨r', m₂, by rw [hrest, hrun'], z', hz', hleaves'.counts, hleaves'.content,
      hleaves'.uniq, fun p hp => ?_⟩
    exact (hleaves'.frame p hp).trans (hleaves.frame p (Multiset.mem_of_le hle hp))

/-- A program goes on from what an action leaves. -/
theorem act {c : Action α β} {f : β → Attempt ε α Nat} (h : c m = some (b, m'))
    (hframe : ∀ p ∈ own, m'.content? p = m.content? p) (hf : Attempts (f b) m' own E Q) :
    Attempts ((liftM c : Attempt ε α β) >>= f) m own E Q := by
  have hbind : ((liftM c : Attempt ε α β) >>= f) m = f b m' := Attempt.lift_bind h
  obtain ⟨e, m₂, hrun, he⟩ | ⟨r, m₂, hrun, z, hz, hleaves⟩ := hf
  · exact Or.inl ⟨e, m₂, by rw [hbind, hrun], he⟩
  · exact Or.inr ⟨r, m₂, by rw [hbind, hrun], z, hz, hleaves.counts, hleaves.content,
      hleaves.uniq, fun p hp => (hleaves.frame p hp).trans (hframe p hp)⟩

theorem load {f : α → Attempt ε α Nat} (h : m.content? p = some a)
    (hf : Attempts (f a) m own E Q) : Attempts (Attempt.load p >>= f) m own E Q :=
  act (load_eq h) (fun _ _ => rfl) hf

theorem isUniq {f : Bool → Attempt ε α Nat} (h : m.Counts (p ::ₘ refs))
    (hf : Attempts (f (decide (p ∉ refs))) m own E Q) :
    Attempts (Attempt.isUniq p >>= f) m own E Q :=
  act (isUniq_eq h) (fun _ _ => rfl) hf

theorem nextAddr {f : Nat → Attempt ε α Nat} (hf : Attempts (f m.length) m own E Q) :
    Attempts (Attempt.nextAddr >>= f) m own E Q :=
  act (show Refcount.nextAddr m = some (m.length, m) from rfl) (fun _ _ => rfl) hf

theorem compute {c : Option β} {f : β → Attempt ε α Nat} (h : c = some b)
    (hf : Attempts (f b) m own E Q) : Attempts (Attempt.compute c >>= f) m own E Q := by
  refine act ?_ (fun _ _ => rfl) hf
  rw [h]
  rfl

theorem store {f : Unit → Attempt ε α Nat} (h : m.Counts (p ::ₘ own)) (hp : p ∉ own)
    (hf : ∀ m', Leaves m own a p m' → Attempts (f ()) m' own E Q) :
    Attempts (Attempt.store p a >>= f) m own E Q := by
  obtain ⟨m', hstore, hleaves⟩ := store_leaves (a := a) h hp
  exact act hstore hleaves.frame (hf m' hleaves)

theorem decref {f : Unit → Attempt ε α Nat} (h : m.Counts (q ::ₘ refs)) (hle : own ≤ refs)
    (hf : ∀ m', m'.Counts refs → (∀ p ∈ refs, m'.content? p = m.content? p) →
      Attempts (f ()) m' own E Q) : Attempts (Attempt.decref q >>= f) m own E Q := by
  obtain ⟨m', hdecref, hcounts, hframe⟩ := decref_counts h
  exact act hdecref (fun p hp => hframe p (Multiset.mem_of_le hle hp)) (hf m' hcounts hframe)

theorem alloc (h : m.Counts own) (hQ : Q a) :
    Attempts (Attempt.alloc a : Attempt ε α Nat) m own E Q :=
  of_yields (Yields.alloc h a) hQ

theorem realloc (h : m.Counts (p ::ₘ own)) (hp : p ∉ own) (hQ : Q a) :
    Attempts (Attempt.realloc p a : Attempt ε α Nat) m own E Q :=
  of_yields (Yields.realloc h hp a) hQ

end Attempts

end Refcount
