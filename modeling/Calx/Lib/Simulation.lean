import Calx.Lib.Nondet

/-!
# Machines that do what a computation says

Every halting run of a machine ends as a computation may end: a fragment of the machine's
program gets it to where the computation has its value, or halts it with the computation's
error, or the run is lost to something that the computation does not know of.

## Implementation notes

A run is measured by its remaining steps, which only decrease. This is what a loop and a
recursive call of the computation are unrolled by.
-/

/-- A machine that makes each of its steps in one of several ways. -/
structure Stepper (ι μ ρ : Type) where
  step : ι → μ → μ ⊕ ρ
  /-- A step that may be made. -/
  ok : ι → μ → Prop

namespace Stepper

variable {ι μ ρ σ τ ε α β : Type} (S : Stepper ι μ ρ)

/-- The machine halts with a result in at most `n` steps. -/
def Halts : Nat → μ → ρ → Prop
  | 0, _, _ => False
  | n + 1, m, r => ∃ i, S.ok i m ∧ (S.step i m).elim (fun m' => Halts n m' r) (r = ·)

variable (Lost : ρ → Prop) (Raised : ε → σ → ρ → Prop)

/-- What is to come after a way of ending: a machine of which `After` holds, or the result. -/
def Goes (n : Nat) (r : ρ) (After : α → σ → μ → Prop) : Except ε α × σ → Prop
  | (.ok a, s) => ∃ m, ∃ n' ≤ n, S.Halts n' m r ∧ After a s m
  | (.error e, s) => Raised e s r

/-- Every run of at most `n` steps goes as the computation may from the state `s`. -/
def Does (n : Nat) (m : μ) (c : Nd σ ε α) (s : σ) (After : α → σ → μ → Prop) : Prop :=
  ∀ r, S.Halts n m r → Lost r ∨ ∃ o, c s o ∧ S.Goes Raised n r After o

/-- A step of the machine does what a way of ending says. -/
def Makes (x : μ ⊕ ρ) (After : α → σ → μ → Prop) : Except ε α × σ → Prop
  | (.ok a, s) => ∃ m, x = .inl m ∧ After a s m
  | (.error e, s) => ∃ r, x = .inr r ∧ Raised e s r

variable {S Lost Raised} {n : Nat} {m : μ} {s : σ} {c : Nd σ ε α} {After After' : α → σ → μ → Prop}

theorem Halts.cases {r : ρ} (h : S.Halts n m r) :
    ∃ i, S.ok i m ∧ ((∃ n' m', n = n' + 1 ∧ S.step i m = .inl m' ∧ S.Halts n' m' r) ∨
      S.step i m = .inr r) := by
  cases n with
  | zero => exact h.elim
  | succ n =>
      obtain ⟨i, hok, h⟩ := h
      refine ⟨i, hok, ?_⟩
      cases hstep : S.step i m with
      | inl m' =>
          rw [hstep] at h
          exact .inl ⟨n, m', rfl, rfl, h⟩
      | inr r' =>
          rw [hstep] at h
          exact .inr (congrArg _ h.symm)

namespace Does

/-- The value is there. -/
theorem pure {a : α} (h : After a s m) : S.Does Lost Raised n m (Pure.pure a) s After := by
  intro r hr
  exact .inr ⟨_, rfl, m, n, Nat.le_refl n, hr, h⟩

theorem imp (h : S.Does Lost Raised n m c s After) (himp : ∀ a s m, After a s m → After' a s m) :
    S.Does Lost Raised n m c s After' := by
  intro r hr
  obtain hlost | ⟨⟨e | a, s'⟩, hc, hgoes⟩ := h r hr
  · exact .inl hlost
  · exact .inr ⟨_, hc, hgoes⟩
  · obtain ⟨m', n', hn, hhalts, hafter⟩ := hgoes
    exact .inr ⟨_, hc, m', n', hn, hhalts, himp a s' m' hafter⟩

/-- A sequence. -/
theorem bind {f : α → Nd σ ε β} {After' : β → σ → μ → Prop} (h : S.Does Lost Raised n m c s After)
    (hf : ∀ n' ≤ n, ∀ a s' m', c s (.ok a, s') → After a s' m' →
      S.Does Lost Raised n' m' (f a) s' After') :
    S.Does Lost Raised n m (c >>= f) s After' := by
  intro r hr
  obtain hlost | ⟨⟨e | a, s'⟩, hc, hgoes⟩ := h r hr
  · exact .inl hlost
  · exact .inr ⟨_, Nd.bind_error hc, hgoes⟩
  · obtain ⟨m', n', hn, hhalts, hafter⟩ := hgoes
    obtain hlost | ⟨⟨e | b, s''⟩, hc', hgoes'⟩ := hf n' hn a s' m' hc hafter r hhalts
    · exact .inl hlost
    · exact .inr ⟨_, Nd.bind_ok hc hc', hgoes'⟩
    · obtain ⟨m'', n'', hn', hhalts', hafter'⟩ := hgoes'
      exact .inr ⟨_, Nd.bind_ok hc hc', m'', n'', Nat.le_trans hn' hn, hhalts', hafter'⟩

/-- The first part of a sequence, when it takes no step. -/
theorem ok_bind {f : α → Nd σ ε β} {After' : β → σ → μ → Prop} {a : α} {s' : σ}
    (hc : c s (.ok a, s')) (h : S.Does Lost Raised n m (f a) s' After') :
    S.Does Lost Raised n m (c >>= f) s After' := by
  intro r hr
  obtain hlost | ⟨o, ho, hgoes⟩ := h r hr
  · exact .inl hlost
  · exact .inr ⟨o, Nd.bind_ok hc ho, hgoes⟩

/-- A step that the computation does not know of. -/
theorem step {P : μ → Prop}
    (h : ∀ i, S.ok i m → (∃ r, S.step i m = .inr r ∧ Lost r) ∨ ∃ m', S.step i m = .inl m' ∧ P m')
    (hc : ∀ n' < n, ∀ m', P m' → S.Does Lost Raised n' m' c s After) :
    S.Does Lost Raised n m c s After := by
  intro r hr
  obtain ⟨i, hok, hrun⟩ := hr.cases
  rcases h i hok with ⟨r', hr', hlost⟩ | ⟨m₁, hm₁, hP⟩
  · rcases hrun with ⟨n', m', -, hstep, -⟩ | hstep
    · cases hstep.symm.trans hr'
    · exact .inl (Sum.inr.inj (hr'.symm.trans hstep) ▸ hlost)
  · rcases hrun with ⟨n', m', rfl, hstep, hhalts⟩ | hstep
    · obtain rfl := Sum.inl.inj (hstep.symm.trans hm₁)
      obtain hlost | ⟨⟨e | a, s'⟩, hc', hgoes⟩ := hc n' (Nat.lt_succ_self n') m' hP r hhalts
      · exact .inl hlost
      · exact .inr ⟨_, hc', hgoes⟩
      · obtain ⟨m'', n'', hn, hhalts', hafter⟩ := hgoes
        exact .inr ⟨_, hc', m'', n'', Nat.le_trans hn (Nat.le_succ n'), hhalts', hafter⟩
    · cases hstep.symm.trans hm₁

/-- A step after the computation. -/
theorem then_step (h : S.Does Lost Raised n m c s After)
    (hstep : ∀ a s m, After a s m → ∀ i, S.ok i m → ∃ m', S.step i m = .inl m' ∧ After' a s m') :
    S.Does Lost Raised n m c s After' := by
  intro r hr
  obtain hlost | ⟨⟨e | a, s'⟩, hc, hgoes⟩ := h r hr
  · exact .inl hlost
  · exact .inr ⟨_, hc, hgoes⟩
  · obtain ⟨m', n', hn, hhalts, hafter⟩ := hgoes
    obtain ⟨i, hok, ⟨n'', m'', rfl, hm'', hhalts'⟩ | hm''⟩ := hhalts.cases
    · obtain ⟨m₁, hm₁, hafter'⟩ := hstep a s' m' hafter i hok
      obtain rfl := Sum.inl.inj (hm''.symm.trans hm₁)
      exact .inr ⟨_, hc, m'', n'', Nat.le_trans (Nat.le_succ n'') hn, hhalts', hafter'⟩
    · obtain ⟨m₁, hm₁, -⟩ := hstep a s' m' hafter i hok
      cases hm''.symm.trans hm₁

/-- A step that is the computation. -/
theorem of_step (h : ∀ i, S.ok i m → (∃ r, S.step i m = .inr r ∧ Lost r) ∨
      ∃ o, c s o ∧ Makes Raised (S.step i m) After o) :
    S.Does Lost Raised n m c s After := by
  intro r hr
  obtain ⟨i, hok, hrun⟩ := hr.cases
  rcases h i hok with ⟨r', hr', hlost⟩ | ⟨⟨e | a, s'⟩, hc, hmakes⟩
  · rcases hrun with ⟨n', m', -, hstep, -⟩ | hstep
    · cases hstep.symm.trans hr'
    · exact .inl (Sum.inr.inj (hr'.symm.trans hstep) ▸ hlost)
  · obtain ⟨r', hr', hraised⟩ := hmakes
    rcases hrun with ⟨n', m', -, hstep, -⟩ | hstep
    · cases hstep.symm.trans hr'
    · exact .inr ⟨_, hc, Sum.inr.inj (hr'.symm.trans hstep) ▸ hraised⟩
  · obtain ⟨m₁, hm₁, hafter⟩ := hmakes
    rcases hrun with ⟨n', m', rfl, hstep, hhalts⟩ | hstep
    · obtain rfl := Sum.inl.inj (hstep.symm.trans hm₁)
      exact .inr ⟨_, hc, m', n', Nat.le_succ n', hhalts, hafter⟩
    · cases hstep.symm.trans hm₁

/-- A step that performs an action. -/
theorem perform {f : ι → σ → Except ε α × σ}
    (h : ∀ i, S.ok i m → Makes Raised (S.step i m) After (f i s)) :
    S.Does Lost Raised n m (Nd.perform f) s After :=
  of_step fun i hok => .inr ⟨_, ⟨i, rfl⟩, h i hok⟩

/-- A computation on a part of the state. -/
theorem zoom {get : τ → σ} {set : σ → τ → τ} {t : τ} {Raised' : ε → τ → ρ → Prop}
    (h : S.Does Lost Raised n m c (get t) After)
    (hraised : ∀ e s r, Raised e s r → Raised' e (set s t) r) :
    S.Does Lost Raised' n m (Nd.zoom get set c) t fun a t' m' =>
      ∃ s', t' = set s' t ∧ After a s' m' := by
  intro r hr
  obtain hlost | ⟨⟨e | a, s'⟩, hc, hgoes⟩ := h r hr
  · exact .inl hlost
  · exact .inr ⟨_, ⟨_, hc, rfl⟩, hraised e s' r hgoes⟩
  · obtain ⟨m', n', hn, hhalts, hafter⟩ := hgoes
    exact .inr ⟨_, ⟨_, hc, rfl⟩, m', n', hn, hhalts, s', rfl, hafter⟩

/-- A computation on a larger state that is done as one on a smaller one. -/
theorem project {c' : Nd τ ε α} {t : τ} {Raised' : ε → τ → ρ → Prop}
    {After' : α → τ → μ → Prop} (h : S.Does Lost Raised n m c s After) (get : σ → τ)
    (hc : ∀ o, c s o → c' t (o.1, get o.2))
    (hraised : ∀ e s r, Raised e s r → Raised' e (get s) r)
    (hafter : ∀ a s m, After a s m → After' a (get s) m) :
    S.Does Lost Raised' n m c' t After' := by
  intro r hr
  obtain hlost | ⟨⟨e | a, s'⟩, ho, hgoes⟩ := h r hr
  · exact .inl hlost
  · exact .inr ⟨_, hc _ ho, hraised e s' r hgoes⟩
  · obtain ⟨m', n', hn, hhalts, ha⟩ := hgoes
    exact .inr ⟨_, hc _ ho, m', n', hn, hhalts, hafter a s' m' ha⟩

/-- A loop, in which a step leads back from the end of a turn to the beginning of the next. -/
theorem loop {turn : Nd σ ε (Option α)} (Top Last : σ → μ → Prop)
    (hturn : ∀ n' ≤ n, ∀ s m, Top s m → S.Does Lost Raised n' m turn s fun o s' m' =>
      (o = none ∧ Last s' m') ∨ ∃ a, o = some a ∧ After a s' m')
    (hback : ∀ s m, Last s m → ∀ i, S.ok i m → ∃ m', S.step i m = .inl m' ∧ Top s m')
    (h : Top s m) : S.Does Lost Raised n m (Nd.loop turn) s After := by
  induction n using Nat.strongRecOn generalizing s m with
  | ind n ih =>
      intro r hr
      obtain hlost | ⟨⟨e | o, s'⟩, hc, hgoes⟩ := hturn n (Nat.le_refl n) s m h r hr
      · exact .inl hlost
      · exact .inr ⟨_, .failed hc, hgoes⟩
      · obtain ⟨m', n', hn, hhalts, ⟨rfl, hlast⟩ | ⟨a, rfl, hafter⟩⟩ := hgoes
        · obtain ⟨i, hok, ⟨n'', m'', rfl, hm'', hhalts'⟩ | hm''⟩ := hhalts.cases
          · obtain ⟨m₁, hm₁, htop⟩ := hback s' m' hlast i hok
            obtain rfl := Sum.inl.inj (hm''.symm.trans hm₁)
            have hrest := ih n'' (by omega) (fun k hk => hturn k (by omega)) htop
            obtain hlost | ⟨⟨e | a, s''⟩, hc', hgoes'⟩ := hrest r hhalts'
            · exact .inl hlost
            · exact .inr ⟨_, .again hc hc', hgoes'⟩
            · obtain ⟨m₂, n₂, hn₂, hhalts₂, hafter⟩ := hgoes'
              exact .inr ⟨_, .again hc hc', m₂, n₂, by omega, hhalts₂, hafter⟩
          · obtain ⟨m₁, hm₁, -⟩ := hback s' m' hlast i hok
            cases hm''.symm.trans hm₁
        · exact .inr ⟨_, .done hc, m', n', hn, hhalts, hafter⟩

end Does

end Stepper
