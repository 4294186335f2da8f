import Calx.Lib.Chain
import Calx.Wref.Basic

/-!
# Weak references are exact

Whatever lists, dicts and weak references a program makes and destroys, a weak
reference points to its target while that lives and to nothing afterwards, and
the list of a target holds the weak references to it.

## Implementation notes

`WrefLog` is what a reader of the steps knows without looking at the heap. Each
list or dict gets a serial number, since an address is used again after `free`;
`origin` is the serial number of the target that a weak reference was made for.
The invariant `Tracks` keeps one doubly linked list for each serial number, so
that the references to a dead target are covered like those to a live one.
-/

namespace Calx

open WrefHeap

variable {Addr : Type}

/-- The lists, dicts and weak references in use. -/
structure WrefLog (Addr : Type) where
  /-- The serial numbers of the lists and dicts that have not been destroyed. -/
  targets : Addr → Option Nat
  /-- Destroyed but not yet freed. -/
  dying : Addr → Bool
  origin : Addr → Option Nat
  serial : Nat

namespace WrefLog

/-- `malloc` may return the address. -/
def Unused (log : WrefLog Addr) (x : Addr) : Prop :=
  log.targets x = none ∧ log.dying x = false ∧ log.origin x = none

/-- What has to hold for a step to be taken: objects are alive, new addresses are not in use. -/
def Allows (log : WrefLog Addr) : WrefOp Addr → Prop
  | .create x => log.Unused x
  | .wrefNew w target => log.Unused w ∧ log.targets target ≠ none
  | .wrefDestroy w => log.origin w ≠ none
  | .destroy x => log.targets x ≠ none
  | .free x => log.dying x = true

variable [DecidableEq Addr]

/-- What a step changes. -/
def step (log : WrefLog Addr) : WrefOp Addr → WrefLog Addr
  | .create x =>
      { log with
        targets := Function.update log.targets x (some log.serial)
        serial := log.serial + 1 }
  | .wrefNew w target => { log with origin := Function.update log.origin w (log.targets target) }
  | .wrefDestroy w => { log with origin := Function.update log.origin w none }
  | .destroy x =>
      { log with
        targets := Function.update log.targets x none
        dying := Function.update log.dying x true }
  | .free x => { log with dying := Function.update log.dying x false }

/-- The steps in turn. -/
def run (log : WrefLog Addr) (ops : List (WrefOp Addr)) : WrefLog Addr := ops.foldl step log

/-- Each step is taken where it may be. -/
def AllowsAll (log : WrefLog Addr) : List (WrefOp Addr) → Prop
  | [] => True
  | op :: ops => log.Allows op ∧ (log.step op).AllowsAll ops

/-- Nothing is in use. -/
def initial : WrefLog Addr := ⟨fun _ => none, fun _ => false, fun _ => none, 0⟩

end WrefLog

namespace WrefHeap

/-- `w->next` of a live weak reference. -/
def next (h : WrefHeap Addr) (w : Addr) : Option Addr := (h.wrefs w).bind (·.next)

/-- `w->prev` of a live weak reference. -/
def prev (h : WrefHeap Addr) (w : Addr) : Option Addr := (h.wrefs w).bind (·.prev)

end WrefHeap

/-- The weak references of the heap are what the log says they have to be. -/
structure WrefsExact (h : WrefHeap Addr) (log : WrefLog Addr) : Prop where
  alive : ∀ w, h.wrefs w ≠ none ↔ log.origin w ≠ none
  /-- The target is the original one as long as that lives. -/
  target : ∀ w r, h.wrefs w = some r → ∀ x, r.target = some x ↔ log.targets x = log.origin w
  /-- The list of a target holds the live references to it. -/
  list : ∀ x, log.targets x ≠ none → ∃ l, h.firsts x = some l.head? ∧
    DoublyLinked h.next h.prev l ∧ ∀ w, w ∈ l ↔ ∃ r, h.wrefs w = some r ∧ r.target = some x
  links : ∀ w r, h.wrefs w = some r → ∀ v, r.next = some v ∨ r.prev = some v → h.wrefs v ≠ none
  firsts : ∀ x v, log.targets x ≠ none → h.firsts x = some (some v) → h.wrefs v ≠ none

/-- The references to each target, dead or alive, form one doubly linked list. -/
structure Tracks (h : WrefHeap Addr) (log : WrefLog Addr) (chain : Nat → List Addr) : Prop where
  alive : ∀ w, h.wrefs w ≠ none ↔ log.origin w ≠ none
  mem_iff : ∀ k w, w ∈ chain k ↔ log.origin w = some k
  linked : ∀ k, DoublyLinked h.next h.prev (chain k)
  target : ∀ w r, h.wrefs w = some r → ∀ x, r.target = some x ↔ log.targets x = log.origin w
  first : ∀ x k, log.targets x = some k → h.firsts x = some (chain k).head?
  dying : ∀ x, log.dying x = true → log.targets x = none ∧ h.firsts x ≠ none
  origin_lt : ∀ w k, log.origin w = some k → k < log.serial
  targets_lt : ∀ x k, log.targets x = some k → k < log.serial
  injective : ∀ x y k, log.targets x = some k → log.targets y = some k → x = y

variable {h : WrefHeap Addr} {log : WrefLog Addr} {chain : Nat → List Addr} {w x : Addr}
  {r : WeakRef Addr} {k fuel : Nat}

/-- The loop of `wrefable_invalidate` clears the targets along a list. -/
theorem invalidateFrom_spec [DecidableEq Addr] {l : List Addr} {first : Option Addr}
    (hc : LinkChain h.next first l) (hl : ∀ w ∈ l, h.wrefs w ≠ none) :
    ∃ h', (∀ fuel ≥ l.length, invalidateFrom fuel h first = .ok h') ∧ h'.firsts = h.firsts ∧
      ∀ b, h'.wrefs b = (h.wrefs b).map fun r =>
        { r with target := if b ∈ l then none else r.target } := by
  induction l generalizing h first with
  | nil =>
      obtain rfl := hc
      exact ⟨h, fun fuel _ => by cases fuel <;> rfl, rfl, fun b => by simp⟩
  | cons w l ih =>
      obtain ⟨rfl, hrest⟩ := hc
      obtain ⟨r, hr⟩ := Option.ne_none_iff_exists'.mp (hl w List.mem_cons_self)
      obtain ⟨h₁, hh₁⟩ : ∃ h₁ : WrefHeap Addr, h₁ =
          { h with wrefs := Function.update h.wrefs w (some { r with target := none }) } := ⟨_, rfl⟩
      have hw₁ : h₁.wrefs w = some { r with target := none } := by simp [hh₁]
      have hother : ∀ b ≠ w, h₁.wrefs b = h.wrefs b := fun b hb => by simp [hh₁, hb]
      have hnext : h₁.next = h.next := by
        funext b
        rcases eq_or_ne b w with rfl | hb
        · simp [WrefHeap.next, hw₁, hr]
        · simp [WrefHeap.next, hother b hb]
      rw [WrefHeap.next, hr, ← hnext] at hrest
      obtain ⟨h', hrun, hfirsts, hwrefs⟩ := ih hrest fun b hb => by
        rcases eq_or_ne b w with rfl | hne
        · simp [hw₁]
        · rw [hother b hne]
          exact hl b (List.mem_cons_of_mem w hb)
      refine ⟨h', fun fuel hfuel => ?_, by rw [hfirsts, hh₁], fun b => ?_⟩
      · obtain ⟨fuel, rfl⟩ : ∃ n, fuel = n + 1 := ⟨fuel - 1, by simp at hfuel; omega⟩
        rw [invalidateFrom, modify_eq hr, ← hh₁]
        simp only [bind, Except.bind]
        rw [wref_eq_ok.mpr hw₁]
        exact hrun fuel (by simpa using hfuel)
      · rw [hwrefs]
        rcases eq_or_ne b w with rfl | hne
        · simp [hw₁, hr]
        · simp [hother b hne, hne]

namespace Tracks

theorem exists_origin (t : Tracks h log chain) (hw : h.wrefs w = some r) :
    ∃ k, log.origin w = some k :=
  Option.ne_none_iff_exists'.mp ((t.alive w).mp (by simp [hw]))

theorem exists_wref (t : Tracks h log chain) (hw : w ∈ chain k) : ∃ r, h.wrefs w = some r :=
  Option.ne_none_iff_exists'.mp ((t.alive w).mpr (by simp [(t.mem_iff k w).mp hw]))

/-- Where a live weak reference stands in its list. -/
theorem split (t : Tracks h log chain) (hw : h.wrefs w = some r) :
    ∃ k p q, log.origin w = some k ∧ chain k = p ++ w :: q ∧ r.next = q.head? ∧
      r.prev = p.getLast? := by
  obtain ⟨k, hk⟩ := t.exists_origin hw
  obtain ⟨p, q, hpq⟩ := List.append_of_mem ((t.mem_iff k w).mpr hk)
  have hlinked := t.linked k
  rw [hpq] at hlinked
  have hnext := hlinked.next_eq
  have hprev := hlinked.prev_eq
  rw [WrefHeap.next, hw] at hnext
  rw [WrefHeap.prev, hw] at hprev
  exact ⟨k, p, q, hk, hpq, hnext, hprev⟩

theorem links (t : Tracks h log chain) (hw : h.wrefs w = some r) (v : Addr)
    (hv : r.next = some v ∨ r.prev = some v) : v ≠ w ∧ h.wrefs v ≠ none := by
  obtain ⟨k, p, q, -, hpq, hnext, hprev⟩ := t.split hw
  have hnd := (t.linked k).forward.nodup
  rw [hpq, List.nodup_middle, List.nodup_cons] at hnd
  have hmem : v ∈ p ++ q := by
    rcases hv with hv | hv
    · rw [hnext] at hv
      exact List.mem_append_right _ (List.mem_of_head? hv)
    · rw [hprev] at hv
      exact List.mem_append_left _ (List.mem_of_getLast? hv)
  constructor
  · rintro rfl
    exact hnd.1 hmem
  · have hchain : v ∈ chain k := by
      rw [hpq]
      simp only [List.mem_append, List.mem_cons] at hmem ⊢
      tauto
    obtain ⟨r', hr'⟩ := t.exists_wref hchain
    simp [hr']

/-- What the log says follows from the lists. -/
theorem exact (t : Tracks h log chain) : WrefsExact h log where
  alive := t.alive
  target := t.target
  list := fun x hx => by
    obtain ⟨k, hk⟩ := Option.ne_none_iff_exists'.mp hx
    refine ⟨chain k, t.first x k hk, t.linked k, fun w => ⟨fun hw => ?_, ?_⟩⟩
    · obtain ⟨r, hr⟩ := t.exists_wref hw
      exact ⟨r, hr, (t.target w r hr x).mpr (hk.trans ((t.mem_iff k w).mp hw).symm)⟩
    · rintro ⟨r, hr, hx⟩
      rw [t.mem_iff, ← (t.target w r hr x).mp hx, hk]
  links := fun w r hw v hv => (t.links hw v hv).2
  firsts := fun x v hx hv => by
    obtain ⟨k, hk⟩ := Option.ne_none_iff_exists'.mp hx
    have hfirst := (t.first x k hk).symm.trans hv
    obtain ⟨r, hr⟩ := t.exists_wref (List.mem_of_head? (Option.some.inj hfirst))
    simp [hr]

theorem initial : Tracks (wrefHeap₀ : WrefHeap Addr) WrefLog.initial fun _ => [] := by
  constructor <;> simp [wrefHeap₀, WrefLog.initial, DoublyLinked.nil]

/-! ## One step -/

variable [DecidableEq Addr]

theorem create (t : Tracks h log chain) (hx : log.Unused x) :
    Tracks { h with firsts := Function.update h.firsts x (some none) } (log.step (.create x))
      chain := by
  obtain ⟨hx₁, hx₂, -⟩ := hx
  have horigin : ∀ w r, h.wrefs w = some r → log.origin w ≠ some log.serial ∧ log.origin w ≠ none := by
    intro w r hw
    obtain ⟨k, hk⟩ := t.exists_origin hw
    have hlt := t.origin_lt w k hk
    rw [hk]
    simp only [ne_eq, Option.some.injEq, reduceCtorEq, not_false_eq_true, and_true]
    omega
  have hempty : chain log.serial = [] := by
    refine List.eq_nil_iff_forall_not_mem.mpr fun w hw => ?_
    exact Nat.lt_irrefl _ (t.origin_lt w _ ((t.mem_iff _ w).mp hw))
  refine ⟨t.alive, t.mem_iff, t.linked, fun w r hw y => ?_, fun y k hy => ?_, fun y hy => ?_,
    fun w k hw => Nat.lt_succ_of_lt (t.origin_lt w k hw), fun y k hy => ?_, fun y z k hy hz => ?_⟩
  · have ht := t.target w r hw y
    simp only [WrefLog.step]
    rcases eq_or_ne y x with rfl | hne
    · rw [Function.update_self, ht, hx₁]
      exact iff_of_false (horigin w r hw).2.symm (horigin w r hw).1.symm
    · rw [Function.update_of_ne hne, ht]
  · simp only [WrefLog.step] at hy ⊢
    rcases eq_or_ne y x with rfl | hne
    · rw [Function.update_self] at hy ⊢
      rw [← Option.some.inj hy, hempty]
      rfl
    · rw [Function.update_of_ne hne] at hy ⊢
      exact t.first y k hy
  · have hne : y ≠ x := by
      rintro rfl
      simp [WrefLog.step, hx₂] at hy
    simp only [WrefLog.step, Function.update_of_ne hne]
    exact t.dying y hy
  · simp only [WrefLog.step] at hy ⊢
    rcases eq_or_ne y x with rfl | hne
    · rw [Function.update_self] at hy
      have := Option.some.inj hy
      omega
    · rw [Function.update_of_ne hne] at hy
      exact Nat.lt_succ_of_lt (t.targets_lt y k hy)
  · simp only [WrefLog.step] at hy hz
    rcases eq_or_ne y x with rfl | hyx <;> rcases eq_or_ne z y with rfl | hzy
    · rfl
    · rw [Function.update_self] at hy
      rw [Function.update_of_ne hzy] at hz
      have := t.targets_lt z k hz
      have := Option.some.inj hy
      omega
    · rfl
    · rw [Function.update_of_ne hyx] at hy
      rcases eq_or_ne z x with rfl | hzx
      · rw [Function.update_self] at hz
        have := t.targets_lt y k hy
        have := Option.some.inj hz
        omega
      · rw [Function.update_of_ne hzx] at hz
        exact t.injective y z k hy hz

theorem free (t : Tracks h log chain) (hx : log.dying x = true) :
    ∃ h', (∀ fuel, wrefStep fuel h (.free x) = .ok h') ∧
      Tracks h' (log.step (.free x)) chain := by
  obtain ⟨hlive, hfirst⟩ := t.dying x hx
  obtain ⟨first, hfirst⟩ := Option.ne_none_iff_exists'.mp hfirst
  refine ⟨{ h with firsts := Function.update h.firsts x none }, fun fuel => ?_, t.alive, t.mem_iff,
    t.linked, t.target, fun y k hy => ?_, fun y hy => ?_, t.origin_lt, t.targets_lt, t.injective⟩
  · rw [wrefStep, first_eq_ok.mpr hfirst]
    rfl
  · have hne : y ≠ x := by
      rintro rfl
      exact absurd (hlive.symm.trans hy) (by simp)
    simp only [Function.update_of_ne hne]
    exact t.first y k hy
  · have hne : y ≠ x := by
      rintro rfl
      simp [WrefLog.step] at hy
    simp only [WrefLog.step, Function.update_of_ne hne] at hy ⊢
    exact t.dying y hy

theorem wrefNew (t : Tracks h log chain) (hw : log.Unused w) (hx : log.targets x = some k) :
    ∃ h', Calx.wrefNew h w x = .ok h' ∧
      Tracks h' (log.step (.wrefNew w x)) (Function.update chain k (w :: chain k)) := by
  obtain ⟨-, -, hw⟩ := hw
  have hdead : h.wrefs w = none := by
    by_contra hne
    exact (t.alive w).mp hne hw
  have hnot : ∀ k, w ∉ chain k := fun k hmem => by
    simp [(t.mem_iff k w).mp hmem] at hw
  obtain ⟨h', hrun, hfirsts, hself, hother⟩ := wrefNew_spec (w := w) (t.first x k hx) fun f hf => by
    have hmem := List.mem_of_head? hf
    obtain ⟨r, hr⟩ := t.exists_wref hmem
    exact ⟨fun heq => hnot k (heq ▸ hmem), by simp [hr]⟩
  have hmap : ∀ b ≠ w, ∀ r', h'.wrefs b = some r' → ∃ r, h.wrefs b = some r ∧
      r'.target = r.target := fun b hb r' hr' => by
    rw [hother b hb, Option.map_eq_some_iff] at hr'
    obtain ⟨r, hr, rfl⟩ := hr'
    exact ⟨r, hr, rfl⟩
  have hnext : ∀ b ≠ w, h'.next b = h.next b := fun b hb => by
    rw [WrefHeap.next, hother b hb, Option.bind_map]
    rfl
  have hprev : ∀ b ≠ w, ∀ k', b ∈ chain k' →
      h'.prev b = if (chain k).head? = some b then some w else h.prev b := fun b hb k' hmem => by
    obtain ⟨r, hr⟩ := t.exists_wref hmem
    simp [WrefHeap.prev, hother b hb, hr]
  refine ⟨h', hrun, fun b => ?_, fun j b => ?_, fun j => ?_, fun b r' hr' y => ?_, fun y j hy => ?_,
    fun y hy => ?_, fun b j hb => ?_, t.targets_lt, t.injective⟩
  · simp only [WrefLog.step]
    rcases eq_or_ne b w with rfl | hb
    · simp [hself, hx]
    · simpa [hother b hb, hb] using t.alive b
  · simp only [WrefLog.step]
    rcases eq_or_ne b w with rfl | hb
    · rw [Function.update_self, hx, Option.some.injEq]
      rcases eq_or_ne j k with rfl | hj
      · simp
      · simpa [hj, hj.symm] using hnot j
    · rw [Function.update_of_ne hb, ← t.mem_iff]
      rcases eq_or_ne j k with rfl | hj
      · simp [hb]
      · simp [hj]
  · have hne : ∀ j, ∀ b ∈ chain j, b ≠ w := fun j b hmem heq => hnot j (heq ▸ hmem)
    rcases eq_or_ne j k with rfl | hj
    · rw [Function.update_self]
      exact (t.linked j).push (by simp [WrefHeap.next, hself]) (by simp [WrefHeap.prev, hself])
        (fun b hb => hnext b (hne j b hb)) fun b hb => hprev b (hne j b hb) j hb
    · rw [Function.update_of_ne hj]
      refine (t.linked j).congr (fun b hb => hnext b (hne j b hb)) fun b hb => ?_
      rw [hprev b (hne j b hb) j hb, if_neg]
      intro hhead
      have hk := (t.mem_iff k b).mp (List.mem_of_head? hhead)
      exact hj (Option.some.inj (((t.mem_iff j b).mp hb).symm.trans hk))
  · simp only [WrefLog.step]
    rcases eq_or_ne b w with rfl | hb
    · obtain rfl := Option.some.inj (hself.symm.trans hr')
      rw [Function.update_self, Option.some.injEq, hx]
      exact ⟨fun heq => heq ▸ hx, fun hy => t.injective x y k hx hy⟩
    · obtain ⟨r, hr, htarget⟩ := hmap b hb r' hr'
      rw [Function.update_of_ne hb, htarget]
      exact t.target b r hr y
  · rw [hfirsts]
    rcases eq_or_ne y x with rfl | hne
    · obtain rfl := Option.some.inj (hx.symm.trans hy)
      simp
    · have hj : j ≠ k := by
        rintro rfl
        exact hne (t.injective y x j hy hx)
      rw [Function.update_of_ne hne, Function.update_of_ne hj]
      exact t.first y j hy
  · obtain ⟨hlive, hfirst⟩ := t.dying y hy
    have hne : y ≠ x := by
      rintro rfl
      exact absurd (hlive.symm.trans hx) (by simp)
    rw [hfirsts, Function.update_of_ne hne]
    exact ⟨hlive, hfirst⟩
  · simp only [WrefLog.step] at hb
    rcases eq_or_ne b w with rfl | hne
    · rw [Function.update_self] at hb
      exact t.targets_lt x j hb
    · rw [Function.update_of_ne hne] at hb
      exact t.origin_lt b j hb

theorem wrefDestroy (t : Tracks h log chain) (hw : log.origin w ≠ none) :
    ∃ h' chain', Calx.wrefDestroy h w = .ok h' ∧ Tracks h' (log.step (.wrefDestroy w)) chain' := by
  obtain ⟨r, hr⟩ := Option.ne_none_iff_exists'.mp ((t.alive w).mpr hw)
  obtain ⟨k, p, q, hk, hpq, hn, hp⟩ := t.split hr
  have hnd := (t.linked k).forward.nodup
  rw [hpq, List.nodup_middle, List.nodup_cons] at hnd
  obtain ⟨h', hrun, hself, hother, hfirsts⟩ := wrefDestroy_spec hr
    (fun v hv => (t.links hr v (Or.inr hv)).2) (fun v hv => (t.links hr v (Or.inl hv)).2)
    fun _ x hx => by simp [t.first x k (((t.target w r hr x).mp hx).trans hk)]
  have hnextW : h.next w = r.next := by rw [WrefHeap.next, hr, Option.bind_some]
  have hprevW : h.prev w = r.prev := by rw [WrefHeap.prev, hr, Option.bind_some]
  have hnext : ∀ b ≠ w, ∀ k', b ∈ chain k' →
      h'.next b = if r.prev = some b then r.next else h.next b := fun b hb k' hmem => by
    obtain ⟨r', hr'⟩ := t.exists_wref hmem
    simp [WrefHeap.next, hother b hb, hr']
  have hprev : ∀ b ≠ w, ∀ k', b ∈ chain k' →
      h'.prev b = if r.next = some b then r.prev else h.prev b := fun b hb k' hmem => by
    obtain ⟨r', hr'⟩ := t.exists_wref hmem
    simp [WrefHeap.prev, hother b hb, hr']
  have hin : ∀ b, r.next = some b ∨ r.prev = some b → b ∈ chain k := fun b hb => by
    rw [hpq]
    rcases hb with hb | hb
    · rw [hn] at hb
      simp [List.mem_of_head? hb]
    · rw [hp] at hb
      simp [List.mem_of_getLast? hb]
  refine ⟨h', Function.update chain k (p ++ q), hrun, fun b => ?_, fun j b => ?_, fun j => ?_,
    fun b r' hr' y => ?_, fun y j hy => ?_, fun y hy => ?_, fun b j hb => ?_, t.targets_lt,
    t.injective⟩
  · simp only [WrefLog.step]
    rcases eq_or_ne b w with rfl | hb
    · simp [hself]
    · simpa [hother b hb, hb] using t.alive b
  · simp only [WrefLog.step]
    have hmem := t.mem_iff j b
    rcases eq_or_ne b w with rfl | hb
    · rw [Function.update_self]
      refine iff_of_false ?_ (by simp)
      rcases eq_or_ne j k with rfl | hj
      · rw [Function.update_self]
        exact hnd.1
      · rw [Function.update_of_ne hj, hmem, hk]
        exact fun heq => hj (Option.some.inj heq).symm
    · rw [Function.update_of_ne hb, ← hmem]
      rcases eq_or_ne j k with rfl | hj
      · simp [hpq, hb]
      · rw [Function.update_of_ne hj]
  · rcases eq_or_ne j k with rfl | hj
    · have hlinked := t.linked j
      have hmem : ∀ b ∈ p ++ q, b ≠ w ∧ b ∈ chain j := fun b hb => by
        refine ⟨fun heq => hnd.1 (heq ▸ hb), ?_⟩
        rw [hpq]
        simp only [List.mem_append, List.mem_cons] at hb ⊢
        tauto
      rw [Function.update_self]
      rw [hpq] at hlinked
      refine hlinked.unlink (fun b hb => ?_) fun b hb => ?_
      · rw [hnext b (hmem b hb).1 j (hmem b hb).2, hprevW, hnextW]
      · rw [hprev b (hmem b hb).1 j (hmem b hb).2, hprevW, hnextW]
    · have hout : ∀ b ∈ chain j, b ∉ chain k := fun b hb hbk => by
        have heq := ((t.mem_iff j b).mp hb).symm.trans ((t.mem_iff k b).mp hbk)
        exact hj (Option.some.inj heq)
      have hne : ∀ b ∈ chain j, b ≠ w := fun b hb heq =>
        hout b hb ((t.mem_iff k b).mpr (heq ▸ hk))
      rw [Function.update_of_ne hj]
      refine (t.linked j).congr (fun b hb => ?_) fun b hb => ?_
      · rw [hnext b (hne b hb) j hb, if_neg fun heq => hout b hb (hin b (Or.inr heq))]
      · rw [hprev b (hne b hb) j hb, if_neg fun heq => hout b hb (hin b (Or.inl heq))]
  · have hb : b ≠ w := by
      rintro rfl
      rw [hself] at hr'
      cases hr'
    simp only [WrefLog.step, Function.update_of_ne hb]
    rw [hother b hb, Option.map_eq_some_iff] at hr'
    obtain ⟨r', hr', rfl⟩ := hr'
    exact t.target b r' hr' y
  · have htarget : r.target = some y ↔ j = k := by
      rw [t.target w r hr, hk, show log.targets y = some j from hy, Option.some.injEq]
    simp only [hfirsts, htarget, hp]
    rcases eq_or_ne j k with rfl | hj
    · rw [Function.update_self, t.first y j hy, hpq]
      cases p with
      | nil => simp [hn]
      | cons c p => simp
    · rw [if_neg fun heq => hj heq.2, Function.update_of_ne hj]
      exact t.first y j hy
  · obtain ⟨hlive, hfirst⟩ := t.dying y hy
    refine ⟨hlive, ?_⟩
    rw [hfirsts]
    split
    · simp
    · exact hfirst
  · simp only [WrefLog.step] at hb
    rcases eq_or_ne b w with rfl | hne
    · simp at hb
    · rw [Function.update_of_ne hne] at hb
      exact t.origin_lt b j hb

theorem destroy (t : Tracks h log chain) (hx : log.targets x = some k) :
    ∃ enough h', (∀ fuel ≥ enough, wrefableInvalidate fuel h x = .ok h') ∧
      Tracks h' (log.step (.destroy x)) chain := by
  have hfirst := t.first x k hx
  obtain ⟨h', hrun, hfirsts, hwrefs⟩ := invalidateFrom_spec (t.linked k).forward fun w hw => by
    obtain ⟨r, hr⟩ := t.exists_wref hw
    simp [hr]
  refine ⟨(chain k).length, h', fun fuel hfuel => ?_, fun w => ?_, t.mem_iff, fun j => ?_,
    fun w r' hr' y => ?_, fun y j hy => ?_, fun y hy => ?_, t.origin_lt, fun y j hy => ?_,
    fun y z j hy hz => ?_⟩
  · rw [wrefableInvalidate, first_eq_ok.mpr hfirst]
    exact hrun fuel hfuel
  · simpa [hwrefs, WrefLog.step] using t.alive w
  · refine (t.linked j).congr (fun w _ => ?_) fun w _ => ?_
    · rw [WrefHeap.next, hwrefs, Option.bind_map]
      rfl
    · rw [WrefHeap.prev, hwrefs, Option.bind_map]
      rfl
  · rw [hwrefs, Option.map_eq_some_iff] at hr'
    obtain ⟨r, hr, rfl⟩ := hr'
    obtain ⟨j, hj⟩ := t.exists_origin hr
    have ht := t.target w r hr y
    rw [hj] at ht
    simp only [WrefLog.step, t.mem_iff, hj, Option.some.injEq]
    rcases eq_or_ne y x with rfl | hne
    · rw [Function.update_self]
      rw [hx, Option.some.injEq] at ht
      rcases eq_or_ne j k with rfl | hjk
      · simp
      · simpa [hjk, hjk.symm] using ht
    · rw [Function.update_of_ne hne]
      rcases eq_or_ne j k with rfl | hjk
      · simpa using fun hy => hne (t.injective y x j hy hx)
      · simpa [hjk] using ht
  · have hne : y ≠ x := by
      rintro rfl
      simp [WrefLog.step] at hy
    simp only [WrefLog.step, Function.update_of_ne hne] at hy
    rw [hfirsts]
    exact t.first y j hy
  · rw [hfirsts]
    simp only [WrefLog.step] at hy ⊢
    rcases eq_or_ne y x with rfl | hne
    · simp [hfirst]
    · rw [Function.update_of_ne hne] at hy ⊢
      exact t.dying y hy
  · have hne : y ≠ x := by
      rintro rfl
      simp [WrefLog.step] at hy
    simp only [WrefLog.step, Function.update_of_ne hne] at hy
    exact t.targets_lt y j hy
  · have hne : ∀ y, (log.step (.destroy x)).targets y = some j → y ≠ x := by
      rintro y hy rfl
      simp [WrefLog.step] at hy
    have hy' := hne y hy
    have hz' := hne z hz
    simp only [WrefLog.step, Function.update_of_ne hy'] at hy
    simp only [WrefLog.step, Function.update_of_ne hz'] at hz
    exact t.injective y z j hy hz

end Tracks

/-! ## Runs -/

variable [DecidableEq Addr]

/-- Each step is made without a fault and keeps the lists. -/
theorem wrefStep_tracks (t : Tracks h log chain) (op : WrefOp Addr) (hop : log.Allows op) :
    ∃ enough h' chain', (∀ fuel ≥ enough, wrefStep fuel h op = .ok h') ∧
      Tracks h' (log.step op) chain' := by
  cases op with
  | create x => exact ⟨0, _, chain, fun _ _ => rfl, t.create hop⟩
  | wrefNew w x =>
      obtain ⟨k, hk⟩ := Option.ne_none_iff_exists'.mp hop.2
      obtain ⟨h', hrun, t'⟩ := t.wrefNew hop.1 hk
      exact ⟨0, h', _, fun _ _ => hrun, t'⟩
  | wrefDestroy w =>
      obtain ⟨h', chain', hrun, t'⟩ := t.wrefDestroy hop
      exact ⟨0, h', chain', fun _ _ => hrun, t'⟩
  | destroy x =>
      obtain ⟨k, hk⟩ := Option.ne_none_iff_exists'.mp hop
      obtain ⟨enough, h', hrun, t'⟩ := t.destroy hk
      exact ⟨enough, h', chain, hrun, t'⟩
  | free x =>
      obtain ⟨h', hrun, t'⟩ := t.free hop
      exact ⟨0, h', chain, fun fuel _ => hrun fuel, t'⟩

theorem wrefRun_tracks (t : Tracks h log chain) (ops : List (WrefOp Addr)) (hops : log.AllowsAll ops) :
    ∃ enough h' chain', (∀ fuel ≥ enough, wrefRun fuel h ops = .ok h') ∧
      Tracks h' (log.run ops) chain' := by
  induction ops generalizing h log chain with
  | nil => exact ⟨0, h, chain, fun _ _ => rfl, t⟩
  | cons op ops ih =>
      obtain ⟨enough₁, h₁, chain₁, hstep, t₁⟩ := wrefStep_tracks t op hops.1
      obtain ⟨enough₂, h₂, chain₂, hrun, t₂⟩ := ih t₁ hops.2
      refine ⟨max enough₁ enough₂, h₂, chain₂, fun fuel hfuel => ?_, t₂⟩
      rw [wrefRun, hstep fuel (Nat.le_trans (Nat.le_max_left _ _) hfuel)]
      exact hrun fuel (Nat.le_trans (Nat.le_max_right _ _) hfuel)

/-- After any run the weak references are exact. -/
theorem wref_run_exact (ops : List (WrefOp Addr)) (hops : WrefLog.initial.AllowsAll ops) :
    ∃ enough, ∀ fuel ≥ enough, ∃ h, wrefRun fuel wrefHeap₀ ops = .ok h ∧
      WrefsExact h (WrefLog.initial.run ops) := by
  obtain ⟨enough, h, chain, hrun, t⟩ := wrefRun_tracks Tracks.initial ops hops
  exact ⟨enough, fun fuel hfuel => ⟨h, hrun fuel hfuel, t.exact⟩⟩

/-- A list that holds two weak references to itself dies, and its address is used again. -/
theorem wref_run_exact_reuse :
    ∃ enough, ∀ fuel ≥ enough, ∃ h,
      wrefRun fuel wrefHeap₀ [.create 0, .wrefNew 1 0, .wrefNew 2 0, .destroy 0, .wrefDestroy 2,
        .free 0, .create 0, .wrefNew 3 0] = .ok h ∧
      WrefsExact h (WrefLog.initial.run [.create 0, .wrefNew 1 0, .wrefNew 2 0, .destroy 0,
        .wrefDestroy 2, .free 0, .create 0, .wrefNew 3 0]) :=
  wref_run_exact _ (by
    simp [WrefLog.AllowsAll, WrefLog.Allows, WrefLog.Unused, WrefLog.step, WrefLog.initial])

end Calx
