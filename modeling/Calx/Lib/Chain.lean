import Mathlib.Data.List.Nodup
import Mathlib.Logic.Function.Basic

/-!
# Chains of links

A link function gives each node the node after it, if any. `LinkChain next s l`
says that following the links from `s` visits the nodes of `l` in turn and then
ends. The list is determined by its start, so that a chain never meets a node
twice.

## Implementation notes

Writing one link is `Function.update`. The lemmas about it say what becomes of
the chain through the written node, and of all chains that avoid it. A doubly
linked list is a chain of the forward links whose reverse is one of the backward
links, so that a fact about one direction is used for both.
-/

variable {α : Type*}

/-- Following `next` from `s` visits the nodes of the list in turn and ends. -/
def LinkChain (next : α → Option α) : Option α → List α → Prop
  | s, [] => s = none
  | s, a :: l => s = some a ∧ LinkChain next (next a) l

namespace LinkChain

variable {next next' : α → Option α} {s t : Option α} {a b : α} {l l' l₁ l₂ l₃ : List α}

@[simp] theorem nil_iff : LinkChain next s [] ↔ s = none := Iff.rfl

@[simp] theorem cons_iff : LinkChain next s (a :: l) ↔ s = some a ∧ LinkChain next (next a) l := Iff.rfl

/-- A start has one chain. -/
theorem unique (h : LinkChain next s l) (h' : LinkChain next s l') : l = l' := by
  induction l generalizing s l' with
  | nil =>
      cases l' with
      | nil => rfl
      | cons a l' => simp_all
  | cons a l ih =>
      cases l' with
      | nil => simp_all
      | cons b l' =>
          obtain ⟨rfl, h⟩ := h
          obtain ⟨hs, h'⟩ := h'
          obtain rfl := Option.some.inj hs
          rw [ih h h']

/-- What is left of a chain after its first nodes is a chain. -/
theorem suffix (h : LinkChain next s (l₁ ++ a :: l₂)) : LinkChain next (next a) l₂ := by
  induction l₁ generalizing s with
  | nil => exact h.2
  | cons b l₁ ih => exact ih h.2

theorem nodup (h : LinkChain next s l) : l.Nodup := by
  induction l generalizing s with
  | nil => exact List.nodup_nil
  | cons a l ih =>
      refine List.nodup_cons.mpr ⟨fun ha => ?_, ih h.2⟩
      obtain ⟨l₁, l₂, rfl⟩ := List.append_of_mem ha
      have hl := h.2.unique h.2.suffix
      have := congrArg List.length hl
      simp at this
      omega

theorem congr (h : LinkChain next s l) (hnext : ∀ a ∈ l, next' a = next a) : LinkChain next' s l := by
  induction l generalizing s with
  | nil => exact h
  | cons a l ih =>
      refine ⟨h.1, ?_⟩
      rw [hnext a List.mem_cons_self]
      exact ih h.2 fun b hb => hnext b (List.mem_cons_of_mem a hb)

/-- A chain starts at the first node of its list. -/
theorem start_eq (h : LinkChain next s l) : s = l.head? := by
  cases l with
  | nil => exact h
  | cons a l => exact h.1

variable [DecidableEq α]

/-- A chain that avoids the written node is unchanged. -/
theorem update_of_notMem (h : LinkChain next s l) (ha : a ∉ l) :
    LinkChain (Function.update next a t) s l :=
  h.congr fun b hb => Function.update_of_ne (fun heq : b = a => ha (heq ▸ hb)) t next

/-- Writing the link of a node gives the chain a new rest after that node. -/
theorem update (h : LinkChain next s (l₁ ++ a :: l₂)) (ht : LinkChain (Function.update next a t) t l₃) :
    LinkChain (Function.update next a t) s (l₁ ++ a :: l₃) := by
  have ha : a ∉ l₁ := by
    have := h.nodup
    rw [List.nodup_append] at this
    exact fun hmem => this.2.2 a hmem a List.mem_cons_self rfl
  induction l₁ generalizing s with
  | nil => exact ⟨h.1, by rwa [Function.update_self]⟩
  | cons b l₁ ih =>
      obtain ⟨hne, ha⟩ := List.ne_and_not_mem_of_not_mem_cons ha
      refine ⟨h.1, ?_⟩
      rw [Function.update_of_ne (Ne.symm hne)]
      exact ih h.2 ha

/-- The link to a node, in the node before it, goes on to the node behind it. -/
theorem unlink (h : LinkChain next s (l₁ ++ a :: l₂))
    (hnext : ∀ b ∈ l₁ ++ l₂, next' b = if l₁.getLast? = some b then next a else next b) :
    LinkChain next' (l₁ ++ l₂).head? (l₁ ++ l₂) := by
  induction l₁ generalizing s with
  | nil =>
      have hrest := h.2
      rw [hrest.start_eq] at hrest
      exact hrest.congr fun b hb => by simpa using hnext b hb
  | cons b l₁ ih =>
      have hnd := h.nodup
      simp only [List.cons_append, List.nodup_cons, List.mem_append, List.mem_cons, not_or] at hnd
      have hb := hnext b List.mem_cons_self
      refine ⟨rfl, ?_⟩
      have hrest := ih h.2 fun c hc => ?_
      · suffices heq : next' b = (l₁ ++ l₂).head? by rwa [heq]
        have hstart := h.2.start_eq
        cases l₁ with
        | nil =>
            rw [hb, List.getLast?_singleton, if_pos rfl]
            exact h.2.2.start_eq
        | cons c l₁ =>
            have hlast : (b :: c :: l₁).getLast? ≠ some b := by
              rw [List.getLast?_cons_cons]
              exact fun heq => hnd.1.1 (List.mem_of_getLast? heq)
            rw [hb, if_neg hlast, hstart]
            rfl
      · rw [hnext c (List.mem_cons_of_mem b hc)]
        cases l₁ with
        | nil =>
            have hne : b ≠ c := fun heq => hnd.1.2.2 (heq ▸ hc)
            simp [hne]
        | cons d l₁ => rw [List.getLast?_cons_cons]

/-- The end of a chain is linked to a new node. -/
theorem concat (h : LinkChain next s l)
    (hnext : ∀ b ∈ l, next' b = if l.getLast? = some b then some a else next b)
    (ha : next' a = none) : LinkChain next' (l ++ [a]).head? (l ++ [a]) := by
  induction l generalizing s with
  | nil => exact ⟨rfl, ha⟩
  | cons b l ih =>
      have hnd := h.nodup
      rw [List.nodup_cons] at hnd
      have hb := hnext b List.mem_cons_self
      refine ⟨rfl, ?_⟩
      cases l with
      | nil =>
          rw [List.getLast?_singleton, if_pos rfl] at hb
          exact ⟨hb, ha⟩
      | cons c l =>
          have hlast : (b :: c :: l).getLast? ≠ some b := by
            rw [List.getLast?_cons_cons]
            exact fun heq => hnd.1 (List.mem_of_getLast? heq)
          rw [if_neg hlast, h.2.1] at hb
          have hrest := ih h.2 fun d hd => by
            rw [hnext d (List.mem_cons_of_mem b hd), List.getLast?_cons_cons]
          rw [hb]
          exact hrest

end LinkChain

/-- The nodes of the list, linked in both directions. -/
structure DoublyLinked (next prev : α → Option α) (l : List α) : Prop where
  forward : LinkChain next l.head? l
  backward : LinkChain prev l.reverse.head? l.reverse

namespace DoublyLinked

variable {next next' prev prev' : α → Option α} {a b : α} {l l₁ l₂ : List α}

theorem nil : DoublyLinked next prev [] := ⟨rfl, rfl⟩

theorem congr (h : DoublyLinked next prev l) (hnext : ∀ a ∈ l, next' a = next a)
    (hprev : ∀ a ∈ l, prev' a = prev a) : DoublyLinked next' prev' l :=
  ⟨h.forward.congr hnext, h.backward.congr fun a ha => hprev a (List.mem_reverse.mp ha)⟩

theorem next_eq (h : DoublyLinked next prev (l₁ ++ a :: l₂)) : next a = l₂.head? :=
  h.forward.suffix.start_eq

theorem backward_split (h : DoublyLinked next prev (l₁ ++ a :: l₂)) :
    LinkChain prev (l₁ ++ a :: l₂).reverse.head? (l₂.reverse ++ a :: l₁.reverse) := by
  have hback := h.backward
  rwa [List.reverse_append, List.reverse_cons, List.append_assoc, List.singleton_append] at hback ⊢

theorem prev_eq (h : DoublyLinked next prev (l₁ ++ a :: l₂)) : prev a = l₁.getLast? := by
  rw [h.backward_split.suffix.start_eq, List.head?_reverse]

variable [DecidableEq α]

/-- A node leaves the list when the nodes next to it are linked to each other. -/
theorem unlink (h : DoublyLinked next prev (l₁ ++ a :: l₂))
    (hnext : ∀ b ∈ l₁ ++ l₂, next' b = if prev a = some b then next a else next b)
    (hprev : ∀ b ∈ l₁ ++ l₂, prev' b = if next a = some b then prev a else prev b) :
    DoublyLinked next' prev' (l₁ ++ l₂) := by
  constructor
  · refine h.forward.unlink fun b hb => ?_
    rw [hnext b hb, h.prev_eq]
  · have hback : LinkChain prev' (l₂.reverse ++ l₁.reverse).head? (l₂.reverse ++ l₁.reverse) :=
      h.backward_split.unlink fun b hb => ?_
    · rwa [List.reverse_append]
    · rw [← List.reverse_append, List.mem_reverse] at hb
      rw [hprev b hb, h.next_eq, List.getLast?_reverse]

/-- A node becomes the first of the list. -/
theorem push (h : DoublyLinked next prev l) (hnextA : next' a = l.head?) (hprevA : prev' a = none)
    (hnext : ∀ b ∈ l, next' b = next b)
    (hprev : ∀ b ∈ l, prev' b = if l.head? = some b then some a else prev b) :
    DoublyLinked next' prev' (a :: l) := by
  constructor
  · refine ⟨rfl, ?_⟩
    rw [hnextA]
    exact h.forward.congr hnext
  · rw [List.reverse_cons]
    refine h.backward.concat (fun b hb => ?_) hprevA
    rw [hprev b (List.mem_reverse.mp hb), List.getLast?_reverse]

end DoublyLinked
