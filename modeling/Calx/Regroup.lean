import Calx.Grouping
import Calx.Lib.Marks

/-!
# Exclusive or against and

The table of `binary_operator` gives `&` a higher priority than `^`, the documentation
a lower one. What is grouped as one table says has the lexemes of an expression that is
grouped as the other says. In the code of this expression the exclusive ors come later,
unless no operand of an `&` is an exclusive or.

## Implementation notes

An expression is regrouped from its leaves up. The right operand of an `&` is a chain of
exclusive ors in the documentation, and the left one ends in such a chain.
-/

namespace Calx

open LexemeKind Instr Marks

/-! ## Regrouping -/

/-- Exclusive ors that do not stand in parentheses. -/
def Expr.isHat : Expr → Bool
  | .binary _ op _ => op.kind = lkHat
  | _ => false

/-- `l & r` where `r` is no exclusive or: the `&` takes in the last operand of `l`. -/
def Expr.meetLeft (l : Expr) (op : Lexeme) (r : Expr) : Expr :=
  match l with
  | .binary x hat c =>
      if hat.kind = lkHat then .binary x hat (.binary c op r) else .binary (.binary x hat c) op r
  | l => .binary l op r

/-- `l & r`: the `&` takes in the first operand of `r`. -/
def Expr.meet (l : Expr) (op : Lexeme) : Expr → Expr
  | .binary r hat c =>
      if hat.kind = lkHat then .binary (l.meet op r) hat c else l.meetLeft op (.binary r hat c)
  | r => l.meetLeft op r

mutual

/-- The expression with the same lexemes that is grouped as `binary_operator` says. -/
def Expr.regroup : Expr → Expr
  | .literal t => .literal t
  | .ident t => .ident t
  | .list0 lb rb => .list0 lb rb
  | .list lb es rb => .list lb es.regroup rb
  | .dict0 lb rb => .dict0 lb rb
  | .dict lb kvs rb => .dict lb kvs.regroup rb
  | .paren lp e rp => .paren lp e.regroup rp
  | .unary op e => .unary op e.regroup
  | .binary l op r =>
      if op.kind = lkAnd then l.regroup.meet op r.regroup else .binary l.regroup op r.regroup
  | .index e lb i rb => .index e.regroup lb i.regroup rb
  | .field e dot name => .field e.regroup dot name
  | .call0 f lp rp => .call0 f.regroup lp rp
  | .call f lp args star rp => .call f.regroup lp args.regroup star rp

/-- `Expr.regroup` for every expression of a list. -/
def Elems.regroup : Elems → Elems
  | .last e => .last e.regroup
  | .more e comma es => .more e.regroup comma es.regroup

/-- `Expr.regroup` for every expression of some dict entries. -/
def Entries.regroup : Entries → Entries
  | .last k colon v => .last k.regroup colon v.regroup
  | .more k colon v comma kvs => .more k.regroup colon v.regroup comma kvs.regroup

end

mutual

/-- No `&` has an operand that is an exclusive or and does not stand in parentheses. -/
def Expr.Untwisted : Expr → Prop
  | .literal _ | .ident _ | .list0 .. | .dict0 .. => True
  | .list _ es _ => es.Untwisted
  | .dict _ kvs _ => kvs.Untwisted
  | .paren _ e _ => e.Untwisted
  | .unary _ e => e.Untwisted
  | .binary l op r =>
      l.Untwisted ∧ r.Untwisted ∧ (op.kind = lkAnd → l.isHat = false ∧ r.isHat = false)
  | .index e _ i _ => e.Untwisted ∧ i.Untwisted
  | .field e _ _ | .call0 e _ _ => e.Untwisted
  | .call f _ args _ _ => f.Untwisted ∧ args.Untwisted

/-- `Expr.Untwisted` for every expression of a list. -/
def Elems.Untwisted : Elems → Prop
  | .last e => e.Untwisted
  | .more e _ es => e.Untwisted ∧ es.Untwisted

/-- `Expr.Untwisted` for every expression of some dict entries. -/
def Entries.Untwisted : Entries → Prop
  | .last k _ v => k.Untwisted ∧ v.Untwisted
  | .more k _ v _ kvs => k.Untwisted ∧ v.Untwisted ∧ kvs.Untwisted

end

/-! ## One `&` -/

theorem Expr.meetLeft_of_not_hat {l : Expr} (h : l.isHat = false) (op : Lexeme) (r : Expr) :
    l.meetLeft op r = .binary l op r := by
  cases l with
  | binary x hat c =>
      have hk : hat.kind ≠ lkHat := by simpa [Expr.isHat] using h
      rw [Expr.meetLeft, if_neg hk]
  | _ => rfl

theorem Expr.meet_of_not_hat {r : Expr} (h : r.isHat = false) (l : Expr) (op : Lexeme) :
    l.meet op r = l.meetLeft op r := by
  cases r with
  | binary r hat c =>
      have hk : hat.kind ≠ lkHat := by simpa [Expr.isHat] using h
      rw [Expr.meet, if_neg hk]
  | _ => rfl

theorem Expr.meetLeft_hat {hat : Lexeme} (h : hat.kind = lkHat) (x c : Expr) (op : Lexeme)
    (r : Expr) : (Expr.binary x hat c).meetLeft op r = .binary x hat (.binary c op r) := by
  rw [Expr.meetLeft, if_pos h]

theorem Expr.meet_hat {hat : Lexeme} (h : hat.kind = lkHat) (l : Expr) (op : Lexeme)
    (r c : Expr) : l.meet op (.binary r hat c) = .binary (l.meet op r) hat c := by
  rw [Expr.meet, if_pos h]

/-- An expression is an exclusive or, or it is none. -/
theorem Expr.hat_cases (e : Expr) :
    (∃ x hat c, e = .binary x hat c ∧ hat.kind = lkHat) ∨ e.isHat = false := by
  cases e with
  | binary x hat c =>
      by_cases hk : hat.kind = lkHat
      · exact Or.inl ⟨x, hat, c, rfl, hk⟩
      · exact Or.inr (by simpa [Expr.isHat] using hk)
  | _ => exact Or.inr rfl

/-- What holds of `l & r` in every grouping: a property that passes from `c & r` in `x ^ c` to
the whole, and from `l & r` to what stands in front of the last operand of `r ^ c`. -/
theorem Expr.meet_rec {op : Lexeme} {P : Expr → Expr → Expr → Prop}
    (plain : ∀ l r, l.isHat = false → r.isHat = false → P l r (.binary l op r))
    (left : ∀ x hat c r, hat.kind = lkHat → r.isHat = false →
      P (.binary x hat c) r (.binary x hat (.binary c op r)))
    (right : ∀ l r hat c, hat.kind = lkHat → P l r (l.meet op r) →
      P l (.binary r hat c) (.binary (l.meet op r) hat c)) (l r : Expr) : P l r (l.meet op r) := by
  have hleft : ∀ r : Expr, r.isHat = false → P l r (l.meetLeft op r) := by
    intro r hr
    obtain ⟨x, hat, c, rfl, hk⟩ | hl := l.hat_cases
    · rw [Expr.meetLeft_hat hk]
      exact left x hat c r hk hr
    · rw [Expr.meetLeft_of_not_hat hl]
      exact plain l r hl hr
  cases r with
  | binary r hat c =>
      by_cases hk : hat.kind = lkHat
      · rw [Expr.meet_hat hk]
        exact right l r hat c hk (Expr.meet_rec plain left right l r)
      · have hr : (Expr.binary r hat c).isHat = false := by simpa [Expr.isHat] using hk
        rw [Expr.meet_of_not_hat hr]
        exact hleft _ hr
  | _ => exact hleft _ rfl

theorem Expr.meet_toks (l : Expr) (op : Lexeme) (r : Expr) :
    (l.meet op r).toks = l.toks ++ op :: r.toks := by
  apply Expr.meet_rec (P := fun l r e => e.toks = l.toks ++ op :: r.toks)
  · intro l r _ _
    rfl
  · intro x hat c r _ _
    simp [Expr.toks]
  · intro l r hat c _ ih
    simp [Expr.toks, ih]

/-! ## Lexemes -/

mutual

theorem Expr.regroup_toks : ∀ e : Expr, e.regroup.toks = e.toks
  | .literal _ | .ident _ | .list0 .. | .dict0 .. => rfl
  | .list lb es rb => by rw [Expr.regroup, Expr.toks, Expr.toks, es.regroup_toks []]
  | .dict lb kvs rb => by rw [Expr.regroup, Expr.toks, Expr.toks, kvs.regroup_toks]
  | .paren lp e rp => by rw [Expr.regroup, Expr.toks, Expr.toks, e.regroup_toks]
  | .unary op e => by rw [Expr.regroup, Expr.toks, Expr.toks, e.regroup_toks]
  | .binary l op r => by
      rw [Expr.regroup]
      split
      · rw [Expr.meet_toks, l.regroup_toks, r.regroup_toks, Expr.toks]
      · rw [Expr.toks, Expr.toks, l.regroup_toks, r.regroup_toks]
  | .index e lb i rb => by
      rw [Expr.regroup, Expr.toks, Expr.toks, e.regroup_toks, i.regroup_toks]
  | .field e dot name => by rw [Expr.regroup, Expr.toks, Expr.toks, e.regroup_toks]
  | .call0 f lp rp => by rw [Expr.regroup, Expr.toks, Expr.toks, f.regroup_toks]
  | .call f lp args star rp => by
      rw [Expr.regroup, Expr.toks, Expr.toks, f.regroup_toks, args.regroup_toks]

theorem Elems.regroup_toks (star : List Lexeme) : ∀ es : Elems, es.regroup.toks star = es.toks star
  | .last e => by rw [Elems.regroup, Elems.toks, Elems.toks, e.regroup_toks]
  | .more e comma es => by
      rw [Elems.regroup, Elems.toks, Elems.toks, e.regroup_toks, es.regroup_toks star]

theorem Entries.regroup_toks : ∀ kvs : Entries, kvs.regroup.toks = kvs.toks
  | .last k colon v => by
      rw [Entries.regroup, Entries.toks, Entries.toks, k.regroup_toks, v.regroup_toks]
  | .more k colon v comma kvs => by
      rw [Entries.regroup, Entries.toks, Entries.toks, k.regroup_toks, v.regroup_toks,
        kvs.regroup_toks]

end

theorem Elems.regroup_count : ∀ es : Elems, es.regroup.count = es.count
  | .last _ => rfl
  | .more _ _ es => congrArg (· + 1) es.regroup_count

theorem Entries.regroup_count : ∀ kvs : Entries, kvs.regroup.count = kvs.count
  | .last .. => rfl
  | .more _ _ _ _ kvs => congrArg (· + 1) kvs.regroup_count

/-! ## Expressions that stay as they are -/

mutual

theorem Expr.Untwisted.regroup_eq : ∀ {e : Expr}, e.Untwisted → e.regroup = e
  | .literal _, _ | .ident _, _ | .list0 .., _ | .dict0 .., _ => rfl
  | .list _ es _, h => by rw [Expr.regroup, Elems.Untwisted.regroup_eq h]
  | .dict _ kvs _, h => by rw [Expr.regroup, Entries.Untwisted.regroup_eq h]
  | .paren _ e _, h => by rw [Expr.regroup, Expr.Untwisted.regroup_eq (e := e) h]
  | .unary _ e, h => by rw [Expr.regroup, Expr.Untwisted.regroup_eq (e := e) h]
  | .binary l op r, ⟨hl, hr, hop⟩ => by
      rw [Expr.regroup, Expr.Untwisted.regroup_eq hl, Expr.Untwisted.regroup_eq hr]
      split
      · rename_i hk
        obtain ⟨hl', hr'⟩ := hop hk
        rw [Expr.meet_of_not_hat hr', Expr.meetLeft_of_not_hat hl']
      · rfl
  | .index e _ i _, ⟨he, hi⟩ => by
      rw [Expr.regroup, Expr.Untwisted.regroup_eq he, Expr.Untwisted.regroup_eq hi]
  | .field e _ _, h => by rw [Expr.regroup, Expr.Untwisted.regroup_eq (e := e) h]
  | .call0 e _ _, h => by rw [Expr.regroup, Expr.Untwisted.regroup_eq (e := e) h]
  | .call f _ args _ _, ⟨hf, hargs⟩ => by
      rw [Expr.regroup, Expr.Untwisted.regroup_eq hf, Elems.Untwisted.regroup_eq hargs]

theorem Elems.Untwisted.regroup_eq : ∀ {es : Elems}, es.Untwisted → es.regroup = es
  | .last e, h => by rw [Elems.regroup, Expr.Untwisted.regroup_eq h]
  | .more e _ es, ⟨he, hes⟩ => by
      rw [Elems.regroup, Expr.Untwisted.regroup_eq he, Elems.Untwisted.regroup_eq hes]

theorem Entries.Untwisted.regroup_eq : ∀ {kvs : Entries}, kvs.Untwisted → kvs.regroup = kvs
  | .last k _ v, ⟨hk, hv⟩ => by
      rw [Entries.regroup, Expr.Untwisted.regroup_eq hk, Expr.Untwisted.regroup_eq hv]
  | .more k _ v _ kvs, ⟨hk, hv, hkvs⟩ => by
      rw [Entries.regroup, Expr.Untwisted.regroup_eq hk, Expr.Untwisted.regroup_eq hv,
        Entries.Untwisted.regroup_eq hkvs]

end

/-! ## Grouping -/

theorem codePriorities_hat {k : LexemeKind} (h : k = lkHat) : codePriorities k = some (14, 1) := by
  rw [h]
  rfl

theorem codePriorities_and {k : LexemeKind} (h : k = lkAnd) : codePriorities k = some (15, 1) := by
  rw [h]
  rfl

theorem hat_of_priority {k : LexemeKind} {q : Int × Int} (h : codePriorities k = some q)
    (hq : q.1 = 14) : k = lkHat := by
  cases k <;> simp only [codePriorities, binaryProps, Option.map_none, Option.map_some,
    Option.some.injEq, reduceCtorEq] at h <;> subst h <;> first | rfl | cases hq

/-- The two tables differ in `&` and `^` only. -/
theorem documentedPriorities_eq {k : LexemeKind} (h : k ≠ lkAnd) (h' : k ≠ lkHat) :
    documentedPriorities k = codePriorities k := by
  cases k <;> first | rfl | exact absurd rfl h | exact absurd rfl h'

/-- Chains of exclusive ors between operands that bind more tightly. -/
inductive Expr.Chain : Expr → Prop
  | tight {e : Expr} (h : 16 ≤ e.rank codePriorities) : Chain e
  | hat {l r : Expr} {op : Lexeme} (hop : op.kind = lkHat) (hl : Chain l)
      (hr : 16 ≤ r.rank codePriorities) : Chain (.binary l op r)

theorem Expr.rank_hat {l r : Expr} {op : Lexeme} (h : op.kind = lkHat) :
    (Expr.binary l op r).rank codePriorities = 14 := Expr.rank_binary (codePriorities_hat h)

theorem Expr.not_hat_of_rank {e : Expr} (h : 16 ≤ e.rank codePriorities) : e.isHat = false := by
  obtain ⟨x, hat, c, rfl, hk⟩ | he := e.hat_cases
  · rw [Expr.rank_hat hk] at h
    omega
  · exact he

theorem Expr.grouped_hat {l r : Expr} {op : Lexeme} (h : op.kind = lkHat) :
    (Expr.binary l op r).Grouped codePriorities ↔
      l.Grouped codePriorities ∧ r.Grouped codePriorities ∧
        14 ≤ l.rank codePriorities ∧ 15 ≤ r.rank codePriorities := by
  simp [Expr.Grouped, codePriorities_hat h]

theorem Expr.grouped_and {l r : Expr} {op : Lexeme} (h : op.kind = lkAnd) :
    (Expr.binary l op r).Grouped codePriorities ↔
      l.Grouped codePriorities ∧ r.Grouped codePriorities ∧
        15 ≤ l.rank codePriorities ∧ 16 ≤ r.rank codePriorities := by
  simp [Expr.Grouped, codePriorities_and h]

/-- An expression as tight as an exclusive or that is none is as tight as an `&`. -/
theorem Expr.rank_of_not_hat {e : Expr} (h : e.isHat = false) (hm : 14 ≤ e.rank codePriorities) :
    15 ≤ e.rank codePriorities := by
  cases e with
  | binary l op r =>
      cases hq : codePriorities op.kind with
      | none => simp [Expr.rank, hq] at hm
      | some q =>
          rw [Expr.rank_binary hq] at hm ⊢
          have hne : q.1 ≠ 14 := by
            intro h14
            simp [Expr.isHat, hat_of_priority hq h14] at h
          omega
  | unary op e => simp [Expr.rank]
  | _ => simp [Expr.rank]

theorem Expr.meetLeft_grouped {l r : Expr} {op : Lexeme} (hop : op.kind = lkAnd)
    (hl : l.Grouped codePriorities) (hm : 14 ≤ l.rank codePriorities)
    (hr : r.Grouped codePriorities) (hr' : 16 ≤ r.rank codePriorities) :
    (l.meetLeft op r).Grouped codePriorities ∧ 14 ≤ (l.meetLeft op r).rank codePriorities := by
  have hand : ∀ {c : Expr}, (Expr.binary c op r).rank codePriorities = 15 :=
    Expr.rank_binary (codePriorities_and hop)
  obtain ⟨x, hat, c, rfl, hk⟩ | hhat := l.hat_cases
  · rw [Expr.meetLeft_hat hk, Expr.grouped_hat hk, Expr.rank_hat hk, Expr.grouped_and hop, hand]
    obtain ⟨hx, hc, hx', hc'⟩ := (Expr.grouped_hat hk).mp hl
    exact ⟨⟨hx, ⟨hc, hr, hc', hr'⟩, hx', Int.le_refl _⟩, Int.le_refl _⟩
  · rw [Expr.meetLeft_of_not_hat hhat, Expr.grouped_and hop, hand]
    exact ⟨⟨hl, hr, Expr.rank_of_not_hat hhat hm, hr'⟩, by decide⟩

theorem Expr.meet_grouped {l r : Expr} {op : Lexeme} (hop : op.kind = lkAnd)
    (hl : l.Grouped codePriorities) (hm : 14 ≤ l.rank codePriorities) (hr : r.Chain)
    (hg : r.Grouped codePriorities) :
    (l.meet op r).Grouped codePriorities ∧ 14 ≤ (l.meet op r).rank codePriorities := by
  induction hr with
  | tight h =>
      rw [Expr.meet_of_not_hat (Expr.not_hat_of_rank h)]
      exact Expr.meetLeft_grouped hop hl hm hg h
  | hat hhat hchain hr ih =>
      obtain ⟨hg', hc, -, -⟩ := (Expr.grouped_hat hhat).mp hg
      obtain ⟨ih1, ih2⟩ := ih hg'
      rw [Expr.meet_hat hhat, Expr.grouped_hat hhat, Expr.rank_hat hhat]
      exact ⟨⟨ih1, hc, ih2, by omega⟩, Int.le_refl _⟩

/-- What a regrouped expression is grouped like, given how tight it was: as tight as before, save
that the priorities of `&` and `^` trade places. -/
structure Expr.Regroups (e e' : Expr) : Prop where
  grouped : e'.Grouped codePriorities
  rank : ∀ m, m ≠ 15 → m ≤ e.rank documentedPriorities → m ≤ e'.rank codePriorities
  chain : 15 ≤ e.rank documentedPriorities → e'.Chain

/-- Expressions that are no infix operations. -/
theorem Expr.Regroups.of_rank {e e' : Expr} (hg : e'.Grouped codePriorities) {n : Int}
    (h : e.rank documentedPriorities = n) (h' : e'.rank codePriorities = n) (hn : 16 ≤ n) :
    e.Regroups e' := by
  constructor
  · exact hg
  · intro m _ hm
    omega
  · intro _
    exact .tight (by omega)

theorem Expr.Regroups.tightest {e e' : Expr} (hg : e'.Grouped codePriorities)
    (h : e.rank documentedPriorities = 100) (h' : e'.rank codePriorities = 100) : e.Regroups e' :=
  .of_rank hg h h' (by decide)

theorem Expr.Regroups.and {l l' r r' : Expr} {op : Lexeme} (hop : op.kind = lkAnd)
    (hl : l.Regroups l') (hr : r.Regroups r') (hl' : 14 ≤ l.rank documentedPriorities)
    (hr' : 15 ≤ r.rank documentedPriorities) : (Expr.binary l op r).Regroups (l'.meet op r') := by
  have hrank : (Expr.binary l op r).rank documentedPriorities = 14 := by
    rw [Expr.rank_binary (q := (14, 1))]
    rw [hop]
    rfl
  obtain ⟨hg, hm⟩ :=
    Expr.meet_grouped hop hl.grouped (hl.rank 14 (by decide) hl') (hr.chain hr') hr.grouped
  constructor
  · exact hg
  · intro m _ h
    omega
  · intro h
    omega

theorem Expr.Regroups.hat {l l' r r' : Expr} {op : Lexeme} (hop : op.kind = lkHat)
    (hl : l.Regroups l') (hr : r.Regroups r') (hl' : 15 ≤ l.rank documentedPriorities)
    (hr' : 16 ≤ r.rank documentedPriorities) :
    (Expr.binary l op r).Regroups (.binary l' op r') := by
  have hrank : (Expr.binary l op r).rank documentedPriorities = 15 := by
    rw [Expr.rank_binary (q := (15, 1))]
    rw [hop]
    rfl
  have hr16 := hr.rank 16 (by decide) hr'
  constructor
  · rw [Expr.grouped_hat hop]
    exact ⟨hl.grouped, hr.grouped, hl.rank 14 (by decide) (by omega), by omega⟩
  · intro m hne h
    rw [Expr.rank_hat hop]
    omega
  · intro _
    exact .hat hop (hl.chain hl') hr16

/-- An infix operation whose priority is the same in both tables. -/
theorem Expr.Regroups.same {l l' r r' : Expr} {op : Lexeme} {q : Int × Int}
    (hq : codePriorities op.kind = some q) (hand : op.kind ≠ lkAnd) (hhat : op.kind ≠ lkHat)
    (hl : l.Regroups l') (hr : r.Regroups r')
    (hl' : q.1 + 1 - q.2 ≤ l.rank documentedPriorities)
    (hr' : q.1 + q.2 ≤ r.rank documentedPriorities) :
    (Expr.binary l op r).Regroups (.binary l' op r') := by
  have hne : q.1 ≠ 14 ∧ q.1 ≠ 15 := by
    constructor
    · exact fun h => hhat (hat_of_priority hq h)
    · rintro h
      revert hq hand
      cases op.kind <;> simp only [codePriorities, binaryProps, Option.map_none, Option.map_some,
        Option.some.injEq, reduceCtorEq, false_implies] <;> rintro rfl <;>
        first | (intro hand; exact absurd rfl hand) | cases h
  have hrange := codePriorities_range hq
  have hrank := Expr.rank_binary (l := l) (r := r) ((documentedPriorities_eq hand hhat).trans hq)
  have hrank' := Expr.rank_binary (l := l') (r := r') hq
  constructor
  · refine ⟨hl.grouped, hr.grouped, ?_⟩
    intro q' hq'
    obtain rfl := Option.some.inj (hq.symm.trans hq')
    exact ⟨hl.rank _ (by omega) hl', hr.rank _ (by omega) hr'⟩
  · intro m _ h
    omega
  · intro h
    exact .tight (by omega)

/-! ## Instructions -/

theorem binaryInstr_not_target (k : LexemeKind) : binaryInstr k ≠ opLoadAt := by
  cases k <;> decide

/-- The instructions of exclusive ors. -/
def isXor (r : Item) : Bool := r.instr = .plain (binaryInstr lkHat)

theorem isXor_hat {op : Lexeme} (h : op.kind = lkHat) :
    isXor (.mine (.plain (binaryInstr op.kind)) op.tag) = true := by
  rw [h]
  rfl

theorem isXor_and {op : Lexeme} (h : op.kind = lkAnd) :
    isXor (.mine (.plain (binaryInstr op.kind)) op.tag) = false := by
  rw [h]
  rfl

section

variable [DeciBase]

mutual

theorem Expr.regroups : ∀ {e : Expr}, e.Wf → e.Grouped documentedPriorities → e.Regroups e.regroup
  | .literal _, _, _ | .ident _, _, _ | .list0 .., _, _ | .dict0 .., _, _ =>
      .tightest trivial rfl rfl
  | .list _ es _, ⟨_, hwf, _⟩, h => .tightest (es.regroup_grouped hwf h) rfl rfl
  | .dict _ kvs _, ⟨_, hwf, _⟩, h => .tightest (kvs.regroup_grouped hwf h) rfl rfl
  | .paren _ e _, ⟨_, hwf, _⟩, h =>
      .tightest (Expr.regroups (e := e) hwf h).grouped rfl rfl
  | .unary _ e, ⟨_, hwf⟩, ⟨h, hrank⟩ => by
      have he := Expr.regroups hwf h
      exact .of_rank (n := 50) ⟨he.grouped, he.rank 50 (by decide) hrank⟩ rfl rfl (by decide)
  | .binary l op r, ⟨hwfl, hop, hwfr⟩, ⟨hl, hr, hg⟩ => by
      have hl' := Expr.regroups hwfl hl
      have hr' := Expr.regroups hwfr hr
      rw [Expr.regroup]
      by_cases hand : op.kind = lkAnd
      · rw [if_pos hand]
        rw [hand] at hg
        obtain ⟨h1, h2⟩ := hg (14, 1) rfl
        exact .and hand hl' hr' h1 h2
      · rw [if_neg hand]
        by_cases hhat : op.kind = lkHat
        · rw [hhat] at hg
          obtain ⟨h1, h2⟩ := hg (15, 1) rfl
          exact .hat hhat hl' hr' h1 h2
        · obtain ⟨q, hq⟩ :=
            Option.isSome_iff_exists.mp ((codePriorities_isSome op.kind).trans hop)
          obtain ⟨h1, h2⟩ := hg q ((documentedPriorities_eq hand hhat).trans hq)
          exact .same hq hand hhat hl' hr' h1 h2
  | .index e _ i _, ⟨hwf, _, hwfi, _⟩, ⟨h, hrank, hi⟩ => by
      have he := Expr.regroups hwf h
      exact .tightest ⟨he.grouped, he.rank 100 (by decide) hrank, (Expr.regroups hwfi hi).grouped⟩
        rfl rfl
  | .field e _ _, ⟨hwf, _⟩, ⟨h, hrank⟩ => by
      have he := Expr.regroups hwf h
      exact .tightest ⟨he.grouped, he.rank 100 (by decide) hrank⟩ rfl rfl
  | .call0 e _ _, ⟨hwf, _⟩, ⟨h, hrank⟩ => by
      have he := Expr.regroups hwf h
      exact .tightest ⟨he.grouped, he.rank 100 (by decide) hrank⟩ rfl rfl
  | .call f _ args _ _, ⟨hwf, _, hwfa, _⟩, ⟨h, hrank, hargs⟩ => by
      have he := Expr.regroups hwf h
      exact .tightest ⟨he.grouped, he.rank 100 (by decide) hrank, args.regroup_grouped hwfa hargs⟩
        rfl rfl

theorem Elems.regroup_grouped : ∀ es : Elems, es.Wf → es.Grouped documentedPriorities →
    es.regroup.Grouped codePriorities
  | .last _, hwf, h => (Expr.regroups hwf h).grouped
  | .more _ _ es, ⟨hwf, _, hwfs⟩, ⟨h, hs⟩ =>
      ⟨(Expr.regroups hwf h).grouped, es.regroup_grouped hwfs hs⟩

theorem Entries.regroup_grouped : ∀ kvs : Entries, kvs.Wf → kvs.Grouped documentedPriorities →
    kvs.regroup.Grouped codePriorities
  | .last _ _ _, ⟨hwfk, _, hwfv⟩, ⟨hk, hv⟩ =>
      ⟨(Expr.regroups hwfk hk).grouped, (Expr.regroups hwfv hv).grouped⟩
  | .more _ _ _ _ kvs, ⟨hwfk, _, hwfv, _, hwfs⟩, ⟨hk, hv, hs⟩ =>
      ⟨(Expr.regroups hwfk hk).grouped, (Expr.regroups hwfv hv).grouped,
        kvs.regroup_grouped hwfs hs⟩

end

/-! ## Well-formedness -/

theorem Expr.meet_wf {op : Lexeme} (hop : (binaryProps op.kind).isSome = true) (l r : Expr)
    (hl : l.Wf) (hr : r.Wf) : (l.meet op r).Wf := by
  revert hl hr
  apply Expr.meet_rec (P := fun l r e => l.Wf → r.Wf → e.Wf)
  · intro l r _ _ hl hr
    exact ⟨hl, hop, hr⟩
  · rintro x hat c r _ _ ⟨hx, hhat, hc⟩ hr
    exact ⟨hx, hhat, hc, hop, hr⟩
  · rintro l r hat c _ ih hl ⟨hr, hhat, hc⟩
    exact ⟨ih hl hr, hhat, hc⟩

mutual

theorem Expr.regroup_wf : ∀ e : Expr, e.Wf → e.regroup.Wf
  | .literal _, h | .ident _, h | .list0 .., h | .dict0 .., h => h
  | .list _ es _, ⟨hlb, h, hrb⟩ => ⟨hlb, es.regroup_wf h, hrb⟩
  | .dict _ kvs _, ⟨hlb, h, hrb⟩ => ⟨hlb, kvs.regroup_wf h, hrb⟩
  | .paren _ e _, ⟨hlp, h, hrp⟩ => ⟨hlp, e.regroup_wf h, hrp⟩
  | .unary _ e, ⟨hop, h⟩ => ⟨hop, e.regroup_wf h⟩
  | .binary l op r, ⟨hl, hop, hr⟩ => by
      rw [Expr.regroup]
      split
      · exact Expr.meet_wf hop _ _ (l.regroup_wf hl) (r.regroup_wf hr)
      · exact ⟨l.regroup_wf hl, hop, r.regroup_wf hr⟩
  | .index e _ i _, ⟨h, hlb, hi, hrb⟩ => ⟨e.regroup_wf h, hlb, i.regroup_wf hi, hrb⟩
  | .field e _ _, ⟨h, hdot⟩ => ⟨e.regroup_wf h, hdot⟩
  | .call0 e _ _, ⟨h, hlp⟩ => ⟨e.regroup_wf h, hlp⟩
  | .call f _ args _ _, ⟨h, hlp, hargs, hstar⟩ =>
      ⟨f.regroup_wf h, hlp, args.regroup_wf hargs, hstar⟩

theorem Elems.regroup_wf : ∀ es : Elems, es.Wf → es.regroup.Wf
  | .last e, h => e.regroup_wf h
  | .more e _ es, ⟨h, hcomma, hs⟩ => ⟨e.regroup_wf h, hcomma, es.regroup_wf hs⟩

theorem Entries.regroup_wf : ∀ kvs : Entries, kvs.Wf → kvs.regroup.Wf
  | .last k _ v, ⟨hk, hcolon, hv⟩ => ⟨k.regroup_wf hk, hcolon, v.regroup_wf hv⟩
  | .more k _ v _ kvs, ⟨hk, hcolon, hv, hcomma, hs⟩ =>
      ⟨k.regroup_wf hk, hcolon, v.regroup_wf hv, hcomma, kvs.regroup_wf hs⟩

end

/-- What is grouped as the documentation says becomes grouped as the parser does it. -/
theorem Expr.Proper.regroup {e : Expr} (h : e.Proper documentedPriorities) :
    e.regroup.Proper codePriorities := ⟨e.regroup_wf h.1, (Expr.regroups h.1 h.2).grouped⟩

/-! ## Targets of assignments -/

theorem Expr.lastInstr_append {e : Expr} {c : List Item} {r : Item} (h : e.code = c ++ [r]) :
    e.lastInstr = r.instr := by
  rw [Expr.lastInstr, h, List.getLast?_concat]
  rfl

theorem Expr.lastInstr_same {e e' : Expr} {c d : List Item} {r : Item} (h : e.code = c ++ [r])
    (h' : e'.code = d ++ [r]) : e'.lastInstr = e.lastInstr :=
  (Expr.lastInstr_append h').trans (Expr.lastInstr_append h).symm

theorem Expr.lastInstr_binary (l : Expr) (op : Lexeme) (r : Expr) :
    (Expr.binary l op r).lastInstr = .plain (binaryInstr op.kind) := by
  have hcode : (Expr.binary l op r).code =
      (l.code ++ r.code) ++ [.mine (.plain (binaryInstr op.kind)) op.tag] := by
    rw [Expr.code, List.append_assoc]
  exact Expr.lastInstr_append hcode

/-- The last instruction stays the same, except for that of an infix operation. -/
theorem Expr.regroup_lastInstr : ∀ e : Expr,
    e.regroup.lastInstr = e.lastInstr ∨
      ∃ k : LexemeKind, e.lastInstr = .plain (binaryInstr k)
  | .literal _ | .ident _ | .list0 .. | .dict0 .. => Or.inl rfl
  | .list _ es _ => by
      left
      apply Expr.lastInstr_same (c := es.code) (d := es.regroup.code) rfl
      rw [Expr.regroup, Expr.code, es.regroup_count]
  | .dict _ kvs _ => by
      left
      apply Expr.lastInstr_same (c := kvs.code) (d := kvs.regroup.code) rfl
      rw [Expr.regroup, Expr.code, kvs.regroup_count]
  | .paren _ e _ => e.regroup_lastInstr
  | .unary _ e => Or.inl (Expr.lastInstr_same (c := e.code) (d := e.regroup.code) rfl rfl)
  | .binary l op r => Or.inr ⟨op.kind, Expr.lastInstr_binary l op r⟩
  | .index e _ i _ =>
      Or.inl (Expr.lastInstr_same (List.append_assoc e.code i.code _).symm
        (List.append_assoc e.regroup.code i.regroup.code _).symm)
  | .field e _ name =>
      Or.inl (Expr.lastInstr_same (List.append_assoc e.code [_] [_]).symm
        (List.append_assoc e.regroup.code [_] [_]).symm)
  | .call0 f _ _ => Or.inl (Expr.lastInstr_same (c := f.code) (d := f.regroup.code) rfl rfl)
  | .call f _ args _ _ => by
      left
      apply Expr.lastInstr_same (List.append_assoc f.code args.code _).symm
      rw [Expr.regroup, Expr.code, args.regroup_count]
      exact (List.append_assoc f.regroup.code args.regroup.code _).symm

/-- A target of an assignment stays one. -/
theorem Expr.regroup_target {e : Expr} {k : LexemeKind}
    (h : (assignInstr k e.lastInstr).isSome = true) :
    (assignInstr k e.regroup.lastInstr).isSome = true := by
  rcases e.regroup_lastInstr with heq | ⟨k₁, h₁⟩
  · rwa [heq]
  · have hnone : assignInstr k (.plain (binaryInstr k₁)) = none := by
      unfold assignInstr
      split
      · rename_i hx
        cases hx
      · rename_i hx
        exact absurd (AInstr.plain.inj hx) (binaryInstr_not_target k₁)
      · rfl
    rw [h₁, hnone] at h
    cases h

/-! ## Code -/

/-- In `l & r` the exclusive ors come later when the `&` takes in its nearest operands. -/
theorem Expr.meet_delayed {op : Lexeme} (hop : op.kind = lkAnd) (l r : Expr) :
    Delayed isXor (l.isHat = true ∨ r.isHat = true) (Expr.binary l op r).code
      (l.meet op r).code := by
  apply Expr.meet_rec (P := fun l r e =>
    Delayed isXor (l.isHat = true ∨ r.isHat = true) (Expr.binary l op r).code e.code)
  · intro l r hl hr
    refine (Delayed.refl _).imp ?_
    simp [hl, hr]
  · intro x hat c r hk _
    have hmove := Delayed.move (isXor_hat hk) (isXor_and hop) r.code
    have := (hmove.prepend c.code).prepend x.code
    refine Delayed.imp ?_ fun _ => trivial
    simpa [Expr.code] using this
  · intro l r hat c hk ih
    have hyield := Delayed.yield (isXor_hat hk) (isXor_and hop) c.code
    have h1 := (hyield.prepend r.code).prepend l.code
    have h2 := ih.extend (c.code ++ [.mine (.plain (binaryInstr hat.kind)) hat.tag])
    simp only [Expr.code, List.append_assoc, List.cons_append, List.nil_append] at h1 h2 ⊢
    exact (h1.trans h2).imp fun _ => Or.inl trivial

mutual

/-- The exclusive ors of a regrouped expression come later, unless it stays as it is. -/
theorem Expr.regroup_delayed : ∀ e : Expr,
    Delayed isXor (¬ e.Untwisted) e.code e.regroup.code
  | .literal _ | .ident _ | .list0 .. | .dict0 .. =>
      (Delayed.refl _).imp fun h => h trivial
  | .list lb es _ => by
      rw [Expr.regroup, Expr.code, Expr.code, es.regroup_count]
      exact es.regroup_delayed.extend _
  | .dict lb kvs _ => by
      rw [Expr.regroup, Expr.code, Expr.code, kvs.regroup_count]
      exact kvs.regroup_delayed.extend _
  | .paren _ e _ => e.regroup_delayed
  | .unary op e => e.regroup_delayed.extend _
  | .binary l op r => by
      have hparts := l.regroup_delayed.append (r.regroup_delayed.extend
        [.mine (.plain (binaryInstr op.kind)) op.tag])
      rw [Expr.regroup]
      split
      · rename_i hop
        refine (hparts.trans (Expr.meet_delayed hop l.regroup r.regroup)).imp ?_
        intro h
        by_contra hnot
        simp only [not_or, not_not, Bool.not_eq_true] at hnot
        obtain ⟨⟨hl, hr⟩, hl', hr'⟩ := hnot
        rw [hl.regroup_eq] at hl'
        rw [hr.regroup_eq] at hr'
        exact h ⟨hl, hr, fun _ => ⟨hl', hr'⟩⟩
      · rename_i hop
        refine hparts.imp ?_
        intro h
        by_contra hnot
        simp only [not_or, not_not] at hnot
        exact h ⟨hnot.1, hnot.2, fun hk => absurd hk hop⟩
  | .index e lb i _ => by
      refine (e.regroup_delayed.append (i.regroup_delayed.extend
        [.mine (.plain opLoadAt) lb.tag])).imp ?_
      exact fun h => not_and_or.mp h
  | .field e _ name => e.regroup_delayed.extend _
  | .call0 f _ _ => f.regroup_delayed.extend _
  | .call f lp args star _ => by
      rw [Expr.regroup, Expr.code, Expr.code, args.regroup_count]
      refine (f.regroup_delayed.append (args.regroup_delayed.extend _)).imp ?_
      exact fun h => not_and_or.mp h

theorem Elems.regroup_delayed : ∀ es : Elems,
    Delayed isXor (¬ es.Untwisted) es.code es.regroup.code
  | .last e => e.regroup_delayed
  | .more e _ es => (e.regroup_delayed.append es.regroup_delayed).imp fun h => not_and_or.mp h

theorem Entries.regroup_delayed : ∀ kvs : Entries,
    Delayed isXor (¬ kvs.Untwisted) kvs.code kvs.regroup.code
  | .last k _ v => (k.regroup_delayed.append v.regroup_delayed).imp fun h => not_and_or.mp h
  | .more k _ v _ kvs => by
      refine (k.regroup_delayed.append (v.regroup_delayed.append kvs.regroup_delayed)).imp ?_
      intro h
      rcases not_and_or.mp h with h | h
      · exact Or.inl h
      · exact Or.inr (not_and_or.mp h)

end

end

end Calx
