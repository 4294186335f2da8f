import Calx.Scanner
import Mathlib.Data.List.Chain

/-!
# What the lexemes of a source cover

The calls of `lexer_next` from the start of a source to its end: how many they
are, which bytes they read, and how the lexemes lie in the source.

## Implementation notes

A fact about one call is proved for the turn that returns the lexeme, and the
turns before that one only skip blanks and comments.
-/

namespace Calx

open LexemeKind

/-! ## Gaps -/

/-- Blanks, tabs, line breaks and comments up to the end of their line lead from `s` to `t`. -/
inductive Skips : Bytes → Bytes → Prop
  | refl (s : Bytes) : Skips s s
  | blank {c : UInt8} {s t : Bytes} (hc : c = ch ' ' ∨ c = ch '\t' ∨ c = ch '\n')
      (h : Skips s t) : Skips (c :: s) t
  | comment {body s t : Bytes} (hbody : ch '\n' ∉ body) (hend : s = [] ∨ s.head? = some (ch '\n'))
      (h : Skips s t) : Skips (ch '#' :: (body ++ s)) t

theorem Skips.trans {s t u : Bytes} (h : Skips s t) (h' : Skips t u) : Skips s u := by
  induction h with
  | refl s => exact h'
  | blank hc h ih => exact .blank hc (ih h')
  | comment hbody hend h ih => exact .comment hbody hend (ih h')

/-- The bytes up to a line break end at a line break or at the end of the text. -/
theorem unbroken_split (s : Bytes) :
    ∃ a b, s = a ++ b ∧ s.takeWhile (· ≠ ch '\n') = a ∧ s.dropWhile (· ≠ ch '\n') = b ∧
      ch '\n' ∉ a ∧ (b = [] ∨ b.head? = some (ch '\n')) := by
  refine ⟨_, _, List.takeWhile_append_dropWhile.symm, rfl, rfl, ?_, ?_⟩
  · intro hmem
    simpa using List.mem_takeWhile_imp hmem
  · cases hd : s.dropWhile (· ≠ ch '\n') with
    | nil => exact Or.inl rfl
    | cons c t =>
        right
        have hnot := List.head?_dropWhile_not (fun c => decide (c ≠ ch '\n')) s
        rw [hd] at hnot
        simpa using hnot

/-- A turn that goes on skips what it passes. -/
theorem lexerTurn_skips {x y : Lexer} (h : lexerTurn x = .inr y) :
    Skips x.rest y.rest ∧ x.cur < y.cur := by
  have hform := lexerTurn_form x
  rw [h] at hform
  cases hform with
  | blank hr hc =>
      constructor
      · rw [Lexer.advance_rest, hr]
        exact .blank (hc.imp_right Or.inl) (.refl _)
      · exact Nat.lt_succ_self _
  | line hr hi =>
      constructor
      · simp only [passLine, Lexer.advance_rest, insertSemicolon_fields, hr]
        exact .blank (Or.inr (Or.inr rfl)) (.refl _)
      · simp [passLine, Lexer.advance, insertSemicolon_fields]
  | @comment cs hr =>
      constructor
      · have hdrop : (x.advance (commentLen x.rest)).rest = cs.dropWhile (· ≠ ch '\n') := by
          rw [Lexer.advance_rest, hr, commentLen, Nat.add_comm, List.drop_succ_cons,
            Span.drop_takeWhile]
        obtain ⟨a, b, hab, -, hb, ha, hend⟩ := unbroken_split cs
        rw [hdrop, hr, hb, hab]
        exact .comment ha hend (.refl _)
      · have hpos := commentLen_pos (s := x.rest) (by simp [hr])
        exact Nat.lt_add_of_pos_right hpos

/-- A call skips blanks and comments up to the turn that returns the lexeme. -/
theorem lexerNext_stops (x : Lexer) :
    ∃ y, lexerTurn y = .inl (lexerNext x) ∧ Skips x.rest y.rest ∧ x.cur ≤ y.cur ∧
      ∀ source, x.Reads source → y.Reads source := by
  apply lexerNext_rec (P := fun x r => ∃ y, lexerTurn y = .inl r ∧ Skips x.rest y.rest ∧
    x.cur ≤ y.cur ∧ ∀ source, x.Reads source → y.Reads source)
  · intro x r h
    exact ⟨x, h, .refl _, Nat.le_refl _, fun _ hx => hx⟩
  · intro x y r h ih
    obtain ⟨z, hz, hskip, hle, hreads⟩ := ih
    obtain ⟨hskip', hlt⟩ := lexerTurn_skips h
    exact ⟨z, hz, hskip'.trans hskip, Nat.le_trans (Nat.le_of_lt hlt) hle,
      fun source hx => hreads source (lexerTurn_reads h hx)⟩

/-- The turn that returns the lexeme. -/
theorem lexerNext_form (x : Lexer) :
    ∃ y, TurnForm y (.inl (lexerNext x)) ∧ ∀ source, x.Reads source → y.Reads source := by
  obtain ⟨y, hy, -, -, hreads⟩ := lexerNext_stops x
  exact ⟨y, hy ▸ lexerTurn_form y, hreads⟩

/-! ## Runs -/

/-- Induction over the lexemes of a source. -/
theorem lexAll_rec {P : Lexer → List Lexeme → Prop}
    (last : ∀ x, (lexerNext x).1.final → P x [(lexerNext x).1])
    (more : ∀ x, ¬ (lexerNext x).1.final → P (lexerNext x).2 (lexAll (lexerNext x).2) →
      P x ((lexerNext x).1 :: lexAll (lexerNext x).2)) (x : Lexer) : P x (lexAll x) := by
  induction hn : x.bound using Nat.strong_induction_on generalizing x with
  | _ n ih =>
      rw [lexAll_eq]
      by_cases hf : (lexerNext x).1.final
      · rw [if_pos hf]
        exact last x hf
      · rw [if_neg hf]
        have hlt := (lexerNext_progress x).resolve_left hf
        exact more x hf (ih _ (hn ▸ hlt) _ rfl)

/-- Induction over the turns of all calls on a source. -/
theorem lexAll_turns {P : Lexer → List Lexeme → Prop}
    (last : ∀ x r, lexerTurn x = .inl r → r.1.final → P x [r.1])
    (more : ∀ x r, lexerTurn x = .inl r → ¬ r.1.final → P r.2 (lexAll r.2) →
      P x (r.1 :: lexAll r.2))
    (go : ∀ x y ls, lexerTurn x = .inr y → P y ls → P x ls) (x : Lexer) : P x (lexAll x) := by
  have call : ∀ x r, r = lexerNext x → (¬ r.1.final → P r.2 (lexAll r.2)) →
      P x (r.1 :: if r.1.final then [] else lexAll r.2) := by
    intro x r hr
    rw [hr]
    apply lexerNext_rec (P := fun x r => (¬ r.1.final → P r.2 (lexAll r.2)) →
      P x (r.1 :: if r.1.final then [] else lexAll r.2))
    · intro x r h ih
      by_cases hf : r.1.final
      · rw [if_pos hf]
        exact last x r h hf
      · rw [if_neg hf]
        exact more x r h hf (ih hf)
    · intro x y r h ih hnext
      exact go x y _ h (ih hnext)
  apply lexAll_rec
  · intro x hf
    have := call x _ rfl fun h => absurd hf h
    rwa [if_pos hf] at this
  · intro x hf ih
    have := call x _ rfl fun _ => ih
    rwa [if_neg hf] at this

/-- What every call at a lexer with the invariant `I` returns, every lexeme of a run is. -/
theorem lexAll_forall {I : Lexer → Prop} {P : Lexeme → Prop}
    (next : ∀ x, I x → P (lexerNext x).1 ∧ ((lexerNext x).1.final ∨ I (lexerNext x).2))
    {x : Lexer} (hx : I x) : ∀ l ∈ lexAll x, P l := by
  revert hx
  apply lexAll_rec (P := fun x ls => I x → ∀ l ∈ ls, P l)
  · intro x hf hx l hl
    rw [List.mem_singleton.mp hl]
    exact (next x hx).1
  · intro x hf ih hx l hl
    obtain ⟨hp, hinv⟩ := next x hx
    rcases List.mem_cons.mp hl with rfl | hl
    · exact hp
    · exact ih (hinv.resolve_left hf) l hl

/-- The run reaches an end or an error. -/
theorem lexAll_ends (x : Lexer) : ∃ l, (lexAll x).getLast? = some l ∧ l.final := by
  apply lexAll_rec (P := fun _ ls => ∃ l, ls.getLast? = some l ∧ l.final)
  · intro x hf
    exact ⟨_, List.getLast?_singleton, hf⟩
  · intro x hf ih
    obtain ⟨l, hl, hfinal⟩ := ih
    refine ⟨l, ?_, hfinal⟩
    rw [List.getLast?_cons, hl]
    rfl

/-- Only the last lexeme of a run is final. -/
theorem lexAll_dropLast (x : Lexer) : ∀ l ∈ (lexAll x).dropLast, ¬ l.final := by
  apply lexAll_rec (P := fun _ ls => ∀ l ∈ ls.dropLast, ¬ l.final)
  · intro x hf
    simp
  · intro x hf ih
    have hne : lexAll (lexerNext x).2 ≠ [] := by
      rw [lexAll_eq]
      exact List.cons_ne_nil _ _
    rw [List.dropLast_cons_of_ne_nil hne]
    exact List.forall_mem_cons.mpr ⟨hf, ih⟩

/-! ## Order -/

/-- The lexeme has bytes, or it is the end of the source. -/
def Lexeme.solid (l : Lexeme) : Bool := l.size ≠ 0 || l.kind = lkEof

/-- The lexemes lie one behind the other from offset `i` on, with blanks and comments between. -/
inductive InOrder (source : Bytes) : Nat → List Lexeme → Prop
  | nil (i : Nat) : InOrder source i []
  | cons {i : Nat} {l : Lexeme} {ls : List Lexeme} (hstart : i ≤ l.start)
      (hend : l.start + l.size ≤ source.length)
      (hgap : Skips (source.drop i) (source.drop l.start))
      (htext : l.text = (source.drop l.start).take l.size)
      (heof : l.kind = lkEof → l.start = source.length)
      (h : InOrder source (l.start + l.size) ls) : InOrder source i (l :: ls)

theorem InOrder.skip {source : Bytes} {i j : Nat} {ls : List Lexeme} (h : InOrder source j ls)
    (hij : i ≤ j) (hskip : Skips (source.drop i) (source.drop j)) : InOrder source i ls := by
  cases h with
  | nil => exact .nil i
  | cons hstart hend hgap htext heof h =>
      exact .cons (Nat.le_trans hij hstart) hend (hskip.trans hgap) htext heof h

/-- The end of the source is delivered there. -/
theorem lexerTurn_eof {x : Lexer} {r : Lexeme × Lexer} (h : lexerTurn x = .inl r)
    (hk : r.1.kind = lkEof) : x.rest = [] := by
  cases lexerTurn_stop h with
  | eof hr hi => exact hr
  | fake hr hi => cases hk
  | token hr hc h =>
      cases h with
      | fake hc hi => cases hk
      | error msg skip size => cases hk
      | token heof => exact absurd hk heof

/-- A call of `lexer_next` moves the cursor over blanks, comments and its lexeme. -/
theorem lexerNext_inOrder {source : Bytes} {x : Lexer} (hx : x.Reads source) {ls : List Lexeme}
    (herr : (lexerNext x).1.kind = lkError → ls = [])
    (h : InOrder source (lexerNext x).2.cur ls) :
    InOrder source x.cur ([(lexerNext x).1].filter Lexeme.solid ++ ls) := by
  obtain ⟨y, hy, hskip, hle, hreads⟩ := lexerNext_stops x
  have hyr := hreads source hx
  have heof := lexerTurn_eof hy
  have hlen := hyr.length_rest
  rw [hx.rest_eq, hyr.rest_eq] at hskip
  generalize lexerNext x = r at *
  cases lexerTurn_span hy with
  | @lexeme z kind size hz hsize =>
      have hsz : (makeLexemeAdvance z kind size).1.size = size := by
        rw [← hz.rest_eq] at hsize
        exact List.length_take_of_le hsize
      have hstart : (makeLexemeAdvance z kind size).1.start = y.cur := hz.cur_eq
      have hcur : (makeLexemeAdvance z kind size).2.cur = y.cur + size := by
        rw [← hz.cur_eq]
        rfl
      rw [hcur] at h
      cases hs : (makeLexemeAdvance z kind size).1.solid with
      | true =>
          rw [List.filter_singleton, hs]
          apply InOrder.cons
          · rwa [hstart]
          · rw [hstart, hsz]
            omega
          · rwa [hstart]
          · rw [hstart, hsz, ← hyr.rest_eq, ← hz.rest_eq]
            rfl
          · intro hk
            rw [heof hk] at hlen
            rw [hstart]
            exact hlen
          · rwa [hstart, hsz]
      | false =>
          rw [List.filter_singleton, hs]
          rw [Lexeme.solid, hsz] at hs
          have hzero : size = 0 := by simp at hs; exact hs.1
          rw [hzero, Nat.add_zero] at h
          exact h.skip hle hskip
  | unterminated hz hsize =>
      rw [herr rfl]
      exact .nil _

/-- The lexemes from the cursor on. -/
theorem lexAll_inOrder {source : Bytes} {x : Lexer} (hx : x.Reads source) :
    InOrder source x.cur ((lexAll x).filter Lexeme.solid) := by
  revert hx
  apply lexAll_rec (P := fun x ls => x.Reads source → InOrder source x.cur (ls.filter Lexeme.solid))
  · intro x hf hx
    have h := lexerNext_inOrder hx (fun _ => rfl) (.nil _)
    rwa [List.append_nil] at h
  · intro x hf ih hx
    rw [← List.singleton_append, List.filter_append]
    exact lexerNext_inOrder hx (fun hk => absurd (Or.inr hk) hf) (ih (lexerNext_reads hx))

/-! ## Inserted semicolons -/

/-- A semicolon that is not in the source. -/
def Lexeme.fake (l : Lexeme) : Prop := l.kind = lkSemicolon ∧ l.size = 0

/-- A semicolon has just been inserted in front of the cursor. -/
structure Lexer.Inserted (x : Lexer) : Prop where
  flag : x.insertedSemicolonFlag = true
  context : x.levelStack.isExprContext = false
  place : x.rest = [] ∨ (∃ s, x.rest = ch '\n' :: s) ∨ ∃ s, x.rest = ch '}' :: s

theorem insertSemicolon_inserts {x : Lexer} (h : (insertSemicolon x).1 = true) :
    (insertSemicolon x).2.insertedSemicolonFlag = true ∧
      (insertSemicolon x).2.levelStack.isExprContext = false := by
  by_cases h1 : x.levelStack.isExprContext <;> by_cases h2 : x.insertedSemicolonFlag <;>
    simp_all [insertSemicolon]

theorem Lexer.Inserted.insertSemicolon {x : Lexer} (h : x.Inserted) :
    (insertSemicolon x).1 = false := by
  simp [Calx.insertSemicolon, h.flag, h.context]

theorem inserted_fakeSemicolon {x : Lexer} (h : (insertSemicolon x).1 = true)
    (hplace : x.rest = [] ∨ (∃ s, x.rest = ch '\n' :: s) ∨ ∃ s, x.rest = ch '}' :: s) :
    (fakeSemicolon (insertSemicolon x).2).2.Inserted := by
  obtain ⟨hflag, hcontext⟩ := insertSemicolon_inserts h
  refine ⟨hflag, hcontext, ?_⟩
  have hrest : (fakeSemicolon (insertSemicolon x).2).2.rest = x.rest :=
    (insertSemicolon_fields x).1
  rwa [hrest]

/-- After a semicolon that is not in the source the lexer knows that it was inserted. -/
theorem lexerTurn_fake {x : Lexer} {r : Lexeme × Lexer} (h : lexerTurn x = .inl r)
    (hfake : r.1.fake) : r.2.Inserted ∧ r.1.start = r.2.cur := by
  cases lexerTurn_stop h with
  | eof hr hi => exact absurd hfake.1 (by simp [makeLexemeAdvance])
  | fake hr hi => exact ⟨inserted_fakeSemicolon hi (hr.imp_right Or.inl), rfl⟩
  | @token c s _ hr hc h =>
      cases h with
      | fake hc hi => exact ⟨inserted_fakeSemicolon hi (Or.inr (Or.inr ⟨s, hc ▸ hr⟩)), rfl⟩
      | error msg skip size => exact absurd hfake.1 (by simp [makeErrorAdvance, makeLexemeAdvance])
      | token heof herr hpos hle =>
          have hlen := List.length_take_of_le hle
          have hsize := hfake.2
          simp only [Lexeme.size, makeLexemeAdvance, tokenState] at hsize
          omega

/-- The turn that ends a call does not move the cursor back. -/
theorem lexerTurn_cursor {x : Lexer} {r : Lexeme × Lexer} (h : lexerTurn x = .inl r) :
    x.cur ≤ r.1.start ∧ x.cur ≤ r.2.cur := by
  cases lexerTurn_span h with
  | lexeme kind hy hle =>
      have hcur := hy.cur_eq
      constructor
      · exact hcur.ge
      · exact Nat.le_trans hcur.ge (Nat.le_add_right _ _)
  | @unterminated y passed hy hle =>
      have hcur : x.cur ≤ (y.advance passed).cur :=
        Nat.le_trans hy.cur_eq.ge (Nat.le_add_right _ _)
      constructor
      · exact hcur
      · exact Nat.le_trans hcur (Nat.le_add_right _ _)

/-- A lexeme starts behind the cursor. -/
theorem lexerNext_start (x : Lexer) : x.cur ≤ (lexerNext x).1.start := by
  obtain ⟨y, hy, -, hle, -⟩ := lexerNext_stops x
  exact Nat.le_trans hle (lexerTurn_cursor hy).1

/-- No semicolon is inserted twice in one place. -/
theorem Lexer.Inserted.next {x : Lexer} (h : x.Inserted) :
    ¬ ((lexerNext x).1.fake ∧ (lexerNext x).1.start = x.cur) := by
  rintro ⟨hfake, hstart⟩
  have hi := h.insertSemicolon
  cases ht : lexerTurn x with
  | inr y =>
      have heq : lexerNext x = lexerNext y := by rw [lexerNext_eq, ht]
      obtain ⟨-, hlt⟩ := lexerTurn_skips ht
      have hle := lexerNext_start y
      rw [heq] at hstart
      omega
  | inl r =>
      have heq : lexerNext x = r := by rw [lexerNext_eq, ht]
      rw [heq] at hfake
      cases lexerTurn_stop ht with
      | eof hr hi => exact absurd hfake.1 (by simp [makeLexemeAdvance])
      | fake hr hi' => simp [hi] at hi'
      | @token c s _ hr hc h' =>
          have hbrace : c = ch '}' := by
            rcases h.place with hn | ⟨t, ht⟩ | ⟨t, ht⟩
            · simp [hn] at hr
            · rw [ht] at hr
              exact absurd (List.cons.inj hr).1.symm hc
            · rw [ht] at hr
              exact (List.cons.inj hr).1.symm
          cases h' with
          | fake hc hi' => simp [hi] at hi'
          | error msg skip size =>
              exact absurd hfake.1 (by simp [makeErrorAdvance, makeLexemeAdvance])
          | token heof herr hpos hle hsemi =>
              rw [hbrace] at hsemi
              exact absurd (hsemi hfake.1) (by decide)

/-- Lexemes of which no two in a row are semicolons inserted in one place. -/
def NoTwin (a b : Lexeme) : Prop := ¬ (a.fake ∧ b.fake ∧ a.start = b.start)

theorem lexAll_noTwin (x : Lexer) : (lexAll x).IsChain NoTwin := by
  apply lexAll_rec (P := fun _ ls => ls.IsChain NoTwin)
  · intro x hf
    exact List.isChain_singleton _
  · intro x hf ih
    apply ih.cons
    intro b hb
    rw [lexAll_eq, List.head?_cons, Option.mem_def, Option.some.injEq] at hb
    rintro ⟨hfake, hfake', hstart⟩
    obtain ⟨y, hy, -⟩ := lexerNext_stops x
    obtain ⟨hinserted, hcur⟩ := lexerTurn_fake hy hfake
    apply hinserted.next
    rw [hb, ← hcur]
    exact ⟨hfake', hstart.symm⟩

/-! ## Longest operators -/

/-- The kinds of the operators and brackets. -/
def LexemeKind.isOperator (k : LexemeKind) : Bool := (operators.map (·.2)).contains k

theorem keywords_not_operator : ∀ k ∈ keywords, k.2.1.isOperator = false := by decide

theorem keywordKind_not_operator (name : Bytes) : (keywordKind name).1.isOperator = false := by
  rcases keywordKind_cases name with h | ⟨k, hk, h⟩
  · rw [h]
    decide
  · rw [h]
    exact keywords_not_operator k hk

/-- An operator lexeme is the longest operator at its place. -/
theorem TokenForm.longest {x : Lexer} {c : UInt8} {r : Lexeme × Lexer} (h : TokenForm x c r)
    (hop : r.1.kind.isOperator = true) (hfake : ¬ r.1.fake) :
    ∃ o, Longest x.rest o ∧ r.1.kind = o.2 ∧ r.1.text = o.1.map ch ∧ r.1.start = x.cur := by
  cases h with
  | fake hc hi => exact absurd ⟨rfl, rfl⟩ hfake
  | number hc => exact ((by decide : ¬ lkNumber.isOperator = true) hop).elim
  | identifier hc =>
      rw [identifier_eq x hc] at hop
      have hnot := keywordKind_not_operator (x.rest.take (identifierLen x.rest))
      exact absurd hop (by simp [makeLexemeAdvance, hnot])
  | string hc =>
      unfold Calx.string at hop
      split at hop
      · exact ((by decide : ¬ lkString.isOperator = true) hop).elim
      · exact ((by decide : ¬ lkError.isOperator = true) hop).elim
      · exact ((by decide : ¬ lkError.isOperator = true) hop).elim
  | @operator o h =>
      refine ⟨o, h, rfl, ?_, rfl⟩
      have htake := List.prefix_iff_eq_take.mp h.starts
      rw [List.length_map] at htake
      exact htake.symm
  | unexpected => exact ((by decide : ¬ lkError.isOperator = true) hop).elim

theorem lexerNext_longest {source : Bytes} {x : Lexer} (hx : x.Reads source)
    (hop : (lexerNext x).1.kind.isOperator = true) (hfake : ¬ (lexerNext x).1.fake) :
    ∃ o, Longest (source.drop (lexerNext x).1.start) o ∧ (lexerNext x).1.kind = o.2 ∧
      (lexerNext x).1.text = o.1.map ch := by
  obtain ⟨y, hform, hreads⟩ := lexerNext_form x
  have hyr := hreads source hx
  generalize lexerNext x = r at *
  cases hform with
  | eof hr hi => exact ((by decide : ¬ lkEof.isOperator = true) hop).elim
  | fake hr hi => exact absurd ⟨rfl, rfl⟩ hfake
  | token hr hblank hline hcomment h =>
      obtain ⟨o, hlong, hkind, htext, hstart⟩ := h.longest hop hfake
      rw [hyr.rest_eq] at hlong
      exact ⟨o, hstart ▸ hlong, hkind, htext⟩

/-- Every operator lexeme of a run is the longest one. -/
theorem lexAll_longest {source : Bytes} {x : Lexer} (hx : x.Reads source) :
    ∀ l ∈ lexAll x, l.kind.isOperator = true → ¬ l.fake →
      ∃ o, Longest (source.drop l.start) o ∧ l.kind = o.2 ∧ l.text = o.1.map ch := by
  apply lexAll_forall (I := fun x => x.Reads source)
    (P := fun l => l.kind.isOperator = true → ¬ l.fake →
      ∃ o, Longest (source.drop l.start) o ∧ l.kind = o.2 ∧ l.text = o.1.map ch)
  · intro x hx
    exact ⟨lexerNext_longest hx, Or.inr (lexerNext_reads hx)⟩
  · exact hx

/-! ## The whole source -/

/-- Calling `lexer_next` over and over reaches the end or an error within `2n + 2` calls on a
source of `n` bytes, no call reads outside the source, the lexemes lie in their order with nothing
but blanks and comments between, no semicolon is inserted twice in a place, and operators are the
longest there are. -/
theorem lexing_covers (source : Bytes) :
    (lexAll (lexerNew source)).length ≤ 2 * source.length + 2 ∧
      (∃ l, (lexAll (lexerNew source)).getLast? = some l ∧ l.final) ∧
      Scanner.lexN source (2 * source.length + 2) Scanner.lexerNew =
        some ((lexAll (lexerNew source)).map Lexeme.mark) ∧
      InOrder source 0 ((lexAll (lexerNew source)).filter Lexeme.solid) ∧
      (lexAll (lexerNew source)).IsChain NoTwin ∧
      ∀ l ∈ lexAll (lexerNew source), l.kind.isOperator = true → ¬ l.fake →
        ∃ o, Longest (source.drop l.start) o ∧ l.kind = o.2 ∧ l.text = o.1.map ch := by
  have hx := Lexer.reads_new source
  refine ⟨lexAll_length_le _, lexAll_ends _, ?_, lexAll_inOrder hx, lexAll_noTwin _,
    lexAll_longest hx⟩
  exact Scanner.lexN_eq hx _

end Calx
