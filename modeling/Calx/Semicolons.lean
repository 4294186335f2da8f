import Calx.Levels
import Calx.ParseSound
import Calx.Quoted

/-!
# Inserted semicolons

In a source that `parse` accepts, the lexer pushes a brace at the level of the
role in which the parser consumes it, and inserts semicolons just where the
innermost open bracket is a block.

## Implementation notes

The semicolons at one offset are counted along the turns of the lexer. Behind
an inserted semicolon the flag is set and the cursor has not moved, so that
the next turn passes the place without another one.
-/

namespace Calx

open LexemeKind

/-! ## Turns of the lexer -/

theorem insertSemicolon_iff (x : Lexer) :
    (insertSemicolon x).1 = true ↔
      x.levelStack.isExprContext = false ∧ x.insertedSemicolonFlag = false := by
  cases h1 : x.levelStack.isExprContext <;> cases h2 : x.insertedSemicolonFlag <;>
    simp [insertSemicolon, h1, h2]

/-- A state of the lexer in a run over `source`. -/
structure Lexer.Ready (source : Bytes) (x : Lexer) : Prop where
  reads : x.Reads source
  levels : x.levelStack.Consistent
  fresh : x.insertedSemicolonFlag = true → x.Inserted

namespace Lexer

variable {source : Bytes} {x y : Lexer} {r : Lexeme × Lexer} {c : UInt8} {s : Bytes}

/-- The flag is false unless a semicolon has just been inserted. -/
theorem Ready.flag (hx : x.Ready source) (hr : x.rest = c :: s) (hbrace : c ≠ ch '}')
    (hline : c ≠ ch '\n') : x.insertedSemicolonFlag = false := by
  by_contra hflag
  rcases (hx.fresh (by simpa using hflag)).place with hn | ⟨t, ht⟩ | ⟨t, ht⟩
  · simp [hn] at hr
  · rw [ht] at hr
    exact hline (List.cons.inj hr).1.symm
  · rw [ht] at hr
    exact hbrace (List.cons.inj hr).1.symm

/-- Where no semicolon is inserted, the flag is false afterwards. -/
theorem Ready.flag_insertSemicolon (hx : x.Ready source) (hi : (insertSemicolon x).1 = false) :
    (insertSemicolon x).2.insertedSemicolonFlag = false := by
  cases hcontext : x.levelStack.isExprContext with
  | true =>
      have hflag : x.insertedSemicolonFlag = false := by
        by_contra hflag
        have := (hx.fresh (by simpa using hflag)).context
        simp [hcontext] at this
      simp [insertSemicolon, hcontext, hflag]
  | false => cases hflag : x.insertedSemicolonFlag <;> simp_all [insertSemicolon]

/-- A turn that goes on. -/
theorem Ready.go (hx : x.Ready source) (h : lexerTurn x = .inr y) :
    y.Ready source ∧ y.levelStack = x.levelStack ∧ y.insertedSemicolonFlag = false := by
  have hreads := lexerTurn_reads h hx.reads
  have hform := lexerTurn_form x
  rw [h] at hform
  have hflag : y.levelStack = x.levelStack ∧ y.insertedSemicolonFlag = false := by
    cases hform with
    | blank hr hc =>
        refine ⟨rfl, hx.flag hr ?_ ?_⟩
        · rintro rfl
          revert hc
          decide
        · rintro rfl
          revert hc
          decide
    | line hr hi => exact ⟨(insertSemicolon_fields x).2.2.2.2, hx.flag_insertSemicolon hi⟩
    | comment hr => exact ⟨rfl, hx.flag hr (by decide) (by decide)⟩
  refine ⟨⟨hreads, ?_, ?_⟩, hflag⟩
  · rw [hflag.1]
    exact hx.levels
  · simp [hflag.2]

theorem Reads.byte (hx : x.Reads source) (n : Nat) : source[x.cur + n]? = x.rest[n]? := by
  rw [hx.rest_eq, List.getElem?_drop]

/-- The only line break that a turn passes stands at the cursor, where no semicolon is due. -/
theorem go_line (hx : x.Reads source) (h : lexerTurn x = .inr y) {i : Nat}
    (hi : x.cur ≤ i) (hlt : i < y.cur) (hbreak : source[i]? = some (ch '\n')) :
    i = x.cur ∧ (insertSemicolon x).1 = false := by
  obtain ⟨n, rfl⟩ := Nat.exists_eq_add_of_le hi
  rw [hx.byte] at hbreak
  have hform := lexerTurn_form x
  rw [h] at hform
  cases hform with
  | @blank c s hr hc =>
      have hn : n = 0 := by
        simp only [Lexer.advance] at hlt
        omega
      rw [hn, hr, List.getElem?_cons_zero, Option.some.injEq] at hbreak
      rw [hbreak] at hc
      exact absurd hc (by decide)
  | line hr hi =>
      have hn : n = 0 := by
        simp only [passLine, Lexer.advance, insertSemicolon_fields] at hlt
        omega
      exact ⟨by omega, hi⟩
  | @comment s hr =>
      have hlen : n < 1 + (s.takeWhile (· ≠ ch '\n')).length := by
        rw [hr, commentLen, Lexer.advance] at hlt
        simpa using hlt
      cases n with
      | zero =>
          rw [hr, List.getElem?_cons_zero, Option.some.injEq] at hbreak
          exact absurd hbreak (by decide)
      | succ n =>
          have hn : n < (s.takeWhile (· ≠ ch '\n')).length := by omega
          have hmem : (s.takeWhile (· ≠ ch '\n'))[n] ∈ s.takeWhile (· ≠ ch '\n') :=
            List.getElem_mem hn
          have hsplit : s.takeWhile (· ≠ ch '\n') ++ s.dropWhile (· ≠ ch '\n') = s :=
            List.takeWhile_append_dropWhile
          rw [hr, List.getElem?_cons_succ, ← hsplit, List.getElem?_append_left hn, List.getElem?_eq_getElem hn, Option.some.injEq] at hbreak
          rw [hbreak] at hmem
          exact absurd (List.mem_takeWhile_imp hmem) (by simp)

/-- A semicolon is inserted. -/
structure Inserts (source : Bytes) (x : Lexer) (r : Lexeme × Lexer) : Prop where
  fake : r.1.fake
  start : r.1.start = x.cur
  cur : r.2.cur = x.cur
  levels : r.2.levelStack = x.levelStack
  ready : r.2.Ready source
  inserted : r.2.Inserted
  due : (insertSemicolon x).1 = true

/-- A lexeme of the source is read. -/
structure Takes (source : Bytes) (x : Lexer) (r : Lexeme × Lexer) : Prop where
  more : ¬ r.1.final
  start : r.1.start = x.cur
  pos : 1 ≤ r.1.size
  cur : r.2.cur = x.cur + r.1.size
  text : r.1.text <+: x.rest
  levels : r.2.levelStack = levelStep x.levelStack r.1.kind
  ready : r.2.Ready source
  flag : r.2.insertedSemicolonFlag = false
  line : x.rest.head? ≠ some (ch '\n')
  brace : r.1.kind = lkRbrace → (insertSemicolon x).1 = false

/-- What the turn that ends a call does in a run over `source`. -/
inductive Stops (source : Bytes) (x : Lexer) : Lexeme × Lexer → Prop
  | eof {r : Lexeme × Lexer} (hr : x.rest = []) (hk : r.1.kind = lkEof)
      (hi : (insertSemicolon x).1 = false) (hl : r.2.levelStack = x.levelStack) : Stops source x r
  | error {r : Lexeme × Lexer} (hk : r.1.kind = lkError) : Stops source x r
  | inserts {r : Lexeme × Lexer} (h : Inserts source x r) : Stops source x r
  | takes {r : Lexeme × Lexer} (h : Takes source x r) : Stops source x r

theorem Ready.inserts (hx : x.Ready source) (hi : (insertSemicolon x).1 = true)
    (hplace : x.rest = [] ∨ (∃ s, x.rest = ch '\n' :: s) ∨ ∃ s, x.rest = ch '}' :: s) :
    Inserts source x (fakeSemicolon (insertSemicolon x).2) := by
  have hins := inserted_fakeSemicolon hi hplace
  obtain ⟨hrest, hcur, -, -, hlevels⟩ := insertSemicolon_fields x
  constructor
  · exact ⟨rfl, rfl⟩
  · exact hcur
  · exact hcur
  · exact hlevels
  · refine ⟨hx.reads.congr hcur hrest, ?_, fun _ => hins⟩
    have : (fakeSemicolon (insertSemicolon x).2).2.levelStack = x.levelStack := hlevels
    rw [this]
    exact hx.levels
  · exact hins
  · exact hi

theorem token_brace (x : Lexer) :
    token x (ch '}') =
      if (Calx.insertSemicolon x).1 then fakeSemicolon (Calx.insertSemicolon x).2
      else closeBracket (Calx.insertSemicolon x).2 lkRbrace := by
  simp +decide [token]

theorem lexerTurn_brace (hr : x.rest = ch '}' :: s) :
    lexerTurn x = .inl (token x (ch '}')) := by
  have hblank : ¬ (ch '}' = ch ' ' ∨ ch '}' = ch '\t') := by decide
  have hline : ch '}' ≠ ch '\n' := by decide
  have hcomment : ch '}' ≠ ch '#' := by decide
  rw [lexerTurn, hr]
  simp only [if_neg hblank, if_neg hline, if_neg hcomment]

/-- The turn that ends a call. -/
theorem Ready.stops (hx : x.Ready source) (h : lexerTurn x = .inl r) : Stops source x r := by
  have hreads := (lexerTurn_span h).reads hx.reads
  cases lexerTurn_stop h with
  | eof hr hi => exact .eof hr rfl hi (insertSemicolon_fields x).2.2.2.2
  | fake hr hi => exact .inserts (hx.inserts hi (hr.imp_right Or.inl))
  | @token c s _ hr hline hcase =>
      cases hcase with
      | fake hc hi => exact .inserts (hx.inserts hi (Or.inr (Or.inr ⟨s, hc ▸ hr⟩)))
      | error msg skip size => exact .error rfl
      | @token kind size heof herr hpos hle hsemi hrb =>
          have hsize : (makeLexemeAdvance (tokenState x c kind) kind size).1.size = size :=
            List.length_take_of_le hle
          -- no semicolon was due at a brace, or this turn would have inserted it
          have hdue : kind = lkRbrace → (Calx.insertSemicolon x).1 = false := by
            intro hk
            rw [hrb.mp hk] at hr
            by_contra hi
            rw [lexerTurn_brace hr, token_brace, if_pos (by simpa using hi), Sum.inl.injEq] at h
            have := congrArg (fun r => r.1.kind) h
            simp [fakeSemicolon, makeLexemeAdvance, hk] at this
          have hflag : (tokenState x c kind).insertedSemicolonFlag = false := by
            by_cases hc : c = ch '}'
            · rw [tokenState, hc]
              exact hx.flag_insertSemicolon (hdue (hrb.mpr hc))
            · rw [tokenState]
              simp only [if_neg hc]
              exact hx.flag hr hc hline
          apply Stops.takes
          constructor
          · exact not_or.mpr ⟨heof, herr⟩
          · rfl
          · rwa [hsize]
          · rw [hsize]
            rfl
          · exact List.take_prefix _ _
          · rfl
          · exact ⟨hreads, hx.levels.step kind, fun hf => absurd (hflag.symm.trans hf) (by simp)⟩
          · exact hflag
          · rw [hr]
            simpa using hline
          · exact hdue

end Lexer

/-! ## Runs -/

instance Lexeme.decidableFake (l : Lexeme) : Decidable l.fake :=
  inferInstanceAs (Decidable (_ ∧ _))

/-- The number of semicolons that are inserted at offset `i`. -/
def fakesAt (ls : List Lexeme) (i : Nat) : Nat := ls.countP fun l => l.fake ∧ l.start = i

/-- The places where a semicolon may be inserted: line breaks, closing braces and the end. -/
inductive Ending (source : Bytes) (ls : List Lexeme) (i : Nat) : Prop
  | line (h : source[i]? = some (ch '\n'))
  | brace {l : Lexeme} (hl : l ∈ ls) (hk : l.kind = lkRbrace) (hi : l.start = i)
  | eof (h : i = source.length)

/-- The level stack at offset `i`. -/
def levelsAt (s : LevelStack) (ls : List Lexeme) (i : Nat) : LevelStack :=
  levelsAfter s (ls.takeWhile (·.start < i))

/-- The number of semicolons due at offset `i`. -/
def dueAt (s : LevelStack) (ls : List Lexeme) (i : Nat) : Nat :=
  if (levelsAt s ls i).isExprContext then 0 else 1

variable {source : Bytes} {x y : Lexer} {l : Lexeme} {ls : List Lexeme} {s : LevelStack} {i : Nat}

theorem fakesAt_eq_zero (h : ∀ l ∈ ls, i < l.start) : fakesAt ls i = 0 := by
  rw [fakesAt, List.countP_eq_zero]
  intro l hl
  have := h l hl
  simp only [decide_eq_true_eq, not_and]
  intro _
  omega

theorem fakesAt_cons (h : ¬ (l.fake ∧ l.start = i)) : fakesAt (l :: ls) i = fakesAt ls i := by
  simp [fakesAt, h]

theorem dueAt_front (h : ∀ l ∈ ls, i ≤ l.start) :
    dueAt s ls i = if s.isExprContext then 0 else 1 := by
  have hnil : ls.takeWhile (·.start < i) = [] := by
    cases ls with
    | nil => rfl
    | cons l ls =>
        have := h l List.mem_cons_self
        exact List.takeWhile_cons_of_neg (by simpa using this)
  rw [dueAt, levelsAt, hnil]
  rfl

theorem dueAt_cons (h : l.start < i) : dueAt s (l :: ls) i = dueAt (levelStep s l.kind) ls i := by
  have htake : (l :: ls).takeWhile (·.start < i) = l :: ls.takeWhile (·.start < i) :=
    List.takeWhile_cons_of_pos (by simpa using h)
  rw [dueAt, levelsAt, htake]
  rfl

/-- Where no semicolon was inserted, none is due or it has been inserted before. -/
theorem due_of_not_inserted (h : (insertSemicolon x).1 = false) (hls : ∀ l ∈ ls, i ≤ l.start)
    (hi : i = x.cur) :
    0 = if x.insertedSemicolonFlag = true ∧ i = x.cur then 0 else dueAt x.levelStack ls i := by
  rw [dueAt_front hls]
  have := (insertSemicolon_iff x).not.mp (by simp [h])
  cases h1 : x.levelStack.isExprContext <;> cases h2 : x.insertedSemicolonFlag <;> simp_all

/-- What a run from `x` inserts at every place, and that its braces lie apart. -/
structure Exact (source : Bytes) (x : Lexer) (ls : List Lexeme) : Prop where
  starts : ∀ l ∈ ls, x.cur ≤ l.start
  apart : ls.Pairwise fun a b => a.kind = lkLbrace → a.start < b.start
  fakes : (∀ l ∈ ls, l.kind ≠ lkError ∧ ch '\n' ∉ l.text) →
    ∀ i, x.cur ≤ i → Ending source ls i →
      fakesAt ls i =
        if x.insertedSemicolonFlag = true ∧ i = x.cur then 0 else dueAt x.levelStack ls i

theorem Exact.go (hx : x.Ready source) (h : lexerTurn x = .inr y) (ih : Exact source y ls) :
    Exact source x ls := by
  have hlt := (lexerTurn_skips h).2
  obtain ⟨hy, hlevels, hflag⟩ := hx.go h
  refine ⟨fun l hl => Nat.le_trans (Nat.le_of_lt hlt) (ih.starts l hl), ih.apart,
    fun hls i hi hend => ?_⟩
  by_cases hiy : i < y.cur
  · have hstarts : ∀ l ∈ ls, i < l.start := fun l hl => Nat.lt_of_lt_of_le hiy (ih.starts l hl)
    rw [fakesAt_eq_zero hstarts]
    cases hend with
    | line hbreak =>
        obtain ⟨heq, hdue⟩ := Lexer.go_line hx.reads h hi hiy hbreak
        exact due_of_not_inserted hdue (fun l hl => Nat.le_of_lt (hstarts l hl)) heq
    | brace hl hk hstart => exact absurd (hstarts _ hl) (by omega)
    | eof heq => exact absurd hy.reads.le (by omega)
  · rw [ih.fakes hls i (Nat.le_of_not_lt hiy) hend, hlevels]
    have hne : ¬ i = x.cur := by omega
    simp [hflag, hne]

theorem Exact.last {r : Lexeme × Lexer} (hx : x.Ready source) (h : lexerTurn x = .inl r)
    (hf : r.1.final) : Exact source x [r.1] := by
  have hstart : ∀ l ∈ [r.1], x.cur ≤ l.start := by
    intro l hl
    rw [List.mem_singleton.mp hl]
    exact (lexerTurn_cursor h).1
  refine ⟨hstart, List.pairwise_singleton _ _, fun hls i hi hend => ?_⟩
  cases hx.stops h with
  | eof hr hk hdue hl =>
      have hlen := hx.reads.length_rest
      rw [hr, List.length_nil, Nat.add_zero] at hlen
      have heq : i = x.cur := by
        cases hend with
        | line hbreak =>
            have := (List.getElem?_eq_some_iff.mp hbreak).1
            omega
        | brace hl hk' hstart =>
            rw [List.mem_singleton.mp hl, hk] at hk'
            exact absurd hk' (by decide)
        | eof heq => omega
      have hnot : ¬ (r.1.fake ∧ r.1.start = i) := fun hfake => by
        have := hk.symm.trans hfake.1.1
        exact absurd this (by decide)
      rw [fakesAt_cons hnot]
      apply due_of_not_inserted hdue _ heq
      rwa [heq]
  | error hk => exact absurd hk (hls r.1 (List.mem_singleton_self _)).1
  | inserts h' =>
      rcases hf with hf | hf
      all_goals exact absurd (hf.symm.trans h'.fake.1) (by decide)
  | takes h' => exact absurd hf h'.more

/-- A semicolon is inserted where one is due, and the flag keeps it the only one. -/
theorem Exact.inserts {r : Lexeme × Lexer} (h : Lexer.Inserts source x r)
    (ih : Exact source r.2 ls) : Exact source x (r.1 :: ls) := by
  have hstarts : ∀ l ∈ r.1 :: ls, x.cur ≤ l.start :=
    List.forall_mem_cons.mpr ⟨h.start.ge, fun l hl => Nat.le_trans h.cur.ge (ih.starts l hl)⟩
  refine ⟨hstarts, List.pairwise_cons.mpr ⟨fun b hb hk => ?_, ih.apart⟩, fun hls i hi hend => ?_⟩
  · exact absurd (hk.symm.trans h.fake.1) (by decide)
  · rw [List.forall_mem_cons] at hls
    have hend' : Ending source ls i := by
      cases hend with
      | line hbreak => exact .line hbreak
      | brace hl hk hstart =>
          rcases List.mem_cons.mp hl with rfl | hl
          · exact absurd (hk.symm.trans h.fake.1) (by decide)
          · exact .brace hl hk hstart
      | eof heq => exact .eof heq
    have hrest := ih.fakes hls.2 i (h.cur ▸ hi) hend'
    obtain ⟨hexpr, hflag⟩ := (insertSemicolon_iff x).mp h.due
    by_cases heq : i = x.cur
    · have hfirst : fakesAt (r.1 :: ls) i = fakesAt ls i + 1 := by
        simp [fakesAt, h.fake, h.start, heq]
      rw [hfirst, hrest, if_pos ⟨h.inserted.flag, heq.trans h.cur.symm⟩,
        if_neg (by simp [hflag]), dueAt_front (by rwa [heq]), hexpr]
      rfl
    · have hlt : r.1.start < i := by
        rw [h.start]
        omega
      have hstep : levelStep x.levelStack r.1.kind = x.levelStack := by
        rw [h.fake.1]
        rfl
      rw [fakesAt_cons (by omega), hrest, h.cur, dueAt_cons hlt, h.levels, hstep]
      simp [heq]

/-- Inside a lexeme of the source no semicolon is inserted, and none is due. -/
theorem Exact.takes {r : Lexeme × Lexer} (hx : x.Ready source) (h : Lexer.Takes source x r)
    (ih : Exact source r.2 ls) : Exact source x (r.1 :: ls) := by
  have hsize := h.pos
  have hcur := h.cur
  have hcursor : x.cur < r.2.cur := by omega
  have hstarts : ∀ l ∈ r.1 :: ls, x.cur ≤ l.start :=
    List.forall_mem_cons.mpr ⟨h.start.ge,
      fun l hl => Nat.le_trans (Nat.le_of_lt hcursor) (ih.starts l hl)⟩
  refine ⟨hstarts, List.pairwise_cons.mpr ⟨fun b hb hk => ?_, ih.apart⟩, fun hls i hi hend => ?_⟩
  · rw [h.start]
    exact Nat.lt_of_lt_of_le hcursor (ih.starts b hb)
  · rw [List.forall_mem_cons] at hls
    have hnot : ¬ (r.1.fake ∧ r.1.start = i) := fun hfake => by
      have := hfake.1.2
      omega
    by_cases hir : i < r.2.cur
    · have hls' : ∀ l ∈ ls, i < l.start := fun l hl => Nat.lt_of_lt_of_le hir (ih.starts l hl)
      rw [fakesAt_cons hnot, fakesAt_eq_zero hls']
      cases hend with
      | line hbreak =>
          -- the byte belongs to the lexeme
          obtain ⟨n, rfl⟩ := Nat.exists_eq_add_of_le hi
          rw [hx.reads.byte] at hbreak
          have hn : n < r.1.text.length := by
            have : r.1.size = r.1.text.length := rfl
            omega
          have hbyte := h.text.getElem hn
          rw [List.getElem?_eq_getElem (Nat.lt_of_lt_of_le hn h.text.length_le),
            Option.some.injEq, ← hbyte] at hbreak
          exact absurd (hbreak ▸ List.getElem_mem hn) hls.1.2
      | brace hl hk hstart =>
          rcases List.mem_cons.mp hl with rfl | hl
          · apply due_of_not_inserted (h.brace hk)
            · intro l hl
              rcases List.mem_cons.mp hl with rfl | hl
              · exact hstart.ge
              · exact Nat.le_of_lt (hls' l hl)
            · rw [← hstart, h.start]
          · exact absurd (hls' _ hl) (by omega)
      | eof heq => exact absurd h.ready.reads.le (by omega)
    · have hend' : Ending source ls i := by
        cases hend with
        | line hbreak => exact .line hbreak
        | brace hl hk hstart =>
            rcases List.mem_cons.mp hl with rfl | hl
            · have := h.start
              omega
            · exact .brace hl hk hstart
        | eof heq => exact .eof heq
      have hlt : r.1.start < i := by
        have := h.start
        omega
      have hne : ¬ i = x.cur := by omega
      rw [fakesAt_cons hnot, ih.fakes hls.2 i (Nat.le_of_not_lt hir) hend', dueAt_cons hlt,
        h.levels]
      simp [h.flag, hne]

theorem lexAll_exact (hx : x.Ready source) : Exact source x (lexAll x) := by
  revert hx
  apply lexAll_turns (P := fun x ls => x.Ready source → Exact source x ls)
  · intro x r h hf hx
    exact .last hx h hf
  · intro x r h hf ih hx
    cases hx.stops h with
    | eof hr hk hi hl => exact absurd (Or.inl hk) hf
    | error hk => exact absurd (Or.inr hk) hf
    | inserts h' => exact .inserts h' (ih h'.ready)
    | takes h' => exact .takes hx h' (ih h'.ready)
  · intro x y ls h ih hx
    exact .go hx h (ih (hx.go h).1)

theorem Ending.cons (h : Ending source ls i) : Ending source (l :: ls) i := by
  cases h with
  | line hbreak => exact .line hbreak
  | brace hl hk hi => exact .brace (List.mem_cons_of_mem _ hl) hk hi
  | eof heq => exact .eof heq

/-- A brace before which a semicolon has been inserted is the next lexeme. -/
theorem Lexer.Inserted.brace (hx : x.Inserted) {t : Bytes} (hr : x.rest = ch '}' :: t) :
    (lexerNext x).1.kind = lkRbrace ∧ (lexerNext x).1.start = x.cur := by
  have hnext : lexerNext x = closeBracket (Calx.insertSemicolon x).2 lkRbrace := by
    rw [lexerNext_eq, Lexer.lexerTurn_brace hr]
    simp only [Lexer.token_brace, hx.insertSemicolon, Bool.false_eq_true, if_false]
  rw [hnext]
  exact ⟨rfl, (insertSemicolon_fields x).2.1⟩

/-- Semicolons are inserted nowhere else. -/
theorem lexAll_ending (source : Bytes) (x : Lexer) (hx : x.Ready source) :
    ∀ l ∈ lexAll x, l.fake → Ending source (lexAll x) l.start := by
  revert hx
  apply lexAll_turns
    (P := fun x ls => x.Ready source → ∀ l ∈ ls, l.fake → Ending source ls l.start)
  · intro x r h hf hx l hl hfake
    rw [List.mem_singleton.mp hl] at hfake
    rcases hf with hk | hk
    all_goals exact absurd (hk.symm.trans hfake.1) (by decide)
  · intro x r h hf ih hx l hl hfake
    have hrest : r.2.Ready source → l ∈ lexAll r.2 → Ending source (r.1 :: lexAll r.2) l.start :=
      fun hy hl => (ih hy l hl hfake).cons
    cases hx.stops h with
    | eof hr hk hi hl => exact absurd (Or.inl hk) hf
    | error hk => exact absurd (Or.inr hk) hf
    | inserts h' =>
        rcases List.mem_cons.mp hl with rfl | hl
        · have hreads := h'.ready.reads
          rw [h'.start, ← h'.cur]
          rcases h'.inserted.place with hr | ⟨t, ht⟩ | ⟨t, ht⟩
          · apply Ending.eof
            have hlen := hreads.length_rest
            simpa [hr] using hlen
          · apply Ending.line
            have hbyte := hreads.byte 0
            simpa [ht] using hbyte
          · obtain ⟨hk, hstart⟩ := h'.inserted.brace ht
            refine Ending.cons (.brace ?_ hk hstart)
            rw [lexAll_eq]
            exact List.mem_cons_self
        · exact hrest h'.ready hl
    | takes h' =>
        rcases List.mem_cons.mp hl with rfl | hl
        · have := hfake.2
          have := h'.pos
          omega
        · exact hrest h'.ready hl
  · intro x y ls h ih hx
    exact ih (hx.go h).1

/-! ## Braces -/

/-- The lexemes of at most `n` calls of `lexer_next`, each with the lexer behind it. -/
def lexRunN : Nat → Lexer → List (Lexeme × Lexer)
  | 0, _ => []
  | n + 1, x =>
      let r := lexerNext x
      r :: if r.1.final then [] else lexRunN n r.2

/-- The lexemes of a run, each with the lexer behind it. -/
def lexRun (x : Lexer) : List (Lexeme × Lexer) := lexRunN x.bound x

/-- The opening braces of a run, with whether the lexer has pushed `LEVEL_STMT` there. -/
def lexerBraces (rs : List (Lexeme × Lexer)) : List (Nat × Bool) :=
  (rs.filter fun r => r.1.kind = lkLbrace).map fun r =>
    (r.1.start, r.2.levelStack.data.head? = some .levelStmt)

theorem lexRunN_fst (n : Nat) (x : Lexer) : (lexRunN n x).map (·.1) = lexN n x := by
  induction n generalizing x with
  | zero => rfl
  | succ n ih =>
      rw [lexRunN, lexN]
      by_cases hf : (lexerNext x).1.final
      · simp [hf]
      · simp [hf, ih]

/-- A call of `lexer_next` changes the level stack as the kind of its lexeme says. -/
theorem Lexer.Ready.next (hx : x.Ready source) (herr : (lexerNext x).1.kind ≠ lkError) :
    (lexerNext x).2.levelStack = levelStep x.levelStack (lexerNext x).1.kind ∧
      ((lexerNext x).1.final ∨ (lexerNext x).2.Ready source) := by
  revert hx herr
  apply lexerNext_rec (P := fun x r => x.Ready source → r.1.kind ≠ lkError →
    r.2.levelStack = levelStep x.levelStack r.1.kind ∧ (r.1.final ∨ r.2.Ready source))
  · intro x r h hx herr
    cases hx.stops h with
    | eof hr hk hi hl =>
        rw [hl, hk]
        exact ⟨rfl, Or.inl (Or.inl hk)⟩
    | error hk => exact absurd hk herr
    | inserts h' =>
        rw [h'.levels, h'.fake.1]
        exact ⟨rfl, Or.inr h'.ready⟩
    | takes h' => exact ⟨h'.levels, Or.inr h'.ready⟩
  · intro x y r h ih hx herr
    obtain ⟨hy, hlevels, -⟩ := hx.go h
    rw [← hlevels]
    exact ih hy herr

theorem lexRunN_braces {n : Nat} (hx : x.Ready source)
    (herr : ∀ l ∈ lexN n x, l.kind ≠ lkError) :
    lexerBraces (lexRunN n x) = braceLevels x.levelStack (lexN n x) := by
  induction n generalizing x with
  | zero => rfl
  | succ n ih =>
      rw [lexN, List.forall_mem_cons] at herr
      obtain ⟨hlevels, hready⟩ := hx.next herr.1
      have hrest : lexerBraces (if (lexerNext x).1.final then [] else lexRunN n (lexerNext x).2) =
          braceLevels (lexerNext x).2.levelStack
            (if (lexerNext x).1.final then [] else lexN n (lexerNext x).2) := by
        by_cases hf : (lexerNext x).1.final
        · rw [if_pos hf, if_pos hf]
          rfl
        · rw [if_neg hf, if_neg hf]
          rw [if_neg hf] at herr
          exact ih (hready.resolve_left hf) herr.2
      rw [lexRunN, lexN, braceLevels, ← hlevels, ← hrest]
      by_cases hk : (lexerNext x).1.kind = lkLbrace
      · simp only [lexerBraces, hk, List.filter_cons_of_pos, decide_true, List.map_cons, if_true]
      · simp only [lexerBraces, hk, List.filter_cons_of_neg, decide_false, Bool.false_eq_true,
          not_false_eq_true, if_false]

/-! ## Open brackets -/

/-- The brackets of a source, as the parser sees them. -/
inductive Bracket
  | paren
  | square
  | dict
  | block
deriving DecidableEq, Repr

/-- The level of a bracket. -/
def Bracket.level : Bracket → Level
  | .block => .levelStmt
  | _ => .levelExpr

/-- The open brackets behind one more lexeme, when the parser has consumed the braces `braces`. -/
def bracketStep (braces : List (Nat × Bool)) (bs : List Bracket) (l : Lexeme) : List Bracket :=
  match l.kind with
  | lkLparen => .paren :: bs
  | lkLbracket => .square :: bs
  | lkLbrace => (if (l.start, true) ∈ braces then .block else .dict) :: bs
  | lkRparen | lkRbracket | lkRbrace => bs.tail
  | _ => bs

/-- The innermost bracket that is open at offset `i`. -/
def innermost (braces : List (Nat × Bool)) (ls : List Lexeme) (i : Nat) : Option Bracket :=
  ((ls.takeWhile (·.start < i)).foldl (bracketStep braces) []).head?

/-- The number of semicolons to be inserted where `bracket` is the innermost open bracket. -/
def Bracket.semicolons : Option Bracket → Nat
  | none | some .block => 1
  | some _ => 0

theorem levelStackPushBlocky_data (s : LevelStack) :
    (levelStackPushBlocky s).data = .levelStmt :: s.data ∨
      (levelStackPushBlocky s).data = .levelExpr :: s.data := by
  unfold levelStackPushBlocky
  split
  · exact Or.inl rfl
  · exact Or.inr rfl

theorem levelStackPop_data (s : LevelStack) : (levelStackPop s).data = s.data.tail := by
  unfold levelStackPop
  split <;> simp_all

/-- The level stack holds the levels of the open brackets. -/
theorem bracketStep_levels {braces : List (Nat × Bool)} {bs : List Bracket}
    (h : s.data = bs.map Bracket.level)
    (hb : l.kind = lkLbrace →
      ((l.start, true) ∈ braces ↔ (levelStep s l.kind).data.head? = some .levelStmt)) :
    (levelStep s l.kind).data = (bracketStep braces bs l).map Bracket.level := by
  have hpop : (levelStackPop s).data = bs.tail.map Bracket.level := by
    rw [levelStackPop_data, h, List.map_tail]
  unfold bracketStep
  cases hk : l.kind with
  | lkLbrace =>
      have hrole := hb hk
      rw [hk, levelStep] at hrole
      rw [levelStep]
      rcases levelStackPushBlocky_data s with hd | hd
      · rw [hd] at hrole
        simp only [hd, hrole.mpr rfl, if_true, List.map_cons, ← h]
        rfl
      · rw [hd] at hrole
        have hnot : ¬ (l.start, true) ∈ braces := fun hmem => by
          have := hrole.mp hmem
          simp at this
        simp only [hd, hnot, if_false, List.map_cons, ← h]
        rfl
  | lkLparen | lkLbracket =>
      simp only [levelStep, levelStackPush, List.map_cons, ← h]
      rfl
  | lkRparen | lkRbracket | lkRbrace => exact hpop
  | _ => exact h

theorem openBrackets_levels {braces : List (Nat × Bool)} {bs : List Bracket}
    (h : s.data = bs.map Bracket.level)
    (hb : ∀ q ∈ braceLevels s ls, (q.1, true) ∈ braces ↔ q.2 = true) :
    (levelsAfter s ls).data = (ls.foldl (bracketStep braces) bs).map Bracket.level := by
  induction ls generalizing s bs with
  | nil => exact h
  | cons l ls ih =>
      rw [braceLevels] at hb
      apply ih
      · apply bracketStep_levels h
        intro hk
        have := hb (l.start, (levelStep s l.kind).data.head? = some .levelStmt) (by simp [hk])
        simpa using this
      · intro q hq
        apply hb
        split
        · exact List.mem_cons_of_mem _ hq
        · exact hq

theorem mem_braceLevels {q : Nat × Bool} (h : q ∈ braceLevels s ls) :
    ∃ l ∈ ls, l.kind = lkLbrace ∧ q.1 = l.start := by
  induction ls generalizing s with
  | nil => cases h
  | cons l ls ih =>
      rw [braceLevels] at h
      split at h
      · rename_i hk
        rcases List.mem_cons.mp h with rfl | h
        · exact ⟨l, List.mem_cons_self, hk, rfl⟩
        · obtain ⟨l', hl, hk', heq⟩ := ih h
          exact ⟨l', List.mem_cons_of_mem _ hl, hk', heq⟩
      · obtain ⟨l', hl, hk', heq⟩ := ih h
        exact ⟨l', List.mem_cons_of_mem _ hl, hk', heq⟩

/-- A brace has one role only. -/
theorem braceLevels_unique (h : ls.Pairwise fun a b => a.kind = lkLbrace → a.start < b.start) :
    ∀ q ∈ braceLevels s ls, (q.1, true) ∈ braceLevels s ls ↔ q.2 = true := by
  induction ls generalizing s with
  | nil => simp [braceLevels]
  | cons l ls ih =>
      rw [List.pairwise_cons] at h
      rw [braceLevels]
      split
      · rename_i hk
        have hlater : ∀ q ∈ braceLevels (levelStep s l.kind) ls, q.1 ≠ l.start := by
          intro q hq heq
          obtain ⟨l', hl, -, heq'⟩ := mem_braceLevels hq
          have := h.1 l' hl hk
          omega
        intro q hq
        rcases List.mem_cons.mp hq with rfl | hq
        · have hnot : (l.start, true) ∉ braceLevels (levelStep s l.kind) ls :=
            fun hmem => hlater _ hmem rfl
          simp [hnot, eq_comm]
        · rw [← ih h.2 q hq]
          simp [hlater q hq]
      · exact ih h.2

/-- The semicolons due at an offset are those of the innermost open bracket. -/
theorem dueAt_innermost {braces : List (Nat × Bool)}
    (hb : ∀ q ∈ braceLevels levelStackNew ls, (q.1, true) ∈ braces ↔ q.2 = true) (i : Nat) :
    dueAt levelStackNew ls i = Bracket.semicolons (innermost braces ls i) := by
  have htake : ∀ q ∈ braceLevels levelStackNew (ls.takeWhile (·.start < i)),
      (q.1, true) ∈ braces ↔ q.2 = true := by
    intro q hq
    apply hb
    rw [← List.takeWhile_append_dropWhile (p := (·.start < i)) (l := ls), braceLevels_append]
    exact List.mem_append_left _ hq
  have hempty : levelStackNew.data = ([] : List Bracket).map Bracket.level := rfl
  have hlevels := openBrackets_levels hempty htake
  have hcontext := levelsAfter_consistent consistent_new (ls.takeWhile (·.start < i))
  rw [dueAt, levelsAt, hcontext, hlevels, innermost]
  cases (ls.takeWhile (·.start < i)).foldl (bracketStep braces) [] with
  | nil => rfl
  | cons b bs => cases b <;> rfl

/-! ## Accepted sources -/

theorem ready_new (source : Bytes) : (lexerNew source).Ready source :=
  ⟨Lexer.reads_new source, consistent_new, fun h => by cases h⟩

section

variable [DeciBase]

/-- The lexemes of a tree hold no error and no line break. -/
theorem lexemes_unbroken {body : Stmts} {e : Lexeme} {inLoop : Bool} (hwf : body.Wf inLoop)
    (he : e.kind = lkEof) (htoks : lexAll (lexerNew source) = body.toks ++ [e]) :
    ∀ l ∈ lexAll (lexerNew source), l.kind ≠ lkError ∧ ch '\n' ∉ l.text := by
  have hleads := body.leads consistent_new rfl hwf
  have hlast := lexAll_dropLast (lexerNew source)
  rw [htoks, List.dropLast_concat] at hlast
  intro l hl
  have htext := lexAll_textOf _ l hl
  rw [htoks, List.mem_append, List.mem_singleton] at hl
  have herr : l.kind ≠ lkError := by
    rcases hl with hl | rfl
    · exact fun hk => hlast l hl (Or.inr hk)
    · simp [he]
  refine ⟨herr, htext.of_value herr fun hk => ?_⟩
  rcases hl with hl | rfl
  · exact hleads.strings l hl hk
  · exact absurd (he.symm.trans hk) (by decide)

/-- The lexer and the parser agree on every brace of an accepted source, and semicolons are inserted
once before each line break, each closing brace and the end of the source where the innermost
open bracket is a block or there is none, and nowhere else. -/
theorem semicolons_exact {globals g : List Bytes} {origin : String} {c : Chunk}
    (h : parse globals source origin = .ok (c, g)) :
    ∃ p, parseState (parseFuel source) globals source = .ok p ∧
      lexerBraces (lexRun (lexerNew source)) = p.braces ∧
      (∀ i, Ending source (lexAll (lexerNew source)) i →
        fakesAt (lexAll (lexerNew source)) i =
          Bracket.semicolons (innermost p.braces (lexAll (lexerNew source)) i)) ∧
      ∀ l ∈ lexAll (lexerNew source), l.fake → Ending source (lexAll (lexerNew source)) l.start := by
  unfold parse at h
  obtain ⟨p, hp, -⟩ := bind_ok h
  obtain ⟨body, hf⟩ := parse_sound hp
  obtain ⟨e, he, htoks⟩ := hf.toks
  have hready := ready_new source
  have hexact := lexAll_exact hready
  have hlexemes := lexemes_unbroken hf.wf he htoks
  have hbraces : braceLevels levelStackNew (lexAll (lexerNew source)) = p.braces := by
    have hleads := body.leads consistent_new rfl hf.wf
    have hlast : braceLevels levelStackNew [e] = [] := by simp [braceLevels, he]
    rw [htoks, braceLevels_append, hleads.levels, hleads.braces, hlast, List.append_nil, hf.braces]
  have hunique := braceLevels_unique (s := levelStackNew) hexact.apart
  rw [hbraces] at hunique
  refine ⟨p, hp, ?_, fun i hi => ?_, lexAll_ending source _ hready⟩
  · rw [← hbraces]
    exact lexRunN_braces hready fun l hl => (hlexemes l hl).1
  · rw [hexact.fakes hlexemes i (Nat.zero_le i) hi, ← dueAt_innermost (hbraces ▸ hunique)]
    simp [lexerNew]

end

/-- A block that ends at the end of its line, and a dict over two lines in a call. -/
def bracesSource : Bytes := bytesOf "if (a) \x7bb\x7d\nf(\x7b\n\x7d)"

/-- `semicolons_exact` at `bracesSource`. -/
theorem semicolons_exact_braces :
    ∃ c g p, @parse deciBase64 [] bracesSource "" = .ok (c, g) ∧
      @parseState deciBase64 (parseFuel bracesSource) [] bracesSource = .ok p ∧
      lexerBraces (lexRun (lexerNew bracesSource)) = p.braces := by
  obtain ⟨c, g, hp⟩ : ∃ c g, @parse deciBase64 [] bracesSource "" = .ok (c, g) := ⟨_, _, rfl⟩
  obtain ⟨p, hs, hb, -⟩ := @semicolons_exact _ deciBase64 _ _ _ _ hp
  exact ⟨c, g, p, hp, hs, hb⟩

end Calx
