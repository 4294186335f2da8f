import Calx.ParseSound

/-!
# The functions of a program

Where the functions of a program stand in its code: behind every `OP_FUNCTION`
instruction follows the code of one function of the tree, as long as the
function's shape says, and an instruction belongs to the innermost function
around it.
-/

namespace Calx

open LexemeKind Instr

/-! ## Positions in blocks -/

section

variable {P : FunInfo → List Item → Prop} {l : List Item}

theorem nest_nest (l : List Item) : nest (nest l) = nest l := by
  simp [nest, Function.comp_def]

theorem nest_drop (n : Nat) (l : List Item) : (nest l).drop n = nest (l.drop n) := by
  simp [nest]

theorem nest_getElem? (l : List Item) (i : Nat) :
    (nest l)[i]? = (l[i]?).map fun r => { r with own := false } := by
  simp [nest]

/-- The code of a function follows its `OP_FUNCTION` item. -/
theorem Blocked.at_function (h : Blocked P l) {i : Nat} {r : Item} {f : FunInfo}
    (hi : l[i]? = some r) (hf : r.instr = .function f) :
    ∃ code B, P f code ∧ Blocked P code ∧ f.offset = code.length + 1 ∧
      l.drop (i + 1) = nest code ++ B := by
  induction h generalizing i r with
  | nil => simp at hi
  | @own r₀ rs ho hne _ ih =>
      cases i with
      | zero =>
          obtain rfl := Option.some.inj hi
          exact absurd hf (hne f)
      | succ i => exact ih hi hf
  | @function g line code rs hp hc hlen hcl _ ihc ih =>
      cases i with
      | zero =>
          obtain rfl := Option.some.inj hi
          obtain rfl : g = f := by simpa using hf
          exact ⟨code, rs, hp, hc, hlen, rfl⟩
      | succ i =>
          rw [List.getElem?_cons_succ] at hi
          rw [List.drop_succ_cons]
          by_cases hlt : i < code.length
          · rw [List.getElem?_append_left (by simpa using hlt), nest_getElem?] at hi
            obtain ⟨r', hr', rfl⟩ := Option.map_eq_some_iff.mp hi
            obtain ⟨code', B, hp', hc', hlen', hd⟩ := ihc hr' hf
            refine ⟨code', nest B ++ rs, hp', hc', hlen', ?_⟩
            have hn : nest (nest code' ++ B) = nest code' ++ nest B := by
              rw [← nest_nest code']
              simp [nest]
            rw [List.drop_append_of_le_length (by simpa using Nat.succ_le_of_lt hlt), nest_drop, hd, hn,
              List.append_assoc]
          · have hge : (nest code).length ≤ i := by simpa using hlt
            rw [List.getElem?_append_right hge] at hi
            obtain ⟨code', B, hp', hc', hlen', hd⟩ := ih hi hf
            refine ⟨code', B, hp', hc', hlen', ?_⟩
            rw [List.drop_append, List.drop_eq_nil_of_le (by omega), List.nil_append, ← hd]
            congr 1
            omega

/-- A function ends before the code around it does. -/
theorem Blocked.function_le (h : Blocked P l) {i : Nat} {r : Item} {f : FunInfo}
    (hi : l[i]? = some r) (hf : r.instr = .function f) : i + f.offset ≤ l.length := by
  obtain ⟨code, B, -, -, hlen, hd⟩ := h.at_function hi hf
  have h1 := congrArg List.length hd
  have h2 := (List.getElem?_eq_some_iff.mp hi).1
  simp only [List.length_drop, List.length_append, nest_length] at h1
  omega

/-- An item belongs to the function at hand iff it stands in no function nested in it. -/
theorem Blocked.own_iff (h : Blocked P l) {k : Nat} {r : Item} (hk : l[k]? = some r) :
    r.own = true ↔ ∀ k' < k, ∀ r' f, l[k']? = some r' → r'.instr = .function f →
      k' + f.offset ≤ k := by
  induction h generalizing k r with
  | nil => simp at hk
  | @own r₀ rs ho hne _ ih =>
      cases k with
      | zero =>
          obtain rfl := Option.some.inj hk
          simp [ho]
      | succ k =>
          rw [ih hk]
          constructor
          · rintro hall (_ | k') hlt r' f hr' hf
            · obtain rfl := Option.some.inj hr'
              exact absurd hf (hne f)
            · have := hall k' (by omega) r' f hr' hf
              omega
          · intro hall k' hlt r' f hr' hf
            have := hall (k' + 1) (by omega) r' f hr' hf
            omega
  | @function g line code rs hp hc hlen hcl _ ihc ih =>
      cases k with
      | zero =>
          obtain rfl := Option.some.inj hk
          simp
      | succ k =>
          rw [List.getElem?_cons_succ] at hk
          by_cases hlt : k < code.length
          · rw [List.getElem?_append_left (by simpa using hlt), nest_getElem?] at hk
            obtain ⟨r', -, rfl⟩ := Option.map_eq_some_iff.mp hk
            simp only [Bool.false_eq_true, false_iff, not_forall]
            refine ⟨0, by omega, _, g, rfl, rfl, by omega⟩
          · have hge : (nest code).length ≤ k := by simpa using hlt
            rw [List.getElem?_append_right hge] at hk
            rw [ih hk]
            simp only [nest_length] at hge ⊢
            constructor
            · rintro hall (_ | k') hlt' r' f hr' hf
              · obtain rfl := Option.some.inj hr'
                obtain rfl : g = f := by simpa using hf
                omega
              · rw [List.getElem?_cons_succ] at hr'
                by_cases hin : k' < code.length
                · rw [List.getElem?_append_left (by simpa using hin), nest_getElem?] at hr'
                  obtain ⟨r₁, hr₁, rfl⟩ := Option.map_eq_some_iff.mp hr'
                  have := hc.function_le hr₁ hf
                  omega
                · rw [List.getElem?_append_right (by simpa using hin), nest_length] at hr'
                  have := hall (k' - code.length) (by omega) r' f hr' hf
                  omega
            · intro hall k' hlt' r' f hr' hf
              have := hall (k' + code.length + 1) (by omega) r' f (by
                rw [List.getElem?_cons_succ, List.getElem?_append_right (by simp)]
                simpa using hr') hf
              omega

/-- After an item of the function at hand comes another one. -/
theorem Blocked.next_own (h : Blocked P l) {k : Nat} {r r' : Item} (hk : l[k]? = some r)
    (ho : r.own = true) (hne : ∀ f, r.instr ≠ .function f) (hk' : l[k + 1]? = some r') :
    r'.own = true := by
  rw [h.own_iff hk']
  intro j hj q f hq hf
  obtain hlt | rfl := Nat.lt_succ_iff_lt_or_eq.mp hj
  · have := (h.own_iff hk).mp ho j hlt q f hq hf
    omega
  · rw [hk] at hq
    obtain rfl := Option.some.inj hq
    exact absurd hf (hne f)

/-- After the code of a nested function comes an item of the function at hand. -/
theorem Blocked.skip_own (h : Blocked P l) {k : Nat} {r r' : Item} {f : FunInfo}
    (hk : l[k]? = some r) (ho : r.own = true) (hf : r.instr = .function f)
    (hk' : l[k + f.offset]? = some r') : r'.own = true := by
  rw [h.own_iff hk']
  intro j hj q g hq hg
  obtain ⟨code, B, -, hc, hlen, hd⟩ := h.at_function hk hf
  rcases Nat.lt_trichotomy j k with hlt | rfl | hgt
  · have := (h.own_iff hk).mp ho j hlt q g hq hg
    omega
  · rw [hk] at hq
    obtain rfl := Option.some.inj hq
    obtain rfl : f = g := by simpa [hf] using hg
    exact le_rfl
  · have hin : (nest code)[j - (k + 1)]? = some q := by
      have : (l.drop (k + 1))[j - (k + 1)]? = some q := by
        rw [List.getElem?_drop, show k + 1 + (j - (k + 1)) = j by omega, hq]
      rwa [hd, List.getElem?_append_left (by rw [nest_length]; omega)] at this
    rw [nest_getElem?] at hin
    obtain ⟨q', hq', rfl⟩ := Option.map_eq_some_iff.mp hin
    have := hc.function_le hq' hg
    omega

end

/-! ## Functions of a program -/

section

variable [DeciBase]

/-- The code of a function of the tree after its scope has been closed. -/
def closedCode (q : Option Params × Stmts) : List Item :=
  closeItems q.2.postedFun (funLocals q.1 q.2) (q.2.code ++ returnNil)

theorem closedCode_length (q : Option Params × Stmts) :
    (closedCode q).length = (q.2.code ++ returnNil).length := closeItems_length ..

/-- What the tree determines of a function's shape. -/
def shapeInfo (q : Option Params × Stmts) : FunInfo :=
  funInfo q.1 (funLocals q.1 q.2) q.2.postedFun (q.2.code ++ returnNil)

theorem Stmts.code_return_blocked {body : Stmts} (h : body.Wf false) :
    Blocked (FunOf body.funs) (body.code ++ returnNil) :=
  (body.code_blocked false h).append (.straight returnNil_straight)

theorem closedCode_blocked {q : Option Params × Stmts} (h : q.2.Wf false) :
    Blocked (FunOf q.2.funs) (closedCode q) :=
  (Stmts.code_return_blocked h).closeItems _ _

theorem Stmts.program_blocked {body : Stmts} (h : body.Wf false) :
    Blocked (FunOf body.functions) body.program := by
  have hl : Layout false (body.code ++ returnNil) :=
    (body.code_layout false h).append (.straight returnNil_straight)
  have hb : Blocked (FunOf body.functions) (closedCode (none, body)) :=
    (closedCode_blocked (q := (none, body)) h).mono
      (FunOf.mono fun _ hq => List.mem_append_left _ hq)
  have hf : FunOf body.functions (shapeInfo (none, body)) (closedCode (none, body)) :=
    ⟨(none, body), by simp [Stmts.functions], h, rfl, rfl⟩
  have : Blocked (FunOf body.functions) (.mine (.function (shapeInfo (none, body))) none ::
      (nest (closedCode (none, body)) ++ [])) :=
    .function hf hb (by rw [closedCode_length]; rfl) (hl.closeItems_isClosed _ _) .nil
  simpa [Stmts.program, nestedCode, closedCode, shapeInfo] using this

end

theorem forall₂_getElem?_left {α β : Type} {R : α → β → Prop} {l : List α} {l' : List β}
    (h : List.Forall₂ R l l') {i : Nat} {a : α} (ha : l[i]? = some a) :
    ∃ b, l'[i]? = some b ∧ R a b := forall₂_getElem? (List.Forall₂.flip h) ha

theorem DenI.function_inv {T : Tables} {n : Nat} {a : AInstr} (h : DenI T (opFunction n) a) :
    ∃ s f, T.shapes[n]? = some s ∧ s.Agrees f ∧ a = .function f := by
  cases h with
  | plain hp => simp [Instr.isPlain] at hp
  | function hs _ ha => exact ⟨_, _, hs, ha, rfl⟩

/-- Behind an `OP_FUNCTION` instruction stands the code of one of the functions `fs`. -/
theorem Dens.function_at [DeciBase] {T : Tables} {code : List TaggedInstr} {items : List Item}
    {fs : List (Option Params × Stmts)} (hd : Dens T code items) (hb : Blocked (FunOf fs) items)
    {i c : Nat} {line : Option Nat} (hi : code[i]? = some ⟨opFunction c, line⟩) :
    ∃ s q, T.shapes[c]? = some s ∧ q ∈ fs ∧ q.2.Wf false ∧ s.Agrees (shapeInfo q) ∧
      i + s.offset ≤ code.length ∧
      Dens T ((code.drop (i + 1)).take (closedCode q).length) (closedCode q) := by
  obtain ⟨it, hit, hden⟩ := forall₂_getElem?_left hd hi
  obtain ⟨s, f, hs, ha, hf⟩ := hden.instr.function_inv
  obtain ⟨_, B, ⟨q, hq, hwf, rfl, rfl⟩, -, hlen, hdrop⟩ := hb.at_function hit hf
  refine ⟨s, q, hs, hq, hwf, ha, ?_, ?_⟩
  · rw [ha.offset, hd.length_eq]
    exact hb.function_le hit hf
  · have h1 := List.forall₂_drop (i + 1) hd
    rw [hdrop] at h1
    have h2 := List.forall₂_take_append _ _ _ h1
    rw [nest_length] at h2
    exact Dens.of_nest h2

end Calx
