import Calx.TreeLayout
import Calx.Emits
import Mathlib.Data.List.Range

/-!
# Parser states and the code of statements

The relation between two parser states when the parser has consumed the
lexemes of some statements and emitted their code, and how it is preserved by
emission, by the backpatching of jumps and by the rotation of code.
-/

namespace Calx

open LexemeKind Instr

/-! ## Pieces -/

/-- What a piece of a program contributes to a parser state. -/
@[ext] structure Piece where
  toks : List Lexeme
  items : List Item
  mask : List Bool
  braces : List (Nat × Bool)
  decls : List Bytes
  funs : List (Option Params × Stmts)

namespace Piece

/-- Two pieces in turn. -/
def append (x y : Piece) : Piece :=
  ⟨x.toks ++ y.toks, x.items ++ y.items, x.mask ++ y.mask, x.braces ++ y.braces,
    x.decls ++ y.decls, x.funs ++ y.funs⟩

/-- Lexemes and the code emitted for them, with braces. -/
def emitted (ts : List Lexeme) (items : List Item) (br : List (Nat × Bool)) : Piece :=
  ⟨ts, items, flags items, br, [], []⟩

end Piece

/-- The piece of a statement. -/
def Stmt.piece [DeciBase] (s : Stmt) : Piece :=
  ⟨s.toks, s.code, s.mask, s.braces, s.decls, s.funs⟩

/-- The piece of a statement sequence. -/
def Stmts.piece [DeciBase] (ss : Stmts) : Piece :=
  ⟨ss.toks, ss.code, ss.mask, ss.braces, ss.decls, ss.funs⟩

/-! ## Masks and ranges -/

/-- The positions where a mask is set; its first entry is at `i`. -/
def maskPos : Nat → List Bool → List Nat
  | _, [] => []
  | i, b :: bs => if b then i :: maskPos (i + 1) bs else maskPos (i + 1) bs

theorem maskPos_append (i : Nat) (l l' : List Bool) :
    maskPos i (l ++ l') = maskPos i l ++ maskPos (i + l.length) l' := by
  induction l generalizing i with
  | nil => simp [maskPos]
  | cons b bs ih =>
      simp only [List.cons_append, maskPos, ih, List.length_cons]
      rw [show i + 1 + bs.length = i + (bs.length + 1) by omega]
      split <;> simp

theorem maskPos_replicate_true (i n : Nat) :
    maskPos i (List.replicate n true) = List.range' i n := by
  induction n generalizing i with
  | zero => rfl
  | succ n ih => simp [List.replicate_succ, maskPos, ih, List.range'_succ]

theorem maskPos_replicate_false (i n : Nat) : maskPos i (List.replicate n false) = [] := by
  induction n generalizing i with
  | zero => rfl
  | succ n ih => simp [List.replicate_succ, maskPos, ih]

theorem mem_maskPos {i j : Nat} {l : List Bool} :
    j ∈ maskPos i l ↔ ∃ k, l[k]? = some true ∧ j = i + k := by
  induction l generalizing i with
  | nil => simp [maskPos]
  | cons b bs ih =>
      have hsplit : (∃ k, (b :: bs)[k]? = some true ∧ j = i + k) ↔
          (b = true ∧ j = i) ∨ ∃ k, bs[k]? = some true ∧ j = i + 1 + k := by
        constructor
        · rintro ⟨_ | k, hk, rfl⟩
          · exact .inl ⟨by simpa using hk, rfl⟩
          · exact .inr ⟨k, by simpa using hk, by omega⟩
        · rintro (⟨rfl, rfl⟩ | ⟨k, hk, rfl⟩)
          · exact ⟨0, rfl, rfl⟩
          · exact ⟨k + 1, by simpa using hk, by omega⟩
      rw [hsplit, maskPos]
      cases b <;> simp [ih]

theorem maskPos_pairwise (i : Nat) (l : List Bool) : (maskPos i l).Pairwise (· < ·) := by
  induction l generalizing i with
  | nil => simp [maskPos]
  | cons b bs ih =>
      simp only [maskPos]
      split
      · refine List.pairwise_cons.mpr ⟨fun j hj => ?_, ih _⟩
        obtain ⟨k, -, rfl⟩ := mem_maskPos.mp hj
        omega
      · exact ih _

theorem maskPos_nodup (i : Nat) (l : List Bool) : (maskPos i l).Nodup :=
  (maskPos_pairwise i l).imp Nat.ne_of_lt

/-- The ranges of a parser state with the innermost one ended at the end of the code. -/
def coveredBy (r : Range) (cl : List Range) (e : Nat) : List Nat :=
  (cl.reverse ++ [{ r with end_ := some e }]).flatMap Range.positions

/-- The ranges recorded from `p` to `p'` cover the positions where `mask` is set. -/
def Covers (p : Parser) (mask : List Bool) (p' : Parser) : Prop :=
  ∀ b rs, p.ranges = ⟨p.scopes.length - 1, b, none⟩ :: rs → b ≤ here p → p.scopes ≠ [] →
    ∃ b' cl, p'.ranges = ⟨p.scopes.length - 1, b', none⟩ :: (cl ++ rs) ∧
      (∀ r ∈ cl, r.scopeIndex = p.scopes.length - 1) ∧ b' ≤ here p' ∧
      coveredBy ⟨p.scopes.length - 1, b', none⟩ cl (here p') =
        List.range' b (here p - b) ++ maskPos (here p) mask

/-- Emitting own code without touching the ranges. -/
theorem covers_same {p p' : Parser} {n : Nat} (hr : p'.ranges = p.ranges)
    (hh : here p' = here p + n) : Covers p (List.replicate n true) p' := by
  intro b rs hp hle hne
  refine ⟨b, [], by simpa [hr] using hp, by simp, by omega, ?_⟩
  simp only [coveredBy, List.reverse_nil, List.nil_append, List.flatMap_cons, List.flatMap_nil,
    List.append_nil, Range.positions, Option.getD_some, maskPos_replicate_true]
  rw [hh, show here p + n - b = (here p - b) + n by omega]
  conv_rhs => rw [show here p = b + 1 * (here p - b) by omega]
  rw [show b + 1 * (here p - b) - b = here p - b by omega, List.range'_append]

/-! ## Names -/

theorem putName_isPrefix (ns : List Bytes) (x : Bytes) : ns <+: (putName ns x).2 := by
  unfold putName
  split
  · exact List.prefix_rfl
  · exact List.prefix_append _ _

theorem putName_getElem? (ns : List Bytes) (x : Bytes) :
    (putName ns x).2[(putName ns x).1]? = some x := by
  unfold putName
  split
  · rename_i h
    exact List.getElem?_idxOf h
  · simp

theorem putNames_append (ns xs ys : List Bytes) :
    putNames ns (xs ++ ys) = putNames (putNames ns xs) ys := List.foldl_append

theorem putNames_isPrefix (ns xs : List Bytes) : ns <+: putNames ns xs := by
  induction xs generalizing ns with
  | nil => exact List.prefix_rfl
  | cons x xs ih => exact (putName_isPrefix ns x).trans (ih _)

/-! ## The relation -/

/-- What `close_scope` saw at the end of a function agrees with the function's tree. -/
structure Closed.Of [DeciBase] (c : Closed) (f : Option Params × Stmts) : Prop where
  walked : c.walked = maskPos (c.beginPos + 1) (f.2.mask ++ [true, true])
  pos : c.pos = c.beginPos + 1 + (f.2.code ++ returnNil).length
  code : ∃ T : Tables, T.shapes = c.shapes ∧
    Dens T (c.prog.drop (c.beginPos + 1)) (f.2.code ++ returnNil)

/-- From `p` to `p'` the parser consumed the lexemes of a piece and emitted its code. -/
structure Compiles [DeciBase] (p : Parser) (x : Piece) (p' : Parser) : Prop where
  toks : p.toks = x.toks ++ p'.toks
  prog : ∃ new, p'.prog = p.prog ++ new ∧ Dens p'.tables new x.items
  consts : p.consts <+: p'.consts
  idents : p.idents <+: p'.idents
  globals : p.globals <+: p'.globals
  shapes : p.shapes <+: p'.shapes
  scopes : ∀ ns sc, p.scopes = ns :: sc → p'.scopes = putNames ns x.decls :: sc
  ranges : Covers p x.mask p'
  mask : x.mask.length = x.items.length
  stackIf : p'.stackIf = (opens .ifTo (here p) x.items).reverse ++ p.stackIf
  stackBreak : p'.stackBreak = (opens .breakTo (here p) x.items).reverse ++ p.stackBreak
  stackContinue :
    p'.stackContinue = (opens .continueTo (here p) x.items).reverse ++ p.stackContinue
  braces : p'.braces = p.braces ++ x.braces
  closes : ∃ new, p'.closes = p.closes ++ new ∧ List.Forall₂ Closed.Of new x.funs

theorem Emits.here_eq {p p' : Parser} {ts : List Lexeme} {items : List Item}
    {br : List (Nat × Bool)} (h : Emits p ts items br p') : here p' = here p + items.length := by
  obtain ⟨new, hn, hd⟩ := h.prog
  simp [here, hn, hd.length_eq]

/-- Code of the function at hand without open jumps. -/
def Unopened (code : List Item) : Prop :=
  ∀ r ∈ code, r.own = true ∧ r.instr.isOpen = false

theorem Straight.unopened {l : List Item} (h : Straight l) : Unopened l := fun r hr =>
  ⟨(h r hr).1, AInstr.isOpen_of_isStraight (h r hr).2⟩

theorem Unopened.mine {i : AInstr} {line : Option Nat} (h : i.isOpen = false) :
    Unopened [.mine i line] := by
  simp [Unopened, h]

theorem Unopened.opens_eq {l : List Item} (h : Unopened l) {a : AInstr} (ha : a.isOpen = true)
    (i : Nat) : opens a i l = [] := by
  refine opens_eq_nil.mpr ?_
  rintro r hr rfl
  simp [(h r hr).2] at ha

theorem Unopened.flags_eq {l : List Item} (h : Unopened l) :
    flags l = List.replicate l.length true :=
  List.eq_replicate_iff.mpr ⟨flags_length l, by
    intro b hb
    obtain ⟨r, hr, rfl⟩ := List.mem_map.mp hb
    exact (h r hr).1⟩

/-- Code that is emitted without another effect. -/
theorem Emits.compiles [DeciBase] {p p' : Parser} {ts : List Lexeme} {items : List Item}
    {br : List (Nat × Bool)} (h : Emits p ts items br p') (hs : Unopened items) :
    Compiles p (.emitted ts items br) p' := by
  have hh := h.here_eq
  have hf := h.frame
  simp only [Parser.frame, Prod.mk.injEq] at hf
  obtain ⟨hg, hsh, hsc, hr, hi, hb, hc, hcl⟩ := hf
  refine ⟨h.toks, h.prog, h.consts, h.idents, by simp [hg], by simp [hsh], ?_, ?_,
    by simp [Piece.emitted], ?_, ?_, ?_, h.braces, ⟨[], by simp [hcl], .nil⟩⟩
  · intro ns sc hp
    simpa [Piece.emitted, putNames, hsc] using hp
  · simpa only [Piece.emitted, hs.flags_eq] using covers_same hr hh
  · simp [Piece.emitted, hi, hs.opens_eq (a := .ifTo) rfl]
  · simp [Piece.emitted, hb, hs.opens_eq (a := .breakTo) rfl]
  · simp [Piece.emitted, hc, hs.opens_eq (a := .continueTo) rfl]

namespace Compiles

variable [DeciBase] {p p' p'' : Parser} {x y : Piece}

theorem here_eq (h : Compiles p x p') : here p' = here p + x.items.length := by
  obtain ⟨new, hn, hd⟩ := h.prog
  simp [here, hn, hd.length_eq]

theorem locals_isPrefix (h : Compiles p x p') : locals p <+: locals p' := by
  cases hp : p.scopes with
  | nil => simp [locals, hp]
  | cons ns sc =>
      have := h.scopes ns sc hp
      simpa [locals, hp, this] using putNames_isPrefix ns x.decls

theorem scopes_length (h : Compiles p x p') (hne : p.scopes ≠ []) :
    p'.scopes.length = p.scopes.length := by
  cases hp : p.scopes with
  | nil => exact absurd hp hne
  | cons ns sc => simp [h.scopes ns sc hp]

theorem scopes_ne (h : Compiles p x p') (hne : p.scopes ≠ []) : p'.scopes ≠ [] := by
  cases hp : p.scopes with
  | nil => exact absurd hp hne
  | cons ns sc => simp [h.scopes ns sc hp]

theorem tables_le (h : Compiles p x p') : p.tables.Le p'.tables :=
  ⟨⟨h.consts, h.idents, h.globals, fun _ _ hc _ => getElem?_of_isPrefix h.shapes hc⟩,
    h.locals_isPrefix⟩

theorem trans (h : Compiles p x p') (h' : Compiles p' y p'') : Compiles p (x.append y) p'' := by
  obtain ⟨new, hn, hd⟩ := h.prog
  obtain ⟨new', hn', hd'⟩ := h'.prog
  obtain ⟨cl, hcl, hf⟩ := h.closes
  obtain ⟨cl', hcl', hf'⟩ := h'.closes
  have hh := h.here_eq
  exact {
    toks := by rw [h.toks, h'.toks, ← List.append_assoc]; rfl
    prog := ⟨new ++ new', by rw [hn', hn, List.append_assoc],
      List.rel_append (hd.mono h'.tables_le) hd'⟩
    consts := h.consts.trans h'.consts
    idents := h.idents.trans h'.idents
    globals := h.globals.trans h'.globals
    shapes := h.shapes.trans h'.shapes
    scopes := fun ns sc hp => by
      rw [h'.scopes _ _ (h.scopes ns sc hp)]
      simp [Piece.append, putNames_append]
    ranges := by
      intro b rs hp hle hne
      obtain ⟨b1, cl1, hr1, hs1, hle1, hc1⟩ := h.ranges b rs hp hle hne
      have hlen := h.scopes_length hne
      obtain ⟨b2, cl2, hr2, hs2, hle2, hc2⟩ :=
        h'.ranges b1 (cl1 ++ rs) (by rw [hr1, hlen]) hle1 (h.scopes_ne hne)
      rw [hlen] at hr2 hs2 hc2
      refine ⟨b2, cl2 ++ cl1, by rw [hr2, List.append_assoc],
        List.forall_mem_append.mpr ⟨hs2, hs1⟩, hle2, ?_⟩
      simp only [coveredBy, List.reverse_append, List.append_assoc, List.flatMap_append] at hc1 hc2 ⊢
      rw [hc2, ← List.append_assoc]
      simp only [List.flatMap_cons, List.flatMap_nil, List.append_nil, Range.positions,
        Option.getD_some] at hc1
      rw [hc1, List.append_assoc, Piece.append, maskPos_append, hh, h.mask]
    mask := by simp [Piece.append, h.mask, h'.mask]
    stackIf := by
      simp [Piece.append, h'.stackIf, h.stackIf, opens_append, hh]
    stackBreak := by
      simp [Piece.append, h'.stackBreak, h.stackBreak, opens_append, hh]
    stackContinue := by
      simp [Piece.append, h'.stackContinue, h.stackContinue, opens_append, hh]
    braces := by rw [h'.braces, h.braces, List.append_assoc]; rfl
    closes := ⟨cl ++ cl', by rw [hcl', hcl, List.append_assoc], List.rel_append hf hf'⟩ }

theorem refl (p : Parser) : Compiles p ⟨[], [], [], [], [], []⟩ p :=
  (Emits.refl p).compiles (by simp [Unopened])

end Compiles

/-! ## Changes of emitted code -/

/-- A parser state with other code. -/
def Parser.setProg (p : Parser) (prog : List TaggedInstr) : Parser := { p with prog := prog }

theorem emit_emits (p : Parser) {i : Instr} {a : AInstr} (h : DenI p.tables i a) :
    Emits p [] [.mine a none] [] (emit p i) :=
  ⟨rfl, ⟨[⟨i, none⟩], rfl, .cons ⟨rfl, h⟩ .nil⟩, List.prefix_rfl, List.prefix_rfl,
    by simp [emit, emitAtLine], rfl⟩

theorem forall₂_append_right {α β : Type} {R : α → β → Prop} {l : List α} {u v : List β}
    (h : List.Forall₂ R l (u ++ v)) :
    ∃ l₁ l₂, l = l₁ ++ l₂ ∧ List.Forall₂ R l₁ u ∧ List.Forall₂ R l₂ v :=
  ⟨_, _, (List.take_append_drop u.length l).symm, List.forall₂_take_append _ _ _ h,
    List.forall₂_drop_append _ _ _ h⟩

theorem modify_append_cons {α : Type} (l r : List α) (a : α) (f : α → α) :
    (l ++ a :: r).modify l.length f = l ++ f a :: r := by
  induction l with
  | nil => rfl
  | cons x xs ih => simp [ih]

namespace Compiles

variable [DeciBase] {p p' : Parser} {x : Piece}

/-- Replace the emitted code by other code of the same length with the same open jumps. -/
theorem of_prog (h : Compiles p x p') (new : List TaggedInstr) (items : List Item)
    (hd : Dens p'.tables new items) (hlen : items.length = x.items.length)
    (ho : ∀ a : AInstr, a.isOpen = true → opens a (here p) items = opens a (here p) x.items) :
    Compiles p { x with items := items } (p'.setProg (p.prog ++ new)) := by
  have hh : here (p'.setProg (p.prog ++ new)) = here p' := by
    have := h.here_eq
    simp only [here, Parser.setProg, List.length_append, hd.length_eq, hlen] at this ⊢
    omega
  exact {
    toks := h.toks
    prog := ⟨new, rfl, hd⟩
    consts := h.consts
    idents := h.idents
    globals := h.globals
    shapes := h.shapes
    scopes := h.scopes
    ranges := by
      intro b rs hp hle hne
      have := h.ranges b rs hp hle hne
      rwa [← hh] at this
    mask := by rw [h.mask, hlen]
    stackIf := by rw [ho .ifTo rfl]; exact h.stackIf
    stackBreak := by rw [ho .breakTo rfl]; exact h.stackBreak
    stackContinue := by rw [ho .continueTo rfl]; exact h.stackContinue
    braces := h.braces
    closes := h.closes }

/-- Aiming a conditional jump. -/
theorem fixup (h : Compiles p x p') {A B : List Item} {off : Int} {line : Option Nat}
    (hx : x.items = A ++ .mine (.jumpUnless off) line :: B) {src : Nat}
    (hsrc : src = here p + A.length) (dst : Nat) :
    Compiles p { x with items := A ++ .mine (.jumpUnless ((dst : Int) - src)) line :: B }
      (fixupJump p' src dst) := by
  obtain ⟨new, hn, hd⟩ := h.prog
  rw [hx] at hd
  obtain ⟨nA, nB, rfl, hA, hB⟩ := forall₂_append_right hd
  obtain ⟨n, nB, hj, hB', rfl⟩ := List.forall₂_cons_right_iff.mp hB
  have hset : setJump (toUint32 ((dst : Int) - src)) n.instr =
      opJumpUnless (toUint32 ((dst : Int) - src)) := by
    have := hj.instr
    revert this
    cases n.instr <;> intro this <;> cases this
    rfl
  have hden := h.of_prog (nA ++ { n with instr := opJumpUnless _ } :: nB)
    (A ++ .mine (.jumpUnless ((dst : Int) - src)) line :: B)
    (List.rel_append hA (.cons ⟨hj.line, .jumpUnless _⟩ hB')) (by simp [hx]) (by
      intro a ha
      have h1 : ∀ o, AInstr.jumpUnless o ≠ a := by
        rintro o rfl
        simp [AInstr.isOpen] at ha
      simp [hx, opens_append, opens, h1])
  convert hden using 1
  unfold fixupJump
  congr 1
  rw [hn, ← List.append_assoc, ← List.append_assoc,
    show src = (p.prog ++ nA).length by simp [hsrc, here, hA.length_eq], modify_append_cons]
  simp only [show (p.prog ++ nA).length = src by simp [hsrc, here, hA.length_eq], hset]

end Compiles

/-- `fixup_jump` at each of the given positions, the last one first. -/
def fixups (p : Parser) (dst : Nat) (ps : List Int) : Parser :=
  ps.foldr (fun pos p => fixupJump p pos.toNat dst) p

theorem segmentEndFixup_eq (p : Parser) (dst : Nat) {ps : List Int} (rest : List Int)
    (h : ∀ pos ∈ ps, pos ≠ -2) :
    segmentEndFixup p dst (ps.reverse ++ -2 :: rest) = (fixups p dst ps, rest) := by
  induction ps using List.reverseRecOn generalizing p with
  | nil => simp [segmentEndFixup, fixups]
  | append_singleton ps pos ih =>
      simp only [List.forall_mem_append, List.forall_mem_singleton] at h
      simp only [List.reverse_append, List.reverse_singleton, List.cons_append, List.nil_append,
        segmentEndFixup, h.2, if_false]
      rw [ih _ h.1]
      simp [fixups]

theorem opens_ne (a : AInstr) (i : Nat) (l : List Item) : ∀ pos ∈ opens a i l, pos ≠ -2 := by
  induction l generalizing i with
  | nil => simp [opens]
  | cons r rs ih =>
      simp only [opens]
      split
      · simp only [List.forall_mem_cons]
        exact ⟨by omega, ih _⟩
      · exact ih _

/-- Fixing up all the open jumps of a piece of code aims them. -/
theorem fixups_opens {T : Tables} {a : AInstr} (ha : a.isOpen = true) (dst : Nat)
    {new : List TaggedInstr} {items : List Item} (hd : Dens T new items) {p : Parser}
    {pre : List TaggedInstr} (hp : p.prog = pre ++ new) :
    ∃ new', fixups p dst (opens a pre.length items) = p.setProg (pre ++ new') ∧
      Dens T new' (aimFrom a dst pre.length items) := by
  induction hd generalizing pre with
  | nil => exact ⟨[], by simp [opens, fixups, ← hp, Parser.setProg], .nil⟩
  | @cons n r new items hr _ ih =>
      have hp' : p.prog = (pre ++ [n]) ++ new := by simp [hp]
      obtain ⟨new', hf, hd'⟩ := ih hp'
      simp only [List.length_append, List.length_singleton] at hf hd'
      by_cases hra : r.instr = a
      · have hn : setJump (toUint32 ((dst : Int) - pre.length)) n.instr =
            opJump (toUint32 ((dst : Int) - pre.length)) := by
          have := hr.instr
          rw [hra] at this
          revert this
          cases n.instr <;> intro this <;> cases this <;> first | rfl | simp [AInstr.isOpen] at ha
        refine ⟨{ n with instr := opJump (toUint32 ((dst : Int) - pre.length)) } :: new', ?_, ?_⟩
        · simp only [opens, hra, if_true, fixups, List.foldr_cons]
          simp only [fixups] at hf
          rw [hf]
          simp only [fixupJump, Parser.setProg, Int.toNat_natCast, List.append_assoc, List.singleton_append,
            modify_append_cons, hn]
        · simp only [aimFrom, hra, if_true]
          exact .cons ⟨hr.line, .jump _⟩ hd'
      · refine ⟨n :: new', ?_, ?_⟩
        · simp only [opens, hra, if_false]
          simpa using hf
        · simp only [aimFrom, hra, if_false]
          exact .cons hr hd'

namespace Compiles

variable [DeciBase] {p p' : Parser} {x : Piece}

/-- `fixups_opens` on the code of a piece. -/
theorem aim (h : Compiles p x p') {a : AInstr} (ha : a.isOpen = true) {dst d : Nat}
    (hdst : dst = here p + d) :
    ∃ new, fixups p' dst (opens a (here p) x.items) = p'.setProg (p.prog ++ new) ∧
      Dens p'.tables new (aimFrom a d 0 x.items) := by
  obtain ⟨new, hn, hd⟩ := h.prog
  obtain ⟨new', hf, hd'⟩ := fixups_opens ha dst hd hn
  refine ⟨new', hf, ?_⟩
  have := aimFrom_shift a d 0 p.prog.length x.items
  rw [Nat.zero_add, show (d : Int) + (p.prog.length : Nat) = (dst : Nat) by
    rw [hdst, here]; omega] at this
  rwa [← this]

/-- The end of the segment of an `if` statement. -/
theorem ifSegmentEnd (h : Compiles (ifSegmentBegin p) x p') :
    Compiles p { x with items := aimFrom .ifTo x.items.length 0 x.items }
      (Calx.ifSegmentEnd p' (here p')) := by
  obtain ⟨new, hf, hd⟩ := h.aim (a := .ifTo) rfl h.here_eq
  have hst : p'.stackIf = (opens .ifTo (here p) x.items).reverse ++ -2 :: p.stackIf := h.stackIf
  have hs : Calx.ifSegmentEnd p' (here p') =
      { p'.setProg (p.prog ++ new) with stackIf := p.stackIf } := by
    rw [Calx.ifSegmentEnd, hst, segmentEndFixup_eq _ _ _ (opens_ne _ _ _)]
    exact congrArg (fun q : Parser => { q with stackIf := p.stackIf }) hf
  have ho : ∀ a : AInstr, a.isOpen = true → a ≠ .ifTo →
      opens a (here p) (aimFrom .ifTo x.items.length 0 x.items) = opens a (here p) x.items :=
    fun a ha hne => opens_aimFrom ha hne _ _ _ _
  have hh : here p' = (p.prog ++ new).length := by
    rw [h.here_eq, List.length_append, hd.length_eq, aimFrom_length]
    rfl
  rw [hs]
  exact {
    toks := h.toks
    prog := ⟨new, rfl, hd⟩
    consts := h.consts
    idents := h.idents
    globals := h.globals
    shapes := h.shapes
    scopes := h.scopes
    ranges := fun b rs hp hle hne => by
      have := h.ranges b rs hp hle hne
      rwa [hh] at this
    mask := by rw [h.mask, aimFrom_length]
    stackIf := by
      rw [opens_eq_nil.mpr fun r hr => ?_]
      · rfl
      · obtain ⟨h1, -⟩ | ⟨off, h1⟩ := mem_aimFrom hr
        · exact h1
        · simp [h1]
    stackBreak := by rw [ho .breakTo rfl (by simp)]; exact h.stackBreak
    stackContinue := by rw [ho .continueTo rfl (by simp)]; exact h.stackContinue
    braces := h.braces
    closes := h.closes }

/-- The end of the segments of a loop. -/
theorem loopSegmentEnd (h : Compiles (loopSegmentBegin p) x p') (brk cnt : Nat) :
    Compiles p { x with items := patch brk cnt x.items }
      (Calx.loopSegmentEnd p' (here p + brk) (here p + cnt)) := by
  obtain ⟨new, hf, hd⟩ := h.aim (a := .breakTo) rfl (d := brk) rfl
  have hb : p'.stackBreak = (opens .breakTo (here p) x.items).reverse ++ -2 :: p.stackBreak :=
    h.stackBreak
  have hc : p'.stackContinue =
      (opens .continueTo (here p) x.items).reverse ++ -2 :: p.stackContinue := h.stackContinue
  have hn : (p'.setProg (p.prog ++ new)).prog = p.prog ++ new := rfl
  obtain ⟨new', hf', hd'⟩ := fixups_opens (a := .continueTo) rfl (here p + cnt) hd hn
  have hsh := aimFrom_shift .continueTo cnt 0 p.prog.length (aimFrom .breakTo brk 0 x.items)
  rw [Nat.zero_add, show (cnt : Int) + (p.prog.length : Nat) = (here p + cnt : Nat) by
    rw [here]; omega] at hsh
  rw [hsh] at hd'
  have hs : Calx.loopSegmentEnd p' (here p + brk) (here p + cnt) =
      { p'.setProg (p.prog ++ new') with
        stackBreak := p.stackBreak, stackContinue := p.stackContinue } := by
    have h1 := segmentEndFixup_eq p' (here p + brk) p.stackBreak (opens_ne .breakTo (here p) x.items)
    have h2 := segmentEndFixup_eq (p'.setProg (p.prog ++ new)) (here p + cnt) p.stackContinue
      (opens_ne .continueTo (here p) x.items)
    have hf₁ : fixups p' (here p + brk) (opens .breakTo (here p) x.items) =
        p'.setProg (p.prog ++ new) := hf
    have hf₂ : fixups (p'.setProg (p.prog ++ new)) (here p + cnt)
        (opens .continueTo (here p) x.items) = p'.setProg (p.prog ++ new') := by
      rwa [opens_aimFrom rfl (by simp)] at hf'
    rw [← hb, hf₁] at h1
    rw [← hc, hf₂] at h2
    rw [Calx.loopSegmentEnd, h1]
    exact congrArg (fun q : Parser × List Int =>
      { q.1 with stackBreak := p.stackBreak, stackContinue := q.2 }) h2
  have hh : here p' = (p.prog ++ new').length := by
    rw [h.here_eq, List.length_append, hd'.length_eq, aimFrom_length, aimFrom_length]
    rfl
  have ho : ∀ a : AInstr, (∀ r ∈ patch brk cnt x.items, r.instr ≠ a) →
      opens a (here p) (patch brk cnt x.items) = [] := fun a ha => opens_eq_nil.mpr ha
  rw [hs]
  exact {
    toks := h.toks
    prog := ⟨new', rfl, hd'⟩
    consts := h.consts
    idents := h.idents
    globals := h.globals
    shapes := h.shapes
    scopes := h.scopes
    ranges := fun b rs hp hle hne => by
      have := h.ranges b rs hp hle hne
      rwa [hh] at this
    mask := by rw [h.mask, patch_length]
    stackIf := by
      rw [patch, opens_aimFrom rfl (by simp), opens_aimFrom rfl (by simp)]
      exact h.stackIf
    stackBreak := by rw [ho _ fun r hr => (mem_patch hr).1]; rfl
    stackContinue := by rw [ho _ fun r hr => (mem_patch hr).2.1]; rfl
    braces := h.braces
    closes := h.closes }

/-- Exchanging two neighbouring parts of the code, without open jumps. -/
theorem rotate (h : Compiles p x p') {A X Y Z : List Item} (hx : x.items = A ++ (X ++ (Y ++ Z)))
    (hX : ∀ a : AInstr, a.isOpen = true → ∀ r ∈ X, r.instr ≠ a)
    (hY : ∀ a : AInstr, a.isOpen = true → ∀ r ∈ Y, r.instr ≠ a) {i j : Nat}
    (hi : i = here p + A.length) (hj : j = i + X.length + Y.length) :
    Compiles p { x with items := A ++ (Y ++ (X ++ Z)) }
      (p'.setProg (p'.prog.take i ++ tiRotateLeft ((p'.prog.drop i).take (j - i)) X.length ++
        p'.prog.drop j)) := by
  obtain ⟨new, hn, hd⟩ := h.prog
  rw [hx] at hd
  obtain ⟨nA, n, rfl, hA, hd⟩ := forall₂_append_right hd
  obtain ⟨nX, n, rfl, hdX, hd⟩ := forall₂_append_right hd
  obtain ⟨nY, nZ, rfl, hdY, hZ⟩ := forall₂_append_right hd
  have hden := h.of_prog (nA ++ (nY ++ (nX ++ nZ))) (A ++ (Y ++ (X ++ Z)))
    (List.rel_append hA (List.rel_append hdY (List.rel_append hdX hZ)))
    (by simp only [hx, List.length_append]; omega) (by
      intro a ha
      simp only [hx, opens_append, opens_eq_nil.mpr (hX a ha), opens_eq_nil.mpr (hY a ha),
        List.nil_append]
      rw [show here p + A.length + Y.length + X.length = here p + A.length + X.length + Y.length by
        omega])
  convert hden using 2
  have hi' : i = (p.prog ++ nA).length := by simp [hi, here, hA.length_eq]
  have hxy : j - i = (nX ++ nY).length := by
    rw [List.length_append, hdX.length_eq, hdY.length_eq]
    omega
  have hp : p'.prog = (p.prog ++ nA) ++ ((nX ++ nY) ++ nZ) := by simp [hn]
  have hj' : j = ((p.prog ++ nA) ++ (nX ++ nY)).length := by
    rw [List.length_append, ← hi', ← hxy]
    omega
  have hdrop : p'.prog.drop j = nZ := by
    rw [hj', show p'.prog = (p.prog ++ nA ++ (nX ++ nY)) ++ nZ by simp [hn], List.drop_left]
  rw [hdrop, hxy, hi', hp, List.take_left, List.drop_left, List.take_left, ← hdX.length_eq]
  simp [tiRotateLeft, tiReverse]

end Compiles

end Calx
