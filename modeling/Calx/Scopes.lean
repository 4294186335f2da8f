import Calx.Discipline

/-!
# Scope bookkeeping

The positions `close_scope` walks over are those of the function being closed,
unless a function is defined in the body of a `for` loop with a third clause:
`ti_rotate_left` moves such a body, but the ranges recorded around the function
stay where they are.
-/

namespace Calx

open LexemeKind Instr

/-! ## Masks that name the same positions -/

theorem mask_ext {i : Nat} {m m' : List Bool} (hlen : m.length = m'.length)
    (h : ∀ j, j ∈ maskPos i m ↔ j ∈ maskPos i m') : m = m' := by
  have hiff : ∀ k : Nat, m[k]? = some true ↔ m'[k]? = some true := by
    intro k
    have := h (i + k)
    simp only [mem_maskPos, Nat.add_left_cancel_iff] at this
    simpa using this
  refine List.ext_getElem hlen fun k h1 h2 => ?_
  have := hiff k
  rw [List.getElem?_eq_getElem h1, List.getElem?_eq_getElem h2] at this
  cases hb : m[k] <;> cases hb' : m'[k] <;> simp_all

/-- The sum of the positions where a mask is set; its first entry is at `i`. -/
def weight : Nat → List Bool → Nat
  | _, [] => 0
  | i, b :: bs => (if b then i else 0) + weight (i + 1) bs

theorem weight_append (i : Nat) (m m' : List Bool) :
    weight i (m ++ m') = weight i m + weight (i + m.length) m' := by
  induction m generalizing i with
  | nil => simp [weight]
  | cons b bs ih =>
      simp only [List.cons_append, weight, ih, List.length_cons]
      rw [show i + 1 + bs.length = i + (bs.length + 1) by omega]
      omega

theorem weight_shift (i k : Nat) (m : List Bool) :
    weight (i + k) m = weight i m + k * m.count true := by
  induction m generalizing i with
  | nil => simp [weight]
  | cons b bs ih =>
      have := ih (i + 1)
      rw [show i + 1 + k = i + k + 1 by omega] at this
      cases b <;> simp only [weight, this, List.count_cons] <;> (simp [Nat.mul_add]; try omega)

/-- A mask that arises from another one by moving entries to the front; `strict` if there was
something to move them over. -/
structure Earlier (strict : Bool) (m m' : List Bool) : Prop where
  length : m.length = m'.length
  count : m.count true = m'.count true
  weight : weight 0 m + strict.toNat ≤ weight 0 m'

namespace Earlier

variable {a b : Bool} {m m' n n' : List Bool}

theorem refl (m : List Bool) : Earlier false m m := ⟨rfl, rfl, by simp⟩

theorem append (h : Earlier a m m') (h' : Earlier b n n') :
    Earlier (a || b) (m ++ n) (m' ++ n') where
  length := by simp [h.length, h'.length]
  count := by simp [h.count, h'.count]
  weight := by
    have h1 := h.weight
    have h2 := h'.weight
    have e1 := weight_shift 0 m.length n
    have e2 := weight_shift 0 m'.length n'
    rw [weight_append, weight_append, e1, e2, h.length, h'.count]
    cases a <;> cases b <;> simp at h1 h2 ⊢ <;> omega

theorem cons (x : Bool) (h : Earlier a m m') : Earlier a (x :: m) (x :: m') := by
  have := (refl [x]).append h
  simpa using this

/-- Moving set entries over a mask that is not all set. -/
theorem swap (h : Earlier a m m') (p : Nat) {x : Bool}
    (hx : x = true → 0 < p ∧ false ∈ m') :
    Earlier (x || a) (List.replicate p true ++ m) (m' ++ List.replicate p true) where
  length := by simp [h.length, Nat.add_comm]
  count := by simp [h.count, Nat.add_comm]
  weight := by
    have hw := h.weight
    have e1 := weight_shift 0 p m
    have e2 := weight_shift 0 m'.length (List.replicate p true)
    simp only [Nat.zero_add, List.count_replicate_self] at e1 e2
    rw [weight_append, weight_append, List.length_replicate, Nat.zero_add, Nat.zero_add, e1, e2,
      h.count]
    have hle : p * m'.count true + x.toNat ≤ m'.length * p := by
      rw [Nat.mul_comm]
      have hc := List.count_le_length (a := true) (l := m')
      cases x with
      | false => simpa using Nat.mul_le_mul_right p hc
      | true =>
          obtain ⟨hp, hmem⟩ := hx rfl
          have hlt : m'.count true < m'.length := by
            refine lt_of_le_of_ne hc fun heq => ?_
            have := List.count_eq_length.mp heq false hmem
            simp at this
          have := Nat.mul_le_mul_right p (Nat.succ_le_of_lt hlt)
          rw [Nat.succ_mul] at this
          simp only [Bool.toNat_true]
          omega
    cases x <;> cases a <;> simp at hle hw ⊢ <;> omega

/-- A mask that is strictly earlier is another one. -/
theorem ne (h : Earlier true m m') : m ≠ m' := by
  rintro rfl
  have := h.weight
  simp only [Bool.toNat_true] at this
  omega

end Earlier

section

variable [DeciBase]

mutual

/-- A function leaves code that is not the function's at hand. -/
theorem Stmt.hasFun_flags : ∀ s : Stmt, s.hasFun = true → false ∈ flags s.code
  | .funStmt .., _ => by simp [Stmt.code, funCode, returnNil]
  | .ifStmt _ _ c _ _ body _ rest, h => by
      simp only [Stmt.hasFun, Bool.or_eq_true] at h
      simp only [Stmt.code, clauseCode, flags_append, flags_cons, List.mem_append, List.mem_cons]
      exact .inr (.inr (h.imp body.hasFun_flags rest.hasFun_flags))
  | .whileStmt _ _ c _ _ body _, h => by
      simp only [Stmt.code, whileCode, flags_append, flags_cons, List.mem_append, List.mem_cons,
        patch_flags]
      exact .inr (.inr (.inl (body.hasFun_flags h)))
  | .forStmt _ _ pre semi1 cond _ post rp _ body _, h => by
      simp only [Stmt.code, forCode, flags_append, List.mem_append, patch_flags]
      exact .inr (.inr (.inl (body.hasFun_flags h)))
  | .empty _, h | .simple .., h | .returnStmt .., h | .breakStmt .., h | .continueStmt .., h => by
      simp [Stmt.hasFun] at h

/-- `Stmt.hasFun_flags` for statement sequences. -/
theorem Stmts.hasFun_flags : ∀ ss : Stmts, ss.hasFun = true → false ∈ flags ss.code
  | .nil, h => by simp [Stmts.hasFun] at h
  | .cons s ss, h => by
      simp only [Stmts.hasFun, Bool.or_eq_true] at h
      simp only [Stmts.code, flags_append, List.mem_append]
      exact h.imp s.hasFun_flags ss.hasFun_flags

/-- `Stmt.hasFun_flags` for further clauses. -/
theorem Else.hasFun_flags : ∀ e : Else, e.hasFun = true → false ∈ flags e.code
  | .none, h => by simp [Else.hasFun] at h
  | .elifClause _ _ c _ _ body _ rest, h => by
      simp only [Else.hasFun, Bool.or_eq_true] at h
      simp only [Else.code, overCode, clauseCode, flags_append, flags_cons, List.mem_append,
        List.mem_cons]
      exact .inr (.inr (.inr (h.imp body.hasFun_flags rest.hasFun_flags)))
  | .elseClause _ _ body _, h => by
      simp only [Else.code, overCode, flags_cons, List.mem_cons]
      exact .inr (body.hasFun_flags h)

end

theorem Simple.code_ne_nil (next : Lexeme) (s : Simple) : s.code next ≠ [] := by
  cases s <;> simp [Simple.code]

mutual

/-- The mask of a statement is its flags with the third clauses of loops moved to the front. -/
theorem Stmt.mask_earlier : ∀ s : Stmt, Earlier s.postedFun s.mask (flags s.code)
  | .ifStmt _ _ c _ _ body _ rest => by
      simpa [Stmt.mask, Stmt.code, clauseCode, Stmt.postedFun] using
        (Earlier.refl (flags c.code)).append ((body.mask_earlier.append rest.mask_earlier).cons true)
  | .whileStmt _ _ c _ _ body _ => by
      simpa [Stmt.mask, Stmt.code, whileCode, Stmt.postedFun] using
        (Earlier.refl (flags c.code)).append
          ((body.mask_earlier.append (Earlier.refl [true])).cons true)
  | .forStmt _ _ pre semi1 cond _ post rp _ body _ => by
      have hswap := body.mask_earlier.swap (((post.map (Simple.code rp)).getD []).length)
        (x := post.isSome && body.hasFun) (by
          simp only [Bool.and_eq_true]
          rintro ⟨hp, hf⟩
          refine ⟨?_, body.hasFun_flags hf⟩
          obtain ⟨s, rfl⟩ := Option.isSome_iff_exists.mp hp
          exact List.length_pos_iff.mpr (s.code_ne_nil rp))
      rw [← (Simple.optCode_straight rp post).unopened.flags_eq] at hswap
      have := (Earlier.refl (flags ((pre.map (Simple.code semi1)).getD []))).append
        ((Earlier.refl (flags (forCondCode 0 (cond.map Expr.code)))).append
          (hswap.append (Earlier.refl [true])))
      simpa [Stmt.mask, Stmt.code, forCode, Stmt.postedFun, flags_forCondCode _ 0] using this
  | .empty _ | .simple .. | .funStmt .. | .returnStmt .. | .breakStmt .. | .continueStmt .. =>
      .refl _

/-- `Stmt.mask_earlier` for statement sequences. -/
theorem Stmts.mask_earlier : ∀ ss : Stmts, Earlier ss.postedFun ss.mask (flags ss.code)
  | .nil => .refl _
  | .cons s ss => by
      simpa [Stmts.mask, Stmts.code, Stmts.postedFun] using s.mask_earlier.append ss.mask_earlier

/-- `Stmt.mask_earlier` for further clauses. -/
theorem Else.mask_earlier : ∀ e : Else, Earlier e.postedFun e.mask (flags e.code)
  | .none => .refl _
  | .elifClause _ _ c _ _ body _ rest => by
      simpa [Else.mask, Else.code, overCode, clauseCode, Else.postedFun] using
        ((Earlier.refl (flags c.code)).append
          ((body.mask_earlier.append rest.mask_earlier).cons true)).cons true
  | .elseClause _ _ body _ => by
      simpa [Else.mask, Else.code, overCode, Else.postedFun] using body.mask_earlier.cons true

end

/-! ## What the bookkeeping promises -/

end

/-- Position `j` belongs to the function that is being closed and to none nested in it. -/
def Closed.Own (c : Closed) : Nat → Prop :=
  OwnIn (c.prog.map (·.instr)) c.shapes (c.beginPos + 1) c.pos

/-- `close_scope` walks over the own positions of the function, each of them once. -/
structure Closed.Exact (c : Closed) : Prop where
  nodup : c.walked.Nodup
  own : ∀ j, j ∈ c.walked ↔ c.Own j

/-- The opcodes the VM does not know. -/
def Instr.isSymbolic : Instr → Bool
  | opLoadSymbolic _ | opModifySymbolic .. | opStoreSymbolic _ => true
  | _ => false

/-- The instruction of an occurrence of `x`: the local access if `x` is a parameter or a `:=`
target of the function, and the global access otherwise. -/
def AccessOf (q : Option Params × Stmts) (globals : List Bytes) (x : Bytes)
    (byLocal byGlobal : Nat → Instr) (instr : Instr) : Prop :=
  if x ∈ paramNames q.1 ∨ x ∈ q.2.decls then
    ∃ n : Nat, instr = byLocal n ∧ (funLocals q.1 q.2)[n]? = some x
  else ∃ n : Nat, instr = byGlobal n ∧ globals[n]? = some x

/-- What became of an item of a function's code. -/
def Access (q : Option Params × Stmts) (globals : List Bytes) (instr : Instr) : AInstr → Prop
  | .load x => AccessOf q globals x opLoadLocal opLoadGlobal instr
  | .store x => AccessOf q globals x opStoreLocal opStoreGlobal instr
  | .modify a x => AccessOf q globals x (opModifyLocal a) (opModifyGlobal a) instr
  | .storeNew x => ∃ n : Nat, instr = opStoreLocal n ∧ (funLocals q.1 q.2)[n]? = some x
  | _ => True

section

variable [DeciBase]

/-- The scope bookkeeping of a program is right: the walked positions, the absence of symbolic
instructions, the accesses to identifiers and the stack sizes. -/
structure ScopesExact (p : Parser) (c : Chunk) (body : Stmts) : Prop where
  walked : ∀ cl ∈ p.closes, cl.Exact
  noSymbolic : ∀ instr ∈ c.code, instr.isSymbolic = false
  accesses : ∀ i s, c.shapeAt i = some s → ∃ q ∈ body.functions,
    s.offset = (q.2.code ++ returnNil).length + 1 ∧
      ∀ k r, (q.2.code ++ returnNil)[k]? = some r → r.own = true →
        ∃ instr, c.code[i + 1 + k]? = some instr ∧ Access q p.globals instr r.instr
  maxstack : ∀ i s, c.shapeAt i = some s → ∀ t d, c.Path i t d → d ≤ s.maxstack

/-! ## Where the ranges are right -/

theorem Closed.Of.own_iff {c : Closed} {q : Option Params × Stmts} (h : c.Of q)
    (hwf : q.2.Wf false) {j : Nat} :
    c.Own j ↔ j ∈ maskPos (c.beginPos + 1) (flags (q.2.code ++ returnNil)) := by
  obtain ⟨T, hT, hd⟩ := h.code
  have hc : ∀ k r, (q.2.code ++ returnNil)[k]? = some r → ∃ instr,
      (c.prog.map (·.instr))[c.beginPos + 1 + k]? = some instr ∧ DenI T instr r.instr := by
    intro k r hk
    obtain ⟨ti, hti, hden⟩ := forall₂_getElem? hd hk
    rw [List.getElem?_drop] at hti
    exact ⟨ti.instr, by simp [hti], hden.instr⟩
  rw [Closed.Own, h.pos, ownIn_iff hT hc (Stmts.code_return_blocked hwf), mem_maskPos]
  constructor
  · rintro ⟨k, r, rfl, hk, ho⟩
    exact ⟨k, by simp only [flags, List.getElem?_map, hk, Option.map_some, ho], rfl⟩
  · rintro ⟨k, hk, rfl⟩
    obtain ⟨r, hr, ho⟩ := Option.map_eq_some_iff.mp ((List.getElem?_map ..).symm.trans hk)
    exact ⟨k, r, rfl, hr, ho⟩

/-- The walk is exact iff no function is defined in a loop with a third clause. -/
theorem Closed.Of.exact_iff {c : Closed} {q : Option Params × Stmts} (h : c.Of q)
    (hwf : q.2.Wf false) : c.Exact ↔ q.2.postedFun = false := by
  have hflags : flags (q.2.code ++ returnNil) = flags q.2.code ++ [true, true] := by
    simp [returnNil]
  have hmask := q.2.mask_earlier.append (Earlier.refl [true, true])
  rw [Bool.or_false, ← hflags] at hmask
  constructor
  · rintro ⟨-, hown⟩
    by_contra hp
    rw [Bool.not_eq_false] at hp
    rw [hp] at hmask
    refine hmask.ne (mask_ext (i := c.beginPos + 1) hmask.length fun j => ?_)
    rw [← h.walked, hown j, h.own_iff hwf]
  · intro hp
    have heq : q.2.mask ++ [true, true] = flags (q.2.code ++ returnNil) := by
      rw [hflags, q.2.mask_eq hp]
    exact ⟨h.walked ▸ maskPos_nodup _ _, fun j => by rw [h.own_iff hwf, h.walked, heq]⟩

end

/-! ## Resolved code -/

/-- Items of code in which every identifier has been resolved. -/
def AInstr.isResolved : AInstr → Bool
  | .someLoad | .someStore | .someModify _ => false
  | a => a.isClosed

/-- Items of the function at hand before its scope is closed: nothing is lost of them, and the
targets of `:=` are declared. -/
def AInstr.Named (decls : List Bytes) : AInstr → Prop
  | .someLoad | .someStore | .someModify _ => False
  | .storeNew x => x ∈ decls
  | _ => True

theorem resolve_isResolved (names : List Bytes) {decls : List Bytes} {a : AInstr}
    (h : a.isOpen = false) (hn : a.Named decls) : (resolve names a).isResolved = true := by
  cases a <;> simp only [resolve] <;> (try split_ifs) <;>
    simp_all [AInstr.isOpen, AInstr.isResolved, AInstr.isClosed, AInstr.Named]

theorem DenI.not_symbolic {T : Tables} {i : Instr} {a : AInstr} (h : DenI T i a)
    (ha : a.isResolved = true) : i.isSymbolic = false := by
  cases h with
  | @plain i hp => cases i <;> simp_all [Instr.isPlain, Instr.isSymbolic]
  | _ => simp_all [AInstr.isResolved, AInstr.isClosed, Instr.isSymbolic]

/-- Code whose own items are named. -/
def NamedCode (decls : List Bytes) (code : List Item) : Prop :=
  ∀ r ∈ code, r.own = true → r.instr.Named decls

namespace NamedCode

variable {d d' : List Bytes} {l l' : List Item}

theorem nil : NamedCode d [] := by simp [NamedCode]

theorem mine {a : AInstr} {line : Option Nat} (ha : a.Named d) (h : NamedCode d l) :
    NamedCode d (.mine a line :: l) :=
  List.forall_mem_cons.mpr ⟨fun _ => ha, h⟩

theorem append (h : NamedCode d l) (h' : NamedCode d' l') : NamedCode (d ++ d') (l ++ l') := by
  have hmono : ∀ {a : AInstr} {e e' : List Bytes}, (∀ x ∈ e, x ∈ e') → a.Named e → a.Named e' := by
    intro a e e' he ha
    cases a <;> simp_all [AInstr.Named]
  refine List.forall_mem_append.mpr ⟨fun r hr ho => ?_, fun r hr ho => ?_⟩
  · exact hmono (fun x hx => List.mem_append_left _ hx) (h r hr ho)
  · exact hmono (fun x hx => List.mem_append_right _ hx) (h' r hr ho)

theorem patch (h : NamedCode d l) (brk cnt : Int) : NamedCode d (patch brk cnt l) := by
  intro r hr ho
  obtain ⟨-, -, h' | ⟨off, h'⟩⟩ := mem_patch hr
  · exact h r h' ho
  · rw [h']
    trivial

end NamedCode

theorem returnNil_named : NamedCode [] returnNil := .mine trivial (.mine trivial .nil)

/-! ## Stack sizes -/

theorem le_stackWalk (cm : Nat × Nat) (l : List Item) : cm.2 ≤ (stackWalk cm l).2 := by
  induction l generalizing cm with
  | nil => exact le_rfl
  | cons r rs ih => exact le_trans (le_max_left cm.2 (addStack cm.1 r.instr.effect)) (ih (_, _))

theorem addStack_effect {L : Int → Prop} {d : Nat} {a : AInstr} (h : a.Fits L d)
    (hd : d + 1 < sizeMod) : addStack d a.effect = d - a.pops + a.pushes := by
  have h1 := h.pops_le
  have h2 := a.pushes_le
  rw [addStack, a.effect_eq, Int.emod_eq_of_lt (by omega) (by omega)]
  omega

/-- `close_scope` sees every depth of a function's own code. -/
theorem depthAfter_le_stackWalk {L : Int → Prop} {d m : Nat} {l : List Item} (h : Flow L d l)
    (hsmall : d + l.length < sizeMod) (hm : d ≤ m) (k : Nat) :
    depthAfter d (l.take k) ≤ (stackWalk (d, m) (l.filter (·.own))).2 := by
  induction l generalizing L d m k with
  | nil => simpa [stackWalk] using hm
  | cons r rs ih =>
      rw [List.length_cons] at hsmall
      cases k with
      | zero => exact hm.trans (le_stackWalk (d, m) _)
      | succ k =>
          rw [List.take_succ_cons, depthAfter_cons]
          cases ho : r.own with
          | false =>
              have hs : depthStep d r = d := by simp [depthStep, ho]
              have := ih h.2 (by omega) (hs ▸ hm) k
              simpa [ho, hs] using this
          | true =>
              have hs : depthStep d r = d - r.instr.pops + r.instr.pushes := by simp [depthStep, ho]
              have he := addStack_effect (h.1 ho) (by omega)
              have hp := r.instr.pushes_le
              have := ih (m := max m (depthStep d r)) h.2 (by omega) (le_max_right _ _) k
              rw [List.filter_cons_of_pos (by simpa using ho)]
              simpa [stackWalk, he, hs] using this

theorem mem_putNames {ns xs : List Bytes} {x : Bytes} : x ∈ putNames ns xs ↔ x ∈ ns ∨ x ∈ xs := by
  induction xs generalizing ns with
  | nil => simp [putNames]
  | cons y ys ih =>
      have hy : x ∈ (putName ns y).2 ↔ x ∈ ns ∨ x = y := by
        unfold putName
        split
        · rename_i hy
          exact ⟨.inl, fun h => h.elim id fun h => h ▸ hy⟩
        · simp
      change x ∈ putNames (putName ns y).2 ys ↔ _
      rw [ih, hy, List.mem_cons, or_assoc]

theorem mem_funLocals {q : Option Params × Stmts} {x : Bytes} :
    x ∈ funLocals q.1 q.2 ↔ x ∈ paramNames q.1 ∨ x ∈ q.2.decls := mem_putNames

/-- The instruction for an item, once the function's scope has been closed. -/
theorem access_of_resolve {q : Option Params × Stmts} {T : Tables} {instr : Instr} {a : AInstr}
    (h : DenI T instr (resolve (funLocals q.1 q.2) a)) (hn : a.Named q.2.decls) :
    Access q T.globals instr a := by
  cases a with
  | load x | store x | modify _ x =>
      simp only [Access, AccessOf, ← mem_funLocals]
      simp only [resolve] at h
      split_ifs at h ⊢ with hx
      · cases h
        exact ⟨_, rfl, List.getElem?_idxOf hx⟩
      · cases h
        exact ⟨_, rfl, ‹_›⟩
  | storeNew x =>
      cases h
      exact ⟨_, rfl, List.getElem?_idxOf (mem_funLocals.mpr (.inr hn))⟩
  | _ => trivial

section

variable [DeciBase]

/-- The items of an expression declare nothing. -/
theorem Expr.code_named (e : Expr) : NamedCode [] e.code := by
  intro r hr _
  have := (e.code_isExpr r hr).2
  cases hi : r.instr <;> simp_all [AInstr.isExpr, AInstr.Named]

/-- A `:=` store is that of the declared name. -/
theorem assignInstr_named (lhs : Expr) (op : Lexeme) (rhs : Expr) :
    ((assignInstr op.kind lhs.lastInstr).getD (.plain opPrint)).Named
      (Simple.assign lhs op rhs).decls := by
  cases hb : assignInstr op.kind lhs.lastInstr with
  | none => trivial
  | some b =>
      unfold assignInstr at hb
      split at hb
      · rename_i x hx
        split_ifs at hb with h1 h2
        · obtain rfl := Option.some.inj hb
          trivial
        · obtain rfl := Option.some.inj hb
          simp [AInstr.Named, Simple.decls, h2, lhs.lastInstr_eq_load.mp hx]
        · obtain ⟨_, -, rfl⟩ := Option.map_eq_some_iff.mp hb
          trivial
      · split_ifs at hb
        · obtain rfl := Option.some.inj hb
          trivial
        · obtain ⟨_, -, rfl⟩ := Option.map_eq_some_iff.mp hb
          trivial
      · simp at hb

theorem Simple.code_named (next : Lexeme) : ∀ s : Simple, NamedCode s.decls (s.code next)
  | .expr e => e.code_named.append (.mine trivial .nil)
  | .assign lhs op rhs => by
      have hl : NamedCode [] lhs.code.dropLast := fun r hr ho =>
        lhs.code_named r (List.dropLast_subset _ hr) ho
      exact hl.append (rhs.code_named.append (.mine (assignInstr_named lhs op rhs) .nil))

theorem Simple.optCode_named (next : Lexeme) (s : Option Simple) :
    NamedCode ((s.map Simple.decls).getD []) ((s.map (Simple.code next)).getD []) := by
  cases s with
  | none => exact .nil
  | some s => exact s.code_named next

theorem named_forCondCode (cond : Option Expr) (n : Nat) :
    NamedCode [] (forCondCode n (cond.map Expr.code)) := by
  cases cond with
  | none => exact .nil
  | some c => exact c.code_named.append (.mine trivial .nil)

mutual

/-- The own items of a statement are named by its declarations. -/
theorem Stmt.code_named : ∀ s : Stmt, NamedCode s.decls s.code
  | .empty _ => .nil
  | .simple s semi => s.code_named semi
  | .ifStmt _ _ c _ _ body _ rest =>
      c.code_named.append (.mine trivial (body.code_named.append rest.code_named))
  | .whileStmt _ _ c _ _ body _ => by
      have hb := (body.code_named.patch (body.code.length + 1) (-(c.code.length + 1))).append
        (NamedCode.mine trivial .nil :
          NamedCode [] [.mine (.jump (-(c.code.length + 1 + body.code.length : Nat))) none])
      rw [List.append_nil] at hb
      exact c.code_named.append (.mine trivial hb)
  | .forStmt _ _ pre semi1 cond _ post rp _ body _ => by
      have h1 := Simple.optCode_named semi1 pre
      have h2 := Simple.optCode_named rp post
      intro r hr ho
      have hall := h1.append ((named_forCondCode cond
        (body.code.length + ((post.map (Simple.code rp)).getD []).length + 1)).append
          ((body.code_named.patch (body.code.length + ((post.map (Simple.code rp)).getD []).length + 1)
            body.code.length).append (h2.append
              (NamedCode.mine trivial .nil : NamedCode [] [.mine (.jump _) none])))) r hr ho
      cases hi : r.instr <;> (simp_all [AInstr.Named, Stmt.decls]; try tauto)
  | .funStmt _ name _ ps _ _ body _ => by
      have hn : ∀ l, NamedCode [] (nest l) := by
        intro l r hr ho
        obtain ⟨_, -, rfl⟩ := List.mem_map.mp hr
        simp at ho
      exact .mine trivial ((hn _).append (.mine trivial .nil))
  | .returnStmt _ none _ => .mine trivial (.mine trivial .nil)
  | .returnStmt _ (some e) _ => e.code_named.append (.mine trivial .nil)
  | .breakStmt _ _ => .mine trivial .nil
  | .continueStmt _ _ => .mine trivial .nil

/-- `Stmt.code_named` for statement sequences. -/
theorem Stmts.code_named : ∀ ss : Stmts, NamedCode ss.decls ss.code
  | .nil => .nil
  | .cons s ss => s.code_named.append ss.code_named

/-- `Stmt.code_named` for further clauses. -/
theorem Else.code_named : ∀ e : Else, NamedCode e.decls e.code
  | .none => .nil
  | .elifClause _ _ c _ _ body _ rest =>
      .mine trivial (c.code_named.append (.mine trivial
        (body.code_named.append rest.code_named)))
  | .elseClause _ _ body _ => .mine trivial body.code_named

end

/-! ## Programs -/

variable {source : Bytes} {p : Parser} {body : Stmts} {origin : String} {c : Chunk} {T : Tables}
  {i : Nat} {s : Shape} {q : Option Params × Stmts}

theorem Placed.accesses (h : Placed c T i s q) (hp : q.2.postedFun = false) {k : Nat} {r : Item}
    (hk : (q.2.code ++ returnNil)[k]? = some r) (ho : r.own = true) :
    ∃ instr, c.code[i + 1 + k]? = some instr ∧ Access q T.globals instr r.instr := by
  have hkc : (closedCode q)[k]? = some (closeItem q.2.postedFun (funLocals q.1 q.2) r) := by
    rw [closedCode, closeItems_eq, List.getElem?_map, hk]
    rfl
  obtain ⟨instr, hi, hd⟩ := h.code k _ hkc
  refine ⟨instr, hi, access_of_resolve ?_ ?_⟩
  · simpa [closeItem, ho, closeInstr, hp] using hd
  · simpa using (q.2.code_named.append returnNil_named) r (List.mem_of_getElem? hk) ho

/-- The code of a function fits at every depth counted up to it. -/
theorem Stmts.flow_returnNil (body : Stmts) (hwf : body.Wf false) :
    Flow (fun _ => True) 0 (body.code ++ returnNil) := by
  have hb := body.code_balanced false hwf
  rw [flow_append, hb.depth]
  exact ⟨hb.flow.mono fun _ _ => trivial, returnNil_balanced.flow.mono fun _ _ => trivial⟩

theorem Placed.maxstack (h : Placed c T i s q) (hp : q.2.postedFun = false) {t d : Int}
    (hpath : c.Path i t d) : d ≤ s.maxstack := by
  obtain ⟨j, rfl, hown, rfl⟩ := h.disciplined.path hpath
  obtain ⟨k, r, rfl, -, -⟩ := h.own_iff.mp hown
  have hm := h.agrees.maxstack (stackWalk (0, 0) ((q.2.code ++ returnNil).filter (·.own))).2 (by
    simp [shapeInfo, funInfo, hp])
  have hflow := q.2.flow_returnNil h.wf
  have hlen := h.small
  rw [closedCode_length] at hlen
  have hle := depthAfter_le_stackWalk hflow (by simp only [sizeMod]; omega) le_rfl k
  rw [hm, Placed.depth_eq]
  rw [closedCode, closeItems_eq, ← List.map_take, ← closeItems_eq, depthAfter_closeItems]
  exact_mod_cast hle

/-- Without a function in a loop with a third clause, no symbolic instruction remains. -/
theorem Follows.noSymbolic (h : Follows source p body)
    (hp : ∀ q ∈ body.functions, q.2.postedFun = false) :
    ∀ instr ∈ (toChunk p source origin).code, instr.isSymbolic = false := by
  intro instr hinstr
  obtain ⟨ti, hti, rfl⟩ := List.mem_map.mp hinstr
  obtain ⟨j, hj⟩ := List.getElem?_of_mem hti
  obtain ⟨it, hit, hd⟩ := forall₂_getElem?_left h.code hj
  refine hd.instr.not_symbolic ?_
  have hnested := (Stmts.program_blocked h.wf).nested (R := fun a => a.isResolved = true) (by
    rintro f code ⟨q, hq, hwf, -, rfl⟩ r hr ho
    rw [closeItems_eq] at hr
    obtain ⟨r₀, hr₀, rfl⟩ := List.mem_map.mp hr
    rw [closeItem_own] at ho
    have hopen : r₀.instr.isOpen = false := by
      have hl : Layout false (q.2.code ++ returnNil) :=
        (q.2.code_layout false hwf).append (.straight returnNil_straight)
      have h1 := hl.noIf r₀ hr₀
      have h2 := hl.noLoop rfl r₀ hr₀
      cases hi : r₀.instr <;> simp_all [AInstr.isOpen]
    have hnamed := (q.2.code_named.append returnNil_named) r₀ hr₀ ho
    simpa [closeItem, ho, closeInstr, hp q hq] using
      resolve_isResolved (funLocals q.1 q.2) hopen hnamed) it (List.mem_of_getElem? hit)
  cases ho : it.own with
  | false => exact hnested ho
  | true =>
      cases j with
      | zero =>
          obtain rfl := Option.some.inj hit
          rfl
      | succ j =>
          rw [Stmts.program, nestedCode, List.getElem?_cons_succ, nest_getElem?] at hit
          obtain ⟨r', -, rfl⟩ := Option.map_eq_some_iff.mp hit
          simp at ho

mutual

/-- The functions in a well-formed statement are well-formed. -/
theorem Stmt.funs_wf : ∀ (b : Bool) (s : Stmt), s.Wf b → ∀ q ∈ s.funs, q.2.Wf false
  | b, .ifStmt _ _ _ _ _ body _ rest, h =>
      List.forall_mem_append.mpr ⟨body.funs_wf b h.2.2.2.2.2.1, rest.funs_wf b h.2.2.2.2.2.2.2⟩
  | _, .whileStmt _ _ _ _ _ body _, h => body.funs_wf true h.2.2.2.2.2.1
  | _, .forStmt _ _ _ _ _ _ _ _ _ body _, h => body.funs_wf true h.2.2.2.2.2.2.2.2.2.1
  | _, .funStmt _ _ _ ps _ _ body _, h =>
      List.forall_mem_append.mpr ⟨body.funs_wf false h.2.2.2.2.2.2.1, by
        simpa using h.2.2.2.2.2.2.1⟩
  | _, .empty _, _ | _, .simple .., _ | _, .returnStmt .., _ | _, .breakStmt .., _
  | _, .continueStmt .., _ => by simp [Stmt.funs]

/-- `Stmt.funs_wf` for statement sequences. -/
theorem Stmts.funs_wf : ∀ (b : Bool) (ss : Stmts), ss.Wf b → ∀ q ∈ ss.funs, q.2.Wf false
  | _, .nil, _ => by simp [Stmts.funs]
  | b, .cons s ss, h => List.forall_mem_append.mpr ⟨s.funs_wf b h.1, ss.funs_wf b h.2⟩

/-- `Stmt.funs_wf` for further clauses. -/
theorem Else.funs_wf : ∀ (b : Bool) (e : Else), e.Wf b → ∀ q ∈ e.funs, q.2.Wf false
  | _, .none, _ => by simp [Else.funs]
  | b, .elifClause _ _ _ _ _ body _ rest, h =>
      List.forall_mem_append.mpr ⟨body.funs_wf b h.2.2.2.2.2.1, rest.funs_wf b h.2.2.2.2.2.2.2⟩
  | b, .elseClause _ _ body _, h => body.funs_wf b h.2.2.1

end

theorem Stmts.functions_wf {body : Stmts} (h : body.Wf false) :
    ∀ q ∈ body.functions, q.2.Wf false :=
  List.forall_mem_append.mpr ⟨body.funs_wf false h, by simpa using h⟩

/-- The scope bookkeeping of an accepted source is right iff no function of it is defined inside
the body of a `for` loop with a third clause. -/
theorem scopes_exact_iff {globals : List Bytes}
    (h : parseState (parseFuel source) globals source = .ok p) :
    ∃ body : Stmts, Follows source p body ∧
      (ScopesExact p (toChunk p source origin) body ↔
        ∀ q ∈ body.functions, q.2.postedFun = false) := by
  obtain ⟨body, hf⟩ := parse_sound h
  have hwf := Stmts.functions_wf hf.wf
  refine ⟨body, hf, fun hs q hq => ?_, fun hp => ⟨fun cl hcl => ?_, hf.noSymbolic hp, ?_, ?_⟩⟩
  · obtain ⟨n, hn⟩ := List.getElem?_of_mem hq
    obtain ⟨cl, hcl, hof⟩ := forall₂_getElem? hf.closes hn
    exact (hof.exact_iff (hwf q hq)).mp (hs.walked cl (List.mem_of_getElem? hcl))
  · obtain ⟨n, hn⟩ := List.getElem?_of_mem hcl
    obtain ⟨q, hq, hof⟩ := forall₂_getElem?_left hf.closes hn
    have hq := List.mem_of_getElem? hq
    exact (hof.exact_iff (hwf q hq)).mpr (hp q hq)
  · intro i s hs
    obtain ⟨q, hq, hpl⟩ := hf.placed hs
    exact ⟨q, hq, by rw [hpl.offset_eq, closedCode_length],
      fun k r hk ho => hpl.accesses (hp q hq) hk ho⟩
  · intro i s hs t d hpath
    obtain ⟨q, hq, hpl⟩ := hf.placed hs
    exact hpl.maxstack (hp q hq) hpath

end

/-- `scopes_exact_iff` at a function defined in the body of a loop with a third clause. -/
theorem scopes_exact_iff_posted :
    ∃ p body, @parseState deciBase64 (parseFuel (bytesOf "for(;;i=1){fun f(){}}")) []
        (bytesOf "for(;;i=1){fun f(){}}") = .ok p ∧
      @Follows deciBase64 (bytesOf "for(;;i=1){fun f(){}}") p body ∧
      ¬ ∀ q ∈ body.functions, q.2.postedFun = false := by
  obtain ⟨p, hp, hsym⟩ : ∃ p, @parseState deciBase64 (parseFuel (bytesOf "for(;;i=1){fun f(){}}")) []
      (bytesOf "for(;;i=1){fun f(){}}") = .ok p ∧
      ¬ ∀ instr ∈ p.prog.map (·.instr), instr.isSymbolic = false := ⟨_, rfl, by decide⟩
  obtain ⟨body, hf, hiff⟩ := @scopes_exact_iff deciBase64 _ p "" _ hp
  refine ⟨p, body, hp, hf, fun hq => hsym ?_⟩
  exact @ScopesExact.noSymbolic deciBase64 _ _ _ (hiff.mpr hq)

/-- A function in the body of a loop with a third clause: the store of `f` keeps its symbolic
opcode. -/
theorem posted_fun_not_exact :
    ∃ p, @parseState deciBase64 (parseFuel (bytesOf "for(;;i=1){fun f(){}}")) []
        (bytesOf "for(;;i=1){fun f(){}}") = .ok p ∧
      ∀ body, ¬ @ScopesExact deciBase64 p (toChunk p (bytesOf "for(;;i=1){fun f(){}}") "") body := by
  refine ⟨_, rfl, fun body h => ?_⟩
  have hsym := @ScopesExact.noSymbolic deciBase64 _ _ _ h
  revert hsym
  decide

end Calx
