import Calx.Layout

/-!
# The layout of a tree's code

The code of every well-formed tree is divided into blocks, no `break` or
`continue` outside a loop stays open, and closing a function leaves the
division as it is. The mask of a tree tells which instructions belong to the
function at hand in the order in which they are emitted, where the third
clause of a `for` loop comes before the body.
-/

namespace Calx

open LexemeKind Instr

/-! ## Closing a function -/

theorem resolve_isClosed (names : List Bytes) {a : AInstr} (h : a.isOpen = false) :
    (resolve names a).isClosed = true := by
  cases a <;> simp only [resolve] <;> (try split_ifs) <;> simp_all [AInstr.isOpen, AInstr.isClosed]

theorem blur_isClosed (names : List Bytes) {a : AInstr} (h : a.isOpen = false) :
    (blur names a).isClosed = true := by
  cases a <;> simp_all [blur, AInstr.isOpen, AInstr.isClosed]

theorem resolve_eq_self (names : List Bytes) {a : AInstr} (h : a.isClosed = true) :
    resolve names a = a := by
  cases a <;> simp_all [resolve, AInstr.isClosed]

theorem blur_eq_self (names : List Bytes) {a : AInstr} (h : a.isClosed = true) :
    blur names a = a := by
  cases a <;> simp_all [blur, AInstr.isClosed]

theorem resolve_ne_function (names : List Bytes) {a : AInstr} (h : ∀ f, a ≠ .function f)
    (f : FunInfo) : resolve names a ≠ .function f := by
  cases a <;> simp only [resolve] <;> (try split_ifs) <;> simp_all

theorem blur_ne_function (names : List Bytes) {a : AInstr} (h : ∀ f, a ≠ .function f)
    (f : FunInfo) : blur names a ≠ .function f := by
  cases a <;> simp_all [blur]

/-- What closing a function makes of one instruction. -/
def closeInstr (posted : Bool) (names : List Bytes) (a : AInstr) : AInstr :=
  if posted then blur names a else resolve names a

theorem closeInstr_isClosed (posted : Bool) (names : List Bytes) {a : AInstr}
    (h : a.isOpen = false) : (closeInstr posted names a).isClosed = true := by
  unfold closeInstr
  split
  · exact blur_isClosed names h
  · exact resolve_isClosed names h

theorem closeInstr_eq_self (posted : Bool) (names : List Bytes) {a : AInstr}
    (h : a.isClosed = true) : closeInstr posted names a = a := by
  unfold closeInstr
  split
  · exact blur_eq_self names h
  · exact resolve_eq_self names h

theorem closeInstr_ne_function (posted : Bool) (names : List Bytes) {a : AInstr}
    (h : ∀ f, a ≠ .function f) (f : FunInfo) : closeInstr posted names a ≠ .function f := by
  unfold closeInstr
  split
  · exact blur_ne_function names h f
  · exact resolve_ne_function names h f

/-- What closing a function makes of one item. -/
def closeItem (posted : Bool) (names : List Bytes) (r : Item) : Item :=
  if r.own then { r with instr := closeInstr posted names r.instr } else r

theorem closeItems_eq (posted : Bool) (names : List Bytes) (code : List Item) :
    closeItems posted names code = code.map (closeItem posted names) := rfl

@[simp] theorem closeItem_own (posted : Bool) (names : List Bytes) (r : Item) :
    (closeItem posted names r).own = r.own := by
  unfold closeItem
  split <;> rfl

@[simp] theorem closeItem_line (posted : Bool) (names : List Bytes) (r : Item) :
    (closeItem posted names r).line = r.line := by
  unfold closeItem
  split <;> rfl

@[simp] theorem closeItems_length (posted : Bool) (names : List Bytes) (code : List Item) :
    (closeItems posted names code).length = code.length := List.length_map _

@[simp] theorem closeItems_flags (posted : Bool) (names : List Bytes) (code : List Item) :
    flags (closeItems posted names code) = flags code := by
  simp [closeItems_eq, flags]

theorem closeItem_instr (posted : Bool) (names : List Bytes) {r : Item}
    (h : r.own = false → r.instr.isClosed = true) :
    (closeItem posted names r).instr = closeInstr posted names r.instr := by
  unfold closeItem
  cases ho : r.own with
  | true => rfl
  | false => simp [closeInstr_eq_self posted names (h ho)]

theorem closeItems_nest (posted : Bool) (names : List Bytes) (code : List Item) :
    closeItems posted names (nest code) = nest code := by
  rw [closeItems_eq, nest, List.map_map]
  rfl

theorem Blocked.closeItems {P : FunInfo → List Item → Prop} {l : List Item} (h : Blocked P l)
    (posted : Bool) (names : List Bytes) : Blocked P (closeItems posted names l) := by
  induction h with
  | nil => exact .nil
  | @own r rs ho hf _ ih =>
      refine .own (r := closeItem posted names r) (by simpa using ho) ?_ ih
      intro f
      rw [closeItem_instr _ _ (by simp [ho])]
      exact closeInstr_ne_function posted names hf f
  | @function f line code rs hp hc hlen hcl _ _ ih =>
      have hf : closeItem posted names (.mine (.function f) line) = .mine (.function f) line := by
        simp [closeItem, Item.mine, closeInstr_eq_self posted names (a := .function f) rfl]
      have hn := closeItems_nest posted names code
      rw [closeItems_eq] at ih hn ⊢
      rw [List.map_cons, List.map_append, hf, hn]
      exact .function hp hc hlen hcl ih

theorem Layout.closeItems_isClosed {l : List Item} (h : Layout false l) (posted : Bool)
    (names : List Bytes) : ∀ r ∈ closeItems posted names l, r.instr.isClosed = true := by
  intro r hr
  rw [closeItems_eq] at hr
  obtain ⟨x, hx, rfl⟩ := List.mem_map.mp hr
  have hcl := h.blocked.isClosed x hx
  exact (closeItem_instr posted names hcl) ▸
    closeInstr_isClosed posted names (h.isOpen_eq_false x hx)

/-! ## The code of a tree -/

theorem returnNil_straight : Straight returnNil := by
  simp [returnNil, AInstr.isStraight]

section

variable {b : Bool}

theorem Layout.clause {cond body rest : List Item} (hc : Straight cond) (hb : Layout b body)
    (hr : Layout b rest) : Layout b (clauseCode cond body rest) :=
  (Layout.straight hc).append (.cons rfl (by simp) (hb.append hr))

theorem Layout.whileCode {c : Bool} {cond body : List Item} (hc : Straight cond)
    (hb : Layout c body) : Layout b (whileCode cond body) :=
  (Layout.straight hc).append
    (.cons rfl (by simp) ((hb.patch _ _).append (.cons rfl (by simp) .nil)))

theorem Layout.forCondCode {cond : Option (List Item)} (hc : ∀ l ∈ cond, Straight l) (n : Nat) :
    Layout b (forCondCode n cond) := by
  cases cond with
  | none => exact .nil
  | some cond => exact (Layout.straight (hc cond rfl)).append (.cons rfl (by simp) .nil)

theorem Blocked.forCondCode {P : FunInfo → List Item → Prop} {cond : Option (List Item)}
    (hc : ∀ l ∈ cond, Straight l) (n : Nat) : Blocked P (forCondCode n cond) := by
  cases cond with
  | none => exact .nil
  | some cond => exact (Blocked.straight (hc cond rfl)).append (.mine (by simp) .nil)

theorem Layout.forCode {c : Bool} {pre post body : List Item} {cond : Option (List Item)}
    (hpre : Straight pre) (hc : ∀ l ∈ cond, Straight l) (hpost : Straight post)
    (hb : Layout c body) : Layout b (forCode pre cond post body) :=
  (Layout.straight hpre).append ((Layout.forCondCode hc _).append ((hb.patch _ _).append
    ((Layout.straight hpost).append (.cons rfl (by simp) .nil))))

theorem Layout.funCode {ps : Option Params} {names : List Bytes} {posted : Bool}
    {body rest : List Item} (hb : Layout false body) (hr : Layout b rest) :
    Layout b ((funCode ps names posted body).take 1 ++
      (nest (funCode ps names posted body).tail ++ rest)) := by
  have hcl := hb.closeItems_isClosed posted names
  have hne : ∀ r ∈ nest (Calx.closeItems posted names body), r.instr.isClosed = true := by
    intro r hr
    obtain ⟨r', hr', rfl⟩ := List.mem_map.mp hr
    exact hcl r' hr'
  have hop : ∀ r ∈ nest (Calx.closeItems posted names body), ∀ a : AInstr, a.isClosed = false →
      r.instr ≠ a := by
    rintro r hr a ha rfl
    simp [hne r hr] at ha
  refine ⟨.function trivial (hb.blocked.closeItems posted names) (by simp [funInfo, Calx.funCode]) hcl hr.blocked,
    ?_, fun hbf => ?_⟩
  · simp only [Calx.funCode, List.take_succ_cons, List.take_zero, List.tail_cons,
      List.forall_mem_append, List.forall_mem_cons]
    exact ⟨⟨by simp, by simp⟩, fun r hr => hop r hr _ rfl, hr.noIf⟩
  · simp only [Calx.funCode, List.take_succ_cons, List.take_zero, List.tail_cons,
      List.forall_mem_append, List.forall_mem_cons]
    exact ⟨⟨by simp, by simp⟩, fun r hr => ⟨hop r hr _ rfl, hop r hr _ rfl⟩, hr.noLoop hbf⟩

theorem own_forCondCode {cond : Option (List Item)} (hc : ∀ l ∈ cond, Straight l) (n : Nat) :
    ∀ r ∈ forCondCode n cond, r.own = true := by
  cases cond with
  | none => simp [forCondCode]
  | some cond =>
      simp only [forCondCode, List.forall_mem_append, List.forall_mem_singleton]
      exact ⟨fun r hr => (hc cond rfl r hr).1, rfl⟩

theorem flags_forCondCode (n m : Nat) (cond : Option (List Item)) :
    flags (forCondCode n cond) = flags (forCondCode m cond) := by
  cases cond <;> simp [forCondCode]

theorem own_patch {brk cnt : Int} {l : List Item} (h : ∀ r ∈ l, r.own = true) :
    ∀ r ∈ patch brk cnt l, r.own = true := by
  have hf : ∀ b ∈ flags (patch brk cnt l), b = true := by
    rw [patch_flags]
    simpa [flags] using h
  simpa [flags] using hf

/-- Flags that are all set commute. -/
theorem flags_comm {l l' : List Item} (h : ∀ r ∈ l, r.own = true) (h' : ∀ r ∈ l', r.own = true) :
    flags l ++ flags l' = flags l' ++ flags l := by
  have hr : ∀ {l : List Item}, (∀ r ∈ l, r.own = true) → flags l = List.replicate l.length true :=
    fun h => List.eq_replicate_iff.mpr ⟨flags_length _, by simpa [flags] using h⟩
  rw [hr h, hr h', List.replicate_append_replicate, List.replicate_append_replicate, Nat.add_comm]

variable [DeciBase]

theorem Simple.optCode_straight (next : Lexeme) (s : Option Simple) :
    Straight ((s.map (Simple.code next)).getD []) := by
  cases s with
  | none => simp
  | some s => exact s.code_straight next

theorem Expr.optCode_straight (e : Option Expr) : ∀ l ∈ e.map Expr.code, Straight l := by
  cases e with
  | none => simp
  | some e => simp [e.code_straight]

mutual

/-- The layout of a well-formed statement's code. -/
theorem Stmt.code_layout : ∀ (b : Bool) (s : Stmt), s.Wf b → Layout b s.code
  | _, .empty _, _ => .nil
  | _, .simple s semi, _ => .straight (s.code_straight semi)
  | b, .ifStmt _ _ c _ _ body _ rest, h =>
      .clause c.code_straight (body.code_layout b h.2.2.2.2.2.1) (rest.code_layout b h.2.2.2.2.2.2.2)
  | _, .whileStmt _ _ c _ _ body _, h =>
      .whileCode c.code_straight (body.code_layout true h.2.2.2.2.2.1)
  | _, .forStmt _ _ pre semi1 cond _ post rp _ body _, h =>
      .forCode (Simple.optCode_straight semi1 pre) (Expr.optCode_straight cond)
        (Simple.optCode_straight rp post) (body.code_layout true h.2.2.2.2.2.2.2.2.2.1)
  | _, .funStmt _ _ _ _ _ _ body _, h =>
      .funCode ((body.code_layout false h.2.2.2.2.2.2.1).append (.straight returnNil_straight))
        (.cons rfl (by simp) .nil)
  | _, .returnStmt _ none _, _ => .straight returnNil_straight
  | _, .returnStmt _ (some e) _, _ => by
      rw [Stmt.code]
      exact .straight (by simp [e.code_straight, AInstr.isStraight])
  | b, .breakStmt _ _, h =>
      ⟨.own rfl (by simp) .nil, by simp [Stmt.code], fun hb => by simp [h.1] at hb⟩
  | b, .continueStmt _ _, h =>
      ⟨.own rfl (by simp) .nil, by simp [Stmt.code], fun hb => by simp [h.1] at hb⟩

/-- The layout of a well-formed statement sequence's code. -/
theorem Stmts.code_layout : ∀ (b : Bool) (ss : Stmts), ss.Wf b → Layout b ss.code
  | _, .nil, _ => .nil
  | b, .cons s ss, h => (s.code_layout b h.1).append (ss.code_layout b h.2)

/-- The layout of the code of further clauses. -/
theorem Else.code_layout : ∀ (b : Bool) (e : Else), e.Wf b → Layout b e.code
  | _, .none, _ => .nil
  | b, .elifClause _ _ c _ _ body _ rest, h =>
      .cons rfl (by simp) (.clause c.code_straight (body.code_layout b h.2.2.2.2.2.1)
        (rest.code_layout b h.2.2.2.2.2.2.2))
  | b, .elseClause _ _ body _, h => .cons rfl (by simp) (body.code_layout b h.2.2.1)

end

/-! ## Masks -/

mutual

/-- The flags of a statement's instructions in the order in which they are emitted. -/
def Stmt.mask : Stmt → List Bool
  | .ifStmt _ _ c _ _ body _ rest => flags c.code ++ true :: (body.mask ++ rest.mask)
  | .whileStmt _ _ c _ _ body _ => flags c.code ++ true :: (body.mask ++ [true])
  | .forStmt _ _ pre semi1 cond _ post rp _ body _ =>
      flags ((pre.map (Simple.code semi1)).getD []) ++
        (flags (forCondCode 0 (cond.map Expr.code)) ++
          (flags ((post.map (Simple.code rp)).getD []) ++ (body.mask ++ [true])))
  | s => flags s.code

/-- The flags of a statement sequence's instructions in the order of emission. -/
def Stmts.mask : Stmts → List Bool
  | .nil => []
  | .cons s ss => s.mask ++ ss.mask

/-- The flags of the instructions of further clauses in the order of emission. -/
def Else.mask : Else → List Bool
  | .none => []
  | .elifClause _ _ c _ _ body _ rest =>
      true :: (flags c.code ++ true :: (body.mask ++ rest.mask))
  | .elseClause _ _ body _ => true :: body.mask

end

mutual

/-- A statement without a function has no nested code. -/
theorem Stmt.code_own : ∀ s : Stmt, s.hasFun = false → ∀ r ∈ s.code, r.own = true
  | .empty _, _ => by simp [Stmt.code]
  | .simple s semi, _ => fun r hr => (s.code_straight semi r hr).1
  | .ifStmt _ _ c _ _ body _ rest, h => by
      simp only [Stmt.hasFun, Bool.or_eq_false_iff] at h
      simp only [Stmt.code, clauseCode, List.forall_mem_append, List.forall_mem_cons]
      exact ⟨fun r hr => (c.code_straight r hr).1, rfl, body.code_own h.1, rest.code_own h.2⟩
  | .whileStmt _ _ c _ _ body _, h => by
      simp only [Stmt.code, whileCode, List.forall_mem_append, List.forall_mem_cons]
      exact ⟨fun r hr => (c.code_straight r hr).1, rfl, own_patch (body.code_own h), rfl, by simp⟩
  | .forStmt _ _ pre semi1 cond _ post rp _ body _, h => by
      simp only [Stmt.code, forCode, List.forall_mem_append, List.forall_mem_cons]
      exact ⟨fun r hr => (Simple.optCode_straight semi1 pre r hr).1,
        own_forCondCode (Expr.optCode_straight cond) _, own_patch (body.code_own h),
        fun r hr => (Simple.optCode_straight rp post r hr).1, rfl, by simp⟩
  | .funStmt .., h => by simp [Stmt.hasFun] at h
  | .returnStmt _ none _, _ => by simp [Stmt.code, returnNil]
  | .returnStmt _ (some e) _, _ => by
      simp only [Stmt.code, List.forall_mem_append, List.forall_mem_singleton]
      exact ⟨fun r hr => (e.code_straight r hr).1, rfl⟩
  | .breakStmt _ _, _ => by simp [Stmt.code]
  | .continueStmt _ _, _ => by simp [Stmt.code]

/-- A statement sequence without a function has no nested code. -/
theorem Stmts.code_own : ∀ ss : Stmts, ss.hasFun = false → ∀ r ∈ ss.code, r.own = true
  | .nil, _ => by simp [Stmts.code]
  | .cons s ss, h => by
      simp only [Stmts.hasFun, Bool.or_eq_false_iff] at h
      exact List.forall_mem_append.mpr ⟨s.code_own h.1, ss.code_own h.2⟩

/-- Further clauses without a function have no nested code. -/
theorem Else.code_own : ∀ e : Else, e.hasFun = false → ∀ r ∈ e.code, r.own = true
  | .none, _ => by simp [Else.code]
  | .elifClause _ _ c _ _ body _ rest, h => by
      simp only [Else.hasFun, Bool.or_eq_false_iff] at h
      simp only [Else.code, overCode, clauseCode, List.forall_mem_append, List.forall_mem_cons]
      exact ⟨rfl, fun r hr => (c.code_straight r hr).1, rfl, body.code_own h.1, rest.code_own h.2⟩
  | .elseClause _ _ body _, h => by
      simp only [Else.code, overCode, List.forall_mem_cons]
      exact ⟨rfl, body.code_own h⟩

end

mutual

/-- Unless a function is defined inside a loop with a third clause, the order of emission does not
matter for the mask. -/
theorem Stmt.mask_eq : ∀ s : Stmt, s.postedFun = false → s.mask = flags s.code
  | .ifStmt _ _ c _ _ body _ rest, h => by
      simp only [Stmt.postedFun, Bool.or_eq_false_iff] at h
      simp [Stmt.mask, Stmt.code, clauseCode, body.mask_eq h.1, rest.mask_eq h.2]
  | .whileStmt _ _ c _ _ body _, h => by
      simp [Stmt.mask, Stmt.code, whileCode, body.mask_eq h]
  | .forStmt _ _ pre semi1 cond _ post rp _ body _, h => by
      simp only [Stmt.postedFun, Bool.or_eq_false_iff, Bool.and_eq_false_iff] at h
      obtain ⟨hpost, hbody⟩ := h
      have hcomm : flags ((post.map (Simple.code rp)).getD []) ++ flags body.code =
          flags body.code ++ flags ((post.map (Simple.code rp)).getD []) := by
        obtain hpost | hfun := hpost
        · obtain rfl : post = none := by simpa using hpost
          simp
        · exact flags_comm (fun r hr => (Simple.optCode_straight rp post r hr).1)
            (body.code_own hfun)
      simp only [Stmt.mask, Stmt.code, forCode, flags_append, patch_flags, flags_cons, flags_nil,
        Item.mine_own, body.mask_eq hbody, ← List.append_assoc]
      rw [flags_forCondCode 0, List.append_assoc _ (flags ((post.map (Simple.code rp)).getD [])),
        hcomm, ← List.append_assoc]
  | .empty _, _ | .simple .., _ | .funStmt .., _ | .returnStmt .., _ | .breakStmt .., _
  | .continueStmt .., _ => rfl

/-- `Stmt.mask_eq` for statement sequences. -/
theorem Stmts.mask_eq : ∀ ss : Stmts, ss.postedFun = false → ss.mask = flags ss.code
  | .nil, _ => rfl
  | .cons s ss, h => by
      simp only [Stmts.postedFun, Bool.or_eq_false_iff] at h
      simp [Stmts.mask, Stmts.code, s.mask_eq h.1, ss.mask_eq h.2]

/-- `Stmt.mask_eq` for further clauses. -/
theorem Else.mask_eq : ∀ e : Else, e.postedFun = false → e.mask = flags e.code
  | .none, _ => rfl
  | .elifClause _ _ c _ _ body _ rest, h => by
      simp only [Else.postedFun, Bool.or_eq_false_iff] at h
      simp [Else.mask, Else.code, overCode, clauseCode, body.mask_eq h.1, rest.mask_eq h.2]
  | .elseClause _ _ body _, h => by
      simp [Else.mask, Else.code, overCode, body.mask_eq h]

end

end

mutual

/-- The functions defined in a statement, in the order in which they end. -/
def Stmt.funs : Stmt → List (Option Params × Stmts)
  | .ifStmt _ _ _ _ _ body _ rest => body.funs ++ rest.funs
  | .whileStmt _ _ _ _ _ body _ => body.funs
  | .forStmt _ _ _ _ _ _ _ _ _ body _ => body.funs
  | .funStmt _ _ _ ps _ _ body _ => body.funs ++ [(ps, body)]
  | _ => []

/-- The functions defined in a statement sequence. -/
def Stmts.funs : Stmts → List (Option Params × Stmts)
  | .nil => []
  | .cons s ss => s.funs ++ ss.funs

/-- The functions defined in further clauses. -/
def Else.funs : Else → List (Option Params × Stmts)
  | .none => []
  | .elifClause _ _ _ _ _ body _ rest => body.funs ++ rest.funs
  | .elseClause _ _ body _ => body.funs

end

/-! ## Nested functions -/

section

variable [DeciBase]

/-- The code of one of the functions `fs`, after its scope has been closed. -/
def FunOf (fs : List (Option Params × Stmts)) (f : FunInfo) (code : List Item) : Prop :=
  ∃ q ∈ fs, q.2.Wf false ∧
    f = funInfo q.1 (funLocals q.1 q.2) q.2.postedFun (q.2.code ++ returnNil) ∧
    code = closeItems q.2.postedFun (funLocals q.1 q.2) (q.2.code ++ returnNil)

variable {fs gs : List (Option Params × Stmts)} {l l' : List Item}

theorem FunOf.mono (h : ∀ q ∈ fs, q ∈ gs) (f : FunInfo) (code : List Item) :
    FunOf fs f code → FunOf gs f code := by
  rintro ⟨q, hq, hf⟩
  exact ⟨q, h q hq, hf⟩

theorem Blocked.append_funs (h : Blocked (FunOf fs) l) (h' : Blocked (FunOf gs) l') :
    Blocked (FunOf (fs ++ gs)) (l ++ l') :=
  (h.mono (FunOf.mono fun _ hq => List.mem_append_left _ hq)).append
    (h'.mono (FunOf.mono fun _ hq => List.mem_append_right _ hq))

mutual

/-- Every `OP_FUNCTION` item of a statement's code is that of one of its functions. -/
theorem Stmt.code_blocked : ∀ (b : Bool) (s : Stmt), s.Wf b → Blocked (FunOf s.funs) s.code
  | _, .empty _, _ => .nil
  | _, .simple s semi, _ => .straight (s.code_straight semi)
  | b, .ifStmt _ _ c _ _ body _ rest, h =>
      (Blocked.straight c.code_straight).append (.mine (by simp)
        ((body.code_blocked b h.2.2.2.2.2.1).append_funs (rest.code_blocked b h.2.2.2.2.2.2.2)))
  | _, .whileStmt _ _ c _ _ body _, h =>
      (Blocked.straight c.code_straight).append (.mine (by simp)
        (((body.code_blocked true h.2.2.2.2.2.1).patch _ _).append (.mine (by simp) .nil)))
  | _, .forStmt _ _ pre semi1 cond _ post rp _ body _, h =>
      (Blocked.straight (Simple.optCode_straight semi1 pre)).append
        ((Blocked.forCondCode (Expr.optCode_straight cond) _).append
          (((body.code_blocked true h.2.2.2.2.2.2.2.2.2.1).patch _ _).append
            ((Blocked.straight (Simple.optCode_straight rp post)).append (.mine (by simp) .nil))))
  | _, .funStmt _ _ _ ps _ _ body _, h => by
      have hwf := h.2.2.2.2.2.2.1
      have hl : Layout false (body.code ++ returnNil) :=
        (body.code_layout false hwf).append (.straight returnNil_straight)
      have hb := (body.code_blocked false hwf).append_funs
        (Blocked.straight returnNil_straight : Blocked (FunOf [(ps, body)]) returnNil)
      exact Blocked.function ⟨(ps, body), by simp [Stmt.funs], hwf, rfl, rfl⟩
        (hb.closeItems body.postedFun (funLocals ps body)) (by simp [funInfo, funCode])
        (hl.closeItems_isClosed body.postedFun (funLocals ps body)) (.mine (by simp) .nil)
  | _, .returnStmt _ none _, _ => .straight returnNil_straight
  | _, .returnStmt _ (some e) _, _ =>
      (Blocked.straight e.code_straight).append (.mine (by simp) .nil)
  | _, .breakStmt _ _, _ => .mine (by simp) .nil
  | _, .continueStmt _ _, _ => .mine (by simp) .nil

/-- `Stmt.code_blocked` for statement sequences. -/
theorem Stmts.code_blocked : ∀ (b : Bool) (ss : Stmts), ss.Wf b → Blocked (FunOf ss.funs) ss.code
  | _, .nil, _ => .nil
  | b, .cons s ss, h => (s.code_blocked b h.1).append_funs (ss.code_blocked b h.2)

/-- `Stmt.code_blocked` for further clauses. -/
theorem Else.code_blocked : ∀ (b : Bool) (e : Else), e.Wf b → Blocked (FunOf e.funs) e.code
  | _, .none, _ => .nil
  | b, .elifClause _ _ c _ _ body _ rest, h =>
      .mine (by simp) ((Blocked.straight c.code_straight).append (.mine (by simp)
        ((body.code_blocked b h.2.2.2.2.2.1).append_funs (rest.code_blocked b h.2.2.2.2.2.2.2))))
  | b, .elseClause _ _ body _, h => .mine (by simp) (body.code_blocked b h.2.2.1)

end

end

end Calx
