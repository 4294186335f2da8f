import Calx.Number.Reader
import Calx.ParserRule
import Calx.Scopes
import Calx.Vm.Machine

/-!
# What the compiler guarantees

The operands of the instructions of an accepted source: constants are there and are
well-formed, locals and globals are in range, and no instruction is left that the jump
table lacks. With the discipline of the operand stack this is what the machine relies on.
-/

namespace Calx

open LexemeKind Instr

/-! ## Items of a tree -/

/-- The instructions that access a local, and a call that scatters none of its arguments: none of
them is in the code of an expression or of a statement. -/
def Instr.unwritten : Instr → Bool
  | opLoadLocal _ | opStoreLocal _ | opModifyLocal .. | opCall true 0 => true
  | _ => false

section

variable [DeciBase]

/-- Where a number comes from in the code of the lexemes `ts`, and what is not there before the
identifiers are resolved. -/
structure Item.Emitted (ts : List Lexeme) (r : Item) : Prop where
  number : ∀ n, r.instr = .const (.num n) → ∃ t ∈ ts, t.kind = lkNumber ∧ n = numberParse t.text
  plain : r.own = true → ∀ i, r.instr = .plain i → i.unwritten = false

namespace Item.Emitted

variable {ts : List Lexeme} {line : Option Nat}

theorem mine {a : AInstr} (hn : ∀ n, a ≠ .const (.num n) := by simp)
    (hi : ∀ i, a ≠ .plain i := by simp) : (Item.mine a line).Emitted ts :=
  ⟨fun n hn' => absurd hn' (hn n), fun _ i hi' => absurd hi' (hi i)⟩

theorem instr {i : Instr} (hi : i.unwritten = false) : (Item.mine (.plain i) line).Emitted ts := by
  constructor
  · intro n hn
    cases hn
  · rintro - j ⟨⟩
    exact hi

end Item.Emitted

/-- The code of the lexemes `ts`. -/
def EmittedCode (ts : List Lexeme) (l : List Item) : Prop := ∀ r ∈ l, r.Emitted ts

namespace EmittedCode

variable {ts ts' : List Lexeme} {l l' : List Item}

theorem nil : EmittedCode ts [] := List.forall_mem_nil _

theorem append (h : EmittedCode ts l) (h' : EmittedCode ts l') : EmittedCode ts (l ++ l') :=
  List.forall_mem_append.mpr ⟨h, h'⟩

theorem cons {r : Item} (hr : r.Emitted ts) (h : EmittedCode ts l) : EmittedCode ts (r :: l) :=
  List.forall_mem_cons.mpr ⟨hr, h⟩

theorem snoc {i : Instr} {line : Option Nat} (h : EmittedCode ts l) (hi : i.unwritten = false) :
    EmittedCode ts (l ++ [.mine (.plain i) line]) := h.append (.cons (.instr hi) .nil)

theorem mono (h : EmittedCode ts l) (hs : ∀ t ∈ ts, t ∈ ts') : EmittedCode ts' l := by
  intro r hr
  constructor
  · intro n hn
    obtain ⟨t, ht, hk, rfl⟩ := (h r hr).number n hn
    exact ⟨t, hs t ht, hk, rfl⟩
  · exact (h r hr).plain

theorem dropLast (h : EmittedCode ts l) : EmittedCode ts l.dropLast :=
  fun r hr => h r (List.dropLast_subset _ hr)

theorem patch (h : EmittedCode ts l) (brk cnt : Int) : EmittedCode ts (patch brk cnt l) := by
  intro r hr
  obtain ⟨-, -, h' | ⟨off, h'⟩⟩ := mem_patch hr
  · exact h r h'
  · refine ⟨fun n hn => ?_, fun _ i hi => ?_⟩
    · rw [h'] at hn
      cases hn
    · rw [h'] at hi
      cases hi

/-- Closing a function changes no constant. -/
theorem nest_closeItems (h : EmittedCode ts l) (posted : Bool) (names : List Bytes) :
    EmittedCode ts (nest (closeItems posted names l)) := by
  intro r hr
  obtain ⟨r₁, hr₁, rfl⟩ := List.mem_map.mp hr
  rw [closeItems_eq] at hr₁
  obtain ⟨r₀, hr₀, rfl⟩ := List.mem_map.mp hr₁
  refine ⟨fun n hn => (h r₀ hr₀).number n ?_, fun ho => nomatch ho⟩
  change (closeItem posted names r₀).instr = _ at hn
  unfold closeItem at hn
  split at hn
  · cases hi : r₀.instr <;> simp only [hi, closeInstr, blur, resolve] at hn <;> split_ifs at hn <;>
      simp_all
  · exact hn

end EmittedCode

theorem returnNil_emitted (ts : List Lexeme) : EmittedCode ts returnNil := by
  exact .cons .mine (.cons (.instr rfl) .nil)

omit [DeciBase] in
theorem unaryInstr_unwritten (k : LexemeKind) : (unaryInstr k).unwritten = false := by
  cases k <;> rfl

omit [DeciBase] in
theorem binaryInstr_unwritten (k : LexemeKind) : (binaryInstr k).unwritten = false := by
  cases k <;> rfl

omit [DeciBase] in
theorem opCall_unwritten (scatter : Bool) (es : Elems) :
    (opCall scatter es.count).unwritten = false := by
  cases es with
  | last e => cases scatter <;> rfl
  | more e comma es => cases scatter <;> rfl

theorem litConst_number {t : Lexeme} {n : Number} (h : litConst t = some (.num n)) :
    t.kind = lkNumber ∧ n = numberParse t.text := by
  unfold litConst at h
  split at h
  · exact ⟨‹_›, (Const.num.inj (Option.some.inj h)).symm⟩
  · cases h
  · cases h
  · cases h
  · dsimp only at h
    split at h <;> cases h

mutual

theorem Expr.code_emitted : ∀ e : Expr, EmittedCode e.toks e.code
  | .literal t => by
      refine .cons ⟨fun n hn => ?_, fun _ i hi => by cases hi⟩ .nil
      have hconst : (litConst t).getD .nil = .num n := AInstr.const.inj hn
      cases hl : litConst t with
      | none =>
          rw [hl] at hconst
          cases hconst
      | some v =>
          rw [hl] at hconst
          obtain rfl : v = .num n := hconst
          obtain ⟨hk, rfl⟩ := litConst_number hl
          exact ⟨t, by simp [Expr.toks], hk, rfl⟩
  | .ident t => .cons .mine .nil
  | .list0 _ _ | .dict0 _ _ => EmittedCode.nil.snoc rfl
  | .list lb es rb => by
      refine EmittedCode.snoc ((es.code_emitted []).mono fun t ht => ?_) rfl
      simp [Expr.toks, ht]
  | .dict lb kvs rb => by
      refine EmittedCode.snoc (kvs.code_emitted.mono fun t ht => ?_) rfl
      simp [Expr.toks, ht]
  | .paren lp e rp => by
      refine e.code_emitted.mono fun t ht => ?_
      simp [Expr.toks, ht]
  | .unary op e => by
      refine EmittedCode.snoc (e.code_emitted.mono fun t ht => ?_)
        (unaryInstr_unwritten op.kind)
      simp [Expr.toks, ht]
  | .binary l op r => by
      have hl : EmittedCode (Expr.binary l op r).toks l.code := l.code_emitted.mono fun t ht => by
        simp [Expr.toks, ht]
      have hr : EmittedCode (Expr.binary l op r).toks r.code := r.code_emitted.mono fun t ht => by
        simp [Expr.toks, ht]
      exact hl.append (hr.snoc (binaryInstr_unwritten op.kind))
  | .index e lb i rb => by
      have he : EmittedCode (Expr.index e lb i rb).toks e.code := e.code_emitted.mono fun t ht => by
        simp [Expr.toks, ht]
      have hi : EmittedCode (Expr.index e lb i rb).toks i.code := i.code_emitted.mono fun t ht => by
        simp [Expr.toks, ht]
      exact he.append (hi.snoc rfl)
  | .field e dot name => by
      have he : EmittedCode (Expr.field e dot name).toks e.code :=
        e.code_emitted.mono fun t ht => by simp [Expr.toks, ht]
      exact he.append (.cons .mine (EmittedCode.nil.snoc rfl))
  | .call0 f lp rp => by
      refine EmittedCode.snoc (f.code_emitted.mono fun t ht => ?_) rfl
      simp [Expr.toks, ht]
  | .call f lp args star rp => by
      have hf : EmittedCode (Expr.call f lp args star rp).toks f.code :=
        f.code_emitted.mono fun t ht => by simp [Expr.toks, ht]
      have ha : EmittedCode (Expr.call f lp args star rp).toks args.code :=
        (args.code_emitted star.toList).mono fun t ht => by simp [Expr.toks, ht]
      exact hf.append (ha.snoc (opCall_unwritten star.isSome args))

/-- `Expr.code_emitted` for lists of expressions. -/
theorem Elems.code_emitted (star : List Lexeme) : ∀ es : Elems, EmittedCode (es.toks star) es.code
  | .last e => e.code_emitted.mono fun t ht => by simp [Elems.toks, ht]
  | .more e comma es => by
      have he : EmittedCode ((Elems.more e comma es).toks star) e.code :=
        e.code_emitted.mono fun t ht => by simp [Elems.toks, ht]
      exact he.append ((es.code_emitted star).mono fun t ht => by simp [Elems.toks, ht])

/-- `Expr.code_emitted` for lists of dict entries. -/
theorem Entries.code_emitted : ∀ kvs : Entries, EmittedCode kvs.toks kvs.code
  | .last k colon v => by
      have hk : EmittedCode (Entries.last k colon v).toks k.code :=
        k.code_emitted.mono fun t ht => by simp [Entries.toks, ht]
      exact hk.append (v.code_emitted.mono fun t ht => by simp [Entries.toks, ht])
  | .more k colon v comma kvs => by
      have hk : EmittedCode (Entries.more k colon v comma kvs).toks k.code :=
        k.code_emitted.mono fun t ht => by simp [Entries.toks, ht]
      have hv : EmittedCode (Entries.more k colon v comma kvs).toks v.code :=
        v.code_emitted.mono fun t ht => by simp [Entries.toks, ht]
      exact hk.append (hv.append (kvs.code_emitted.mono fun t ht => by simp [Entries.toks, ht]))

end

theorem assignInstr_emitted (ts : List Lexeme) (line : Option Nat) (op : LexemeKind)
    (target : AInstr) :
    (Item.mine ((assignInstr op target).getD (.plain opPrint)) line).Emitted ts := by
  cases hb : assignInstr op target with
  | none =>
      exact .instr rfl
  | some b =>
      unfold assignInstr at hb
      split at hb
      · split_ifs at hb
        · obtain rfl := Option.some.inj hb
          exact .mine
        · obtain rfl := Option.some.inj hb
          exact .mine
        · obtain ⟨_, -, rfl⟩ := Option.map_eq_some_iff.mp hb
          exact .mine
      · split_ifs at hb
        · obtain rfl := Option.some.inj hb
          exact .instr rfl
        · obtain ⟨_, -, rfl⟩ := Option.map_eq_some_iff.mp hb
          exact .instr rfl
      · cases hb

theorem Simple.code_emitted (next : Lexeme) : ∀ s : Simple, EmittedCode s.toks (s.code next)
  | .expr e => EmittedCode.snoc e.code_emitted rfl
  | .assign lhs op rhs => by
      have hl : EmittedCode (Simple.assign lhs op rhs).toks lhs.code.dropLast :=
        lhs.code_emitted.dropLast.mono fun t ht => by simp [Simple.toks, ht]
      have hr : EmittedCode (Simple.assign lhs op rhs).toks rhs.code :=
        rhs.code_emitted.mono fun t ht => by simp [Simple.toks, ht]
      exact hl.append (hr.append (.cons (assignInstr_emitted _ _ _ _) .nil))

theorem Simple.optCode_emitted (next : Lexeme) (s : Option Simple) :
    EmittedCode ((s.map Simple.toks).getD []) ((s.map (Simple.code next)).getD []) := by
  cases s with
  | none => exact .nil
  | some s => exact s.code_emitted next

theorem forCondCode_emitted (cond : Option Expr) (n : Nat) :
    EmittedCode ((cond.map Expr.toks).getD []) (forCondCode n (cond.map Expr.code)) := by
  cases cond with
  | none => exact .nil
  | some c => exact c.code_emitted.append (.cons .mine .nil)

theorem clauseCode_emitted {ts : List Lexeme} {cond body rest : List Item}
    (hc : EmittedCode ts cond) (hb : EmittedCode ts body) (hr : EmittedCode ts rest) :
    EmittedCode ts (clauseCode cond body rest) :=
  hc.append (.cons .mine (hb.append hr))

mutual

theorem Stmt.code_emitted : ∀ s : Stmt, EmittedCode s.toks s.code
  | .empty _ => .nil
  | .simple s semi => (s.code_emitted semi).mono fun t ht => by simp [Stmt.toks, ht]
  | .ifStmt kw lp c rp lb body rb rest =>
      clauseCode_emitted (c.code_emitted.mono fun t ht => by simp [Stmt.toks, ht])
        (body.code_emitted.mono fun t ht => by simp [Stmt.toks, ht])
        (rest.code_emitted.mono fun t ht => by simp [Stmt.toks, ht])
  | .whileStmt kw lp c rp lb body rb => by
      have hc : EmittedCode (Stmt.whileStmt kw lp c rp lb body rb).toks c.code :=
        c.code_emitted.mono fun t ht => by simp [Stmt.toks, ht]
      have hb : EmittedCode (Stmt.whileStmt kw lp c rp lb body rb).toks body.code :=
        body.code_emitted.mono fun t ht => by simp [Stmt.toks, ht]
      exact hc.append (.cons .mine
        ((hb.patch _ _).append (.cons .mine .nil)))
  | .forStmt kw lp pre semi1 cond semi2 post rp lb body rb => by
      obtain ⟨ts, hts⟩ : ∃ ts,
          ts = (Stmt.forStmt kw lp pre semi1 cond semi2 post rp lb body rb).toks := ⟨_, rfl⟩
      have hpre : EmittedCode ts ((pre.map (Simple.code semi1)).getD []) :=
        (Simple.optCode_emitted semi1 pre).mono fun t ht => by simp [hts, Stmt.toks, ht]
      have hcond : ∀ n, EmittedCode ts (forCondCode n (cond.map Expr.code)) := fun n =>
        (forCondCode_emitted cond n).mono fun t ht => by simp [hts, Stmt.toks, ht]
      have hpost : EmittedCode ts ((post.map (Simple.code rp)).getD []) :=
        (Simple.optCode_emitted rp post).mono fun t ht => by simp [hts, Stmt.toks, ht]
      have hbody : EmittedCode ts body.code :=
        body.code_emitted.mono fun t ht => by simp [hts, Stmt.toks, ht]
      rw [← hts]
      exact hpre.append ((hcond _).append ((hbody.patch _ _).append
        (hpost.append (.cons .mine .nil))))
  | .funStmt kw name lp ps rp lb body rb => by
      have hbody : EmittedCode (Stmt.funStmt kw name lp ps rp lb body rb).toks
          (body.code ++ returnNil) :=
        (body.code_emitted.mono fun t ht => by simp [Stmt.toks, ht]).append (returnNil_emitted _)
      exact .cons .mine ((hbody.nest_closeItems _ _).append
        (.cons .mine .nil))
  | .returnStmt kw none semi => returnNil_emitted _
  | .returnStmt kw (some e) semi =>
      EmittedCode.snoc (e.code_emitted.mono fun t ht => by simp [Stmt.toks, ht]) rfl
  | .breakStmt _ _ | .continueStmt _ _ => .cons .mine .nil

/-- `Stmt.code_emitted` for statement sequences. -/
theorem Stmts.code_emitted : ∀ ss : Stmts, EmittedCode ss.toks ss.code
  | .nil => .nil
  | .cons s ss =>
      EmittedCode.append (s.code_emitted.mono fun t ht => by simp [Stmts.toks, ht])
        (ss.code_emitted.mono fun t ht => by simp [Stmts.toks, ht])

/-- `Stmt.code_emitted` for further clauses. -/
theorem Else.code_emitted : ∀ e : Else, EmittedCode e.toks e.code
  | .none => .nil
  | .elifClause kw lp c rp lb body rb rest =>
      .cons .mine (clauseCode_emitted
        (c.code_emitted.mono fun t ht => by simp [Else.toks, ht])
        (body.code_emitted.mono fun t ht => by simp [Else.toks, ht])
        (rest.code_emitted.mono fun t ht => by simp [Else.toks, ht]))
  | .elseClause kw lb body rb =>
      .cons .mine (body.code_emitted.mono fun t ht => by simp [Else.toks, ht])

end

end

/-! ## Chunks -/

section

variable [DeciBase]

/-- What the machine relies on in the operands of an instruction of a function with `nlocals`
locals, where there are `nglobals` globals. -/
def Instr.Admissible (c : Chunk) (nglobals nlocals : Nat) : Instr → Prop
  | opLoadConst k => ∃ v, c.consts[k]? = some v ∧ v.value.Wf
  | opLoadLocal k | opStoreLocal k | opModifyLocal _ k => k < nlocals
  | opLoadGlobal k | opStoreGlobal k | opModifyGlobal _ k => k < nglobals
  | opFunction k => ∃ s, c.shapes[k]? = some s
  | opCall scatter k => scatter = true → 0 < k
  | opLoadSymbolic _ | opStoreSymbolic _ | opModifySymbolic .. => False
  | _ => True

/-- The chunk is what the parser has made of its source, and it has the tree `body`. -/
structure Chunk.Compiled (c : Chunk) (p : Parser) (body : Stmts) : Prop where
  follows : Follows c.source p body
  chunk : c = toChunk p c.source c.origin
  unposted : ∀ q ∈ body.functions, q.2.postedFun = false

/-- What the machine relies on in a chunk, where the globals have these names. -/
structure Chunk.Sound (names : List Bytes) (c : Chunk) : Prop where
  admissible : ∀ i s, c.shapeAt i = some s → ∀ j, c.Own i j →
    ∀ instr, c.code[j]? = some instr → instr.Admissible c names.length s.nlocals
  maxstack : ∀ i s, c.shapeAt i = some s → ∀ t d, c.Path i t d → d ≤ s.maxstack
  func : ∀ i s, c.shapeAt i = some s → ∃ f : Func, f.chunk = c ∧ f.ip = i
  compiled : ∃ p body, c.Compiled p body ∧ p.globals <+: names

theorem Chunk.Sound.mono {names names' : List Bytes} {c : Chunk} (h : c.Sound names)
    (hle : names <+: names') : c.Sound names' where
  admissible i s hs j hj instr hi := by
    have hadm := h.admissible i s hs j hj instr hi
    cases instr with
    | opLoadGlobal k | opStoreGlobal k | opModifyGlobal _ k => exact hadm.trans_le hle.length_le
    | _ => exact hadm
  maxstack := h.maxstack
  func := h.func
  compiled := by
    obtain ⟨p, body, hc, hp⟩ := h.compiled
    exact ⟨p, body, hc, hp.trans hle⟩

variable {source : Bytes} {p : Parser} {body : Stmts} {origin : String} {i : Nat} {s : Shape}
  {q : Option Params × Stmts}

/-- A number among the constants that are loaded has been read from a number lexeme. -/
theorem Follows.const_wf (h : Follows source p body) {j k : Nat} {v : Const}
    (hj : (toChunk p source origin).code[j]? = some (opLoadConst k)) (hv : p.consts[k]? = some v) :
    v.value.Wf := by
  rw [toChunk_code] at hj
  obtain ⟨ti, hti, hinstr⟩ := Option.map_eq_some_iff.mp hj
  obtain ⟨r, hr, hden⟩ := forall₂_getElem?_left h.code hti
  have hd := hden.instr
  rw [hinstr] at hd
  obtain ⟨v', hv', hconst⟩ : ∃ v', p.consts[k]? = some v' ∧ r.instr = .const v' := by
    generalize r.instr = a at hd
    cases hd with
    | plain hp => cases hp
    | const hc => exact ⟨_, hc, rfl⟩
  obtain rfl : v = v' := Option.some.inj (hv.symm.trans hv')
  have hprogram : EmittedCode body.toks body.program := by
    refine .cons .mine (EmittedCode.nest_closeItems ?_ _ _)
    exact body.code_emitted.append (returnNil_emitted _)
  cases v with
  | num n =>
      obtain ⟨t, ht, hk, rfl⟩ := (hprogram r (List.mem_of_getElem? hr)).number n hconst
      obtain ⟨e, -, hlex⟩ := h.toks
      refine (numberParse_spec (lexAll_number_accepted (lexerNew source) t ?_ hk)).1
      rw [hlex]
      exact List.mem_append_left _ ht
  | _ => trivial

/-- The operands of the own instructions of a function. -/
theorem Placed.admissible (hp : q.2.postedFun = false) (hf : Follows source p body)
    (h : Placed (toChunk p source origin) p.tables i s q) {j : Nat}
    (hj : (toChunk p source origin).Own i j) {instr : Instr}
    (hi : (toChunk p source origin).code[j]? = some instr) :
    instr.Admissible (toChunk p source origin) p.globals.length s.nlocals := by
  obtain ⟨k, r, rfl, hk, ho⟩ := h.own_iff.mp hj
  rw [closedCode, closeItems_eq, List.getElem?_map] at hk
  obtain ⟨r₀, hr₀, rfl⟩ := Option.map_eq_some_iff.mp hk
  rw [closeItem_own] at ho
  have hnamed : r₀.instr.Named q.2.decls := by
    simpa using (q.2.code_named.append returnNil_named) r₀ (List.mem_of_getElem? hr₀) ho
  have hplain : ∀ i, r₀.instr = .plain i → i.unwritten = false :=
    ((q.2.code_emitted.append (returnNil_emitted q.2.toks)) r₀ (List.mem_of_getElem? hr₀)).plain ho
  obtain ⟨instr', hi', hd⟩ := h.code k (closeItem q.2.postedFun (funLocals q.1 q.2) r₀) (by
    rw [closedCode, closeItems_eq, List.getElem?_map, hr₀]
    rfl)
  obtain rfl : instr' = instr := Option.some.inj (hi'.symm.trans hi)
  rw [closeItem, if_pos ho] at hd
  simp only [closeInstr, hp, Bool.false_eq_true, if_false] at hd
  have hlocal : ∀ {x : Bytes}, x ∈ funLocals q.1 q.2 → (funLocals q.1 q.2).idxOf x < s.nlocals := by
    intro x hx
    rw [h.agrees.nlocals]
    exact List.idxOf_lt_length_of_mem hx
  have hglobal : ∀ {c : Nat} {x : Bytes}, p.tables.globals[c]? = some x → c < p.globals.length :=
    fun hx => (List.getElem?_eq_some_iff.mp hx).1
  generalize hr : r₀.instr = a at hd hnamed hplain
  cases a with
  | load x | store x | modify _ x =>
      simp only [resolve] at hd
      split_ifs at hd with hx
      · cases hd
        exact hlocal hx
      · cases hd
        exact hglobal ‹_›
  | storeNew x =>
      cases hd
      exact hlocal (mem_funLocals.mpr (.inr hnamed))
  | plain i₀ =>
      cases hd with
      | plain hplain' =>
          have hwritten := hplain _ rfl
          cases instr' with
          | opCall scatter k =>
              rintro rfl
              cases k with
              | zero => cases hwritten
              | succ k => exact Nat.succ_pos k
          | _ => trivial
  | const v =>
      cases hd with
      | const hv => exact ⟨v, hv, hf.const_wf hi hv⟩
  | loadGlobal x | storeGlobal x | modifyGlobal _ x =>
      cases hd
      exact hglobal ‹_›
  | someLoad | someStore | someModify _ => exact hnamed.elim
  | function f =>
      cases hd with
      | function hs => exact ⟨_, hs⟩
  | jump _ | jumpUnless _ | breakTo | continueTo | ifTo =>
      cases hd
      trivial

/-- The chunk of an accepted source, if no function of it is defined inside the body of a `for`
loop with a third clause. -/
theorem Follows.chunk_sound {globals : List Bytes} (h : Follows source p body)
    (hparse : parse globals source origin = .ok (toChunk p source origin, p.globals))
    (hp : ∀ q ∈ body.functions, q.2.postedFun = false) (hlimits : ∀ s ∈ p.shapes, s.Limited) :
    (toChunk p source origin).Sound p.globals where
  admissible i s hs j hj instr hi := by
    obtain ⟨q, hq, hplaced⟩ := h.placed hs
    exact hplaced.admissible (hp q hq) h hj hi
  maxstack i s hs t d hpath := by
    obtain ⟨q, hq, hplaced⟩ := h.placed hs
    exact hplaced.maxstack (hp q hq) hpath
  func i s hs := by
    obtain ⟨n, line, -, hn⟩ := shapeAt_toChunk hs
    have hlocals := (hlimits s (List.mem_of_getElem? hn)).nlocals
    obtain ⟨f, hchunk, hip, -⟩ := exists_func hparse hs hlocals
    exact ⟨f, hchunk, hip⟩
  compiled := ⟨p, body, ⟨h, rfl, hp⟩, List.prefix_rfl⟩

/-- What the compiler makes of an accepted source. -/
theorem parse_sound_chunk {globals g : List Bytes} {c : Chunk}
    (h : parse globals source origin = .ok (c, g)) :
    ∃ body : Stmts, TreeOf source body ∧
      ((∀ q ∈ body.functions, q.2.postedFun = false) → c.Sound g) ∧
      (∃ f : Func, f.chunk = c ∧ f.ip = 0) ∧ ∃ xs, g = putNames globals xs := by
  have hparse := h
  unfold parse at h
  obtain ⟨p, hp, h⟩ := bind_ok h
  obtain ⟨rfl, rfl⟩ := Prod.mk.inj (Except.ok.inj h)
  obtain ⟨body, hf⟩ := parse_sound hp
  have hlimits := parseState_limited hp
  refine ⟨body, ⟨hf.wf, hf.toks⟩, fun hposted => hf.chunk_sound hparse hposted hlimits, ?_,
    parseState_globals hp⟩
  obtain ⟨s, hs, -⟩ := (hf.main : ∃ s, (toChunk p source origin).shapeAt 0 = some s ∧ _)
  obtain ⟨n, line, -, hn⟩ := shapeAt_toChunk hs
  obtain ⟨f, hchunk, hip, -⟩ := exists_func hparse hs (hlimits s (List.mem_of_getElem? hn)).nlocals
  exact ⟨f, hchunk, hip⟩

end

/-! ## Sources without the keyword of loops that go wrong -/

section

variable [DeciBase]

/-- No function of the source is defined in the body of a `for` loop with a third clause. -/
def Unposted (source : Bytes) : Prop :=
  ∀ body, TreeOf source body → ∀ q ∈ body.functions, q.2.postedFun = false

mutual

/-- A statement without the keyword of such loops. -/
theorem Stmt.plain : ∀ (b : Bool) (s : Stmt), s.Wf b → (∀ l ∈ s.toks, l.kind ≠ lkFor) →
    s.postedFun = false ∧ ∀ q ∈ s.funs, q.2.postedFun = false
  | b, .ifStmt _ _ _ _ _ body _ rest, h, hfor => by
      simp only [Stmt.toks, List.mem_cons, List.mem_append] at hfor
      obtain ⟨hbody, hfuns⟩ := body.plain b h.2.2.2.2.2.1 fun l hl => hfor l (by simp [hl])
      obtain ⟨hrest, hfuns'⟩ := rest.plain b h.2.2.2.2.2.2.2 fun l hl => hfor l (by simp [hl])
      exact ⟨by rw [Stmt.postedFun, hbody, hrest]; rfl, List.forall_mem_append.mpr ⟨hfuns, hfuns'⟩⟩
  | _, .whileStmt _ _ _ _ _ body _, h, hfor => by
      simp only [Stmt.toks, List.mem_cons, List.mem_append] at hfor
      exact body.plain true h.2.2.2.2.2.1 fun l hl => hfor l (by simp [hl])
  | _, .forStmt kw _ _ _ _ _ _ _ _ body _, h, hfor => absurd h.1 (hfor kw List.mem_cons_self)
  | _, .funStmt _ _ _ ps _ _ body _, h, hfor => by
      simp only [Stmt.toks, List.mem_cons, List.mem_append] at hfor
      obtain ⟨hbody, hfuns⟩ := body.plain false h.2.2.2.2.2.2.1 fun l hl => hfor l (by simp [hl])
      exact ⟨rfl, List.forall_mem_append.mpr ⟨hfuns, by simpa using hbody⟩⟩
  | _, .empty _, _, _ | _, .simple .., _, _ | _, .returnStmt .., _, _ | _, .breakStmt .., _, _
  | _, .continueStmt .., _, _ => ⟨rfl, by simp [Stmt.funs]⟩

/-- `Stmt.plain` for statement sequences. -/
theorem Stmts.plain : ∀ (b : Bool) (ss : Stmts), ss.Wf b → (∀ l ∈ ss.toks, l.kind ≠ lkFor) →
    ss.postedFun = false ∧ ∀ q ∈ ss.funs, q.2.postedFun = false
  | _, .nil, _, _ => ⟨rfl, by simp [Stmts.funs]⟩
  | b, .cons s ss, h, hfor => by
      obtain ⟨hfirst, hrest⟩ := List.forall_mem_append.mp hfor
      obtain ⟨hs, hfuns⟩ := s.plain b h.1 hfirst
      obtain ⟨hss, hfuns'⟩ := ss.plain b h.2 hrest
      exact ⟨by rw [Stmts.postedFun, hs, hss]; rfl, List.forall_mem_append.mpr ⟨hfuns, hfuns'⟩⟩

/-- `Stmt.plain` for further clauses. -/
theorem Else.plain : ∀ (b : Bool) (e : Else), e.Wf b → (∀ l ∈ e.toks, l.kind ≠ lkFor) →
    e.postedFun = false ∧ ∀ q ∈ e.funs, q.2.postedFun = false
  | _, .none, _, _ => ⟨rfl, by simp [Else.funs]⟩
  | b, .elifClause _ _ _ _ _ body _ rest, h, hfor => by
      simp only [Else.toks, List.mem_cons, List.mem_append] at hfor
      obtain ⟨hbody, hfuns⟩ := body.plain b h.2.2.2.2.2.1 fun l hl => hfor l (by simp [hl])
      obtain ⟨hrest, hfuns'⟩ := rest.plain b h.2.2.2.2.2.2.2 fun l hl => hfor l (by simp [hl])
      exact ⟨by rw [Else.postedFun, hbody, hrest]; rfl, List.forall_mem_append.mpr ⟨hfuns, hfuns'⟩⟩
  | b, .elseClause _ _ body _, h, hfor => by
      simp only [Else.toks, List.mem_cons, List.mem_append] at hfor
      exact body.plain b h.2.2.1 fun l hl => hfor l (by simp [hl])

end

/-- A source without the keyword `for` is fine. -/
theorem unposted_of_no_for {source : Bytes}
    (h : ∀ l ∈ lexAll (lexerNew source), l.kind ≠ lkFor) : Unposted source := by
  rintro body ⟨hwf, e, -, htoks⟩
  have hfor : ∀ l ∈ body.toks, l.kind ≠ lkFor := by
    intro l hl
    apply h
    rw [htoks]
    exact List.mem_append_left _ hl
  obtain ⟨hbody, hfuns⟩ := body.plain false hwf hfor
  exact List.forall_mem_append.mpr ⟨hfuns, by simpa using hbody⟩

end

end Calx
