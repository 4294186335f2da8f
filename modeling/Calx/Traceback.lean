import Calx.Lib.Search
import Calx.Functions

/-!
# Lines of a stack trace

`to_chunk` keeps the lines of the code in a table of quarks, one for every change
of the line, and `find_quark` of `vm.c` looks the line of an instruction up.

## Implementation notes

The line that belongs to an instruction is that of the last tagged instruction up
to it. `find_quark` has no result where its assertion fails.
-/

namespace Calx

open LexemeKind Instr

/-- `instr >= mid->instr`. -/
def Quark.upTo (instr : Nat) (mid : Quark) : Bool := instr ≥ mid.instr

/-- The loop of `find_quark`. -/
def findQuarkLoop (instr : Nat) (quarks : List Quark) : Option Nat :=
  Search.upper (Quark.upTo instr) quarks (quarks.length + 1) 0 quarks.length

/-- `find_quark`, with nothing found where the assertion `left != chunk->quarks` fails. -/
def findQuark (instr : Nat) (chunk : Chunk) : Option Quark := do
  let left ← findQuarkLoop instr chunk.quarks
  if left = 0 then none else chunk.quarks[left - 1]?

/-- The line of the last tagged instruction among the first `n`. -/
def lineBefore (prog : List TaggedInstr) (n : Nat) : Option Nat :=
  ((prog.take n).filterMap (·.line)).getLast?

/-- `line` is the line of the last tagged instruction among the first `n`. -/
def LastTagged (prog : List TaggedInstr) (n line : Nat) : Prop :=
  ∃ j < n, (∃ instr, prog[j]? = some ⟨instr, some line⟩) ∧
    ∀ k, j < k → k < n → ∀ ti, prog[k]? = some ti → ti.line = none

theorem lineBefore_succ (prog : List TaggedInstr) (n : Nat) :
    lineBefore prog (n + 1) = ((prog[n]?).bind (·.line)).or (lineBefore prog n) := by
  rw [lineBefore, lineBefore, List.take_add_one, List.filterMap_append, List.getLast?_append]
  congr 1
  cases hn : prog[n]? with
  | none => rfl
  | some ti => cases hline : ti.line <;> simp [hline]

namespace LastTagged

variable {prog : List TaggedInstr} {n line : Nat} {ti : TaggedInstr}

theorem here (hn : prog[n]? = some ti) (hline : ti.line = some line) :
    LastTagged prog (n + 1) line := by
  refine ⟨n, Nat.lt_succ_self n, ⟨ti.instr, ?_⟩, fun k hlt hk => ?_⟩
  · rw [hn, ← hline]
  · omega

theorem succ (h : LastTagged prog n line) (hn : prog[n]? = some ti) (hline : ti.line = none) :
    LastTagged prog (n + 1) line := by
  obtain ⟨j, hj, htag, hbetween⟩ := h
  refine ⟨j, Nat.lt_succ_of_lt hj, htag, fun k hlt hk ti' hk' => ?_⟩
  rcases Nat.lt_succ_iff_lt_or_eq.mp hk with hk | rfl
  · exact hbetween k hlt hk ti' hk'
  · rw [← Option.some.inj (hn.symm.trans hk'), hline]

theorem lineBefore (h : LastTagged prog n line) : lineBefore prog n = some line := by
  induction n with
  | zero =>
      obtain ⟨j, hj, -⟩ := h
      exact absurd hj (Nat.not_lt_zero j)
  | succ n ih =>
      obtain ⟨j, hj, ⟨instr, htag⟩, hbetween⟩ := h
      rw [lineBefore_succ]
      rcases Nat.lt_succ_iff_lt_or_eq.mp hj with hj | rfl
      · have hn : (prog[n]?).bind (·.line) = none :=
          Option.bind_eq_none_iff.mpr (hbetween n hj (Nat.lt_succ_self n))
        rw [hn, Option.none_or]
        exact ih ⟨j, hj, ⟨instr, htag⟩, fun k hlt hk => hbetween k hlt (Nat.lt_succ_of_lt hk)⟩
      · rw [htag]
        rfl

end LastTagged

/-! ## The table -/

theorem toQuarks_instr_ge {i : Nat} {cur : Option Nat} {prog : List TaggedInstr} :
    ∀ q ∈ toQuarks i cur prog, i ≤ q.instr := by
  induction prog generalizing i cur with
  | nil => simp [toQuarks]
  | cons ti prog ih =>
      intro q hq
      rw [toQuarks] at hq
      split at hq
      · exact Nat.le_of_succ_le (ih q hq)
      · split at hq
        · exact Nat.le_of_succ_le (ih q hq)
        · rcases List.mem_cons.mp hq with rfl | hq
          · exact Nat.le_refl _
          · exact Nat.le_of_succ_le (ih q hq)

theorem toQuarks_sorted (i : Nat) (cur : Option Nat) (prog : List TaggedInstr) :
    (toQuarks i cur prog).Pairwise fun q q' => q.instr < q'.instr := by
  induction prog generalizing i cur with
  | nil => exact List.Pairwise.nil
  | cons ti prog ih =>
      rw [toQuarks]
      split
      · exact ih _ _
      · split
        · exact ih _ _
        · rw [List.pairwise_cons]
          exact ⟨fun q hq => toQuarks_instr_ge q hq, ih _ _⟩

theorem getLast?_cons_or {α : Type} (a : α) (l : List α) (o : Option α) :
    (a :: l).getLast?.or o = l.getLast?.or (some a) := by
  rw [List.getLast?_cons]
  cases l.getLast? <;> rfl

/-- The line of the last quark up to an instruction. -/
def quarkLine (quarks : List Quark) (n : Nat) : Option Nat :=
  ((quarks.takeWhile (Quark.upTo n)).getLast?).map (·.line)

theorem quarkLine_cons {q : Quark} {quarks : List Quark} {n : Nat} (h : q.instr ≤ n)
    (o : Option Nat) :
    (quarkLine (q :: quarks) n).or o = (quarkLine quarks n).or (some q.line) := by
  have hq : Quark.upTo n q = true := decide_eq_true h
  rw [quarkLine, List.takeWhile_cons_of_pos hq, ← List.getLast?_map, List.map_cons,
    getLast?_cons_or, List.getLast?_map]
  rfl

theorem quarkLine_of_lt {quarks : List Quark} {n : Nat} (h : ∀ q ∈ quarks, n < q.instr) :
    quarkLine quarks n = none := by
  cases quarks with
  | nil => rfl
  | cons q quarks =>
      have hq := Nat.not_le.mpr (h q List.mem_cons_self)
      rw [quarkLine, List.takeWhile_cons_of_neg (by simpa [Quark.upTo] using hq)]
      rfl

/-- The last quark up to an instruction has the line of the last tagged instruction up to it. -/
theorem toQuarks_line (i n : Nat) (cur : Option Nat) (prog : List TaggedInstr) :
    (quarkLine (toQuarks i cur prog) n).or cur = (lineBefore prog (n + 1 - i)).or cur := by
  induction prog generalizing i cur with
  | nil => simp [toQuarks, quarkLine, lineBefore]
  | cons ti prog ih =>
      rcases Nat.lt_or_ge n i with hlt | hge
      · have hzero : n + 1 - i = 0 := by omega
        rw [hzero, quarkLine_of_lt fun q hq => Nat.lt_of_lt_of_le hlt (toQuarks_instr_ge q hq)]
        rfl
      · have hsucc : n + 1 - i = (n + 1 - (i + 1)) + 1 := by omega
        have htake : lineBefore (ti :: prog) (n + 1 - i) =
            (ti.line.toList ++ ((prog.take (n + 1 - (i + 1))).filterMap (·.line))).getLast? := by
          rw [lineBefore, hsucc, List.take_succ_cons, List.filterMap_cons]
          cases ti.line <;> rfl
        rw [htake, toQuarks]
        cases hline : ti.line with
        | none => exact ih (i + 1) cur
        | some line =>
            rw [Option.toList_some, List.singleton_append, getLast?_cons_or]
            by_cases hcur : cur = some line
            · simp only [if_pos hcur]
              rw [← hcur]
              exact ih (i + 1) cur
            · simp only [if_neg hcur]
              rw [quarkLine_cons hge]
              exact ih (i + 1) (some line)

/-! ## The search -/

/-- Behind the quarks up to an instruction there are none. -/
theorem quarks_behind {n : Nat} {quarks : List Quark}
    (h : quarks.Pairwise fun q q' => q.instr < q'.instr) :
    ∀ q ∈ quarks.dropWhile (Quark.upTo n), q.upTo n = false := by
  induction quarks with
  | nil => simp
  | cons q quarks ih =>
      rw [List.pairwise_cons] at h
      rw [List.dropWhile_cons]
      split
      · exact ih h.2
      · rename_i hq
        intro q' hq'
        have hle : n < q.instr := by simpa [Quark.upTo] using hq
        apply decide_eq_false
        rcases List.mem_cons.mp hq' with rfl | hq'
        · exact Nat.not_le.mpr hle
        · exact Nat.not_le.mpr (Nat.lt_trans hle (h.1 q' hq'))

/-- `find_quark` finds the last quark up to the instruction. -/
theorem findQuark_eq {n : Nat} {chunk : Chunk}
    (h : chunk.quarks.Pairwise fun q q' => q.instr < q'.instr) :
    findQuark n chunk = (chunk.quarks.takeWhile (Quark.upTo n)).getLast? := by
  have hsplit := List.takeWhile_append_dropWhile (p := Quark.upTo n) (l := chunk.quarks)
  have hfront : ∀ q ∈ chunk.quarks.takeWhile (Quark.upTo n), q.upTo n = true :=
    fun q hq => List.mem_takeWhile_imp hq
  have hback := quarks_behind (n := n) h
  rw [findQuark, findQuarkLoop]
  generalize chunk.quarks.takeWhile (Quark.upTo n) = l at *
  generalize chunk.quarks.dropWhile (Quark.upTo n) = r at *
  have hlen : l.length ≤ (l ++ r).length := by simp
  have hturns : (l ++ r).length - 0 < (l ++ r).length + 1 := by omega
  have hsearch := Search.upper_eq hfront hback (Nat.zero_le _) hlen (Nat.le_refl _) hturns
  rw [← hsplit, hsearch]
  simp only [Option.bind_eq_bind, Option.bind_some]
  cases l with
  | nil => rfl
  | cons q l =>
      have hlt : (q :: l).length - 1 < (q :: l).length := by simp
      rw [if_neg (by simp), List.getElem?_append_left hlt, List.getLast?_eq_getElem?]

/-- The line found for an instruction is that of the last tagged instruction up to it, and the
assertion fails when there is none. -/
theorem findQuark_line (p : Parser) (source : Bytes) (origin : String) (n : Nat) :
    (findQuark n (toChunk p source origin)).map (·.line) = lineBefore p.prog (n + 1) := by
  have h := toQuarks_line 0 n none p.prog
  rw [Option.or_none, Option.or_none] at h
  rw [findQuark_eq (toQuarks_sorted 0 none p.prog)]
  exact h

/-! ## Tagged code -/

/-- The instructions with which `state_eval` goes to `flush_and_throw` or calls `do_call`. -/
def Instr.canThrow : Instr → Bool
  | opLoadGlobal _ | opLoadAt | opStoreAt | opModifyLocal .. | opModifyGlobal .. | opModifyAt _
  | opCall .. | opAop _ | opCmp3way _ | opNeg | opDict _ | opLen => true
  | _ => false

/-- Items whose instruction can throw. -/
def AInstr.canThrow : AInstr → Bool
  | .plain i => i.canThrow
  | .load _ | .modify .. | .loadGlobal _ | .modifyGlobal .. | .someLoad | .someModify _ => true
  | _ => false

theorem DenI.canThrow {T : Tables} {i : Instr} {a : AInstr} (h : DenI T i a)
    (hi : i.canThrow = true) : a.canThrow = true := by
  cases h with
  | plain => exact hi
  | _ => first | rfl | cases hi

theorem resolve_canThrow (names : List Bytes) (a : AInstr)
    (h : (resolve names a).canThrow = true) : a.canThrow = true := by
  cases a with
  | store x =>
      rw [resolve] at h
      split at h
      · cases h
      · cases h
  | load _ | modify _ _ => rfl
  | _ => exact h

theorem blur_canThrow (names : List Bytes) (a : AInstr)
    (h : (blur names a).canThrow = true) : a.canThrow = true := by
  cases a with
  | load _ | modify _ _ => rfl
  | _ => exact h

/-- Code in which every instruction that can throw has a line. -/
def Lined (code : List Item) : Prop :=
  ∀ r ∈ code, r.instr.canThrow = true → r.line.isSome = true

namespace Lined

variable {l l' : List Item}

theorem nil : Lined [] := List.forall_mem_nil _

theorem append (h : Lined l) (h' : Lined l') : Lined (l ++ l') :=
  List.forall_mem_append.mpr ⟨h, h'⟩

theorem mine {a : AInstr} {line : Option Nat} (ha : a.canThrow = true → line.isSome = true)
    (h : Lined l) : Lined (.mine a line :: l) :=
  List.forall_mem_cons.mpr ⟨ha, h⟩

/-- An instruction that is emitted at a lexeme. -/
theorem tagged (a : AInstr) (tok : Lexeme) (h : Lined l) : Lined (.mine a tok.tag :: l) :=
  h.mine fun _ => rfl

/-- An instruction that is emitted without a line. -/
theorem untagged {a : AInstr} (ha : a.canThrow = false) (h : Lined l) :
    Lined (.mine a none :: l) :=
  h.mine fun hthrow => absurd hthrow (by simp [ha])

theorem dropLast (h : Lined l) : Lined l.dropLast := fun r hr => h r (List.dropLast_subset l hr)

theorem patch (h : Lined l) (brk cnt : Int) : Lined (patch brk cnt l) := by
  intro r hr hthrow
  obtain ⟨-, -, hmem | ⟨off, hjump⟩⟩ := mem_patch hr
  · exact h r hmem hthrow
  · rw [hjump] at hthrow
    cases hthrow

theorem nest (h : Lined l) : Lined (nest l) := List.forall_mem_map.mpr h

/-- Closing the scope of a function keeps the lines. -/
theorem closeItems (h : Lined l) (posted : Bool) (names : List Bytes) :
    Lined (closeItems posted names l) := by
  intro r' hr' hthrow
  obtain ⟨r, hr, rfl⟩ := List.mem_map.mp hr'
  cases howned : r.own with
  | false =>
      simp only [howned, Bool.false_eq_true, if_false] at hthrow ⊢
      exact h r hr hthrow
  | true =>
      simp only [howned, if_true] at hthrow ⊢
      cases posted with
      | false => exact h r hr (resolve_canThrow names r.instr hthrow)
      | true => exact h r hr (blur_canThrow names r.instr hthrow)

end Lined

theorem returnNil_lined : Lined returnNil := .untagged rfl (.untagged rfl .nil)

section

variable [DeciBase]

mutual

/-- Every instruction of an expression that can throw has a line. -/
theorem Expr.code_lined : ∀ e : Expr, Lined e.code
  | .literal t => .tagged _ t .nil
  | .ident t => .tagged _ t .nil
  | .list0 lb _ => .tagged _ lb .nil
  | .list lb es _ => es.code_lined.append (.tagged _ lb .nil)
  | .dict0 lb _ => .tagged _ lb .nil
  | .dict lb kvs _ => kvs.code_lined.append (.tagged _ lb .nil)
  | .paren _ e _ => e.code_lined
  | .unary op e => e.code_lined.append (.tagged _ op .nil)
  | .binary l op r => l.code_lined.append (r.code_lined.append (.tagged _ op .nil))
  | .index e lb i _ => e.code_lined.append (i.code_lined.append (.tagged _ lb .nil))
  | .field e _ name => e.code_lined.append (.tagged _ name (.tagged _ name .nil))
  | .call0 f lp _ => f.code_lined.append (.tagged _ lp .nil)
  | .call f lp args _ _ => f.code_lined.append (args.code_lined.append (.tagged _ lp .nil))

/-- `Expr.code_lined` for lists of expressions. -/
theorem Elems.code_lined : ∀ es : Elems, Lined es.code
  | .last e => e.code_lined
  | .more e _ es => e.code_lined.append es.code_lined

/-- `Expr.code_lined` for dict entries. -/
theorem Entries.code_lined : ∀ kvs : Entries, Lined kvs.code
  | .last k _ v => k.code_lined.append v.code_lined
  | .more k _ v _ kvs => k.code_lined.append (v.code_lined.append kvs.code_lined)

end

theorem Simple.code_lined (next : Lexeme) : ∀ s : Simple, Lined (s.code next)
  | .expr e => e.code_lined.append (.tagged _ next .nil)
  | .assign lhs op rhs =>
      lhs.code_lined.dropLast.append (rhs.code_lined.append (.tagged _ op .nil))

theorem Simple.optCode_lined (next : Lexeme) (s : Option Simple) :
    Lined ((s.map (Simple.code next)).getD []) := by
  cases s with
  | none => exact .nil
  | some s => exact s.code_lined next

theorem lined_forCondCode (cond : Option Expr) (n : Nat) :
    Lined (forCondCode n (cond.map Expr.code)) := by
  cases cond with
  | none => exact .nil
  | some c => exact c.code_lined.append (.untagged rfl .nil)

mutual

/-- Every instruction of a statement that can throw has a line. -/
theorem Stmt.code_lined : ∀ s : Stmt, Lined s.code
  | .empty _ => .nil
  | .simple s semi => s.code_lined semi
  | .ifStmt _ _ c _ _ body _ rest =>
      c.code_lined.append (.untagged rfl (body.code_lined.append rest.code_lined))
  | .whileStmt _ _ c _ _ body _ =>
      c.code_lined.append (.untagged rfl
        ((body.code_lined.patch _ _).append (.untagged rfl .nil)))
  | .forStmt _ _ pre semi1 cond _ post rp _ body _ =>
      (Simple.optCode_lined semi1 pre).append ((lined_forCondCode cond _).append
        ((body.code_lined.patch _ _).append ((Simple.optCode_lined rp post).append
          (.untagged rfl .nil))))
  | .funStmt _ _ _ _ _ _ body _ =>
      .untagged rfl ((((body.code_lined.append returnNil_lined).closeItems _ _).nest).append
        (.untagged rfl .nil))
  | .returnStmt _ none _ => returnNil_lined
  | .returnStmt _ (some e) _ => e.code_lined.append (.untagged rfl .nil)
  | .breakStmt _ _ => .untagged rfl .nil
  | .continueStmt _ _ => .untagged rfl .nil

/-- `Stmt.code_lined` for statement sequences. -/
theorem Stmts.code_lined : ∀ ss : Stmts, Lined ss.code
  | .nil => .nil
  | .cons s ss => s.code_lined.append ss.code_lined

/-- `Stmt.code_lined` for further clauses. -/
theorem Else.code_lined : ∀ e : Else, Lined e.code
  | .none => .nil
  | .elifClause _ _ c _ _ body _ rest =>
      .untagged rfl (c.code_lined.append (.untagged rfl
        (body.code_lined.append rest.code_lined)))
  | .elseClause _ _ body _ => .untagged rfl body.code_lined

end

theorem Stmts.program_lined (body : Stmts) : Lined body.program :=
  .untagged rfl (((body.code_lined.append returnNil_lined).closeItems _ _).nest)

/-- In an accepted source, every instruction that can throw has a line of its own. -/
theorem line_of_canThrow {fuel : Nat} {globals : List Bytes} {source : Bytes} {p : Parser}
    (h : parseState fuel globals source = .ok p) :
    ∀ ti ∈ p.prog, ti.instr.canThrow = true → ti.line.isSome = true := by
  obtain ⟨body, hbody⟩ := parse_sound h
  intro ti hti hthrow
  obtain ⟨n, hn⟩ := List.mem_iff_getElem?.mp hti
  obtain ⟨r, hr, hden⟩ := forall₂_getElem?_left hbody.code hn
  rw [hden.line]
  exact body.program_lined r (List.mem_of_getElem? hr) (hden.instr.canThrow hthrow)

/-- Looking an instruction up in the table of quarks gives the line it is tagged with, and for an
untagged instruction that of the nearest tagged one before it; in an accepted source, `find_quark`
finds every instruction that can throw or perform a call. -/
theorem traceback_lines :
    (∀ (p : Parser) (source : Bytes) (origin : String) (i : Nat) (instr : Instr) (line : Nat),
      p.prog[i]? = some ⟨instr, some line⟩ →
        (findQuark i (toChunk p source origin)).map (·.line) = some line) ∧
    (∀ (p : Parser) (source : Bytes) (origin : String) (i : Nat) (instr : Instr) (line : Nat),
      p.prog[i]? = some ⟨instr, none⟩ → LastTagged p.prog i line →
        (findQuark i (toChunk p source origin)).map (·.line) = some line) ∧
    (∀ (globals g : List Bytes) (source : Bytes) (origin : String) (c : Chunk),
      parse globals source origin = .ok (c, g) →
        ∀ (i : Nat) (instr : Instr), c.code[i]? = some instr → instr.canThrow = true →
          ∃ quark, findQuark i c = some quark) := by
  refine ⟨?_, ?_, ?_⟩
  · intro p source origin i instr line hi
    rw [findQuark_line]
    exact (LastTagged.here hi rfl).lineBefore
  · intro p source origin i instr line hi hlast
    rw [findQuark_line]
    exact (hlast.succ hi rfl).lineBefore
  · intro globals g source origin c hparse i instr hi hthrow
    obtain ⟨p, hstate, hchunk⟩ := bind_ok hparse
    obtain ⟨rfl, -⟩ := Prod.mk.inj (Except.ok.inj hchunk)
    obtain ⟨ti, hti, rfl⟩ := Option.map_eq_some_iff.mp ((List.getElem?_map ..).symm.trans hi)
    have htag := line_of_canThrow hstate ti (List.mem_of_getElem? hti) hthrow
    obtain ⟨line, hline⟩ := Option.isSome_iff_exists.mp htag
    have hfound := findQuark_line p source origin i
    rw [(LastTagged.here hti hline).lineBefore] at hfound
    obtain ⟨quark, hquark, -⟩ := Option.map_eq_some_iff.mp hfound
    exact ⟨quark, hquark⟩

omit [DeciBase] in
/-- A division in the third clause of a loop, whose code the parser has moved. -/
theorem traceback_lines_for :
    ∃ c g, @parse deciBase64 [] (bytesOf "for(x=1;\nx;\nx=x/0)\x7b\nx=2\x7d") "" = .ok (c, g) ∧
      c.code[9]? = some (opAop .aopDiv) ∧ ∃ quark, findQuark 9 c = some quark := by
  obtain ⟨c, g, hp, hi⟩ : ∃ c g, @parse deciBase64 []
      (bytesOf "for(x=1;\nx;\nx=x/0)\x7b\nx=2\x7d") "" = .ok (c, g) ∧
      c.code[9]? = some (opAop .aopDiv) := ⟨_, _, rfl, rfl⟩
  exact ⟨c, g, hp, hi, (@traceback_lines deciBase64).2.2 _ _ _ _ _ hp 9 _ hi rfl⟩

end

end Calx
