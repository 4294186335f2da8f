import Calx.Flow
import Calx.AssignSound

/-!
# Operand depths of a tree's code

An expression leaves exactly one operand behind, a statement none, and the
jumps of a statement go to places between statements.
-/

namespace Calx

open LexemeKind Instr

/-! ## Operands -/

/-- Code that leaves `n` operands behind, whatever is below them. -/
structure Pushes (n : Nat) (code : List Item) : Prop where
  flow : ∀ L d, Flow L d code
  depth : ∀ d, depthAfter d code = d + n

theorem Pushes.append {m n : Nat} {l l' : List Item} (h : Pushes m l) (h' : Pushes n l') :
    Pushes (m + n) (l ++ l') where
  flow L d := by simp [h.flow, h'.flow]
  depth d := by simp [h.depth, h'.depth, Nat.add_assoc]

theorem fits_plain {L : Int → Prop} {d : Nat} {i : Instr} (hi : i ≠ opReturn) (h : i.pops ≤ d) :
    (AInstr.plain i).Fits L d := by
  unfold AInstr.Fits
  split <;> simp_all [AInstr.pops]

/-- An operator after its operands. -/
theorem Pushes.op {n : Nat} {l : List Item} (h : Pushes n l) {i : Instr} (hi : i ≠ opReturn)
    (hpop : i.pops = n) (hpush : i.pushes = 1) (line : Option Nat) :
    Pushes 1 (l ++ [.mine (.plain i) line]) where
  flow L d := by
    simp only [flow_append, h.flow, flow_cons, flow_nil, and_true, true_and, h.depth]
    exact fun _ => fits_plain hi (by omega)
  depth d := by
    simp [h.depth, AInstr.pops, AInstr.pushes, hpop, hpush]

/-- A constant or a load. -/
theorem Pushes.leaf {a : AInstr} (line : Option Nat) (ha : a.pops = 0 ∧ a.pushes = 1)
    (hf : ∀ L d, a.Fits L d) : Pushes 1 [.mine a line] where
  flow L d := by simp [hf]
  depth d := by simp [ha]

theorem Pushes.nil : Pushes 0 [] := ⟨by simp, by simp⟩

theorem unaryInstr_spec (k : LexemeKind) :
    unaryInstr k ≠ opReturn ∧ (unaryInstr k).pops = 1 ∧ (unaryInstr k).pushes = 1 := by
  cases k <;> simp [unaryInstr, unaryProps, Instr.pops, Instr.pushes]

theorem binaryInstr_spec {k : LexemeKind} (h : (binaryProps k).isSome = true) :
    binaryInstr k ≠ opReturn ∧ (binaryInstr k).pops = 2 ∧ (binaryInstr k).pushes = 1 := by
  cases k <;> simp_all [binaryInstr, binaryProps, Instr.pops, Instr.pushes]

/-- What an assignment makes of its target takes off one operand more than the load. -/
theorem assignInstr_spec {k : LexemeKind} {a b : AInstr} (h : assignInstr k a = some b) :
    b.pushes = 0 ∧ b.pops = 1 + a.pops ∧ (∀ L d, b.pops ≤ d → b.Fits L d) ∧ a.pushes = 1 := by
  unfold assignInstr at h
  split at h
  · split_ifs at h
    · obtain rfl := Option.some.inj h
      exact ⟨rfl, rfl, fun _ _ h => h, rfl⟩
    · obtain rfl := Option.some.inj h
      exact ⟨rfl, rfl, fun _ _ h => h, rfl⟩
    · obtain ⟨_, -, rfl⟩ := Option.map_eq_some_iff.mp h
      exact ⟨rfl, rfl, fun _ _ h => h, rfl⟩
  · split_ifs at h
    · obtain rfl := Option.some.inj h
      exact ⟨rfl, rfl, fun _ _ h => h, rfl⟩
    · obtain ⟨_, -, rfl⟩ := Option.map_eq_some_iff.mp h
      exact ⟨rfl, rfl, fun _ _ h => h, rfl⟩
  · simp at h

/-! ## Balanced code -/

/-- The operands of a statement's code: none at its ends, and none at its jumps. -/
structure Balanced (code : List Item) : Prop where
  flow : Flow (Landing code) 0 code
  depth : depthAfter 0 code = 0

theorem Pushes.balanced {l : List Item} (h : Pushes 0 l) : Balanced l := ⟨h.flow _ _, h.depth 0⟩

/-- The flow of a part is that of the whole, if the whole goes on with its own code. -/
theorem Balanced.embed {A B C : List Item} (h : Balanced B) (hA : depthAfter 0 A = 0)
    (hC : ∀ r ∈ C.head?, r.own = true) :
    Flow (fun t => Landing (A ++ (B ++ C)) (t + A.length)) 0 B :=
  h.flow.mono fun _ ht => ht.embed hA hC

theorem Balanced.append {l l' : List Item} (h : Balanced l) (h' : Balanced l')
    (ho : ∀ r ∈ l'.head?, r.own = true) : Balanced (l ++ l') where
  flow := by
    rw [flow_append, h.depth]
    exact ⟨by simpa using h.embed (A := []) rfl ho,
      by simpa using h'.embed (C := []) h.depth (by simp)⟩
  depth := by rw [depthAfter_append, h.depth, h'.depth]

/-- A jump over code to its end. -/
theorem Balanced.overCode {rest : List Item} (h : Balanced rest) : Balanced (overCode rest) where
  flow := by
    refine ⟨fun _ => ⟨rfl, ?_⟩, ?_⟩
    · have : Landing (Calx.overCode rest) (Calx.overCode rest).length := landing_end h.depth
      simpa [Calx.overCode, Int.add_comm] using this
    · have := h.embed (A := [.mine (.jump (1 + rest.length)) none]) (C := []) rfl (by simp)
      simpa [Calx.overCode, AInstr.pops, AInstr.pushes] using this
  depth := h.depth

/-- A clause, after which other clauses may follow. -/
theorem Balanced.clause {cond body rest : List Item} (hc : Pushes 1 cond) (hb : Balanced body)
    (hr : rest = [] ∨ ∃ rest', rest = Calx.overCode rest' ∧ Balanced rest' ∧
      ∀ r ∈ rest'.head?, r.own = true) : Balanced (clauseCode cond body rest) := by
  have hrest : Balanced rest := by
    obtain rfl | ⟨rest', rfl, hr', -⟩ := hr
    · exact Pushes.nil.balanced
    · exact hr'.overCode
  have ho : ∀ r ∈ rest.head?, r.own = true := by
    obtain rfl | ⟨rest', rfl, -⟩ := hr <;> simp [Calx.overCode]
  have hd : depthAfter 0 (cond ++ [.mine (.jumpUnless (1 + body.length +
      if rest = [] then 0 else 1)) none]) = 0 := by
    simp [hc.depth, AInstr.pops, AInstr.pushes]
  have hall : clauseCode cond body rest = (cond ++ [.mine (.jumpUnless (1 + body.length +
      if rest = [] then 0 else 1)) none]) ++ (body ++ rest) := by
    simp [clauseCode]
  refine ⟨?_, by rw [hall, depthAfter_append, hd, depthAfter_append, hb.depth, hrest.depth]⟩
  rw [hall, flow_append, hd, flow_append _ _ cond]
  refine ⟨⟨hc.flow _ _, fun _ => ⟨hc.depth 0, ?_⟩, trivial⟩, ?_⟩
  · -- the jump over the body goes past the jump that may follow it
    obtain rfl | ⟨rest', rfl, hr', ho'⟩ := hr
    · have hall : depthAfter 0 ((cond ++ [.mine (.jumpUnless (1 + body.length +
          if ([] : List Item) = [] then 0 else 1)) none]) ++ (body ++ [])) = 0 := by
        rw [depthAfter_append, hd]
        simpa using hb.depth
      convert landing_end hall using 1
      simp
      omega
    · refine ⟨(cond ++ [.mine (.jumpUnless (1 + body.length +
        if Calx.overCode rest' = [] then 0 else 1)) none]) ++ (body ++
          [.mine (.jump (1 + rest'.length)) none]), rest', by simp [Calx.overCode], ?_, ?_, ho'⟩
      · simp [Calx.overCode]
        omega
      · rw [depthAfter_append, hd, depthAfter_append, hb.depth]
        rfl
  · rw [flow_append, hb.depth]
    refine ⟨hb.embed hd ho, ?_⟩
    have := hrest.embed (A := (cond ++ [.mine (.jumpUnless (1 + body.length +
      if rest = [] then 0 else 1)) none]) ++ body) (C := []) (by
        rw [depthAfter_append, hd, hb.depth]) (by simp)
    simpa [Int.add_assoc, Int.add_comm, Int.add_left_comm] using this


/-- The flow of a loop's body, once its `break` and `continue` jumps are aimed. -/
theorem Balanced.patched {A B C : List Item} {brk cnt : Int} (h : Balanced B)
    (hA : depthAfter 0 A = 0) (hC : ∀ r ∈ C.head?, r.own = true)
    (hb : Landing (A ++ (patch brk cnt B ++ C)) (brk + A.length))
    (hc : Landing (A ++ (patch brk cnt B ++ C)) (cnt + A.length)) :
    Flow (fun t => Landing (A ++ (patch brk cnt B ++ C)) (t + A.length)) 0 (patch brk cnt B) :=
  (h.flow.mono fun _ ht => (ht.patch brk cnt).embed hA hC).patch hb hc

theorem Balanced.whileCode {cond body : List Item} (hc : Pushes 1 cond) (hb : Balanced body)
    (ho : ∀ r ∈ (whileCode cond body).head?, r.own = true) : Balanced (whileCode cond body) := by
  set A := cond ++ [.mine (.jumpUnless (body.length + 2)) none] with hA
  set back : Item := .mine (.jump (-(cond.length + 1 + body.length : Nat))) none with hback
  have hd : depthAfter 0 A = 0 := by simp [hA, hc.depth, AInstr.pops, AInstr.pushes]
  have hall : Calx.whileCode cond body =
      A ++ (patch (body.length + 1) (-(cond.length + 1)) body ++ [back]) := by
    simp [Calx.whileCode, hA, hback]
  have hdepth : depthAfter 0 (Calx.whileCode cond body) = 0 := by
    rw [hall, depthAfter_append, hd, depthAfter_append, depthAfter_patch, hb.depth]
    rfl
  have hend := landing_end hdepth
  have hlen : (Calx.whileCode cond body).length = A.length + (body.length + 1) := by
    simp [hall]
  have hAl : A.length = cond.length + 1 := by simp [hA]
  have hstart := landing_start ho
  rw [hlen, hall] at hend
  rw [hall] at hstart
  refine ⟨?_, hdepth⟩
  rw [hall, flow_append _ _ A, hd, flow_append _ _ (patch _ _ _), depthAfter_patch, hb.depth]
  refine ⟨?_, hb.patched hd (by simp [hback]) ?_ ?_, ?_⟩
  · rw [hA, flow_append]
    refine ⟨hc.flow _ _, fun _ => ⟨hc.depth 0, ?_⟩, trivial⟩
    convert hend using 1
    push_cast [hAl]
    omega
  · convert hend using 1
    push_cast
    omega
  · convert hstart using 1
    push_cast [hAl]
    omega
  · refine ⟨fun _ => ⟨rfl, ?_⟩, trivial⟩
    convert hstart using 1
    push_cast [patch_length, hAl]
    omega

theorem depthAfter_forCondCode {cond : Option (List Item)} (hc : ∀ l ∈ cond, Pushes 1 l) (n : Nat) :
    depthAfter 0 (forCondCode n cond) = 0 := by
  cases cond with
  | none => rfl
  | some cond => simp [forCondCode, (hc cond rfl).depth, AInstr.pops, AInstr.pushes]

theorem flow_forCondCode {cond : Option (List Item)} (hc : ∀ l ∈ cond, Pushes 1 l) {n : Nat}
    {L : Int → Prop} (hL : L (((forCondCode n cond).length : Nat) + n)) :
    Flow L 0 (forCondCode n cond) := by
  cases cond with
  | none => trivial
  | some cond =>
      have h := hc cond rfl
      rw [forCondCode, flow_append]
      refine ⟨h.flow _ _, fun _ => ⟨h.depth 0, ?_⟩, trivial⟩
      convert hL using 1
      simp only [forCondCode, List.length_append, List.length_singleton]
      push_cast
      omega

theorem Balanced.forCode {pre post body : List Item} {cond : Option (List Item)}
    (hpre : Pushes 0 pre) (hc : ∀ l ∈ cond, Pushes 1 l) (hpost : Pushes 0 post)
    (hb : Balanced body) (ho : ∀ r ∈ post, r.own = true)
    (hloop : ∀ r ∈ (forCode [] cond post body).head?, r.own = true) :
    Balanced (forCode pre cond post body) := by
  set C := forCondCode (body.length + post.length + 1) cond with hC
  set back : Item := .mine (.jump (-(C.length + body.length + post.length : Nat))) none with hback
  set B := patch (body.length + post.length + 1) body.length body with hB
  have hBl : B.length = body.length := patch_length ..
  have hCd : depthAfter 0 C = 0 := depthAfter_forCondCode hc _
  have hBd : depthAfter 0 B = 0 := by rw [hB, depthAfter_patch, hb.depth]
  have hd : depthAfter 0 (pre ++ C) = 0 := by rw [depthAfter_append, hpre.depth, hCd]
  have hall : Calx.forCode pre cond post body = (pre ++ C) ++ (B ++ (post ++ [back])) := by
    simp [Calx.forCode, hC, hB, hback]
  have hrest : ∀ r ∈ (post ++ [back]).head?, r.own = true := by
    cases post with
    | nil => simp [hback]
    | cons r rs => simpa using ho r (by simp)
  have hdepth : depthAfter 0 (Calx.forCode pre cond post body) = 0 := by
    rw [hall, depthAfter_append, hd, depthAfter_append, hBd, depthAfter_append, hpost.depth]
    rfl
  have hend := landing_end hdepth
  have hlen : (Calx.forCode pre cond post body).length =
      (pre ++ C).length + (body.length + post.length + 1) := by
    simp only [hall, List.length_append, hBl, List.length_singleton]
    omega
  -- where the third clause and the second clause begin
  have hcnt : Landing ((pre ++ C) ++ (B ++ (post ++ [back]))) (body.length + (pre ++ C).length) :=
    ⟨(pre ++ C) ++ B, post ++ [back], by simp, by simp [hBl]; omega,
      by rw [depthAfter_append, hd, hBd], hrest⟩
  have hagain : Landing ((pre ++ C) ++ (B ++ (post ++ [back]))) pre.length :=
    ⟨pre, C ++ (B ++ (post ++ [back])), by simp, rfl, hpre.depth 0, hloop⟩
  rw [hlen, hall] at hend
  refine ⟨?_, hdepth⟩
  rw [hall, flow_append _ _ (pre ++ C), hd, flow_append _ _ B, hBd, flow_append _ _ post,
    hpost.depth, flow_append _ _ pre, hpre.depth]
  refine ⟨⟨hpre.flow _ _, flow_forCondCode hc ?_⟩, hb.patched hd hrest ?_ hcnt, hpost.flow _ _,
    fun _ => ⟨rfl, ?_⟩, trivial⟩
  · convert hend using 1
    push_cast [← hC, List.length_append]
    omega
  · convert hend using 1
    push_cast [List.length_append]
    omega
  · convert hagain using 1
    push_cast [List.length_append, hBl]
    omega

theorem returnNil_balanced : Balanced returnNil :=
  ⟨⟨fun _ => Nat.zero_le _, fun _ => rfl, trivial⟩, rfl⟩

theorem funCode_balanced (name : Lexeme) (ps : Option Params) (names : List Bytes) (posted : Bool)
    (body : List Item) :
    Balanced ((funCode ps names posted body).take 1 ++
      (nest (funCode ps names posted body).tail ++ [.mine (.store name.text) none])) := by
  change Balanced (.mine (.function (funInfo ps names posted body)) none ::
    (nest (closeItems posted names body) ++ [.mine (.store name.text) none]))
  refine ⟨⟨fun _ => Nat.zero_le _, ?_⟩, ?_⟩
  · rw [flow_append]
    refine ⟨flow_nest .., fun _ => ?_, trivial⟩
    rw [depthAfter_nest]
    exact Nat.le_refl 1
  · simp [depthAfter_nest, AInstr.pops, AInstr.pushes]

/-! ## Expressions -/

section

variable [DeciBase]

mutual

/-- An expression leaves its value behind. -/
theorem Expr.code_pushes : ∀ e : Expr, e.Wf → Pushes 1 e.code
  | .literal _, _ | .ident _, _ => .leaf _ ⟨rfl, rfl⟩ fun _ _ => Nat.zero_le _
  | .list0 .., _ | .dict0 .., _ => Pushes.nil.op (by simp) rfl rfl _
  | .list _ es _, h => (es.code_pushes h.2.1).op (by simp) rfl rfl _
  | .dict _ kvs _, h => (kvs.code_pushes h.2.1).op (by simp) rfl rfl _
  | .paren _ e _, h => e.code_pushes h.2.1
  | .unary op e, h =>
      (e.code_pushes h.2).op (unaryInstr_spec op.kind).1 (unaryInstr_spec op.kind).2.1
        (unaryInstr_spec op.kind).2.2 _
  | .binary l op r, h => by
      obtain ⟨h1, h2, h3⟩ := binaryInstr_spec h.2.1
      rw [Expr.code, ← List.append_assoc]
      exact ((l.code_pushes h.1).append (r.code_pushes h.2.2)).op h1 h2 h3 _
  | .index e _ i _, h => by
      rw [Expr.code, ← List.append_assoc]
      exact ((e.code_pushes h.1).append (i.code_pushes h.2.2.1)).op (by simp) rfl rfl _
  | .field e _ name, h => by
      have hc : Pushes 1 [.mine (.const (.str name.text)) name.tag] :=
        .leaf _ ⟨rfl, rfl⟩ fun _ _ => Nat.zero_le _
      simpa [Expr.code] using
        ((e.code_pushes h.1).append hc).op (i := opLoadAt) (by simp) rfl rfl name.tag
  | .call0 f _ _, h => (f.code_pushes h.1).op (by simp) rfl rfl _
  | .call f _ args star _, h => by
      rw [Expr.code, ← List.append_assoc]
      exact ((f.code_pushes h.1).append (args.code_pushes h.2.2.1)).op (by simp)
        (Nat.add_comm _ _) rfl _

/-- A list of expressions leaves their values behind. -/
theorem Elems.code_pushes : ∀ es : Elems, es.Wf → Pushes es.count es.code
  | .last e, h => e.code_pushes h
  | .more e _ es, h => by
      rw [Elems.count, Nat.add_comm]
      exact (e.code_pushes h.1).append (es.code_pushes h.2.2)

/-- A list of dict entries leaves its keys and values behind. -/
theorem Entries.code_pushes : ∀ kvs : Entries, kvs.Wf → Pushes (2 * kvs.count) kvs.code
  | .last k _ v, h => (k.code_pushes h.1).append (v.code_pushes h.2.2)
  | .more k _ v _ kvs, h => by
      rw [Entries.count, show 2 * (kvs.count + 1) = 1 + (1 + 2 * kvs.count) by omega]
      exact (k.code_pushes h.1).append
        ((v.code_pushes h.2.2.1).append (kvs.code_pushes h.2.2.2.2))

end

/-- An expression statement or assignment leaves nothing behind. -/
theorem Simple.code_pushes (next : Lexeme) : ∀ s : Simple, s.Wf → Pushes 0 (s.code next)
  | .expr e, h => by
      have he := e.code_pushes h
      exact ⟨fun L d => by simp [Simple.code, he.flow, he.depth, AInstr.Fits, AInstr.pops, Instr.pops],
        fun d => by simp [Simple.code, he.depth, AInstr.pops, AInstr.pushes, Instr.pops, Instr.pushes]⟩
  | .assign lhs op rhs, h => by
      obtain ⟨hl, -, hr, ha⟩ := h
      obtain ⟨b, hb⟩ := Option.isSome_iff_exists.mp ha
      obtain ⟨hpush, hpop, hfit, hpush'⟩ := assignInstr_spec hb
      obtain ⟨r, hc, hi, ho, -⟩ := lhs.code_eq_dropLast_append
      have hlp := lhs.code_pushes hl
      have hrp := rhs.code_pushes hr
      rw [hc] at hlp
      -- the depth of the target, which is not loaded
      have hdepth : ∀ d, depthAfter d lhs.code.dropLast = d + lhs.lastInstr.pops := fun d => by
        have h1 := hlp.depth d
        have h2 := (((flow_append ..).mp (hlp.flow (fun _ => True) d)).2.1 ho).pops_le
        simp only [depthAfter_append, depthAfter_cons, depthAfter_nil, depthStep, ho, if_true, hi,
          hpush'] at h1
        rw [hi] at h2
        omega
      have hflow : ∀ L d, Flow L d lhs.code.dropLast := fun L d =>
        ((flow_append ..).mp (hlp.flow L d)).1
      refine ⟨fun L d => ?_, fun d => ?_⟩
      · simp only [Simple.code, hb, Option.getD_some, flow_append, hflow, hrp.flow, hrp.depth,
          hdepth, flow_cons, flow_nil, true_and, and_true]
        exact fun _ => hfit _ _ (by omega)
      · simp only [Simple.code, hb, Option.getD_some, depthAfter_append, hdepth, hrp.depth,
          depthAfter_cons, depthAfter_nil, depthStep_mine, hpush]
        omega

/-! ## Statements -/

theorem Simple.optCode_pushes (next : Lexeme) {s : Option Simple} (h : ∀ t ∈ s, t.Wf) :
    Pushes 0 ((s.map (Simple.code next)).getD []) := by
  cases s with
  | none => exact .nil
  | some s => exact s.code_pushes next (h s rfl)

theorem Expr.optCode_pushes {e : Option Expr} (h : ∀ x ∈ e, x.Wf) :
    ∀ l ∈ e.map Expr.code, Pushes 1 l := by
  rintro l hl
  obtain ⟨x, hx, rfl⟩ := Option.map_eq_some_iff.mp hl
  exact x.code_pushes (h x hx)

mutual

/-- Every statement starts and ends without operands. -/
theorem Stmt.code_balanced : ∀ (b : Bool) (s : Stmt), s.Wf b → Balanced s.code
  | _, .empty _, _ => Pushes.nil.balanced
  | _, .simple s semi, h => (s.code_pushes semi h.1).balanced
  | b, .ifStmt _ _ c _ _ body _ rest, h =>
      .clause (c.code_pushes h.2.2.1) (body.code_balanced b h.2.2.2.2.2.1)
        (rest.code_over b h.2.2.2.2.2.2.2)
  | b, .whileStmt kw lp c rp lb body rb, h =>
      .whileCode (c.code_pushes h.2.2.1) (body.code_balanced true h.2.2.2.2.2.1)
        ((Stmt.whileStmt kw lp c rp lb body rb).code_blocked b h).head_own
  | _, .forStmt kw lp pre semi1 cond semi2 post rp lb body rb, h => by
      obtain ⟨hkw, hlp, hpre, hs1, hcond, hs2, hpost, hrp, hlb, hbody, hrb⟩ := h
      exact .forCode (Simple.optCode_pushes semi1 hpre) (Expr.optCode_pushes hcond)
        (Simple.optCode_pushes rp fun t ht => (hpost t ht).1) (body.code_balanced true hbody)
        (fun r hr => (Simple.optCode_straight rp post r hr).1)
        ((Stmt.forStmt kw lp none semi1 cond semi2 post rp lb body rb).code_blocked true
          ⟨hkw, hlp, by simp, hs1, hcond, hs2, hpost, hrp, hlb, hbody, hrb⟩).head_own
  | _, .funStmt _ name _ ps _ _ body _, _ => funCode_balanced name ps _ _ _
  | _, .returnStmt _ none _, _ => returnNil_balanced
  | _, .returnStmt _ (some e) _, h => by
      have he := e.code_pushes (h.2.1 e rfl)
      refine ⟨?_, ?_⟩
      · simp only [Stmt.code, flow_append, he.flow, he.depth, true_and, flow_cons, flow_nil, and_true]
        exact fun _ => rfl
      · simp [Stmt.code, he.depth, AInstr.pops, AInstr.pushes, Instr.pops, Instr.pushes]
  | _, .breakStmt _ _, _ => ⟨⟨fun _ => rfl, trivial⟩, rfl⟩
  | _, .continueStmt _ _, _ => ⟨⟨fun _ => rfl, trivial⟩, rfl⟩

/-- Every statement sequence starts and ends without operands. -/
theorem Stmts.code_balanced : ∀ (b : Bool) (ss : Stmts), ss.Wf b → Balanced ss.code
  | _, .nil, _ => Pushes.nil.balanced
  | b, .cons s ss, h =>
      (s.code_balanced b h.1).append (ss.code_balanced b h.2) (ss.code_blocked b h.2).head_own

/-- Further clauses are nothing, or a jump over them and balanced code. -/
theorem Else.code_over : ∀ (b : Bool) (e : Else), e.Wf b → e.code = [] ∨
    ∃ rest, e.code = overCode rest ∧ Balanced rest ∧ ∀ r ∈ rest.head?, r.own = true
  | _, .none, _ => .inl rfl
  | b, .elifClause kw lp c rp lb body rb rest, h =>
      .inr ⟨_, rfl, .clause (c.code_pushes h.2.2.1) (body.code_balanced b h.2.2.2.2.2.1)
        (rest.code_over b h.2.2.2.2.2.2.2),
        ((Stmt.ifStmt { kw with kind := lkIf } lp c rp lb body rb rest).code_blocked b
          ⟨rfl, h.2⟩).head_own⟩
  | b, .elseClause _ _ body _, h =>
      .inr ⟨_, rfl, body.code_balanced b h.2.2.1, (body.code_blocked b h.2.2.1).head_own⟩

end

end

end Calx
