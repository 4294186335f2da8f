import Calx.Discipline

/-!
# The places of functions

Where in the code of a program each of its functions stands, read off the tree: the
`OP_FUNCTION` of a function, with its closed code behind it, is not moved by what is compiled
around it, except that the body of a `for` loop comes to stand in front of the third clause.
-/

namespace Calx

open LexemeKind Instr

section

variable [DeciBase]

/-- The places in a piece of code, with `n` items in front of it. -/
def later (n : Nat) (places : List (Nat × (Option Params × Stmts))) :
    List (Nat × (Option Params × Stmts)) := places.map fun p => (n + p.1, p.2)

mutual

/-- The functions defined in a statement, with the places of their `OP_FUNCTION` in its code. -/
def Stmt.places : Stmt → List (Nat × (Option Params × Stmts))
  | .ifStmt _ _ c _ _ body _ rest =>
      later (c.code.length + 1) (body.places ++ later body.code.length rest.places)
  | .whileStmt _ _ c _ _ body _ => later (c.code.length + 1) body.places
  | .forStmt _ _ pre semi1 cond _ _ _ _ body _ =>
      later ((pre.map (Simple.code semi1)).getD []).length
        (later (forCondCode 0 (cond.map Expr.code)).length body.places)
  | .funStmt _ _ _ ps _ _ body _ => (0, (ps, body)) :: later 1 body.places
  | _ => []

/-- The functions defined in a statement sequence, with their places. -/
def Stmts.places : Stmts → List (Nat × (Option Params × Stmts))
  | .nil => []
  | .cons s ss => s.places ++ later s.code.length ss.places

/-- The functions defined in further clauses, with their places. -/
def Else.places : Else → List (Nat × (Option Params × Stmts))
  | .none => []
  | .elifClause _ _ c _ _ body _ rest =>
      later 1 (later (c.code.length + 1) (body.places ++ later body.code.length rest.places))
  | .elseClause _ _ body _ => later 1 body.places

end

/-- The functions of a program with their places in its code; the program itself stands at the
beginning. -/
def Stmts.functionsAt (body : Stmts) : List (Nat × (Option Params × Stmts)) :=
  (0, (none, body)) :: later 1 body.places

/-! ## Code that stands at a place -/

omit [DeciBase] in
theorem getElem?_aimFrom {a : AInstr} {l : List Item} {k : Nat} {r : Item} (hk : l[k]? = some r)
    (ha : r.instr ≠ a) (dst : Int) (i : Nat) : (aimFrom a dst i l)[k]? = some r := by
  induction l generalizing k i with
  | nil => cases hk
  | cons r' rs ih =>
      cases k with
      | zero =>
          obtain rfl := Option.some.inj hk
          rw [aimFrom_cons_ne ha]
          rfl
      | succ k =>
          rw [aimFrom, List.getElem?_cons_succ]
          exact ih hk (i + 1)

/-- The `OP_FUNCTION` of `q` stands in `l` at `k`, and its code behind it. -/
structure StandsAt (q : Option Params × Stmts) (l : List Item) (k : Nat) : Prop where
  wf : q.2.Wf false
  opener : ∃ r, l[k]? = some r ∧ r.instr = .function (shapeInfo q)
  code : ∀ j r, (closedCode q)[j]? = some r → l[k + 1 + j]? = some { r with own := false }

namespace StandsAt

variable {q : Option Params × Stmts} {l l' : List Item} {k : Nat}

theorem append_left (h : StandsAt q l k) (l' : List Item) : StandsAt q (l ++ l') k := by
  have hleft : ∀ (j : Nat) (r : Item), l[j]? = some r → (l ++ l')[j]? = some r := by
    intro j r hj
    rw [List.getElem?_append_left (List.getElem?_eq_some_iff.mp hj).1, hj]
  obtain ⟨r, hr, hinstr⟩ := h.opener
  exact ⟨h.wf, ⟨r, hleft _ r hr, hinstr⟩, fun j r hj => hleft _ _ (h.code j r hj)⟩

theorem append_right (h : StandsAt q l' k) (l : List Item) :
    StandsAt q (l ++ l') (l.length + k) := by
  have hright : ∀ j : Nat, (l ++ l')[l.length + j]? = l'[j]? := by
    intro j
    rw [List.getElem?_append_right (Nat.le_add_right _ _), Nat.add_sub_cancel_left]
  obtain ⟨r, hr, hinstr⟩ := h.opener
  refine ⟨h.wf, ⟨r, (hright k).trans hr, hinstr⟩, fun j r hj => ?_⟩
  rw [Nat.add_assoc, Nat.add_assoc, hright, ← Nat.add_assoc]
  exact h.code j r hj

theorem cons (h : StandsAt q l k) (r : Item) : StandsAt q (r :: l) (1 + k) :=
  h.append_right [r]

/-- Aiming the jumps of a loop leaves functions as they are. -/
theorem patch (h : StandsAt q l k) (brk cnt : Int) : StandsAt q (patch brk cnt l) k := by
  have hkeep : ∀ (j : Nat) (r : Item), l[j]? = some r → r.instr ≠ .breakTo → r.instr ≠ .continueTo →
      (Calx.patch brk cnt l)[j]? = some r := by
    intro j r hj hbrk hcnt
    exact getElem?_aimFrom (getElem?_aimFrom hj hbrk _ _) hcnt _ _
  obtain ⟨r, hr, hinstr⟩ := h.opener
  refine ⟨h.wf, ⟨r, hkeep _ r hr (by simp [hinstr]) (by simp [hinstr]), hinstr⟩, fun j r hj => ?_⟩
  have hclosed := closedCode_isClosed h.wf r (List.mem_of_getElem? hj)
  refine hkeep _ _ (h.code j r hj) ?_ ?_
  · rintro hbrk
    simp [show r.instr = .breakTo from hbrk, AInstr.isClosed] at hclosed
  · rintro hcnt
    simp [show r.instr = .continueTo from hcnt, AInstr.isClosed] at hclosed

/-- Closing the function around it leaves a function as it is. -/
theorem nest_closeItems (h : StandsAt q l k) (posted : Bool) (names : List Bytes) :
    StandsAt q (nest (closeItems posted names l)) k := by
  have hget : ∀ (j : Nat) (r : Item), l[j]? = some r → (nest (closeItems posted names l))[j]? =
      some { closeItem posted names r with own := false } := by
    intro j r hj
    rw [nest, closeItems_eq, List.map_map, List.getElem?_map, hj]
    rfl
  obtain ⟨r, hr, hinstr⟩ := h.opener
  refine ⟨h.wf, ⟨_, hget _ r hr, ?_⟩, fun j r hj => ?_⟩
  · change (closeItem posted names r).instr = _
    unfold closeItem
    split
    · cases posted <;> simp [closeInstr, hinstr, blur, resolve]
    · exact hinstr
  · exact hget _ _ (h.code j r hj)

/-- A function stands at the beginning of its own code. -/
theorem head (hwf : q.2.Wf false) (line : Option Nat) (rest : List Item) :
    StandsAt q (.mine (.function (shapeInfo q)) line :: (nest (closedCode q) ++ rest)) 0 := by
  refine ⟨hwf, ⟨_, rfl, rfl⟩, fun j r hj => ?_⟩
  have hlt := (List.getElem?_eq_some_iff.mp hj).1
  rw [Nat.zero_add, Nat.add_comm, List.getElem?_cons_succ,
    List.getElem?_append_left (by rwa [nest_length]), nest, List.getElem?_map, hj]
  rfl

end StandsAt

omit [DeciBase] in
theorem mem_later {n k : Nat} {q : Option Params × Stmts}
    {places : List (Nat × (Option Params × Stmts))} (h : (k, q) ∈ later n places) :
    ∃ j, (j, q) ∈ places ∧ k = n + j := by
  obtain ⟨⟨j, q'⟩, hj, heq⟩ := List.mem_map.mp h
  obtain ⟨rfl, rfl⟩ := Prod.mk.inj heq
  exact ⟨j, hj, rfl⟩

/-- What stands in the code behind a condition and its jump. -/
theorem standsAt_clause {cond body rest : List Item} {q : Option Params × Stmts}
    {places others : List (Nat × (Option Params × Stmts))}
    (hbody : ∀ k, (k, q) ∈ places → StandsAt q body k)
    (hrest : ∀ k, (k, q) ∈ others → StandsAt q rest k) {k : Nat}
    (hk : (k, q) ∈ later (cond.length + 1) (places ++ later body.length others)) :
    StandsAt q (clauseCode cond body rest) k := by
  obtain ⟨j, hj, rfl⟩ := mem_later hk
  rw [Nat.add_assoc]
  refine StandsAt.append_right (.cons ?_ _) cond
  rcases List.mem_append.mp hj with hj | hj
  · exact (hbody j hj).append_left rest
  · obtain ⟨i, hi, rfl⟩ := mem_later hj
    exact (hrest i hi).append_right body

mutual

/-- The functions of a statement stand in its code at their places. -/
theorem Stmt.places_stand : ∀ (b : Bool) (s : Stmt), s.Wf b → ∀ {k : Nat}
    {q : Option Params × Stmts}, (k, q) ∈ s.places → StandsAt q s.code k
  | b, .ifStmt _ _ c _ _ body _ rest, h, k, q, hk => by
      obtain ⟨-, -, -, -, -, hbody, -, hrest⟩ := h
      exact standsAt_clause (fun j hj => body.places_stand b hbody hj)
        (fun j hj => rest.places_stand b hrest hj) hk
  | _, .whileStmt _ _ c _ _ body _, h, k, q, hk => by
      obtain ⟨-, -, -, -, -, hbody, -⟩ := h
      obtain ⟨j, hj, rfl⟩ := mem_later hk
      rw [Nat.add_assoc]
      exact .append_right (.cons (((body.places_stand true hbody hj).patch _ _).append_left _) _) _
  | _, .forStmt _ _ pre semi1 cond _ post rp _ body _, h, k, q, hk => by
      obtain ⟨-, -, -, -, -, -, -, -, -, hbody, -⟩ := h
      obtain ⟨i, hi, rfl⟩ := mem_later hk
      obtain ⟨j, hj, rfl⟩ := mem_later hi
      have hstands := ((body.places_stand true hbody hj).patch
        (body.code.length + ((post.map (Simple.code rp)).getD []).length + 1)
        body.code.length).append_left (((post.map (Simple.code rp)).getD []) ++ [.mine (.jump
          (-((forCondCode (body.code.length + ((post.map (Simple.code rp)).getD []).length + 1)
            (cond.map Expr.code)).length + body.code.length +
              ((post.map (Simple.code rp)).getD []).length : Nat))) none])
      have hcond : ∀ n, (forCondCode n (cond.map Expr.code)).length =
          (forCondCode 0 (cond.map Expr.code)).length := by
        intro n
        cases cond <;> simp [forCondCode]
      rw [← hcond (body.code.length + ((post.map (Simple.code rp)).getD []).length + 1)]
      exact (hstands.append_right _).append_right _
  | _, .funStmt _ name _ ps _ _ body _, h, k, q, hk => by
      have hbody := h.2.2.2.2.2.2.1
      rcases List.mem_cons.mp hk with heq | hk
      · obtain ⟨rfl, rfl⟩ := Prod.mk.inj heq
        exact .head hbody none _
      · obtain ⟨j, hj, rfl⟩ := mem_later hk
        have hstands := ((body.places_stand false hbody hj).append_left returnNil).nest_closeItems
          body.postedFun (funLocals ps body)
        exact (hstands.append_left _).cons _
  | _, .empty _, _, _, _, hk | _, .simple .., _, _, _, hk | _, .returnStmt .., _, _, _, hk
  | _, .breakStmt .., _, _, _, hk | _, .continueStmt .., _, _, _, hk => by cases hk

/-- `Stmt.places_stand` for statement sequences. -/
theorem Stmts.places_stand : ∀ (b : Bool) (ss : Stmts), ss.Wf b → ∀ {k : Nat}
    {q : Option Params × Stmts}, (k, q) ∈ ss.places → StandsAt q ss.code k
  | _, .nil, _, _, _, hk => by cases hk
  | b, .cons s ss, h, k, q, hk => by
      rcases List.mem_append.mp hk with hk | hk
      · exact (s.places_stand b h.1 hk).append_left ss.code
      · obtain ⟨j, hj, rfl⟩ := mem_later hk
        exact (ss.places_stand b h.2 hj).append_right s.code

/-- `Stmt.places_stand` for further clauses. -/
theorem Else.places_stand : ∀ (b : Bool) (e : Else), e.Wf b → ∀ {k : Nat}
    {q : Option Params × Stmts}, (k, q) ∈ e.places → StandsAt q e.code k
  | _, .none, _, _, _, hk => by cases hk
  | b, .elifClause _ _ c _ _ body _ rest, h, k, q, hk => by
      obtain ⟨-, -, -, -, -, hbody, -, hrest⟩ := h
      obtain ⟨j, hj, rfl⟩ := mem_later hk
      exact .cons (standsAt_clause (fun j hj => body.places_stand b hbody hj)
        (fun j hj => rest.places_stand b hrest hj) hj) _
  | b, .elseClause _ _ body _, h, k, q, hk => by
      obtain ⟨j, hj, rfl⟩ := mem_later hk
      exact (body.places_stand b h.2.2.1 hj).cons _

end

/-- The functions of a program stand in its code at their places. -/
theorem Stmts.functionsAt_stand {body : Stmts} (hwf : body.Wf false) {k : Nat}
    {q : Option Params × Stmts} (hk : (k, q) ∈ body.functionsAt) : StandsAt q body.program k := by
  rcases List.mem_cons.mp hk with heq | hk
  · obtain ⟨rfl, rfl⟩ := Prod.mk.inj heq
    have hhead := StandsAt.head (q := (none, body)) hwf none []
    rwa [List.append_nil] at hhead
  · obtain ⟨j, hj, rfl⟩ := mem_later hk
    have hstands := ((body.places_stand false hwf hj).append_left returnNil).nest_closeItems
      body.postedFun (funLocals none body)
    exact hstands.cons _

omit [DeciBase] in
theorem exists_later {q : Option Params × Stmts} {places : List (Nat × (Option Params × Stmts))}
    (n : Nat) (h : ∃ k, (k, q) ∈ places) : ∃ k, (k, q) ∈ later n places := by
  obtain ⟨k, hk⟩ := h
  exact ⟨n + k, List.mem_map.mpr ⟨(k, q), hk, rfl⟩⟩

omit [DeciBase] in
theorem exists_append {q : Option Params × Stmts}
    {places others : List (Nat × (Option Params × Stmts))}
    (h : (∃ k, (k, q) ∈ places) ∨ ∃ k, (k, q) ∈ others) : ∃ k, (k, q) ∈ places ++ others := by
  rcases h with ⟨k, hk⟩ | ⟨k, hk⟩
  · exact ⟨k, List.mem_append_left _ hk⟩
  · exact ⟨k, List.mem_append_right _ hk⟩

mutual

/-- Every function of a statement has a place. -/
theorem Stmt.exists_place {q : Option Params × Stmts} : ∀ s : Stmt, q ∈ s.funs →
    ∃ k, (k, q) ∈ s.places
  | .ifStmt _ _ c _ _ body _ rest, h =>
      exists_later _ (exists_append ((List.mem_append.mp h).imp (body.exists_place ·)
        fun h => exists_later _ (rest.exists_place h)))
  | .whileStmt _ _ c _ _ body _, h => exists_later _ (body.exists_place h)
  | .forStmt _ _ _ _ _ _ _ _ _ body _, h => exists_later _ (exists_later _ (body.exists_place h))
  | .funStmt _ _ _ ps _ _ body _, h => by
      rcases List.mem_append.mp h with h | h
      · obtain ⟨k, hk⟩ := exists_later 1 (body.exists_place h)
        exact ⟨k, List.mem_cons_of_mem _ hk⟩
      · obtain rfl := List.mem_singleton.mp h
        exact ⟨0, List.mem_cons_self⟩
  | .empty _, h | .simple .., h | .returnStmt .., h | .breakStmt .., h | .continueStmt .., h => by
      cases h

/-- `Stmt.exists_place` for statement sequences. -/
theorem Stmts.exists_place {q : Option Params × Stmts} : ∀ ss : Stmts, q ∈ ss.funs →
    ∃ k, (k, q) ∈ ss.places
  | .nil, h => by cases h
  | .cons s ss, h =>
      exists_append ((List.mem_append.mp h).imp (s.exists_place ·)
        fun h => exists_later _ (ss.exists_place h))

/-- `Stmt.exists_place` for further clauses. -/
theorem Else.exists_place {q : Option Params × Stmts} : ∀ e : Else, q ∈ e.funs →
    ∃ k, (k, q) ∈ e.places
  | .none, h => by cases h
  | .elifClause _ _ c _ _ body _ rest, h =>
      exists_later _ (exists_later _ (exists_append ((List.mem_append.mp h).imp
        (body.exists_place ·) fun h => exists_later _ (rest.exists_place h))))
  | .elseClause _ _ body _, h => exists_later _ (body.exists_place h)

end

/-- Every function of a program has a place. -/
theorem Stmts.exists_functionsAt {body : Stmts} {q : Option Params × Stmts}
    (hq : q ∈ body.functions) : ∃ i, (i, q) ∈ body.functionsAt := by
  rcases List.mem_append.mp hq with hq | hq
  · obtain ⟨k, hk⟩ := exists_later 1 (body.exists_place hq)
    exact ⟨k, List.mem_cons_of_mem _ hk⟩
  · obtain rfl := List.mem_singleton.mp hq
    exact ⟨0, List.mem_cons_self⟩

/-! ## In a chunk -/

variable {source : Bytes} {p : Parser} {body : Stmts} {origin : String}

/-- In the chunk every function stands at its place. -/
theorem Follows.placedAt (h : Follows source p body) {i : Nat} {q : Option Params × Stmts}
    (hq : (i, q) ∈ body.functionsAt) :
    ∃ s, Placed (toChunk p source origin) p.tables i s q := by
  have hstands := Stmts.functionsAt_stand h.wf hq
  obtain ⟨r, hr, hinstr⟩ := hstands.opener
  obtain ⟨⟨instr, line⟩, hti, hd⟩ := forall₂_getElem? h.code hr
  have hden := hd.instr
  rw [hinstr] at hden
  obtain ⟨n, rfl⟩ : ∃ n, instr = opFunction n := by
    cases hden with
    | @function n => exact ⟨n, rfl⟩
  obtain ⟨s, f, hs, ha, hf⟩ := hden.function_inv
  obtain rfl : shapeInfo q = f := by simpa using hf
  refine ⟨s, ?_, hstands.wf, ha, rfl, fun j r hj => ?_⟩
  · simp only [Chunk.shapeAt, Calx.shapeAt, toChunk_code, hti]
    exact hs
  · obtain ⟨ti, hti, hden⟩ := forall₂_getElem? h.code (hstands.code j r hj)
    refine ⟨ti.instr, ?_, hden.instr⟩
    rw [toChunk_code, hti]
    rfl

end

end Calx
