import Calx.ControlFlow
import Calx.Places

/-!
# Compiled statements end as their meaning says

The simulation between the dispatch loop and the meaning of statements, by
induction over the tree, and from it the equivalence for every function of an
accepted source.
-/

namespace Calx

open LexemeKind Instr

section

variable {σ ε : Type}

/-- From `x` the machine gets to `stop` in at least `k` steps, or halts with an error. -/
def Reaches (M : Machine (Nat × σ) (Outcome σ ε)) (k : Nat) (x : Nat × σ) (stop : Nat) :
    Except ε σ → Prop
  | .ok s => ∃ m ≥ k, M.run m x = .inl (stop, s)
  | .error e => ∃ m, M.run m x = .inr (.raised e)

/-- From `x` the machine gets to `yes` or `no` as a condition tells, or halts with an error. -/
def Tests (M : Machine (Nat × σ) (Outcome σ ε)) (x : Nat × σ) (yes no : Nat) :
    Except ε (Bool × σ) → Prop
  | .ok (b, s) => ∃ m, M.run m x = .inl (if b then yes else no, s)
  | .error e => ∃ m, M.run m x = .inr (.raised e)

/-- From `x` the machine ends as the execution of a statement does: it gets to `stop`, inside a
loop to `brk` or `cnt`, halts, or makes more than `n` steps. -/
def Ends (M : Machine (Nat × σ) (Outcome σ ε)) (inLoop : Bool) (stop brk cnt n : Nat)
    (x : Nat × σ) : σ ⊕ Outcome σ ε → Prop
  | .inl s => ∃ m > n, ∃ pc, M.run m x = .inl (pc, s)
  | .inr (.fell s) => ∃ m, M.run m x = .inl (stop, s)
  | .inr (.broke s) => inLoop = true ∧ ∃ m, M.run m x = .inl (brk, s)
  | .inr (.continued s) => inLoop = true ∧ ∃ m ≥ 1, M.run m x = .inl (cnt, s)
  | .inr (.returned s) => ∃ m, M.run m x = .inr (.returned s)
  | .inr (.raised e) => ∃ m, M.run m x = .inr (.raised e)

variable {M : Machine (Nat × σ) (Outcome σ ε)} {b : Bool} {stop brk cnt n k : Nat} {x y : Nat × σ}

theorem Ends.prepend {r : σ ⊕ Outcome σ ε} (hr : M.run k x = .inl y)
    (h : Ends M b stop brk cnt n y r) {n' : Nat} (hn : n' ≤ n + k) : Ends M b stop brk cnt n' x r := by
  have hrun : ∀ m, M.run (k + m) x = M.run m y := fun m => Machine.run_add hr
  obtain s | ⟨s | s | s | s | e⟩ := r
  · obtain ⟨m, hm, pc, h⟩ := h
    exact ⟨k + m, by omega, pc, (hrun m).trans h⟩
  · exact h.elim fun m h => ⟨k + m, (hrun m).trans h⟩
  · exact h.imp_right fun ⟨m, h⟩ => ⟨k + m, (hrun m).trans h⟩
  · exact h.imp_right fun ⟨m, hm, h⟩ => ⟨k + m, by omega, (hrun m).trans h⟩
  · exact h.elim fun m h => ⟨k + m, (hrun m).trans h⟩
  · exact h.elim fun m h => ⟨k + m, (hrun m).trans h⟩

/-- What follows a statement that falls through. -/
theorem ends_andThen {mid : Nat} {r : σ ⊕ Outcome σ ε} {g : σ → σ ⊕ Outcome σ ε}
    (hg : ∀ s, Ends M b stop brk cnt n (mid, s) (g s)) :
    Ends M b mid brk cnt n x r → Ends M b stop brk cnt n x (match r with
      | .inr (.fell s) => g s
      | r => r) := by
  intro h
  obtain s | ⟨s | s | s | s | e⟩ := r
  · exact h
  · exact h.elim fun m h => (hg s).prepend h (Nat.le_add_right ..)
  · exact h
  · exact h
  · exact h
  · exact h

/-- A statement after which the machine jumps on. -/
theorem Ends.fell_to {mid : Nat} {r : σ ⊕ Outcome σ ε} (h : Ends M b mid brk cnt n x r)
    (hj : ∀ s, ∃ m, M.run m (mid, s) = .inl (stop, s)) : Ends M b stop brk cnt n x r := by
  obtain s | ⟨s | s | s | s | e⟩ := r
  · exact h
  · obtain ⟨m, hm⟩ := h
    obtain ⟨k, hk⟩ := hj s
    exact ⟨m + k, (Machine.run_add hm).trans hk⟩
  · exact h
  · exact h
  · exact h
  · exact h

/-- A statement after some actions. -/
theorem reaches_andThen {mid : Nat} {r : Except ε σ} {g : σ → σ ⊕ Outcome σ ε}
    (hg : ∀ s, Ends M b stop brk cnt n (mid, s) (g s)) :
    Reaches M k x mid r → Ends M b stop brk cnt n x (match r with
      | .error e => .inr (.raised e)
      | .ok s => g s) := by
  intro h
  cases r with
  | error e => exact h
  | ok s =>
      obtain ⟨m, -, h⟩ := h
      exact (hg s).prepend h (Nat.le_add_right ..)

/-- The branches of a condition. -/
theorem tests_branch {yes no : Nat} {r : Except ε (Bool × σ)} {f g : σ → σ ⊕ Outcome σ ε}
    (hf : ∀ s, Ends M b stop brk cnt n (yes, s) (f s))
    (hg : ∀ s, Ends M b stop brk cnt n (no, s) (g s)) :
    Tests M x yes no r → Ends M b stop brk cnt n x (match r with
      | .error e => .inr (.raised e)
      | .ok (true, s) => f s
      | .ok (false, s) => g s) := by
  intro h
  obtain e | ⟨b, s⟩ := r
  · exact h
  · obtain ⟨m, h⟩ := h
    cases b with
    | false => exact (hg s).prepend h (Nat.le_add_right ..)
    | true => exact (hf s).prepend h (Nat.le_add_right ..)

theorem Reaches.prepend {r : Except ε σ} (hr : M.run k x = .inl y) {k' : Nat}
    (h : Reaches M k' y stop r) {k'' : Nat} (hk : k'' ≤ k + k') : Reaches M k'' x stop r := by
  cases r with
  | error e => exact h.elim fun m h => ⟨k + m, (Machine.run_add hr).trans h⟩
  | ok s =>
      obtain ⟨m, hm, h⟩ := h
      exact ⟨k + m, by omega, (Machine.run_add hr).trans h⟩

section

variable {top start last again : Nat} {cond : σ → Except ε (Bool × σ)} {post : σ → Except ε σ}
  {body : Nat → σ → σ ⊕ Outcome σ ε}

/-- The end of a round of a loop. -/
theorem loop_again {r : Except ε σ} :
    (∀ n' < n, ∀ s, Ends M b stop brk cnt n' (top, s) (loop cond post body n' s)) →
      Reaches M 1 x top r → Ends M b stop brk cnt n x (match r, n with
        | .error e, _ => .inr (.raised e)
        | .ok s, 0 => .inl s
        | .ok s, n + 1 => loop cond post body n s) := by
  intro ih h
  cases r with
  | error e => exact h
  | ok s =>
      obtain ⟨m, hm, hr⟩ := h
      cases n with
      | zero => exact ⟨m, hm, top, hr⟩
      | succ n => exact (ih n (Nat.lt_succ_self n) s).prepend hr (by omega)

/-- A loop: the condition at `top`, the body from `start` to `last`, and the third clause, which
leads back to `top`, at `last` and at `again`. -/
theorem loop_ends (hcond : ∀ s, Tests M (top, s) start stop (cond s))
    (hbody : ∀ n s, Ends M true last stop again n (start, s) (body n s))
    (hlast : ∀ s, Reaches M 1 (last, s) top (post s))
    (hagain : ∀ s, Reaches M 0 (again, s) top (post s)) (n : Nat) (s : σ) :
    Ends M b stop brk cnt n (top, s) (loop cond post body n s) := by
  induction n using Nat.strongRecOn generalizing s with
  | ind n ih =>
      rw [loop]
      refine tests_branch (g := fun s => .inr (.fell s)) (fun s => ?_) (fun s => ⟨0, rfl⟩) (hcond s)
      have hb := hbody n s
      generalize body n s = r at hb
      obtain s' | ⟨s' | s' | s' | s' | e⟩ := r
      · exact hb
      · obtain ⟨m, hm⟩ := hb
        exact loop_again ih ((hlast s').prepend hm (by omega))
      · exact hb.2
      · obtain ⟨-, m, hm, hr⟩ := hb
        exact loop_again ih ((hagain s').prepend hr (by omega))
      · exact hb
      · exact hb

end

end

/-! ## Statements without functions -/

mutual

/-- A statement without functions has none inside a loop. -/
theorem Stmt.postedFun_of_hasFun : ∀ t : Stmt, t.hasFun = false → t.postedFun = false
  | .ifStmt _ _ _ _ _ body _ rest, h => by
      rw [Stmt.hasFun, Bool.or_eq_false_iff] at h
      simp [Stmt.postedFun, body.postedFun_of_hasFun h.1, rest.postedFun_of_hasFun h.2]
  | .whileStmt _ _ _ _ _ body _, h => by
      rw [Stmt.hasFun] at h
      simp [Stmt.postedFun, body.postedFun_of_hasFun h]
  | .forStmt _ _ _ _ _ _ _ _ _ body _, h => by
      rw [Stmt.hasFun] at h
      simp [Stmt.postedFun, h, body.postedFun_of_hasFun h]
  | .empty _, _ | .simple .., _ | .returnStmt .., _ | .breakStmt .., _ | .continueStmt .., _ => by
      simp [Stmt.postedFun]
  | .funStmt .., h => by simp [Stmt.hasFun] at h

/-- `Stmt.postedFun_of_hasFun` for statement sequences. -/
theorem Stmts.postedFun_of_hasFun : ∀ ts : Stmts, ts.hasFun = false → ts.postedFun = false
  | .nil, _ => rfl
  | .cons t ts, h => by
      rw [Stmts.hasFun, Bool.or_eq_false_iff] at h
      simp [Stmts.postedFun, t.postedFun_of_hasFun h.1, ts.postedFun_of_hasFun h.2]

/-- `Stmt.postedFun_of_hasFun` for further clauses. -/
theorem Else.postedFun_of_hasFun : ∀ e : Else, e.hasFun = false → e.postedFun = false
  | .none, _ => rfl
  | .elifClause _ _ _ _ _ body _ rest, h => by
      rw [Else.hasFun, Bool.or_eq_false_iff] at h
      simp [Else.postedFun, body.postedFun_of_hasFun h.1, rest.postedFun_of_hasFun h.2]
  | .elseClause _ _ body _, h => by
      rw [Else.hasFun] at h
      simp [Else.postedFun, body.postedFun_of_hasFun h]

end

/-! ## The code of statements -/

section

variable {σ ε : Type} {ops : Ops σ ε} {T : Tables} {c : Chunk} {globals names : List Bytes}
  {b : Bool} {lo hi pos brk cnt : Nat}

theorem Acts.noLoop {l : List Item} (h : Acts l) : NoLoop l := h.straight.noLoop

theorem at_mine {a : AInstr} (h : a.isOpen = false) {line : Option Nat} :
    At T c names brk cnt pos [.mine a line] ↔ Seg T c names pos [.mine a line] :=
  at_noLoop (.mine h line)

theorem at_breakTo {line : Option Nat} :
    At T c names brk cnt pos [.mine .breakTo line] ↔
      Seg T c names pos [.mine (.jump ((brk : Int) - pos)) line] := by
  simp [At, patch, aimFrom, Item.mine]

theorem at_continueTo {line : Option Nat} :
    At T c names brk cnt pos [.mine .continueTo line] ↔
      Seg T c names pos [.mine (.jump ((cnt : Int) - pos)) line] := by
  simp [At, patch, aimFrom, Item.mine]

variable (ops) in
theorem reaches_acts (hR : Region T c globals lo hi) {code : List Item} (hc : Acts code)
    (hpos : pos + code.length ≤ hi) (hs : Seg T c names pos code) (s : σ) :
    Reaches (bodyMachine ops c globals hi) 0 (pos, s) (pos + code.length)
      (acts ops names code s) := by
  have h := run_acts ops hR hc hpos hs s
  cases hr : acts ops names code s with
  | error e =>
      rw [hr] at h
      exact h
  | ok s' => exact ⟨code.length, Nat.zero_le _, by simpa [hr] using h⟩

/-- Straight code as a statement. -/
theorem acts_ends (hR : Region T c globals lo hi) {code : List Item} (hc : Acts code)
    (hpos : pos + code.length ≤ hi) (hs : Seg T c names pos code) (n : Nat) (s : σ) :
    Ends (bodyMachine ops c globals hi) b (pos + code.length) brk cnt n (pos, s)
      (execActs ops names code s) :=
  reaches_andThen (g := fun s => .inr (.fell s)) (fun _ => ⟨0, rfl⟩) (reaches_acts ops hR hc hpos hs s)

theorem reaches_jump (hR : Region T c globals lo hi) {dst : Nat} (hlo : lo ≤ pos) (hpos : pos < hi)
    (hdst : lo ≤ dst ∧ dst ≤ hi) {off : Int} (hoff : off = dst - pos) {line : Option Nat}
    (hs : Seg T c names pos [.mine (.jump off) line]) (s : σ) :
    (bodyMachine ops c globals hi).run 1 (pos, s) = .inl (dst, s) :=
  Machine.run_one (step_jump ops hR hlo hpos hdst hoff hs s)

/-- A condition with the jump that tests it. -/
theorem tests_cond (hR : Region T c globals lo hi) {cond : List Item} (hc : Acts cond) {no : Nat}
    (hlo : lo ≤ pos) (hpos : pos + cond.length < hi) (hno : lo ≤ no ∧ no ≤ hi) {off : Int}
    (hoff : off = no - (pos + cond.length : Nat)) {line : Option Nat}
    (hs : Seg T c names pos cond)
    (hj : Seg T c names (pos + cond.length) [.mine (.jumpUnless off) line]) (s : σ) :
    Tests (bodyMachine ops c globals hi) (pos, s) (pos + cond.length + 1) no
      (evalCond ops names cond s) := by
  have h := reaches_acts ops hR hc (by omega) hs s
  unfold evalCond
  cases hr : acts ops names cond s with
  | error e =>
      rw [hr] at h
      exact h
  | ok s' =>
      rw [hr] at h
      obtain ⟨m, -, hm⟩ := h
      have hstep := step_jumpUnless ops hR (by omega) hpos hno hoff hj s'
      refine ⟨m + 1, ?_⟩
      rw [Machine.run_add hm]
      cases ht : (ops.test s').1 with
      | false => exact Machine.run_one (by simpa [ht] using hstep)
      | true => exact Machine.run_one (by simpa [ht] using hstep)

/-- The clauses `rest` at `pos`: a jump over them, and their own meaning. -/
structure RestEnds (M : Machine (Nat × σ) (Outcome σ ε)) (b : Bool) (brk cnt pos : Nat) (rest : List Item)
    (exec : Nat → σ → σ ⊕ Outcome σ ε) : Prop where
  skips : ∀ s, ∃ m, M.run m (pos, s) = .inl (pos + rest.length, s)
  ends : ∀ n s, Ends M b (pos + rest.length) brk cnt n (pos + if rest = [] then 0 else 1, s) (exec n s)

/-- A clause of an `if` statement and the clauses after it. -/
theorem clause_ends (hR : Region T c globals lo hi) {cond body rest : List Item} (hc : Acts cond)
    (hlo : lo ≤ pos) (hpos : pos + (clauseCode cond body rest).length ≤ hi)
    (hs : At T c names brk cnt pos (clauseCode cond body rest))
    {f g : Nat → σ → σ ⊕ Outcome σ ε}
    (hbody : ∀ n s, Ends (bodyMachine ops c globals hi) b (pos + cond.length + 1 + body.length)
      brk cnt n (pos + cond.length + 1, s) (f n s))
    (hrest : RestEnds (bodyMachine ops c globals hi) b brk cnt (pos + cond.length + 1 + body.length)
      rest g) (n : Nat) (s : σ) :
    Ends (bodyMachine ops c globals hi) b (pos + (clauseCode cond body rest).length) brk cnt n (pos, s)
      (match evalCond ops names cond s with
        | .error e => .inr (.raised e)
        | .ok (true, s) => f n s
        | .ok (false, s) => g n s) := by
  obtain ⟨h1, h2⟩ := at_append.mp hs
  obtain ⟨h2, -⟩ := at_cons.mp h2
  have hlen : pos + (clauseCode cond body rest).length =
      pos + cond.length + 1 + body.length + rest.length := by
    simp [clauseCode]
    omega
  rw [hlen] at hpos ⊢
  have hif : (if rest = [] then 0 else 1) ≤ rest.length := by
    cases rest <;> simp
  refine tests_branch (fun s => (hbody n s).fell_to hrest.skips) (fun s => hrest.ends n s)
    (tests_cond hR hc hlo (by omega) ?_ ?_ ((at_noLoop hc.noLoop).mp h1) ((at_mine rfl).mp h2) s)
  · omega
  · split <;> omega

/-- The clauses after the first one, behind the jump over them. -/
theorem over_ends (hR : Region T c globals lo hi) {rest : List Item} (hlo : lo ≤ pos)
    (hpos : pos + (overCode rest).length ≤ hi) (hs : At T c names brk cnt pos (overCode rest))
    {exec : Nat → σ → σ ⊕ Outcome σ ε}
    (h : ∀ n s, Ends (bodyMachine ops c globals hi) b (pos + 1 + rest.length) brk cnt n (pos + 1, s)
      (exec n s)) :
    RestEnds (bodyMachine ops c globals hi) b brk cnt pos (overCode rest) exec := by
  have hlen : pos + (overCode rest).length = pos + 1 + rest.length := by
    simp [overCode]
    omega
  obtain ⟨h1, -⟩ := at_cons.mp hs
  refine ⟨fun s => ⟨1, ?_⟩, fun n s => ?_⟩
  · rw [hlen] at hpos ⊢
    exact reaches_jump hR hlo (by omega) (by omega) (by omega) ((at_mine rfl).mp h1) s
  · rw [hlen]
    exact h n s

/-- A `while` loop. -/
theorem while_ends (hR : Region T c globals lo hi) {cond body : List Item} (hc : Acts cond)
    (hlo : lo ≤ pos) (hpos : pos + (whileCode cond body).length ≤ hi)
    (hs : At T c names brk cnt pos (whileCode cond body)) {f : Nat → σ → σ ⊕ Outcome σ ε}
    (hbody : At T c names (pos + (whileCode cond body).length) pos (pos + cond.length + 1) body →
      ∀ n s, Ends (bodyMachine ops c globals hi) true (pos + cond.length + 1 + body.length)
        (pos + (whileCode cond body).length) pos n (pos + cond.length + 1, s) (f n s))
    (n : Nat) (s : σ) :
    Ends (bodyMachine ops c globals hi) b (pos + (whileCode cond body).length) brk cnt n (pos, s)
      (loop (evalCond ops names cond) .ok f n s) := by
  have hlen : pos + (whileCode cond body).length = pos + cond.length + 1 + body.length + 1 := by
    simp [whileCode]
    omega
  rw [hlen] at hpos hbody ⊢
  obtain ⟨h1, h2⟩ := at_append.mp hs
  obtain ⟨h2, h3⟩ := at_cons.mp h2
  obtain ⟨h3, h4⟩ := at_append.mp h3
  rw [patch_length] at h4
  have h3 := (at_patch (pos + cond.length + 1 + body.length + 1) pos (by omega)
    (by omega)).mp h3
  refine loop_ends (fun s => ?_) (hbody h3) (fun s => ?_) (fun s => ?_) n s
  · exact tests_cond hR hc hlo (by omega) (by omega) (by omega) ((at_noLoop hc.noLoop).mp h1)
      ((at_mine rfl).mp h2) s
  · exact ⟨1, le_rfl,
      reaches_jump hR (by omega) (by omega) (by omega) (by omega) ((at_mine rfl).mp h4) s⟩
  · exact ⟨0, le_rfl, rfl⟩

/-- The condition of a `for` loop, if it has one. -/
theorem evalForCond_tests (hR : Region T c globals lo hi) {cond : Option (List Item)}
    (hc : ∀ l ∈ cond, Acts l) {rest : Nat} (hlo : lo ≤ pos)
    (hpos : pos + (forCondCode rest cond).length + rest ≤ hi)
    (hs : Seg T c names pos (forCondCode rest cond)) (s : σ) :
    Tests (bodyMachine ops c globals hi) (pos, s) (pos + (forCondCode rest cond).length)
      (pos + (forCondCode rest cond).length + rest)
      (evalForCond ops names cond s) := by
  cases cond with
  | none => exact ⟨0, rfl⟩
  | some l =>
      have hlen : (forCondCode rest (some l)).length = l.length + 1 := by simp [forCondCode]
      rw [hlen, ← Nat.add_assoc] at hpos ⊢
      obtain ⟨h1, h2⟩ := seg_append.mp hs
      exact tests_cond hR (hc l rfl) hlo (by omega) (by omega) (by push_cast; omega) h1 h2 s

/-- A `for` loop. -/
theorem for_ends (hR : Region T c globals lo hi) {pre post body : List Item}
    {cond : Option (List Item)} (hpre : Acts pre) (hc : ∀ l ∈ cond, Acts l) (hpost : Acts post)
    (hlo : lo ≤ pos) (hpos : pos + (forCode pre cond post body).length ≤ hi)
    (hs : At T c names brk cnt pos (forCode pre cond post body)) {f : Nat → σ → σ ⊕ Outcome σ ε}
    (hbody : ∀ brk cnt pos, lo ≤ pos → pos + body.length ≤ hi → (lo ≤ brk ∧ brk ≤ hi) →
      (lo ≤ cnt ∧ cnt ≤ hi) → At T c names brk cnt pos body → ∀ n s,
        Ends (bodyMachine ops c globals hi) true (pos + body.length) brk cnt n (pos, s) (f n s))
    (n : Nat) (s : σ) :
    Ends (bodyMachine ops c globals hi) b (pos + (forCode pre cond post body).length) brk cnt n (pos, s)
      (match acts ops names pre s with
        | .error e => .inr (.raised e)
        | .ok s => loop (evalForCond ops names cond) (acts ops names post) f n s) := by
  simp only [forCode] at hs
  set C := forCondCode (body.length + post.length + 1) cond with hC
  have hlen : pos + (forCode pre cond post body).length =
      pos + pre.length + C.length + (body.length + post.length + 1) := by
    simp [forCode, ← hC]
    omega
  rw [hlen] at hpos ⊢
  have hCl : NoLoop C := by
    cases cond with
    | none => simp [C, forCondCode, NoLoop]
    | some l => exact (hc l rfl).noLoop.append (.mine rfl none)
  obtain ⟨h1, h2⟩ := at_append.mp hs
  obtain ⟨h2, h3⟩ := at_append.mp h2
  obtain ⟨h3, h4⟩ := at_append.mp h3
  obtain ⟨h4, h5⟩ := at_append.mp h4
  rw [patch_length] at h4 h5
  have h3 := (at_patch (pos + pre.length + C.length + (body.length + post.length + 1))
    (pos + pre.length + C.length + body.length) (by push_cast; omega)
    (by push_cast; omega)).mp h3
  have hround : ∀ s, Reaches (bodyMachine ops c globals hi) 1
      (pos + pre.length + C.length + body.length, s) (pos + pre.length) (acts ops names post s) := by
    intro s
    have h := reaches_acts ops hR hpost (by omega) ((at_noLoop hpost.noLoop).mp h4) s
    cases hr : acts ops names post s with
    | error e =>
        rw [hr] at h
        exact h
    | ok s' =>
        rw [hr] at h
        obtain ⟨m, -, hm⟩ := h
        refine ⟨m + 1, Nat.le_add_left .., (Machine.run_add hm).trans ?_⟩
        refine reaches_jump hR (by omega) (by omega) (by omega) ?_ ((at_mine rfl).mp h5) s'
        push_cast
        omega
  refine reaches_andThen (fun s => ?_)
    (reaches_acts ops hR hpre (by omega) ((at_noLoop hpre.noLoop).mp h1) s)
  refine loop_ends (fun s => ?_) (hbody _ _ _ (by omega) (by omega) (by omega) (by omega) h3) hround
    (fun s => (hround s).prepend (k := 0) rfl (Nat.zero_le _)) n s
  exact evalForCond_tests hR hc (by omega) (by omega) ((at_noLoop hCl).mp h2) s

/-- The statement that creates a function and stores it. -/
theorem fun_ends (hR : Region T c globals lo hi) {f : FunInfo} {closed : List Item} {x : Bytes}
    {line line' : Option Nat} (hf : f.offset = closed.length + 1)
    (hpos : pos + (.mine (.function f) line :: (nest closed ++ [.mine (.store x) line'])).length ≤ hi)
    (hs : Seg T c names pos (.mine (.function f) line :: (nest closed ++ [.mine (.store x) line'])))
    (n : Nat) (s : σ) :
    Ends (bodyMachine ops c globals hi) b
      (pos + (.mine (.function f) line :: (nest closed ++ [.mine (.store x) line'])).length) brk cnt n
      (pos, s)
      (match ops.act (.function { f with maxstack := none }) s with
        | .error e => .inr (.raised e)
        | .ok s => execActs ops names [.mine (.store x) line'] s) := by
  obtain ⟨h1, h2⟩ := (seg_append (l := [_])).mp hs
  obtain ⟨-, h3⟩ := seg_append.mp h2
  obtain ⟨i, hi', hd⟩ := h1.head rfl
  obtain ⟨k, rfl⟩ : ∃ k, i = opFunction k := by
    simp only [Item.mine_instr, resolve] at hd
    cases hd with
    | @function k => exact ⟨k, rfl⟩
  obtain ⟨sh, f', hsh, ha, hf'⟩ := hd.function_inv
  obtain rfl : f = f' := by simpa [resolve] using hf'
  rw [hR.shapes] at hsh
  have hdec : decode c globals (opFunction k) = .function { f with maxstack := none } := by
    simp [decode, hsh, ha.offset, ha.nargs, ha.nlocals]
  have hw : width c (opFunction k) = closed.length + 1 := by
    simp [width, hsh, ha.offset, hf]
  have hlen : pos + (.mine (.function f) line :: (nest closed ++ [.mine (.store x) line'])).length =
      pos + (closed.length + 1) + 1 := by
    simp
    omega
  rw [hlen] at hpos ⊢
  have hne : pos ≠ hi := by omega
  have hstep : bodyStep ops c globals hi (pos, s) = _ := bodyStep_act ops hne hi' (by simp) s
  rw [hdec, hw] at hstep
  have h3 : Seg T c names (pos + (closed.length + 1)) [.mine (.store x) line'] := by
    simpa [nest_length, Nat.add_assoc, Nat.add_comm 1] using h3
  have hmid : Reaches (bodyMachine ops c globals hi) 0 (pos, s) (pos + (closed.length + 1))
      (ops.act (.function { f with maxstack := none }) s) := by
    cases hr : ops.act (.function { f with maxstack := none }) s with
    | error e =>
        rw [hr] at hstep
        exact ⟨1, Machine.run_halt hstep⟩
    | ok s' =>
        rw [hr] at hstep
        exact ⟨1, Nat.zero_le _, Machine.run_one hstep⟩
  exact reaches_andThen
    (fun s => acts_ends hR (.mine rfl line') (by simpa using hpos) h3 n s) hmid

end

section

variable {σ ε : Type} {ops : Ops σ ε} {T : Tables} {c : Chunk} {globals names : List Bytes}
  {lo hi : Nat}

/-- A target for the jumps out of a loop, if there is a loop around. -/
def Target (lo hi : Nat) (inLoop : Bool) (dst : Nat) : Prop := inLoop = true → lo ≤ dst ∧ dst ≤ hi

/-- The code of an expression, and a return. -/
theorem return_ends (hR : Region T c globals lo hi) (code : List Item) (hc : Acts code)
    {pos stop brk cnt : Nat} (hpos : pos + code.length < hi)
    (hs : At T c names brk cnt pos (code ++ [.mine (.plain opReturn) none])) (n : Nat) (s : σ) :
    Ends (bodyMachine ops c globals hi) b stop brk cnt n (pos, s)
      (match acts ops names code s with
        | .error e => .inr (.raised e)
        | .ok s => .inr (.returned s)) := by
  obtain ⟨h1, h2⟩ := at_append.mp hs
  refine reaches_andThen (g := fun s => .inr (.returned s)) (fun s => ⟨1, ?_⟩)
    (reaches_acts ops hR hc (by omega) ((at_noLoop hc.noLoop).mp h1) s)
  exact Machine.run_halt (step_return ops hpos ((at_mine rfl).mp h2) s)

variable (ops) in
/-- An open jump, aimed at `dst`. -/
theorem open_ends (hR : Region T c globals lo hi) {pos dst : Nat} (hlo : lo ≤ pos) (hpos : pos < hi)
    (hdst : lo ≤ dst ∧ dst ≤ hi) {line : Option Nat}
    (hs : Seg T c names pos [.mine (.jump ((dst : Int) - pos)) line]) (s : σ) :
    ∃ m ≥ 1, (bodyMachine ops c globals hi).run m (pos, s) = .inl (dst, s) :=
  ⟨1, le_rfl, reaches_jump hR hlo hpos hdst rfl hs s⟩

variable [DeciBase]

theorem Expr.optCode_acts (e : Option Expr) : ∀ l ∈ e.map Expr.code, Acts l := by
  intro l hl
  obtain ⟨x, -, rfl⟩ := Option.map_eq_some_iff.mp hl
  exact x.code_acts

variable (ops)

mutual

/-- The dispatch loop ends a statement as its meaning says. -/
theorem Stmt.exec_ends (hR : Region T c globals lo hi) : ∀ (b : Bool) (t : Stmt), t.Wf b →
    ∀ brk cnt pos, lo ≤ pos → pos + t.code.length ≤ hi → Target lo hi b brk → Target lo hi b cnt →
      At T c names brk cnt pos t.code → ∀ n s,
        Ends (bodyMachine ops c globals hi) b (pos + t.code.length) brk cnt n (pos, s)
          (t.exec ops names n s)
  | _, .empty _, _ => fun _ _ _ _ _ _ _ _ _ _ => ⟨0, rfl⟩
  | _, .simple t semi, _ => fun _ _ _ _ hhi _ _ hs n s =>
      acts_ends hR (t.code_acts semi) hhi ((at_noLoop (t.code_acts semi).noLoop).mp hs) n s
  | b, .ifStmt _ _ e _ _ body _ rest, h => fun brk cnt pos hlo hhi hbrk hcnt hs n s => by
      obtain ⟨-, -, -, -, -, hbody, -, hrest⟩ := h
      rw [Stmt.code] at hhi hs ⊢
      obtain ⟨-, h2⟩ := at_append.mp hs
      obtain ⟨-, h2⟩ := at_cons.mp h2
      obtain ⟨h2, h3⟩ := at_append.mp h2
      have hlen : pos + e.code.length + 1 + body.code.length + rest.code.length ≤ hi := by
        simpa [clauseCode, Nat.add_assoc, Nat.add_comm 1] using hhi
      exact clause_ends hR e.code_acts hlo hhi hs
        (body.exec_ends hR b hbody brk cnt _ (by omega) (by omega) hbrk hcnt h2)
        (rest.exec_ends hR b hrest brk cnt _ (by omega) (by omega) hbrk hcnt h3) n s
  | _, .whileStmt _ _ e _ _ body _, h => fun brk cnt pos hlo hhi _ _ hs n s => by
      rw [Stmt.code] at hhi hs ⊢
      have hlen : pos + e.code.length + 1 + body.code.length ≤ hi := by
        simp [whileCode] at hhi
        omega
      exact while_ends hR e.code_acts hlo hhi hs (fun hb => body.exec_ends hR true h.2.2.2.2.2.1 _ _ _
        (by omega) (by omega) (fun _ => by omega) (fun _ => by omega) hb) n s
  | _, .forStmt _ _ pre semi1 cond _ post rp _ body _, h => fun brk cnt pos hlo hhi _ _ hs n s =>
      for_ends hR (Simple.optCode_acts semi1 pre) (Expr.optCode_acts cond)
        (Simple.optCode_acts rp post) hlo hhi hs
        (fun brk cnt pos hlo hhi hbrk hcnt hs => body.exec_ends hR true h.2.2.2.2.2.2.2.2.2.1 brk cnt
          pos hlo hhi (fun _ => hbrk) (fun _ => hcnt) hs) n s
  | _, .funStmt kw name lp ps rp lb body rb, h => fun brk cnt pos _ hhi _ _ hs n s => by
      have hl : NoLoop (Stmt.funStmt kw name lp ps rp lb body rb).code :=
        (Stmt.code_layout false (.funStmt kw name lp ps rp lb body rb) h).noLoop rfl
      exact fun_ends (f := shapeInfo (ps, body)) hR (by simp [shapeInfo, funInfo, funCode])
        hhi ((at_noLoop hl).mp hs) n s
  | _, .returnStmt _ none _, _ => fun _ _ _ _ hhi _ _ hs n s =>
      return_ends hR [.mine (.const .nil) none] (.mine rfl none) hhi hs n s
  | _, .returnStmt _ (some e) _, _ => fun _ _ _ _ hhi _ _ hs n s => by
      simp only [Stmt.code, List.length_append, List.length_singleton] at hhi
      exact return_ends hR e.code e.code_acts (by omega) hs n s
  | b, .breakStmt _ _, h => fun brk cnt pos hlo hhi hbrk _ hs n s => by
      obtain ⟨m, -, hm⟩ := open_ends ops hR hlo hhi (hbrk h.1) (at_breakTo.mp hs) s
      exact ⟨h.1, m, hm⟩
  | b, .continueStmt _ _, h => fun brk cnt pos hlo hhi _ hcnt hs n s =>
      ⟨h.1, open_ends ops hR hlo hhi (hcnt h.1) (at_continueTo.mp hs) s⟩

/-- The dispatch loop ends a statement sequence as its meaning says. -/
theorem Stmts.exec_ends (hR : Region T c globals lo hi) : ∀ (b : Bool) (ts : Stmts), ts.Wf b →
    ∀ brk cnt pos, lo ≤ pos → pos + ts.code.length ≤ hi → Target lo hi b brk → Target lo hi b cnt →
      At T c names brk cnt pos ts.code → ∀ n s,
        Ends (bodyMachine ops c globals hi) b (pos + ts.code.length) brk cnt n (pos, s)
          (ts.exec ops names n s)
  | _, .nil, _ => fun _ _ _ _ _ _ _ _ _ _ => ⟨0, rfl⟩
  | b, .cons t ts, h => fun brk cnt pos hlo hhi hbrk hcnt hs n s => by
      simp only [Stmts.code, List.length_append, ← Nat.add_assoc] at hhi ⊢
      obtain ⟨h1, h2⟩ := at_append.mp hs
      exact ends_andThen
        (ts.exec_ends hR b h.2 brk cnt _ (by omega) (by omega) hbrk hcnt h2 n)
        (t.exec_ends hR b h.1 brk cnt pos hlo (by omega) hbrk hcnt h1 n s)

/-- The dispatch loop ends the clauses after the first one as their meaning says. -/
theorem Else.exec_ends (hR : Region T c globals lo hi) : ∀ (b : Bool) (e : Else), e.Wf b →
    ∀ brk cnt pos, lo ≤ pos → pos + e.code.length ≤ hi → Target lo hi b brk → Target lo hi b cnt →
      At T c names brk cnt pos e.code →
        RestEnds (bodyMachine ops c globals hi) b brk cnt pos e.code (e.exec ops names)
  | _, .none, _ => fun _ _ _ _ _ _ _ _ => ⟨fun _ => ⟨0, rfl⟩, fun _ _ => ⟨0, rfl⟩⟩
  | b, .elifClause _ _ e _ _ body _ rest, h => fun brk cnt pos hlo hhi hbrk hcnt hs => by
      obtain ⟨-, -, -, -, -, hbody, -, hrest⟩ := h
      rw [Else.code] at hhi hs ⊢
      obtain ⟨-, h1⟩ := at_cons.mp hs
      obtain ⟨-, h2⟩ := at_append.mp h1
      obtain ⟨-, h2⟩ := at_cons.mp h2
      obtain ⟨h2, h3⟩ := at_append.mp h2
      have hlen : pos + 1 + (clauseCode e.code body.code rest.code).length ≤ hi := by
        simpa [overCode, Nat.add_assoc, Nat.add_comm 1] using hhi
      have hlen' : pos + 1 + e.code.length + 1 + body.code.length + rest.code.length ≤ hi := by
        simp [clauseCode] at hlen
        omega
      exact over_ends hR hlo hhi hs (clause_ends hR e.code_acts (by omega) hlen h1
        (body.exec_ends hR b hbody brk cnt _ (by omega) (by omega) hbrk hcnt h2)
        (rest.exec_ends hR b hrest brk cnt _ (by omega) (by omega) hbrk hcnt h3))
  | b, .elseClause _ _ body _, h => fun brk cnt pos hlo hhi hbrk hcnt hs => by
      rw [Else.code] at hhi hs ⊢
      obtain ⟨-, h1⟩ := at_cons.mp hs
      have hlen : pos + 1 + body.code.length ≤ hi := by
        simpa [overCode, Nat.add_assoc, Nat.add_comm 1] using hhi
      exact over_ends hR hlo hhi hs
        (body.exec_ends hR b h.2.2.1 brk cnt _ (by omega) hlen hbrk hcnt h1)

end

end

/-! ## Performed actions -/

section

variable {σ ε : Type} {ops : Ops σ ε} {c : Chunk} {globals : List Bytes} {hi : Nat}

theorem Ops.logged_act {a : AInstr} {s s' : σ × List Event} (h : ops.logged.act a s = .ok s') :
    s.2 <+: s'.2 := by
  simp only [Ops.logged] at h
  split at h
  · obtain rfl := Except.ok.inj h
    exact List.prefix_append ..
  · simp at h

theorem Ops.logged_test (s : σ × List Event) : s.2 <+: (ops.logged.test s).2.2 :=
  List.prefix_append ..

/-- A step only adds to the record of the actions. -/
theorem bodyStep_logged {x y : Nat × (σ × List Event)}
    (h : (bodyMachine ops.logged c globals hi).step x = .inl y) : x.2.2 <+: y.2.2 := by
  simp only [bodyMachine, bodyStep] at h
  split at h
  · simp at h
  · split at h
    · obtain rfl := Sum.inl.inj h
      exact List.prefix_rfl
    · obtain rfl := Sum.inl.inj h
      exact List.prefix_rfl
    · split at h
      · obtain rfl := Sum.inl.inj h
        exact Ops.logged_test x.2
      · obtain rfl := Sum.inl.inj h
        exact Ops.logged_test x.2
    · simp at h
    · split at h
      · obtain rfl := Sum.inl.inj h
        exact Ops.logged_act ‹_›
      · simp at h

theorem run_logged {x y : Nat × (σ × List Event)} {m : Nat}
    (h : (bodyMachine ops.logged c globals hi).run m x = .inl y) : x.2.2 <+: y.2.2 := by
  induction m generalizing x with
  | zero =>
      obtain rfl := Sum.inl.inj h
      exact List.prefix_rfl
  | succ m ih =>
      rw [Machine.run] at h
      cases hs : (bodyMachine ops.logged c globals hi).step x with
      | inl z =>
          rw [hs] at h
          exact (bodyStep_logged hs).trans (ih h)
      | inr o => simp [hs] at h

end

/-- A machine and an evaluator, both with a record of the actions, perform the same actions and
end in the same way. -/
structure SameActions {σ ε : Type}
    (M : Machine (Nat × (σ × List Event)) (Outcome (σ × List Event) (ε × List Event)))
    (x : Nat × (σ × List Event))
    (eval : Nat → (σ × List Event) ⊕ Outcome (σ × List Event) (ε × List Event)) : Prop where
  ends : ∀ o, (∃ n, eval n = .inr o) ↔ ∃ m, M.run m x = .inr o
  diverges : (∀ n, ∃ s, eval n = .inl s) ↔ ∀ m, ∃ y, M.run m x = .inl y
  performs : (∀ m, ∃ y, M.run m x = .inl y) → ∀ log,
    (∃ m y, M.run m x = .inl y ∧ log <+: y.2.2) ↔ ∃ n s, eval n = .inl s ∧ log <+: s.2

/-! ## Functions of a program -/

section

variable [DeciBase] {σ ε : Type} (ops : Ops σ ε) {globals : List Bytes}

/-- The body of a function as the dispatch loop sees it. -/
theorem Placed.follows {c : Chunk} {T : Tables} {i : Nat} {s : Shape} {q : Option Params × Stmts}
    (h : Placed c T i s q) (hc : T.consts = c.consts) (hg : T.globals = globals)
    (hp : q.2.postedFun = false) (st : σ) :
    (bodyMachine ops c globals (i + 1 + q.2.code.length)).Follows (i + 1, st) Prod.snd
      (fun n => q.2.exec ops (funLocals q.1 q.2) n st) := by
  have hlen := closedCode_length q
  have hsmall := h.small
  simp only [List.length_append, returnNil, List.length_cons, List.length_nil] at hlen
  have hR : Region T c globals (i + 1) (i + 1 + q.2.code.length) :=
    ⟨hc, hg, h.shapes, by omega⟩
  have hl : NoLoop q.2.code := (q.2.code_layout false h.wf).noLoop rfl
  have hseg : Seg T c (funLocals q.1 q.2) (i + 1) q.2.code := by
    intro k r hk ho
    obtain ⟨instr, hi, hd⟩ := h.code k (closeItem q.2.postedFun (funLocals q.1 q.2) r) (by
      rw [closedCode, closeItems_eq, List.getElem?_map,
        List.getElem?_append_left (List.getElem?_eq_some_iff.mp hk).1, hk]
      rfl)
    exact ⟨instr, hi, by simpa [closeItem, ho, closeInstr, hp] using hd⟩
  have hends := q.2.exec_ends ops hR false h.wf 0 0 (i + 1) le_rfl le_rfl
    (by intro h; cases h) (by intro h; cases h)
    ((at_noLoop hl).mpr hseg)
  refine ⟨fun n o ho => ?_, fun n s' hs => ?_⟩
  · have := hends n st
    rw [ho] at this
    cases o with
    | fell s' =>
        obtain ⟨m, hm⟩ := this
        exact ⟨m + 1, (Machine.run_add hm).trans
          (Machine.run_halt (by simp [bodyMachine, bodyStep]))⟩
    | broke _ | continued _ => exact absurd this.1 Bool.false_ne_true
    | returned _ | raised _ => exact this
  · have := hends n st
    rw [hs] at this
    obtain ⟨m, hm, pc, hr⟩ := this
    exact ⟨m, hm, _, hr, rfl⟩

theorem Placed.sameActions {c : Chunk} {T : Tables} {i : Nat} {s : Shape}
    {q : Option Params × Stmts} (h : Placed c T i s q) (hc : T.consts = c.consts)
    (hg : T.globals = globals) (hp : q.2.postedFun = false) (st : σ) :
    SameActions (bodyMachine ops.logged c globals (i + 1 + q.2.code.length)) (i + 1, st, [])
      fun n => q.2.exec ops.logged (funLocals q.1 q.2) n (st, []) := by
  have hf := h.follows ops.logged hc hg hp (st, [])
  refine ⟨hf.result_iff, hf.diverges_iff, fun hdiv log => ⟨?_, ?_⟩⟩
  · rintro ⟨m, y, hm, hlog⟩
    -- the evaluator is behind the machine, so its record at the bound `m` has all of `log`
    obtain ⟨s', hs'⟩ := hf.diverges_iff.mpr hdiv m
    obtain ⟨m', hlt, z, hz, rfl⟩ := hf.goes m s' hs'
    refine ⟨m, z.2, hs', hlog.trans ?_⟩
    obtain ⟨k, rfl⟩ := Nat.exists_eq_add_of_lt hlt
    rw [Nat.add_assoc m, Machine.run_add hm] at hz
    exact run_logged hz
  · rintro ⟨n, s', hs', hlog⟩
    obtain ⟨m, -, z, hz, rfl⟩ := hf.goes n s' hs'
    exact ⟨m, z, hz, hlog⟩

/-- What a fall through the end of a body comes to: the implicit return. -/
structure ReturnsNil (c : Chunk) (pos : Nat) : Prop where
  nil : ∃ k, c.code[pos]? = some (opLoadConst k) ∧ c.consts[k]? = some .nil
  ret : c.code[pos + 1]? = some opReturn

theorem Placed.returnsNil {c : Chunk} {T : Tables} {i : Nat} {s : Shape}
    {q : Option Params × Stmts} (h : Placed c T i s q) (hc : T.consts = c.consts) :
    ReturnsNil c (i + 1 + q.2.code.length) := by
  have hk : ∀ k r, returnNil[k]? = some r → (closedCode q)[q.2.code.length + k]? =
      some (closeItem q.2.postedFun (funLocals q.1 q.2) r) := by
    intro k r hr
    rw [closedCode, closeItems_eq, List.getElem?_map, List.getElem?_append_right (by omega),
      Nat.add_sub_cancel_left, hr]
    rfl
  obtain ⟨i₁, hi₁, hd₁⟩ := h.code _ _ (hk 0 _ rfl)
  obtain ⟨i₂, hi₂, hd₂⟩ := h.code _ _ (hk 1 _ rfl)
  have h1 : (closeItem q.2.postedFun (funLocals q.1 q.2) (.mine (.const .nil) none)).instr =
      .const .nil := by
    simp [closeItem, closeInstr, blur, resolve]
  have h2 : (closeItem q.2.postedFun (funLocals q.1 q.2) (.mine (.plain opReturn) none)).instr =
      .plain opReturn := by
    simp [closeItem, closeInstr, blur, resolve]
  rw [h1] at hd₁
  rw [h2] at hd₂
  cases hd₁ with
  | @const k _ hv =>
      cases hd₂
      exact ⟨⟨k, hi₁, hc ▸ hv⟩, hi₂⟩

/-- Control flow keeps its meaning: in an accepted source, the dispatch loop on the code of a
function's body, where that function stands and up to the implicit return behind it, performs the
actions of the body's meaning and ends in the same way. (A body that defines a function inside a loop
with a third clause is left out: see `scopes_exact_iff`.) -/
theorem control_flow_preserved {source : Bytes} {origin : String} {g : List Bytes} {c : Chunk}
    (h : parse globals source origin = .ok (c, g)) :
    ∃ body : Stmts, TreeOf source body ∧ (∀ q ∈ body.functions, ∃ i, (i, q) ∈ body.functionsAt) ∧
      ∀ i q, (i, q) ∈ body.functionsAt →
        (∃ s, c.shapeAt i = some s ∧ s.offset = q.2.code.length + 3) ∧
          ReturnsNil c (i + 1 + q.2.code.length) ∧ (q.2.hasFun = false → q.2.postedFun = false) ∧
          (q.2.postedFun = false → ∀ {σ ε : Type} (ops : Ops σ ε) (st : σ),
            SameActions (bodyMachine ops.logged c g (i + 1 + q.2.code.length)) (i + 1, st, [])
              fun n => q.2.exec ops.logged (funLocals q.1 q.2) n (st, [])) := by
  unfold parse at h
  obtain ⟨p, hp, h⟩ := bind_ok h
  simp only [Except.ok.injEq, Prod.mk.injEq] at h
  obtain ⟨rfl, rfl⟩ := h
  obtain ⟨body, hf⟩ := parse_sound hp
  refine ⟨body, ⟨hf.wf, hf.toks⟩, fun q hq => Stmts.exists_functionsAt hq, fun i q hq => ?_⟩
  obtain ⟨s, hpl⟩ := (hf.placedAt hq : ∃ s, Placed (toChunk p source origin) p.tables i s q)
  refine ⟨⟨s, hpl.shape, ?_⟩, hpl.returnsNil rfl, q.2.postedFun_of_hasFun, fun hposted σ ε ops st =>
    hpl.sameActions ops rfl rfl hposted st⟩
  have hlen := closedCode_length q
  simp only [List.length_append, returnNil, List.length_cons, List.length_nil] at hlen
  rw [hpl.offset_eq, hlen]

mutual

/-- A statement without the keyword of functions defines none. -/
theorem Stmt.hasFun_of_no_fun : ∀ (b : Bool) (s : Stmt), s.Wf b → (∀ l ∈ s.toks, l.kind ≠ lkFun) →
    s.hasFun = false
  | b, .ifStmt _ _ _ _ _ body _ rest, h, hfun => by
      simp only [Stmt.toks, List.mem_cons, List.mem_append] at hfun
      rw [Stmt.hasFun, body.hasFun_of_no_fun b h.2.2.2.2.2.1 fun l hl => hfun l (by simp [hl]),
        rest.hasFun_of_no_fun b h.2.2.2.2.2.2.2 fun l hl => hfun l (by simp [hl])]
      rfl
  | _, .whileStmt _ _ _ _ _ body _, h, hfun => by
      simp only [Stmt.toks, List.mem_cons, List.mem_append] at hfun
      exact body.hasFun_of_no_fun true h.2.2.2.2.2.1 fun l hl => hfun l (by simp [hl])
  | _, .forStmt _ _ _ _ _ _ _ _ _ body _, h, hfun => by
      simp only [Stmt.toks, List.mem_cons, List.mem_append] at hfun
      exact body.hasFun_of_no_fun true h.2.2.2.2.2.2.2.2.2.1 fun l hl => hfun l (by simp [hl])
  | _, .funStmt kw _ _ _ _ _ _ _, h, hfun => absurd h.1 (hfun kw List.mem_cons_self)
  | _, .empty _, _, _ | _, .simple .., _, _ | _, .returnStmt .., _, _ | _, .breakStmt .., _, _
  | _, .continueStmt .., _, _ => rfl

/-- `Stmt.hasFun_of_no_fun` for statement sequences. -/
theorem Stmts.hasFun_of_no_fun : ∀ (b : Bool) (ss : Stmts), ss.Wf b →
    (∀ l ∈ ss.toks, l.kind ≠ lkFun) → ss.hasFun = false
  | _, .nil, _, _ => rfl
  | b, .cons s ss, h, hfun => by
      obtain ⟨hfirst, hrest⟩ := List.forall_mem_append.mp hfun
      rw [Stmts.hasFun, s.hasFun_of_no_fun b h.1 hfirst, ss.hasFun_of_no_fun b h.2 hrest]
      rfl

/-- `Stmt.hasFun_of_no_fun` for further clauses. -/
theorem Else.hasFun_of_no_fun : ∀ (b : Bool) (e : Else), e.Wf b → (∀ l ∈ e.toks, l.kind ≠ lkFun) →
    e.hasFun = false
  | _, .none, _, _ => rfl
  | b, .elifClause _ _ _ _ _ body _ rest, h, hfun => by
      simp only [Else.toks, List.mem_cons, List.mem_append] at hfun
      rw [Else.hasFun, body.hasFun_of_no_fun b h.2.2.2.2.2.1 fun l hl => hfun l (by simp [hl]),
        rest.hasFun_of_no_fun b h.2.2.2.2.2.2.2 fun l hl => hfun l (by simp [hl])]
      rfl
  | b, .elseClause _ _ body _, h, hfun => by
      simp only [Else.toks, List.mem_cons, List.mem_append] at hfun
      exact body.hasFun_of_no_fun b h.2.2.1 fun l hl => hfun l (by simp [hl])

end

end

/-- `control_flow_preserved` at the main function of a program with nested loops. -/
theorem control_flow_preserved_nested :
    ∃ c g, @parse deciBase64 [] (bytesOf "for(i=0;i<3;i+=1){while(i){if(i){break}continue}}") "" =
        .ok (c, g) ∧
      ∃ body : Stmts, @TreeOf deciBase64 (bytesOf "for(i=0;i<3;i+=1){while(i){if(i){break}continue}}")
          body ∧
        ∀ {σ ε : Type} (ops : Ops σ ε) (st : σ),
          SameActions (bodyMachine ops.logged c g (1 + (@Stmts.code deciBase64 body).length))
            (1, st, [])
            fun n => @Stmts.exec _ _ ops.logged (funLocals none body) deciBase64 body n (st, []) := by
  obtain ⟨c, g, hp⟩ : ∃ c g, @parse deciBase64 []
    (bytesOf "for(i=0;i<3;i+=1){while(i){if(i){break}continue}}") "" = .ok (c, g) := ⟨_, _, rfl⟩
  have hlex : ∀ l ∈ lexAll (lexerNew (bytesOf "for(i=0;i<3;i+=1){while(i){if(i){break}continue}}")),
      l.kind ≠ lkFun := by decide
  let := deciBase64
  obtain ⟨body, htree, -, h⟩ := control_flow_preserved hp
  obtain ⟨-, -, hposted, hsame⟩ := h 0 (none, body) List.mem_cons_self
  refine ⟨c, g, hp, body, htree, fun ops st => ?_⟩
  obtain ⟨e, -, htoks⟩ := htree.toks
  rw [htoks] at hlex
  have hfun := body.hasFun_of_no_fun false htree.wf fun l hl => hlex l (List.mem_append_left _ hl)
  have hactions := hsame (hposted hfun) ops st
  simpa only [Nat.zero_add] using hactions

end Calx
