import Calx.Meaning.Statements
import Calx.Session

/-!
# Runs

A run of the machine from the entry of a function ends as the call of the function does, by
induction over the depth of the calls, and the run of a loaded source ends as its tree says.
-/

namespace Calx

open LexemeKind Instr Libdeci

/-! ## Functions in functions -/

mutual

/-- The functions defined in a function of a statement are among those of the statement. -/
theorem Stmt.mem_funs {q q' : Option Params × Stmts} (hq' : q' ∈ q.2.funs) :
    ∀ t : Stmt, q ∈ t.funs → q' ∈ t.funs
  | .ifStmt _ _ _ _ _ body _ rest, h => by
      rcases List.mem_append.mp h with h | h
      · exact List.mem_append_left _ (body.mem_funs hq' h)
      · exact List.mem_append_right _ (rest.mem_funs hq' h)
  | .whileStmt _ _ _ _ _ body _, h => body.mem_funs hq' h
  | .forStmt _ _ _ _ _ _ _ _ _ body _, h => body.mem_funs hq' h
  | .funStmt _ _ _ ps _ _ body _, h => by
      rcases List.mem_append.mp h with h | h
      · exact List.mem_append_left _ (body.mem_funs hq' h)
      · obtain rfl := List.mem_singleton.mp h
        exact List.mem_append_left _ hq'
  | .empty _, h | .simple .., h | .returnStmt .., h | .breakStmt .., h | .continueStmt .., h =>
      absurd h List.not_mem_nil

/-- `Stmt.mem_funs` for statement sequences. -/
theorem Stmts.mem_funs {q q' : Option Params × Stmts} (hq' : q' ∈ q.2.funs) :
    ∀ ts : Stmts, q ∈ ts.funs → q' ∈ ts.funs
  | .cons t ts, h => by
      rcases List.mem_append.mp h with h | h
      · exact List.mem_append_left _ (t.mem_funs hq' h)
      · exact List.mem_append_right _ (ts.mem_funs hq' h)
  | .nil, h => absurd h List.not_mem_nil

/-- `Stmt.mem_funs` for further clauses. -/
theorem Else.mem_funs {q q' : Option Params × Stmts} (hq' : q' ∈ q.2.funs) :
    ∀ e : Else, q ∈ e.funs → q' ∈ e.funs
  | .elifClause _ _ _ _ _ body _ rest, h => by
      rcases List.mem_append.mp h with h | h
      · exact List.mem_append_left _ (body.mem_funs hq' h)
      · exact List.mem_append_right _ (rest.mem_funs hq' h)
  | .elseClause _ _ body _, h => body.mem_funs hq' h
  | .none, h => absurd h List.not_mem_nil

end

theorem Stmts.mem_functions {body : Stmts} {q q' : Option Params × Stmts} (hq : q ∈ body.functions)
    (hq' : q' ∈ q.2.funs) : q' ∈ body.functions := by
  rcases List.mem_append.mp hq with hq | hq
  · exact List.mem_append_left _ (body.mem_funs hq' hq)
  · obtain rfl := List.mem_singleton.mp hq
    exact List.mem_append_left _ hq'

section

variable [Libdeci] {ι : Type} {W : Worlds ι} {A : Activation} {f : Func} {p : Parser} {body : Stmts}
  {q : Option Params × Stmts} {call : Func → List Value → Nd Store Fault Value} {d n : Nat}

/-! ## Bodies -/

/-- The body of the function under way, when it has been compiled from `q`. -/
def Body.ofPlaced (hcompiled : A.chunk.Compiled p body) (hkept : p.globals ∈ A.kept)
    (hplaced : Placed A.chunk p.tables A.site.callee.ip A.site.callee.shape q)
    (htracks : W.Tracks call d) : Body ι where
  worlds := W
  activation := A
  parser := p
  program := body
  names := funLocals q.1 q.2
  call := call
  steps := d
  lo := A.site.callee.ip + 1
  hi := A.site.callee.ip + 1 + (closedCode q).length
  compiled := hcompiled
  made := by
    have hconsts : A.chunk.consts = p.consts := congrArg Chunk.consts hcompiled.chunk
    exact ⟨hconsts.symm, hplaced.shapes, hkept, hplaced.agrees.nlocals.symm⟩
  tracks := htracks
  small := by
    have hsmall := hplaced.small
    omega

/-- The whole code of the function stands. -/
theorem Body.ofPlaced_stands (hcompiled : A.chunk.Compiled p body) (hkept : p.globals ∈ A.kept)
    (hplaced : Placed A.chunk p.tables A.site.callee.ip A.site.callee.shape q)
    (hunposted : q.2.postedFun = false) (htracks : W.Tracks call d) :
    (Body.ofPlaced hcompiled hkept hplaced htracks).Stands (A.site.callee.ip + 1)
      (A.site.callee.ip + 1) (A.site.callee.ip + 1) (q.2.code ++ returnNil) where
  breaks := ⟨Nat.le_refl _, Nat.le_add_right ..⟩
  continues := ⟨Nat.le_refl _, Nat.le_add_right ..⟩
  begins := Nat.le_refl _
  ends := by
    change _ ≤ A.site.callee.ip + 1 + (closedCode q).length
    rw [closedCode_length]
  items k r hk := by
    have hl : NoLoop (q.2.code ++ returnNil) :=
      .append ((q.2.code_layout false hplaced.wf).noLoop rfl) returnNil_straight.noLoop
    rw [patch_eq_self hl] at hk
    apply hplaced.code
    rw [closedCode, hunposted, closeItems_eq, List.getElem?_map, hk]
    rfl

/-- The code of a whole function does what its body says, and is about to return its value. -/
theorem Body.returns {B : Body ι} {m : Machine} {fr : Frame} (hn : n ≤ B.steps) (hwf : q.2.Wf false)
    (hfuns : ∀ q' ∈ q.2.funs, q' ∈ B.program.functions) {lo pos : Nat}
    (hs : B.Stands lo lo pos (q.2.code ++ returnNil)) (hm : m.Within B.activation fr [] pos) :
    m.Does B.worlds n (q.2.body B.context) fr fun v fr' m' =>
      B.activation.Returns v fr'.store m' := by
  obtain ⟨hs, hs'⟩ := hs.append
  refine (B.stmts false q.2 hwf hfuns n hn lo lo pos fr m hs hm).bind
    fun n' _ finish fr' m' _ hm' => ?_
  cases finish with
  | fell =>
      obtain ⟨hconst, hreturn⟩ := (seg_append (l := [_])).mp (hs'.seg returnNil_straight.noLoop)
      refine (Machine.Within.const hm' B.made hconst).imp fun v fr'' m'' hm'' => ?_
      exact ⟨fr'', _, hm'', hreturn.plain, rfl⟩
  | returned v =>
      obtain ⟨pos', hm', hreturn⟩ := hm'
      exact Stepper.Does.pure ⟨fr', pos', hm', hreturn, rfl⟩
  | broke => cases hm'.1
  | continued => cases hm'.1

/-! ## Calls -/

omit [Libdeci] in
/-- A function of a compiled chunk has been compiled from one of the tree. -/
theorem Func.of_compiled [DeciBase] {f : Func} (h : f.chunk.Compiled p body) :
    ∃ q ∈ body.functions, Placed f.chunk p.tables f.ip f.shape q := by
  have hshape := f.shape_eq
  rw [h.chunk] at hshape
  obtain ⟨q, hq, hplaced⟩ := h.follows.placed hshape
  rw [← h.chunk] at hplaced
  exact ⟨q, hq, hplaced⟩

/-- A function under way that has been compiled from `q` does what `q` says. -/
theorem Activation.does_call {f : Func} (hf : A.site.callee = f)
    (hcompiled : f.chunk.Compiled p body) (hkept : p.globals ∈ A.kept) (hq : q ∈ body.functions)
    (hplaced : Placed f.chunk p.tables f.ip f.shape q) (htracks : W.Tracks call d) (hn : n ≤ d)
    {m : Machine} {fr : Frame} (hm : m.Within A fr [] (f.ip + 1)) :
    m.Does W n (q.2.body ⟨W.world, f.chunk, funLocals q.1 q.2, call⟩) fr fun v fr' m' =>
      A.Returns v fr'.store m' := by
  subst hf
  have hs := Body.ofPlaced_stands hcompiled hkept hplaced (hcompiled.unposted q hq) htracks
  exact Body.returns (B := Body.ofPlaced hcompiled hkept hplaced htracks) hn hplaced.wf
    (fun q' hq' => Stmts.mem_functions hq hq') hs hm

/-- Calls go as they should, of which fewer steps are left than the calls may nest. -/
theorem Worlds.tracks (W : Worlds ι) (d : Nat) : W.Tracks (Func.call W.world d) d := by
  induction d with
  | zero =>
      intro n hn
      exact absurd hn (Nat.not_lt_zero n)
  | succ d ih =>
      intro n hn A f args st m hruns hfits hm
      obtain ⟨hcallee, p, body, hcompiled, hkept⟩ := hruns
      obtain ⟨q, hq, hplaced⟩ := Func.of_compiled hcompiled
      have hdoes := Activation.does_call hcallee hcompiled hkept hq hplaced ih
        (Nat.le_of_lt_succ hn) hm
      refine hdoes.project Frame.store (fun o ho => ?_) (fun e fr r hr => hr)
        fun v fr' m' hm' => hm'
      exact ⟨q, ⟨p, body, hcompiled, hq, hplaced⟩, o, ho, rfl⟩

/-! ## Whole runs -/

/-- The function that has been entered first is about to return, and the run ends. -/
theorem Activation.Returns.ends {v : Value} {st : Store} {m : Machine} {r : Halt}
    (h : A.Returns v st m) (hip : A.site.callIp = none) (hr : W.stepper.Halts n m r) :
    r.2 = .done v st := by
  obtain ⟨fr, pos, hwithin, hreturn, rfl⟩ := h
  obtain ⟨d, hrunning⟩ := hwithin.running
  have hi := hwithin.instr_eq hreturn
  have hcells : m.vm.vs.cells = (A.below ++ fr.locals) ++ [v] := by
    rw [hwithin.cells, List.append_assoc]
  have hdone : ∀ i, W.stepper.step i m = .inr (m, .done v fr.store) := by
    intro i
    apply Worlds.stepper_done
    rw [Machine.step, hi, ← hwithin.store]
    exact hrunning.ret_done hi hcells hip
  obtain ⟨i, -, ⟨n', m', -, hstep, -⟩ | hstep⟩ := hr.cases
  · cases hstep.symm.trans (hdone i)
  · rw [Sum.inr.inj (hstep.symm.trans (hdone i))]

/-- A run of the dispatch loop that has ended, and the machine that has ended it. -/
theorem halts_runFor {i : Nat → ι} {m : Machine} {r : StepResult} (hr : ∀ m', r ≠ .next m')
    (hsteady : ∀ k < n, ∀ m', runFor (fun k => W.world (i k)) k m = .next m' →
      m'.Steady (W.Fair (i k)))
    (hend : runFor (fun k => W.world (i k)) n m = r) :
    ∃ k < n, ∃ last, runFor (fun k => W.world (i k)) k m = .next last ∧
      W.stepper.Halts n m (last, r) := by
  induction n generalizing i m with
  | zero => exact absurd hend.symm (hr m)
  | succ n ih =>
      have hok := hsteady 0 (Nat.succ_pos n) m rfl
      rw [runFor] at hend
      cases hstep : m.step (W.world (i 0)) with
      | next m' =>
          rw [hstep] at hend
          obtain ⟨k, hk, last, hlast, hhalts⟩ := ih (i := fun k => i (k + 1)) (fun k hk m'' hm'' => by
            apply hsteady (k + 1) (Nat.succ_lt_succ hk) m''
            rw [runFor, hstep]
            exact hm'') hend
          refine ⟨k + 1, Nat.succ_lt_succ hk, last, ?_, i 0, hok, ?_⟩
          · rw [runFor, hstep]
            exact hlast
          · rw [Worlds.stepper_next hstep]
            exact hhalts
      | done v st =>
          rw [hstep] at hend
          refine ⟨0, Nat.succ_pos n, m, rfl, i 0, hok, ?_⟩
          rw [Worlds.stepper_done hstep, ← hend]
          rfl
      | raised e st =>
          rw [hstep] at hend
          refine ⟨0, Nat.succ_pos n, m, rfl, i 0, hok, ?_⟩
          rw [Worlds.stepper_raised hstep, ← hend]
          rfl

/-! ## The entry of a program -/

omit [Libdeci] in
/-- The function at the beginning of a chunk is that of the whole program. -/
theorem Follows.placed_main [DeciBase] {source : Bytes} {origin : String}
    (h : Follows source p body) {s : Shape} (hs : (toChunk p source origin).shapeAt 0 = some s) :
    Placed (toChunk p source origin) p.tables 0 s (none, body) := by
  obtain ⟨k, line, hi, hk⟩ := shapeAt_toChunk hs
  have hitem : body.program[0]? = some (.mine (.function (shapeInfo (none, body))) none) := rfl
  obtain ⟨ti, hti, hd⟩ := forall₂_getElem? h.code hitem
  obtain rfl := Option.some.inj (hti.symm.trans hi)
  obtain ⟨s', f, hs', ha, hf⟩ := hd.instr.function_inv
  obtain rfl : s' = s := Option.some.inj (hs'.symm.trans hk)
  obtain rfl : shapeInfo (none, body) = f := AInstr.function.inj hf
  refine ⟨hs, h.wf, ha, rfl, fun j r hj => ?_⟩
  have hitem' : body.program[j + 1]? = some { r with own := false } := by
    change (nest (closedCode (none, body)))[j]? = _
    rw [nest, List.getElem?_map, hj]
    rfl
  obtain ⟨ti', hti', hd'⟩ := forall₂_getElem? h.code hitem'
  refine ⟨ti'.instr, ?_, hd'.instr⟩
  rw [toChunk_code, Nat.zero_add, Nat.add_comm 1, hti']
  rfl

omit [Libdeci] in
/-- A function without parameters is entered with all of its locals `nil`. -/
theorem Func.enter_nil {f : Func} (h : f.shape.nargsEncoded = 0) (st : Store) :
    f.enter [] st = ⟨List.replicate f.shape.nlocals .nil, st⟩ := by
  have hgathers : f.gathers = false := by
    rw [← nargsEncoded_sign, h]
    decide
  rw [Func.enter, frameCells, bound, boundHeap, hgathers]
  simp only [Bool.false_eq_true, if_false, List.length_nil, Nat.sub_zero, List.nil_append]

/-- `setup_for_eval` enters the frame of the function. -/
theorem evalStart_within {base : Int} {realloc : Nat → Int} {f : Func} {st : Store} {m : Machine}
    (hf : f.chunk.Sound st.extent.globals) (hst : st.Sound)
    (hstart : evalStart base realloc f st = .ok m) {names : List Bytes}
    (hkept : names <+: st.globals.names) :
    f.shape.nargsEncoded = 0 ∧
      m.Within ⟨⟨none, f, [], -1⟩, [], [.func f], [], [names]⟩ (f.enter [] st) [] (f.ip + 1) := by
  have hrunning := evalStart_running hf hst hstart
  have hstore := evalStart_store hstart
  obtain ⟨s, hs, hm⟩ := bind_ok hstart
  obtain rfl := Except.ok.inj hm
  unfold setupForEval at hs
  split at hs
  · cases hs
  · rename_i hnargs
    have hnargs := not_not.mp hnargs
    obtain ⟨vs, hvs, hs⟩ := bind_ok hs
    obtain rfl := Except.ok.inj hs
    obtain ⟨hcells, -⟩ := valueStackEnsure_ok hvs
    refine ⟨hnargs, ⟨_, hrunning⟩, ?_, ?_, rfl, ?_, ?_⟩
    · rw [Func.enter_nil hnargs, hcells, List.append_nil]
      rfl
    · rw [Func.enter_nil hnargs, List.length_replicate]
    · rw [hstore, Func.enter_nil hnargs]
    · rintro names' hnames
      rw [Func.enter_nil hnargs]
      obtain rfl := List.mem_singleton.mp hnames
      exact hkept

/-- A run of a program ends as its tree says, or at a call for which the value stack cannot have the
room. -/
theorem runFor_means {base : Int} {realloc : Nat → Int} {f : Func} {st : Store} {m : Machine}
    {i : Nat → ι} {r : Except Fault Value × Store} (hf : f.chunk.Sound st.extent.globals)
    (hst : st.Sound) (hcompiled : f.chunk.Compiled p body) (hkept : p.globals <+: st.globals.names)
    (hip : f.ip = 0) (hstart : evalStart base realloc f st = .ok m)
    (hsteady : ∀ k < n, ∀ m', runFor (fun k => W.world (i k)) k m = .next m' →
      m'.Steady (W.Fair (i k)))
    (hend : runFor (fun k => W.world (i k)) n m = Ended r) :
    (r.1 = .error .panic ∧ ∃ k < n, ∃ m', runFor (fun k => W.world (i k)) k m = .next m' ∧
        m'.Overfull) ∨
      body.Means W.world f.chunk st r := by
  obtain ⟨hnargs, hm⟩ := evalStart_within hf hst hstart hkept
  have hplaced : Placed f.chunk p.tables f.ip f.shape (none, body) := by
    have hshape := f.shape_eq
    rw [hcompiled.chunk, hip] at hshape
    have hmain := hcompiled.follows.placed_main hshape
    rwa [← hcompiled.chunk, ← hip] at hmain
  have hlocals : f.shape.nlocals = (funLocals none body).length := hplaced.agrees.nlocals
  rw [Func.enter_nil hnargs, hlocals] at hm
  have hmem : (none, body) ∈ body.functions :=
    List.mem_append_right _ (List.mem_singleton_self _)
  have hdoes := Activation.does_call (A := ⟨⟨none, f, [], -1⟩, [], [.func f], [], [p.globals]⟩) rfl
    hcompiled (List.mem_singleton_self _) hmem hplaced (W.tracks n) (Nat.le_refl n) hm
  have hnext : ∀ m', Ended r ≠ .next m' := by
    rcases r with ⟨e | v, st'⟩
    · exact fun m' => StepResult.noConfusion
    · exact fun m' => StepResult.noConfusion
  obtain ⟨k, hk, last, hlast, hhalts⟩ := halts_runFor hnext hsteady hend
  rcases hdoes _ hhalts with ⟨hfull, st', hlost⟩ | ⟨⟨e | v, fr⟩, ho, hgoes⟩
  · left
    refine ⟨?_, k, hk, last, hlast, hfull⟩
    rcases r with ⟨e | v, st''⟩
    · exact congrArg Except.error (StepResult.raised.inj hlost).1
    · cases hlost
  · right
    have hr : r = (.error e, fr.store) := by
      rcases r with ⟨e' | v, st'⟩
      · obtain ⟨rfl, rfl⟩ := StepResult.raised.inj hgoes
        rfl
      · cases hgoes
    exact ⟨n, _, ho, hr⟩
  · right
    obtain ⟨m', n', -, hhalts', hreturns⟩ := hgoes
    have hr : r = (.ok v, fr.store) := by
      have hdone := hreturns.ends rfl hhalts'
      rcases r with ⟨e | v', st'⟩
      · cases hdone
      · obtain ⟨rfl, rfl⟩ := StepResult.done.inj hdone
        rfl
    exact ⟨n, _, ho, hr⟩

end

end Calx
