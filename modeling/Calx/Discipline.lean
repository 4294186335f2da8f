import Calx.Functions
import Calx.TreeFlow

/-!
# The operand stack of compiled code

The control flow of a compiled chunk as the dispatch loop of `state_eval`
follows it, and the discipline every function of an accepted source keeps: at
each of its instructions the number of operands is fixed, and control never
leaves the function's own instructions other than by a return.

## Implementation notes

Positions and depths along a path are integers, so that a jump out of the code
or a pop from an empty stack would show. A function is named by the position of
its `OP_FUNCTION` instruction.
-/

namespace Calx

open LexemeKind Instr

/-- The shape of the function whose `OP_FUNCTION` instruction stands at `i`. -/
def shapeAt (code : List Instr) (shapes : List Shape) (i : Nat) : Option Shape :=
  match code[i]? with
  | some (opFunction k) => shapes[k]?
  | _ => none

/-- Position `j` lies from `lo` on and before `hi`, and in no function nested there. -/
structure OwnIn (code : List Instr) (shapes : List Shape) (lo hi j : Nat) : Prop where
  lo_le : lo ≤ j
  lt_hi : j < hi
  nested : ∀ i s, lo ≤ i → i < j → shapeAt code shapes i = some s → i + s.offset ≤ j

namespace Chunk

/-- The shape of the function at `i`. -/
def shapeAt (c : Chunk) (i : Nat) : Option Shape := Calx.shapeAt c.code c.shapes i

/-- Position `j` belongs to the function at `i` and to no function nested in it. -/
def Own (c : Chunk) (i j : Nat) : Prop :=
  ∃ s, c.shapeAt i = some s ∧ OwnIn c.code c.shapes (i + 1) (i + s.offset) j

/-- Where the dispatch loop goes on after the instruction `instr` at `pc`. -/
def next (c : Chunk) (pc : Nat) : Instr → List Int
  | opJump t => [pc + toInt32 t]
  | opJumpUnless t => [pc + 1, pc + toInt32 t]
  | opReturn => []
  | opFunction k => (c.shapes[k]?).toList.map fun s => (pc : Int) + s.offset
  | _ => [pc + 1]

theorem next_of_isPlain {c : Chunk} {pc : Nat} {instr : Instr} (h : instr.isPlain = true)
    (hret : instr ≠ opReturn) : c.next pc instr = [(pc : Int) + 1] := by
  cases instr with
  | opReturn => exact absurd rfl hret
  | _ => first | rfl | cases h

/-- A control path from the first instruction of the function at `i` to a position, with the
number of operands there. -/
inductive Path (c : Chunk) (i : Nat) : Int → Int → Prop
  | entry : Path c i (i + 1) 0
  | step {pc : Nat} {d : Int} {instr : Instr} {t : Int} (h : Path c i pc d)
      (hi : c.code[pc]? = some instr) (ht : t ∈ c.next pc instr) :
      Path c i t (d - instr.pops + instr.pushes)

/-- What holds at the own instruction `j` of the function at `i`, where there are `depth j`
operands. -/
structure DisciplinedAt (c : Chunk) (i : Nat) (depth : Nat → Nat) (j : Nat) (instr : Instr) :
    Prop where
  pops : instr.pops ≤ depth j
  return_one : instr = opReturn → depth j = 1
  next : ∀ t ∈ c.next j instr, ∃ j' : Nat, t = j' ∧ c.Own i j' ∧
    depth j' = depth j - instr.pops + instr.pushes

/-- The own instructions of the function at `i` keep the operand stack disciplined. -/
structure Disciplined (c : Chunk) (i : Nat) (depth : Nat → Nat) : Prop where
  entry : c.Own i (i + 1) ∧ depth (i + 1) = 0
  own : ∀ j, c.Own i j → ∃ instr, c.code[j]? = some instr ∧ c.DisciplinedAt i depth j instr

/-- Every control path stays among the own instructions, with the depth they have. -/
theorem Disciplined.path {c : Chunk} {i : Nat} {depth : Nat → Nat} (h : c.Disciplined i depth)
    {t d : Int} (hp : c.Path i t d) : ∃ j : Nat, t = j ∧ c.Own i j ∧ d = depth j := by
  induction hp with
  | entry => exact ⟨i + 1, by simp, h.entry.1, by simp [h.entry.2]⟩
  | @step pc d instr t _ hi ht ih =>
      obtain ⟨j, hj, hown, rfl⟩ := ih
      obtain rfl : pc = j := by exact_mod_cast hj
      obtain ⟨instr', hi', hd⟩ := h.own pc hown
      obtain rfl : instr' = instr := Option.some.inj (hi'.symm.trans hi)
      obtain ⟨j', rfl, hown', hdepth⟩ := hd.next t ht
      have := hd.pops
      exact ⟨j', rfl, hown', by omega⟩

end Chunk

/-! ## Items and instructions -/

theorem toInt32_toUint32 {off : Int} (h : -2147483648 ≤ off ∧ off < 2147483648) :
    toInt32 (toUint32 off) = off := by
  unfold toInt32 toUint32
  split <;> omega

theorem DenI.pops_eq {T : Tables} {i : Instr} {a : AInstr} (h : DenI T i a) : i.pops = a.pops := by
  cases h <;> rfl

theorem DenI.pushes_eq {T : Tables} {i : Instr} {a : AInstr} (h : DenI T i a) :
    i.pushes = a.pushes := by
  cases h <;> rfl

/-- Position `t` of a function's code is an instruction of the function, without operands. -/
def Inside (code : List Item) (t : Int) : Prop :=
  ∃ k r, t = (k : Nat) ∧ code[k]? = some r ∧ r.own = true ∧ depthAfter 0 (code.take k) = 0

/-- A nested function does not change the number of operands. -/
theorem depthAfter_skip {P : FunInfo → List Item → Prop} {l : List Item} (h : Blocked P l) {k : Nat}
    {r : Item} {f : FunInfo} (hk : l[k]? = some r) (hf : r.instr = .function f) (d : Nat) :
    depthAfter d (l.take (k + f.offset)) = depthAfter d (l.take (k + 1)) := by
  obtain ⟨code, B, -, -, hlen, hd⟩ := h.at_function hk hf
  have hlt := (List.getElem?_eq_some_iff.mp hk).1
  have htake : l.take (k + f.offset) = l.take (k + 1) ++ nest code := by
    have hl : (l.take (k + 1)).length = k + 1 := List.length_take_of_le hlt
    conv_lhs => rw [← List.take_append_drop (k + 1) l, hd]
    rw [show k + f.offset = (l.take (k + 1)).length + (nest code).length by
      rw [hl, nest_length]; omega, List.take_length_add_append, List.take_left]
  rw [htake, depthAfter_append, depthAfter_nest]

theorem Landing.inside {A : List Item} {t : Int} (h : Landing A t) {r : Item} {rs : List Item}
    (ho : r.own = true) : Inside (A ++ r :: rs) t := by
  obtain ⟨B, C, rfl, rfl, hd, hC⟩ := h
  cases C with
  | nil => exact ⟨B.length, r, rfl, by simp, ho, by simpa using hd⟩
  | cons r' C => exact ⟨B.length, r', rfl, by simp, hC r' (by simp), by simpa using hd⟩

theorem Inside.closeItems {code : List Item} {t : Int} (h : Inside code t) (posted : Bool)
    (names : List Bytes) : Inside (closeItems posted names code) t := by
  obtain ⟨k, r, rfl, hk, ho, hd⟩ := h
  refine ⟨k, closeItem posted names r, rfl, by simp [closeItems_eq, hk], by simpa using ho, ?_⟩
  rw [closeItems_eq, ← List.map_take, ← closeItems_eq, depthAfter_closeItems, hd]

theorem closeInstr_eq_function {posted : Bool} {names : List Bytes} {a : AInstr} {f : FunInfo}
    (h : closeInstr posted names a = .function f) : a = .function f := by
  cases a <;> simp only [closeInstr, blur, resolve] at h <;> split_ifs at h <;> simp_all

/-! ## Own positions -/

section

variable {T : Tables} {code : List Instr} {shapes : List Shape} {lo : Nat} {l : List Item}

/-- An `OP_FUNCTION` instruction and its item. -/
theorem shapeAt_item (hT : T.shapes = shapes)
    (hc : ∀ k r, l[k]? = some r → ∃ instr, code[lo + k]? = some instr ∧ DenI T instr r.instr)
    {k : Nat} {r : Item} (hk : l[k]? = some r) {s : Shape}
    (hs : shapeAt code shapes (lo + k) = some s) :
    ∃ f, r.instr = .function f ∧ s.offset = f.offset := by
  obtain ⟨instr, hi, hd⟩ := hc k r hk
  unfold shapeAt at hs
  rw [hi] at hs
  split at hs
  · rename_i n he
    obtain rfl := Option.some.inj he
    obtain ⟨s', f, hs', ha, hf⟩ := hd.function_inv
    rw [hT, hs] at hs'
    obtain rfl := Option.some.inj hs'
    exact ⟨f, hf, ha.offset⟩
  · simp at hs

/-- An item of a function and its `OP_FUNCTION` instruction. -/
theorem item_shapeAt (hT : T.shapes = shapes)
    (hc : ∀ k r, l[k]? = some r → ∃ instr, code[lo + k]? = some instr ∧ DenI T instr r.instr)
    {k : Nat} {r : Item} {f : FunInfo} (hk : l[k]? = some r) (hf : r.instr = .function f) :
    ∃ s, shapeAt code shapes (lo + k) = some s ∧ s.offset = f.offset := by
  obtain ⟨instr, hi, hd⟩ := hc k r hk
  rw [hf] at hd
  cases hd with
  | @function n s _ hs _ ha => exact ⟨s, by simp [shapeAt, hi, ← hT, hs], ha.offset⟩

/-- The own positions of a piece of code are those of its own items. -/
theorem ownIn_iff {P : FunInfo → List Item → Prop} (hT : T.shapes = shapes)
    (hc : ∀ k r, l[k]? = some r → ∃ instr, code[lo + k]? = some instr ∧ DenI T instr r.instr)
    (hb : Blocked P l) {j : Nat} :
    OwnIn code shapes lo (lo + l.length) j ↔
      ∃ k r, j = lo + k ∧ l[k]? = some r ∧ r.own = true := by
  constructor
  · rintro ⟨hlo, hhi, hall⟩
    obtain ⟨k, rfl⟩ : ∃ k, j = lo + k := ⟨j - lo, by omega⟩
    have hk : k < l.length := by omega
    refine ⟨k, l[k], rfl, List.getElem?_eq_getElem hk, ?_⟩
    rw [hb.own_iff (List.getElem?_eq_getElem hk)]
    intro k' hk' r' f hr' hf
    obtain ⟨s', hs', ho⟩ := item_shapeAt hT hc hr' hf
    have := hall (lo + k') s' (by omega) (by omega) hs'
    omega
  · rintro ⟨k, r, rfl, hk, ho⟩
    have hlt := (List.getElem?_eq_some_iff.mp hk).1
    refine ⟨by omega, by omega, ?_⟩
    intro i' s' hi' hij hs'
    obtain ⟨k', rfl⟩ : ∃ k', i' = lo + k' := ⟨i' - lo, by omega⟩
    have hk' : k' < l.length := by omega
    obtain ⟨f, hf, hof⟩ := shapeAt_item hT hc (List.getElem?_eq_getElem hk') hs'
    have := (hb.own_iff hk).mp ho k' (by omega) _ f (List.getElem?_eq_getElem hk') hf
    omega

end

theorem toChunk_code (p : Parser) (source : Bytes) (origin : String) (j : Nat) :
    (toChunk p source origin).code[j]? = (p.prog[j]?).map (·.instr) := by
  simp [toChunk]

theorem shapeAt_toChunk {p : Parser} {source : Bytes} {origin : String} {i : Nat} {s : Shape}
    (h : (toChunk p source origin).shapeAt i = some s) :
    ∃ n line, p.prog[i]? = some ⟨opFunction n, line⟩ ∧ p.shapes[n]? = some s := by
  unfold Chunk.shapeAt Calx.shapeAt at h
  rw [toChunk_code] at h
  split at h
  · rename_i n hn
    obtain ⟨⟨instr, line⟩, hi, rfl⟩ := Option.map_eq_some_iff.mp hn
    exact ⟨n, line, hi, h⟩
  · simp at h

section

variable [DeciBase]

/-- The operands in the code of a function, its implicit return included. -/
theorem closedCode_flow {q : Option Params × Stmts} (h : q.2.Wf false) :
    Flow (Inside (closedCode q)) 0 (closedCode q) := by
  have hb := q.2.code_balanced false h
  have hbody : Flow (Inside (q.2.code ++ returnNil)) 0 (q.2.code ++ returnNil) := by
    rw [flow_append, hb.depth]
    refine ⟨hb.flow.mono fun _ ht => ht.inside rfl, fun _ => Nat.zero_le _, fun _ => rfl, trivial⟩
  exact (hbody.closeItems _ _).mono fun _ ht => ht.closeItems _ _

/-- The code of a function ends with a return. -/
theorem closedCode_last (q : Option Params × Stmts) {k : Nat} {r : Item}
    (hk : (closedCode q)[k]? = some r) (hr : r.instr ≠ .plain opReturn) :
    k + 1 < (closedCode q).length := by
  by_contra hle
  have hlt := (List.getElem?_eq_some_iff.mp hk).1
  have hlen : k = q.2.code.length + 1 := by
    have := closedCode_length q
    simp [returnNil] at this
    omega
  apply hr
  have : r = closeItem q.2.postedFun (funLocals q.1 q.2) (.mine (.plain opReturn) none) := by
    simpa [closedCode, closeItems_eq, hlen, returnNil, List.getElem?_append_right, eq_comm]
      using hk
  subst this
  simp [closeItem, closeInstr, blur, resolve]

theorem closedCode_isClosed {q : Option Params × Stmts} (h : q.2.Wf false) :
    ∀ r ∈ closedCode q, r.instr.isClosed = true :=
  ((q.2.code_layout false h).append (.straight returnNil_straight)).closeItems_isClosed _ _

/-- A nested function ends before the implicit return. -/
theorem closedCode_function_lt {q : Option Params × Stmts} (h : q.2.Wf false) {k : Nat} {r : Item}
    {f : FunInfo} (hk : (closedCode q)[k]? = some r) (hf : r.instr = .function f) :
    k + f.offset < (closedCode q).length := by
  rw [closedCode, closeItems_eq, List.getElem?_map] at hk
  obtain ⟨r₀, hr₀, rfl⟩ := Option.map_eq_some_iff.mp hk
  have hf₀ : r₀.instr = .function f := by
    unfold closeItem at hf
    split at hf
    · exact closeInstr_eq_function hf
    · exact hf
  have hlt : k < q.2.code.length := by
    by_contra hge
    rw [List.getElem?_append_right (Nat.not_lt.mp hge)] at hr₀
    have := List.mem_of_getElem? hr₀
    simp only [returnNil, List.mem_cons, List.not_mem_nil, or_false] at this
    obtain rfl | rfl := this <;> simp at hf₀
  rw [List.getElem?_append_left hlt] at hr₀
  have := (q.2.code_blocked false h).function_le hr₀ hf₀
  rw [closedCode_length]
  simp [returnNil]
  omega

/-! ## One function -/

/-- A function of a chunk with its code. -/
structure Placed (c : Chunk) (T : Tables) (i : Nat) (s : Shape) (q : Option Params × Stmts) :
    Prop where
  shape : c.shapeAt i = some s
  wf : q.2.Wf false
  agrees : s.Agrees (shapeInfo q)
  shapes : T.shapes = c.shapes
  code : ∀ k r, (closedCode q)[k]? = some r →
    ∃ instr, c.code[i + 1 + k]? = some instr ∧ DenI T instr r.instr

namespace Placed

variable {c : Chunk} {T : Tables} {i : Nat} {s : Shape} {q : Option Params × Stmts}

theorem offset_eq (h : Placed c T i s q) : s.offset = (closedCode q).length + 1 := by
  rw [h.agrees.offset, closedCode_length]
  rfl

theorem small (h : Placed c T i s q) : (closedCode q).length < 2147483647 := by
  have h1 := h.agrees.small
  have h2 := h.offset_eq
  simp only [uint32Max] at h1
  omega

/-- The own positions of the function are those of its own items. -/
theorem own_iff (h : Placed c T i s q) {j : Nat} :
    c.Own i j ↔ ∃ k r, j = i + 1 + k ∧ (closedCode q)[k]? = some r ∧ r.own = true := by
  rw [← ownIn_iff h.shapes h.code (closedCode_blocked h.wf),
    show i + 1 + (closedCode q).length = i + s.offset by rw [h.offset_eq]; omega]
  constructor
  · rintro ⟨s', hs', ho⟩
    obtain rfl := Option.some.inj (h.shape.symm.trans hs')
    exact ho
  · exact fun ho => ⟨s, h.shape, ho⟩

/-- The operands at a position of the function. -/
def depth (q : Option Params × Stmts) (i j : Nat) : Nat :=
  depthAfter 0 ((closedCode q).take (j - (i + 1)))

theorem depth_eq (q : Option Params × Stmts) (i k : Nat) :
    depth q i (i + 1 + k) = depthAfter 0 ((closedCode q).take k) := by
  simp [depth]

theorem depth_succ {k : Nat} {r : Item} (hk : (closedCode q)[k]? = some r) :
    depthAfter 0 ((closedCode q).take (k + 1)) =
      depthStep (depthAfter 0 ((closedCode q).take k)) r := by
  obtain ⟨hlt, rfl⟩ := List.getElem?_eq_some_iff.mp hk
  rw [List.take_succ_eq_append_getElem hlt, depthAfter_append]
  rfl

/-- Each item of the function fits where it stands. -/
theorem fits (h : Placed c T i s q) {k : Nat} {r : Item} (hk : (closedCode q)[k]? = some r)
    (ho : r.own = true) :
    r.instr.Fits (fun t => Inside (closedCode q) (t + k))
      (depthAfter 0 ((closedCode q).take k)) := by
  obtain ⟨hlt, rfl⟩ := List.getElem?_eq_some_iff.mp hk
  have hf := closedCode_flow h.wf
  generalize hL : Inside (closedCode q) = L at hf ⊢
  conv at hf => rw [← List.take_append_drop k (closedCode q), List.drop_eq_getElem_cons hlt]
  rw [flow_append, flow_cons, List.length_take_of_le hlt.le] at hf
  exact hf.2.1 ho

/-- A place inside the function's code, in the chunk. -/
theorem inside (h : Placed c T i s q) {t : Int} (ht : Inside (closedCode q) t) :
    ∃ j : Nat, (i : Int) + 1 + t = j ∧ c.Own i j ∧ depth q i j = 0 := by
  obtain ⟨k, r, rfl, hk, ho, hd⟩ := ht
  exact ⟨i + 1 + k, by omega, h.own_iff.mpr ⟨k, r, rfl, hk, ho⟩, by rw [depth_eq, hd]⟩

/-- The function keeps the operand stack disciplined. -/
theorem disciplined (h : Placed c T i s q) : c.Disciplined i (depth q i) where
  entry := by
    refine ⟨h.own_iff.mpr ?_, by simpa using depth_eq q i 0⟩
    have hb := (closedCode_blocked h.wf).head_own
    have hlen := closedCode_length q
    simp only [List.length_append, returnNil, List.length_cons, List.length_nil] at hlen
    refine ⟨0, (closedCode q)[0], rfl, List.getElem?_eq_getElem (by omega), ?_⟩
    exact hb _ (by rw [List.head?_eq_getElem?, List.getElem?_eq_getElem (by omega)]; rfl)
  own := by
    intro j hj
    obtain ⟨k, r, rfl, hk, ho⟩ := h.own_iff.mp hj
    obtain ⟨instr, hc, hden⟩ := h.code k r hk
    have hfit := h.fits hk ho
    have hb := closedCode_blocked h.wf
    -- the next instruction, where control falls through
    have hnext : r.instr ≠ .plain opReturn → (∀ f, r.instr ≠ .function f) →
        ∃ j' : Nat, ((i + 1 + k : Nat) : Int) + 1 = j' ∧ c.Own i j' ∧
          depth q i j' = depth q i (i + 1 + k) - instr.pops + instr.pushes := by
      intro hret hfun
      have hlt := closedCode_last q hk hret
      refine ⟨i + 1 + (k + 1), by omega, h.own_iff.mpr ⟨k + 1, _, rfl,
        List.getElem?_eq_getElem hlt, hb.next_own hk ho hfun (List.getElem?_eq_getElem hlt)⟩, ?_⟩
      rw [depth_eq, depth_eq, depth_succ hk, depthStep, if_pos ho, hden.pops_eq, hden.pushes_eq]
    -- a jump, which is made without operands
    have hjump : ∀ off : Int, Inside (closedCode q) (off + k) →
        depth q i (i + 1 + k) - instr.pops + instr.pushes = 0 →
        ∃ j' : Nat, ((i + 1 + k : Nat) : Int) + toInt32 (toUint32 off) = j' ∧ c.Own i j' ∧
          depth q i j' = depth q i (i + 1 + k) - instr.pops + instr.pushes := by
      intro off hin hd
      obtain ⟨j', hj', hown, hd'⟩ := h.inside hin
      have hsmall := h.small
      have hklt := (List.getElem?_eq_some_iff.mp hk).1
      obtain ⟨k', _, hk', hkr, -⟩ := hin
      have hk'lt := (List.getElem?_eq_some_iff.mp hkr).1
      refine ⟨j', ?_, hown, by rw [hd', hd]⟩
      rw [toInt32_toUint32 (by omega), ← hj']
      omega
    refine ⟨instr, hc, ?_, ?_, ?_⟩
    · rw [depth_eq, hden.pops_eq]
      exact hfit.pops_le
    · rintro rfl
      rw [depth_eq]
      cases hr : r.instr with
      | plain i₀ =>
          rw [hr] at hden hfit
          cases hden
          exact hfit
      | _ => rw [hr] at hden; cases hden
    · intro t ht
      rw [← depth_eq q i k] at hfit
      generalize hr : r.instr = a at hden hfit
      cases hden with
      | jump off =>
          obtain rfl := List.mem_singleton.mp ht
          exact hjump off hfit.2 (by rw [hfit.1]; rfl)
      | jumpUnless off =>
          have hcases : t = ((i + 1 + k : Nat) : Int) + 1 ∨
              t = ((i + 1 + k : Nat) : Int) + toInt32 (toUint32 off) := by
            simpa [Chunk.next] using ht
          obtain rfl | rfl := hcases
          · exact hnext (by simp [hr]) (by simp [hr])
          · exact hjump off hfit.2 (by rw [hfit.1]; rfl)
      | @function n s' f hs' hne ha =>
          have hs : c.shapes[n]? = some s' := h.shapes ▸ hs'
          obtain rfl : t = ((i + 1 + k : Nat) : Int) + s'.offset := by
            simpa [Chunk.next, hs] using ht
          have hlt := closedCode_function_lt h.wf hk hr
          have hown := hb.skip_own hk ho hr (List.getElem?_eq_getElem hlt)
          refine ⟨i + 1 + (k + f.offset), by rw [ha.offset]; omega, h.own_iff.mpr
            ⟨k + f.offset, _, rfl, List.getElem?_eq_getElem hlt, hown⟩, ?_⟩
          rw [depth_eq, depth_eq, depthAfter_skip hb hk hr, depth_succ hk, depthStep, if_pos ho, hr]
          rfl
      | breakTo | continueTo | ifTo =>
          have := closedCode_isClosed h.wf r (List.mem_of_getElem? hk)
          simp [hr, AInstr.isClosed] at this
      | plain hp =>
          by_cases hret : instr = opReturn
          · subst hret
            simp [Chunk.next] at ht
          · rw [Chunk.next_of_isPlain hp hret] at ht
            obtain rfl := List.mem_singleton.mp ht
            exact hnext (by simp [hr, hret]) (by simp [hr])
      | _ =>
          obtain rfl := List.mem_singleton.mp ht
          exact hnext (by simp [hr]) (by simp [hr])

end Placed

/-! ## Whole programs -/

/-- The tree `body` is the syntax tree of a source. -/
structure TreeOf (source : Bytes) (body : Stmts) : Prop where
  wf : body.Wf false
  toks : ∃ e, e.kind = lkEof ∧ lexAll (lexerNew source) = body.toks ++ [e]

variable {source : Bytes} {p : Parser} {body : Stmts} {origin : String}

/-- Every function of a chunk is one of the tree. -/
theorem Follows.placed (h : Follows source p body) {i : Nat} {s : Shape}
    (hs : (toChunk p source origin).shapeAt i = some s) :
    ∃ q ∈ body.functions, Placed (toChunk p source origin) p.tables i s q := by
  obtain ⟨n, line, hi, hn⟩ := shapeAt_toChunk hs
  obtain ⟨s', q, hs', hq, hwf, ha, -, hd⟩ := h.code.function_at (Stmts.program_blocked h.wf) hi
  obtain rfl : s = s' := Option.some.inj (hn.symm.trans hs')
  refine ⟨q, hq, hs, hwf, ha, rfl, fun k r hk => ?_⟩
  obtain ⟨ti, hti, hden⟩ := forall₂_getElem? hd hk
  refine ⟨ti.instr, ?_, hden.instr⟩
  have hlt := (List.getElem?_eq_some_iff.mp hk).1
  rw [List.getElem?_take_of_lt hlt, List.getElem?_drop] at hti
  rw [toChunk_code, hti]
  rfl

/-- The whole code is that of one function. -/
theorem Follows.main (h : Follows source p body) :
    ∃ s, (toChunk p source origin).shapeAt 0 = some s ∧
      s.offset = (toChunk p source origin).code.length := by
  have hit : body.program[0]? = some (.mine (.function (shapeInfo (none, body))) none) := rfl
  obtain ⟨⟨instr, line⟩, hti, hd⟩ := forall₂_getElem? h.code hit
  obtain ⟨n, rfl⟩ : ∃ n, instr = opFunction n := by
    have := hd.instr
    generalize (Item.mine (.function (shapeInfo (none, body))) none).instr = a at this
    cases hd.instr with
    | @function n => exact ⟨n, rfl⟩
  obtain ⟨s, f, hs, ha, hf⟩ := hd.instr.function_inv
  obtain rfl : shapeInfo (none, body) = f := by simpa using hf
  refine ⟨s, ?_, ?_⟩
  · simp only [Chunk.shapeAt, Calx.shapeAt, toChunk_code, hti]
    exact hs
  · rw [ha.offset]
    simp only [toChunk, List.length_map, h.code.length_eq]
    simp [shapeInfo, funInfo, Stmts.program, nestedCode]

/-- In every accepted source, every function keeps the operand stack disciplined: each own
instruction has one depth on all control paths, which suffices for it and is one at a return; jumps
stay among the own instructions; and an `OP_FUNCTION` instruction skips the code of one function of
the tree. -/
theorem operand_discipline {globals g : List Bytes} {c : Chunk}
    (h : parse globals source origin = .ok (c, g)) :
    ∃ body : Stmts, TreeOf source body ∧
      (∃ s, c.shapeAt 0 = some s ∧ s.offset = c.code.length) ∧
      ∀ i s, c.shapeAt i = some s →
        (∃ q ∈ body.functions, ∃ T, s.offset = (closedCode q).length + 1 ∧ Placed c T i s q) ∧
        ∃ depth : Nat → Nat, c.Disciplined i depth ∧
          ∀ t d, c.Path i t d → ∃ j : Nat, t = j ∧ c.Own i j ∧ d = depth j := by
  unfold parse at h
  obtain ⟨p, hp, h⟩ := bind_ok h
  simp only [Except.ok.injEq, Prod.mk.injEq] at h
  obtain ⟨rfl, -⟩ := h
  obtain ⟨body, hf⟩ := parse_sound hp
  refine ⟨body, ⟨hf.wf, hf.toks⟩, hf.main, fun i s hs => ?_⟩
  obtain ⟨q, hq, hpl⟩ := hf.placed hs
  exact ⟨⟨q, hq, p.tables, hpl.offset_eq, hpl⟩, Placed.depth q i, hpl.disciplined,
    fun t d hpath => hpl.disciplined.path hpath⟩

end

/-- `operand_discipline` at a program with a function and a loop. -/
theorem operand_discipline_loop :
    ∃ c g, @parse deciBase64 [] (bytesOf "fun f(x){while(x){x-=1}return x}") "" = .ok (c, g) ∧
      ∃ depth : Nat → Nat, c.Disciplined 0 depth := by
  obtain ⟨c, g, hp⟩ : ∃ c g, @parse deciBase64 []
    (bytesOf "fun f(x){while(x){x-=1}return x}") "" = .ok (c, g) := ⟨_, _, rfl⟩
  obtain ⟨_, -, ⟨s, hs, -⟩, h⟩ := @operand_discipline deciBase64 _ _ _ _ _ hp
  obtain ⟨-, depth, hd, -⟩ := h 0 s hs
  exact ⟨c, g, hp, depth, hd⟩

end Calx
