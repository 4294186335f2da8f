import Calx.Exec
import Calx.Scopes

/-!
# Control flow keeps its meaning

The dispatch loop on the code of a statement, with its jumps patched and its
`for` loops rotated, performs the elementary actions of the statement's meaning
and ends in the same way.

## Implementation notes

A `break` or `continue` may be open in the code of a statement. `At` places the
code of a statement with these jumps aimed at given positions, so that the
simulation goes through the statements inside a loop without knowing the loop.
-/

namespace Calx

open LexemeKind Instr

/-! ## Patched code in parts -/

theorem patch_append_eq (brk cnt : Int) (l l' : List Item) :
    patch brk cnt (l ++ l') =
      patch brk cnt l ++ patch (brk - l.length) (cnt - l.length) l' := by
  have h1 := aimFrom_shift .breakTo (brk - l.length) 0 l.length l'
  have h2 := aimFrom_shift .continueTo (cnt - l.length) 0 l.length
    (aimFrom .breakTo (brk - l.length) 0 l')
  simp only [Nat.zero_add, Int.sub_add_cancel] at h1 h2
  simp only [patch, aimFrom_append, aimFrom_length, Nat.zero_add, h1, h2]

theorem patch_eq_self {l : List Item} (h : NoLoop l) (brk cnt : Int) : patch brk cnt l = l := by
  rw [patch, aimFrom_eq_self fun r hr => (h r hr).1, aimFrom_eq_self fun r hr => (h r hr).2]

theorem noLoop_patch (brk cnt : Int) (l : List Item) : NoLoop (patch brk cnt l) := fun _ hr =>
  ⟨(mem_patch hr).1, (mem_patch hr).2.1⟩

/-! ## Elementary actions -/

/-- Items that are elementary actions. -/
def AInstr.isAct : AInstr → Bool
  | .const _ | .load _ | .store _ | .modify .. | .storeNew _ => true
  | .plain i => i ≠ opReturn
  | _ => false

/-- Code that consists of elementary actions of the function at hand. -/
def Acts (code : List Item) : Prop := ∀ r ∈ code, r.own = true ∧ r.instr.isAct = true

theorem Acts.append {l l' : List Item} (h : Acts l) (h' : Acts l') : Acts (l ++ l') :=
  List.forall_mem_append.mpr ⟨h, h'⟩

theorem Acts.mine {a : AInstr} (h : a.isAct = true) (line : Option Nat) : Acts [.mine a line] := by
  simp [Acts, h]

theorem Acts.straight {l : List Item} (h : Acts l) : Straight l := fun r hr => by
  refine ⟨(h r hr).1, ?_⟩
  have := (h r hr).2
  cases hi : r.instr <;> simp_all [AInstr.isAct, AInstr.isStraight]

/-- Elementary actions with their identifiers resolved. -/
def AInstr.isStep : AInstr → Bool
  | .const _ | .loadGlobal _ | .storeGlobal _ | .modifyGlobal .. => true
  | .plain i => i ≠ opReturn
  | _ => false

theorem resolve_isStep (names : List Bytes) {a : AInstr} (h : a.isAct = true) :
    (resolve names a).isStep = true := by
  cases a with
  | load x | store x | modify _ x =>
      simp only [resolve]
      split
      · rfl
      · rfl
  | plain i => exact h
  | const _ | storeNew _ => rfl
  | _ => simp [AInstr.isAct] at h

theorem Instr.isPlain_decode {c : Chunk} {g : List Bytes} {i : Instr} (h : i.isPlain = true) :
    decode c g i = .plain i ∧ width c i = 1 ∧ (∀ t, i ≠ opJump t) ∧ ∀ t, i ≠ opJumpUnless t := by
  cases i <;> simp_all [Instr.isPlain, decode, width]

/-- What an instruction of a resolved action is decoded to. -/
theorem DenI.decode_eq {T : Tables} {c : Chunk} {g : List Bytes} (hc : T.consts = c.consts)
    (hg : T.globals = g) {i : Instr} {a : AInstr} (ha : a.isStep = true) (h : DenI T i a) :
    decode c g i = a ∧ width c i = 1 ∧ i ≠ opReturn ∧ (∀ t, i ≠ opJump t) ∧
      ∀ t, i ≠ opJumpUnless t := by
  cases h with
  | plain hp =>
      obtain ⟨h1, h2, h3⟩ := Instr.isPlain_decode (c := c) (g := g) hp
      exact ⟨h1, h2, by simpa [AInstr.isStep] using ha, h3⟩
  | const hv => simp [decode, width, ← hc, hv]
  | loadGlobal hv | storeGlobal hv | modifyGlobal hv => simp [decode, width, ← hg, hv]
  | _ => simp [AInstr.isStep] at ha

theorem assignInstr_isAct {k : LexemeKind} {a b : AInstr} (h : assignInstr k a = some b) :
    b.isAct = true := by
  unfold assignInstr at h
  split at h
  · split_ifs at h
    · exact Option.some.inj h ▸ rfl
    · exact Option.some.inj h ▸ rfl
    · obtain ⟨_, -, rfl⟩ := Option.map_eq_some_iff.mp h
      rfl
  · split_ifs at h
    · exact Option.some.inj h ▸ rfl
    · obtain ⟨_, -, rfl⟩ := Option.map_eq_some_iff.mp h
      rfl
  · simp at h

section

variable [DeciBase]

theorem Expr.code_acts (e : Expr) : Acts e.code := fun r hr => by
  refine ⟨(e.code_isExpr r hr).1, ?_⟩
  have := (e.code_isExpr r hr).2
  cases hi : r.instr with
  | plain i => cases i <;> simp_all [AInstr.isExpr, AInstr.isAct, Instr.isOperator]
  | _ => simp_all [AInstr.isExpr, AInstr.isAct]

theorem Simple.code_acts (next : Lexeme) : ∀ s : Simple, Acts (s.code next)
  | .expr e => e.code_acts.append (.mine rfl _)
  | .assign lhs op rhs => by
      have hl : Acts lhs.code.dropLast := fun r hr => lhs.code_acts r (List.dropLast_subset _ hr)
      refine hl.append (rhs.code_acts.append (.mine ?_ _))
      cases hb : assignInstr op.kind lhs.lastInstr with
      | none => rfl
      | some b => exact assignInstr_isAct hb

theorem Simple.optCode_acts (next : Lexeme) (s : Option Simple) :
    Acts ((s.map (Simple.code next)).getD []) := by
  cases s with
  | none => simp [Acts]
  | some s => exact s.code_acts next

end

/-! ## Steps of the dispatch loop -/

/-- Where the code of a function's body stands: the tables of its chunk and its bounds. -/
structure Region (T : Tables) (c : Chunk) (globals : List Bytes) (lo hi : Nat) : Prop where
  consts : T.consts = c.consts
  globals : T.globals = globals
  shapes : T.shapes = c.shapes
  small : hi < lo + 2147483648

/-- The own items of a piece of code stand at `pos`. -/
def Seg (T : Tables) (c : Chunk) (names : List Bytes) (pos : Nat) (items : List Item) : Prop :=
  ∀ k r, items[k]? = some r → r.own = true →
    ∃ i, c.code[pos + k]? = some i ∧ DenI T i (resolve names r.instr)

/-- A piece of code stands at `pos`, with its open jumps aimed at `brk` and `cnt`. -/
def At (T : Tables) (c : Chunk) (names : List Bytes) (brk cnt pos : Nat) (items : List Item) :
    Prop :=
  Seg T c names pos (patch ((brk : Int) - pos) ((cnt : Int) - pos) items)

section

variable {T : Tables} {c : Chunk} {names : List Bytes} {brk cnt pos : Nat}

theorem seg_append {l l' : List Item} :
    Seg T c names pos (l ++ l') ↔ Seg T c names pos l ∧ Seg T c names (pos + l.length) l' := by
  constructor
  · intro h
    refine ⟨fun k r hk => ?_, fun k r hk => ?_⟩
    · exact h k r (by
        rw [List.getElem?_append_left (List.getElem?_eq_some_iff.mp hk).1]
        exact hk)
    · have := h (l.length + k) r (by
        rw [List.getElem?_append_right (Nat.le_add_right ..), Nat.add_sub_cancel_left]
        exact hk)
      rwa [← Nat.add_assoc] at this
  · rintro ⟨h, h'⟩ k r hk
    by_cases hlt : k < l.length
    · exact h k r (by rwa [List.getElem?_append_left hlt] at hk)
    · rw [List.getElem?_append_right (Nat.not_lt.mp hlt)] at hk
      have := h' _ r hk
      rwa [show pos + l.length + (k - l.length) = pos + k by omega] at this

theorem at_append {l l' : List Item} :
    At T c names brk cnt pos (l ++ l') ↔
      At T c names brk cnt pos l ∧ At T c names brk cnt (pos + l.length) l' := by
  have h : ∀ x : Nat, (x : Int) - (pos + l.length : Nat) = x - pos - l.length := fun x => by omega
  rw [At, patch_append_eq, seg_append, patch_length]
  simp only [At, h]

theorem at_cons {r : Item} {l : List Item} :
    At T c names brk cnt pos (r :: l) ↔
      At T c names brk cnt pos [r] ∧ At T c names brk cnt (pos + 1) l := at_append (l := [r])

theorem at_noLoop {l : List Item} (h : NoLoop l) :
    At T c names brk cnt pos l ↔ Seg T c names pos l := by
  rw [At, patch_eq_self h]

/-- The body of a loop stands with its jumps aimed by the loop. -/
theorem at_patch {l : List Item} (brk' cnt' : Nat) {x y : Int} (hx : x = brk' - pos)
    (hy : y = cnt' - pos) :
    At T c names brk cnt pos (patch x y l) ↔ At T c names brk' cnt' pos l := by
  rw [at_noLoop (noLoop_patch x y l), hx, hy]
  rfl

theorem Seg.head {r : Item} (h : Seg T c names pos [r]) (ho : r.own = true) :
    ∃ i, c.code[pos]? = some i ∧ DenI T i (resolve names r.instr) := by
  simpa using h 0 r rfl ho

end

section

variable {σ ε : Type} (ops : Ops σ ε) {T : Tables} {c : Chunk} {globals names : List Bytes}
  {lo hi : Nat}

/-- The dispatch of an instruction other than a jump or a return. -/
theorem bodyStep_act {pos : Nat} (hpos : pos ≠ hi) {i : Instr} (hi' : c.code[pos]? = some i)
    (h : i ≠ opReturn ∧ (∀ t, i ≠ opJump t) ∧ ∀ t, i ≠ opJumpUnless t) (s : σ) :
    bodyStep ops c globals hi (pos, s) =
      match ops.act (decode c globals i) s with
      | .ok s' => .inl (pos + width c i, s')
      | .error e => .inr (.raised e) := by
  obtain ⟨h1, h2, h3⟩ := h
  unfold bodyStep
  rw [if_neg hpos, hi']
  split
  · simp_all
  · simp_all
  · simp_all
  · simp_all
  · rename_i h
    obtain rfl := Option.some.inj h
    rfl

/-- One elementary action. -/
theorem step_act (hR : Region T c globals lo hi) {pos : Nat} (hpos : pos < hi) {r : Item}
    (ho : r.own = true) (ha : r.instr.isAct = true) (hs : Seg T c names pos [r]) (s : σ) :
    (bodyMachine ops c globals hi).step (pos, s) =
      match ops.act (resolve names r.instr) s with
      | .ok s' => .inl (pos + 1, s')
      | .error e => .inr (.raised e) := by
  obtain ⟨i, hi', hd⟩ := hs.head ho
  obtain ⟨hdec, hw, hne⟩ := hd.decode_eq hR.consts hR.globals (resolve_isStep names ha)
  change bodyStep ops c globals hi (pos, s) = _
  rw [bodyStep_act ops hpos.ne hi' hne, hdec, hw]

theorem step_jump (hR : Region T c globals lo hi) {pos dst : Nat} (hlo : lo ≤ pos) (hpos : pos < hi)
    (hdst : lo ≤ dst ∧ dst ≤ hi) {off : Int} (hoff : off = dst - pos) {line : Option Nat}
    (hs : Seg T c names pos [.mine (.jump off) line]) (s : σ) :
    (bodyMachine ops c globals hi).step (pos, s) = .inl (dst, s) := by
  obtain ⟨i, hi', hd⟩ := hs.head rfl
  have hsmall := hR.small
  have hi : i = opJump (toUint32 off) := by
    simp only [Item.mine_instr, resolve] at hd
    cases hd
    rfl
  simp only [bodyMachine, bodyStep, hi', hi, hpos.ne, if_false]
  rw [toInt32_toUint32 (by omega), show ((pos : Int) + off).toNat = dst by omega]

theorem step_jumpUnless (hR : Region T c globals lo hi) {pos dst : Nat} (hlo : lo ≤ pos)
    (hpos : pos < hi) (hdst : lo ≤ dst ∧ dst ≤ hi) {off : Int} (hoff : off = dst - pos)
    {line : Option Nat} (hs : Seg T c names pos [.mine (.jumpUnless off) line]) (s : σ) :
    (bodyMachine ops c globals hi).step (pos, s) =
      if (ops.test s).1 then .inl (pos + 1, (ops.test s).2) else .inl (dst, (ops.test s).2) := by
  obtain ⟨i, hi', hd⟩ := hs.head rfl
  have hsmall := hR.small
  have hi : i = opJumpUnless (toUint32 off) := by
    simp only [Item.mine_instr, resolve] at hd
    cases hd
    rfl
  simp only [bodyMachine, bodyStep, hi', hi, hpos.ne, if_false]
  rw [toInt32_toUint32 (by omega), show ((pos : Int) + off).toNat = dst by omega]

theorem step_return {pos : Nat} (hpos : pos < hi) {line : Option Nat}
    (hs : Seg T c names pos [.mine (.plain opReturn) line]) (s : σ) :
    (bodyMachine ops c globals hi).step (pos, s) = .inr (.returned s) := by
  obtain ⟨i, hi', hd⟩ := hs.head rfl
  have hi : i = opReturn := by
    simp only [Item.mine_instr, resolve] at hd
    cases hd
    rfl
  simp [bodyMachine, bodyStep, hi', hi, hpos.ne]

/-- A sequence of elementary actions. -/
theorem run_acts (hR : Region T c globals lo hi) {code : List Item} (hc : Acts code) {pos : Nat}
    (hpos : pos + code.length ≤ hi) (hs : Seg T c names pos code) (s : σ) :
    match acts ops names code s with
    | .ok s' => (bodyMachine ops c globals hi).run code.length (pos, s) =
        .inl (pos + code.length, s')
    | .error e => ∃ m, (bodyMachine ops c globals hi).run m (pos, s) = .inr (.raised e) := by
  induction code generalizing pos s with
  | nil => simp [acts, pure, Except.pure]
  | cons r rs ih =>
      obtain ⟨hr, hrs⟩ := List.forall_mem_cons.mp hc
      obtain ⟨hs1, hs2⟩ := (seg_append (l := [r])).mp hs
      rw [List.length_cons] at hpos
      rw [List.length_singleton] at hs2
      have hstep := step_act ops hR (by omega) hr.1 hr.2 hs1 s
      simp only [acts, List.foldlM_cons]
      cases ha : ops.act (resolve names r.instr) s with
      | error e =>
          simp only [ha] at hstep
          simp only [bind, Except.bind]
          exact ⟨1, Machine.run_halt hstep⟩
      | ok s' =>
          simp only [ha] at hstep
          have := ih hrs (by omega) hs2 s'
          simp only [acts] at this
          simp only [bind, Except.bind]
          cases hf : List.foldlM (fun s r => ops.act (resolve names r.instr) s) s' rs with
          | ok s'' =>
              simp only [hf] at this ⊢
              rw [List.length_cons, Nat.add_comm rs.length 1,
                Machine.run_add (Machine.run_one hstep), this]
              congr 2
              omega
          | error e =>
              simp only [hf] at this ⊢
              obtain ⟨m, hm⟩ := this
              exact ⟨1 + m, (Machine.run_add (Machine.run_one hstep)).trans hm⟩

end

end Calx
