import Calx.Compiles

/-!
# Closing a scope

`close_scope` walks over the positions its ranges cover, counts the stack and
resolves the symbolic instructions it meets. This module says what the walk
does to each instruction, and from that what it does to the code of a tree.
-/

namespace Calx

open LexemeKind Instr

/-! ## The walk -/

/-- What `resolve_symbolic` makes of an instruction at some moment of a walk that ends with the
globals table `globals`. -/
def Resolved (idents names globals : List Bytes) (i i' : Instr) : Prop :=
  ∃ g, i' = (resolveSymbolic idents names g i).1 ∧
    (resolveSymbolic idents names g i).2 <+: globals

/-- The stack count of one more instruction. -/
def countStack (cm : Nat × Nat) (e : Int) : Nat × Nat := (addStack cm.1 e, max cm.2 (addStack cm.1 e))

/-- The stack counts of a walk over the given positions. -/
def walkStack (prog : List TaggedInstr) (l : List Nat) (cm : Nat × Nat) : Nat × Nat :=
  l.foldl (fun cm j => match prog[j]? with
    | none => cm
    | some ti => countStack cm (stackEffect ti.instr)) cm

theorem resolveSymbolic_isPrefix (idents names g : List Bytes) (i : Instr) :
    g <+: (resolveSymbolic idents names g i).2 := by
  cases i with
  | opLoadSymbolic c | opStoreSymbolic c | opModifySymbolic a c =>
      simp only [resolveSymbolic]
      split
      · exact List.prefix_rfl
      · exact putName_isPrefix _ _
  | _ => exact List.prefix_rfl

/-- What a walk does to the code, to the globals table and to the stack counts. -/
structure WalkSpec (idents names : List Bytes) (w : Walk) (l : List Nat) (w' : Walk) : Prop where
  length : w'.code.length = w.code.length
  globals : w.globals <+: w'.globals
  code : ∀ j ti, w.code[j]? = some ti → ∃ i', w'.code[j]? = some { ti with instr := i' } ∧
    (j ∉ l → i' = ti.instr) ∧ (j ∈ l → Resolved idents names w'.globals ti.instr i')
  stack : (w'.curstack, w'.maxstack) = walkStack w.code l (w.curstack, w.maxstack)

/-- One step of a walk. -/
theorem walkStep_spec (idents names : List Bytes) (w : Walk) (j : Nat) :
    WalkSpec idents names w [j] (walkStep idents names w j) := by
  unfold walkStep
  cases hj : w.code[j]? with
  | none =>
      refine ⟨rfl, List.prefix_rfl, fun k ti hk => ⟨ti.instr, hk, fun _ => rfl, fun hmem => ?_⟩,
        by simp [walkStack, hj]⟩
      rw [List.mem_singleton.mp hmem, hj] at hk
      cases hk
  | some ti =>
      refine ⟨by simp, resolveSymbolic_isPrefix _ _ _ _, fun k tk hk => ?_,
        by simp [walkStack, hj, countStack]⟩
      by_cases hkj : j = k
      · subst hkj
        obtain rfl : ti = tk := Option.some.inj (hj.symm.trans hk)
        refine ⟨_, ?_, fun h => absurd (List.mem_singleton_self _) h, fun _ =>
          ⟨w.globals, rfl, List.prefix_rfl⟩⟩
        rw [List.getElem?_set_self (List.getElem?_eq_some_iff.mp hj).1]
      · refine ⟨tk.instr, ?_, fun _ => rfl, fun hmem => absurd (List.mem_singleton.mp hmem).symm hkj⟩
        rw [List.getElem?_set_ne hkj]
        exact hk

/-- A walk that meets no position twice. -/
theorem walk_spec (idents names : List Bytes) {l : List Nat} (hl : l.Nodup) (w : Walk) :
    WalkSpec idents names w l (l.foldl (walkStep idents names) w) := by
  induction l generalizing w with
  | nil =>
      exact ⟨rfl, List.prefix_rfl, fun j ti hj => ⟨ti.instr, hj, fun _ => rfl, by simp⟩, rfl⟩
  | cons j l ih =>
      obtain ⟨hj, hl⟩ := List.nodup_cons.mp hl
      have h₁ := walkStep_spec idents names w j
      have h₂ := ih hl (walkStep idents names w j)
      have hsame : ∀ k ∈ l, (walkStep idents names w j).code[k]? = w.code[k]? := by
        intro k hk
        have hne : k ∉ [j] := fun h => hj (List.mem_singleton.mp h ▸ hk)
        cases hw : w.code[k]? with
        | none =>
            rw [List.getElem?_eq_none_iff] at hw ⊢
            rwa [h₁.length]
        | some ti =>
            obtain ⟨i', hi', h, -⟩ := h₁.code k ti hw
            rw [hi', h hne]
      refine ⟨h₂.length.trans h₁.length, h₁.globals.trans h₂.globals, fun k ti hk => ?_, ?_⟩
      · obtain ⟨i₁, hi₁, hn₁, hm₁⟩ := h₁.code k ti hk
        obtain ⟨i₂, hi₂, hn₂, hm₂⟩ := h₂.code k _ hi₁
        refine ⟨i₂, hi₂, fun h => ?_, fun h => ?_⟩
        · rw [List.mem_cons, not_or] at h
          rw [hn₂ h.2]
          exact hn₁ (by simpa using h.1)
        · obtain rfl | h := List.mem_cons.mp h
          · obtain ⟨g, hg, hp⟩ := hm₁ (List.mem_singleton_self _)
            exact ⟨g, (hn₂ hj).trans hg, hp.trans h₂.globals⟩
          · have hne : k ∉ [j] := fun hk => hj (List.mem_singleton.mp hk ▸ h)
            have := hm₂ h
            rwa [hn₁ hne] at this
      · rw [List.foldl_cons, h₂.stack, h₁.stack, walkStack, walkStack, walkStack, List.foldl_cons,
          List.foldl_nil]
        refine List.foldl_ext _ _ _ fun cm k hk => ?_
        rw [hsame k hk]

/-! ## Resolution of items -/

theorem DenI.effect {T : Tables} {i : Instr} {a : AInstr} (h : DenI T i a) :
    stackEffect i = a.effect := by
  cases h <;> rfl

/-- A resolved instruction stands for the resolved item. -/
theorem DenI.resolve {T T' : Tables} (hT : T.Grows T') (hnd : T.locals.Nodup) {i i' : Instr}
    {a : AInstr} (h : DenI T i a) (ha : a.isOpen = false)
    (hr : Resolved T.idents T.locals T'.globals i i') : DenI T' i' (Calx.resolve T.locals a) := by
  obtain ⟨g, rfl, hg⟩ := hr
  cases h with
  | plain hi => cases i <;> first | (simp [Instr.isPlain] at hi; done) | exact .plain rfl
  | const hc => exact .const (getElem?_of_isPrefix hT.consts hc)
  | @load c x hx =>
      have hd : T.idents.getD c [] = x := by simp [List.getD, hx]
      by_cases hm : x ∈ T.locals
      · simp only [resolveSymbolic, localIdx?, hd, Calx.resolve, hm, if_true]
        exact .plain rfl
      · simp only [resolveSymbolic, localIdx?, hd, Calx.resolve, hm, if_false] at hg ⊢
        exact .loadGlobal (getElem?_of_isPrefix hg (putName_getElem? g x))
  | @store c x hx =>
      have hd : T.idents.getD c [] = x := by simp [List.getD, hx]
      by_cases hm : x ∈ T.locals
      · simp only [resolveSymbolic, localIdx?, hd, Calx.resolve, hm, if_true]
        exact .plain rfl
      · simp only [resolveSymbolic, localIdx?, hd, Calx.resolve, hm, if_false] at hg ⊢
        exact .storeGlobal (getElem?_of_isPrefix hg (putName_getElem? g x))
  | @modify b c x hx =>
      have hd : T.idents.getD c [] = x := by simp [List.getD, hx]
      by_cases hm : x ∈ T.locals
      · simp only [resolveSymbolic, localIdx?, hd, Calx.resolve, hm, if_true]
        exact .plain rfl
      · simp only [resolveSymbolic, localIdx?, hd, Calx.resolve, hm, if_false] at hg ⊢
        exact .modifyGlobal (getElem?_of_isPrefix hg (putName_getElem? g x))
  | @storeNew c x hx =>
      obtain ⟨hlt, rfl⟩ := List.getElem?_eq_some_iff.mp hx
      simp only [Calx.resolve, hnd.idxOf_getElem]
      exact .plain rfl
  | loadGlobal hc => exact .loadGlobal (getElem?_of_isPrefix hT.globals hc)
  | storeGlobal hc => exact .storeGlobal (getElem?_of_isPrefix hT.globals hc)
  | modifyGlobal hc => exact .modifyGlobal (getElem?_of_isPrefix hT.globals hc)
  | loadSome c =>
      simp only [resolveSymbolic, Calx.resolve]
      split
      · exact .loadSomeLocal _
      · exact .loadSomeGlobal _
  | storeSome c =>
      simp only [resolveSymbolic, Calx.resolve]
      split
      · exact .storeSomeLocal _
      · exact .storeSomeGlobal _
  | modifySome b c =>
      simp only [resolveSymbolic, Calx.resolve]
      split
      · exact .modifySomeLocal _ _
      · exact .modifySomeGlobal _ _
  | function hc ho hag => exact .function (hT.shapes _ _ hc ho) ho hag
  | breakTo | continueTo | ifTo => simp [AInstr.isOpen] at ha
  | _ => constructor

/-- An instruction, resolved or not, belongs to the class of its item. -/
theorem DenI.blur {T T' : Tables} (hT : T.Grows T') (hnd : T.locals.Nodup) {i i' : Instr}
    {a : AInstr} (h : DenI T i a) (ha : a.isOpen = false)
    (hr : i' = i ∨ Resolved T.idents T.locals T'.globals i i') :
    DenI T' i' (Calx.blur T.locals a) := by
  obtain rfl | hr := hr
  · cases h with
    | plain hi => exact .plain hi
    | const hc => exact .const (getElem?_of_isPrefix hT.consts hc)
    | storeNew hx =>
        obtain ⟨hlt, rfl⟩ := List.getElem?_eq_some_iff.mp hx
        simp only [Calx.blur, hnd.idxOf_getElem]
        exact .plain rfl
    | loadGlobal hc => exact .loadGlobal (getElem?_of_isPrefix hT.globals hc)
    | storeGlobal hc => exact .storeGlobal (getElem?_of_isPrefix hT.globals hc)
    | modifyGlobal hc => exact .modifyGlobal (getElem?_of_isPrefix hT.globals hc)
    | function hc ho hag => exact .function (hT.shapes _ _ hc ho) ho hag
    | breakTo | continueTo | ifTo => simp [AInstr.isOpen] at ha
    | _ => constructor
  · have hres := h.resolve hT hnd ha hr
    cases h with
    | load hx | store hx | modify hx =>
        obtain ⟨g, rfl, -⟩ := hr
        simp only [resolveSymbolic, Calx.blur]
        split <;> constructor
    | _ => exact hres

/-! ## Closing a piece of code -/

theorem forall₂_getElem? {α β : Type} {R : α → β → Prop} {l : List α} {l' : List β}
    (h : List.Forall₂ R l l') {i : Nat} {b : β} (hb : l'[i]? = some b) :
    ∃ a, l[i]? = some a ∧ R a b := by
  obtain ⟨hi, rfl⟩ := List.getElem?_eq_some_iff.mp hb
  have hi' : i < l.length := h.length_eq ▸ hi
  exact ⟨l[i], List.getElem?_eq_getElem hi', h.get hi' hi⟩

theorem forall₂_of_getElem? {α β : Type} {R : α → β → Prop} {l : List α} {l' : List β}
    (hlen : l.length = l'.length)
    (h : ∀ (i : Nat) a b, l[i]? = some a → l'[i]? = some b → R a b) : List.Forall₂ R l l' :=
  List.forall₂_iff_get.mpr ⟨hlen, fun i h₁ h₂ =>
    h i _ _ (List.getElem?_eq_getElem h₁) (List.getElem?_eq_getElem h₂)⟩

/-- The walk of `close_scope` over the positions of a mask closes the code of a function. -/
theorem walk_dens {T T' : Tables} (hT : T.Grows T') (hnd : T.locals.Nodup)
    {pre new : List TaggedInstr} {items : List Item} (hd : Dens T new items)
    (hop : ∀ r ∈ items, r.instr.isOpen = false)
    (hcl : ∀ r ∈ items, r.own = false → r.instr.isClosed = true)
    {posted : Bool} {mask : List Bool} (hmask : posted = false → mask = flags items) {w : Walk}
    (hw : w.code = pre ++ new)
    (hg : T'.globals =
      ((maskPos pre.length mask).foldl (walkStep T.idents T.locals) w).globals) :
    ∃ new', ((maskPos pre.length mask).foldl (walkStep T.idents T.locals) w).code = pre ++ new' ∧
      Dens T' new' (closeItems posted T.locals items) := by
  have hs := walk_spec T.idents T.locals (maskPos_nodup pre.length mask) w
  set w' := (maskPos pre.length mask).foldl (walkStep T.idents T.locals) w
  have hpre : w'.code.take pre.length = pre := by
    refine List.ext_getElem? fun j => ?_
    by_cases hj : j < pre.length
    · rw [List.getElem?_take_of_lt hj]
      have hjw : w.code[j]? = some pre[j] := by
        rw [hw, List.getElem?_append_left hj, List.getElem?_eq_getElem hj]
      obtain ⟨i', hi', hn, -⟩ := hs.code j _ hjw
      have hmem : j ∉ maskPos pre.length mask := fun h => by
        obtain ⟨k, -, rfl⟩ := mem_maskPos.mp h
        omega
      rw [hi', hn hmem, List.getElem?_eq_getElem hj]
    · have hlen : (w'.code.take pre.length).length ≤ pre.length := List.length_take_le _ _
      rw [List.getElem?_eq_none (by omega), List.getElem?_eq_none (by omega)]
  refine ⟨w'.code.drop pre.length, ?_, ?_⟩
  · conv_lhs => rw [← List.take_append_drop pre.length w'.code, hpre]
  refine forall₂_of_getElem? ?_ fun i a b ha hb => ?_
  · rw [List.length_drop, hs.length, hw, closeItems_length, ← hd.length_eq, List.length_append]
    omega
  · rw [List.getElem?_drop] at ha
    rw [closeItems_eq, List.getElem?_map] at hb
    obtain ⟨r, hr, rfl⟩ := Option.map_eq_some_iff.mp hb
    obtain ⟨ti, hti, hden⟩ := forall₂_getElem? hd hr
    have hti' : w.code[pre.length + i]? = some ti := by
      rw [hw, List.getElem?_append_right (by omega), Nat.add_sub_cancel_left]
      exact hti
    obtain ⟨i', hi', hn, hm⟩ := hs.code _ _ hti'
    obtain rfl : a = { ti with instr := i' } := Option.some.inj (ha.symm.trans hi')
    have hmem : pre.length + i ∈ maskPos pre.length mask ↔ mask[i]? = some true := by
      rw [mem_maskPos]
      exact ⟨fun ⟨k, hk, h⟩ => by rwa [show i = k by omega], fun h => ⟨i, h, rfl⟩⟩
    have hrm := List.mem_of_getElem? hr
    refine ⟨by simpa using hden.line, ?_⟩
    rw [closeItem_instr _ _ (hcl r hrm)]
    rw [← hg] at hm
    cases posted with
    | true =>
        refine hden.instr.blur hT hnd (hop r hrm) ?_
        by_cases h : pre.length + i ∈ maskPos pre.length mask
        · exact .inr (hm h)
        · exact .inl (hn h)
    | false =>
        rw [hmask rfl, flags, List.getElem?_map, hr] at hmem
        cases ho : r.own with
        | true =>
            refine hden.instr.resolve hT hnd (hop r hrm) (hm ?_)
            rw [hmask rfl]
            exact hmem.mpr (by simp [ho])
        | false =>
            have hnm : pre.length + i ∉ maskPos pre.length mask := by
              rw [hmask rfl]
              exact fun h => by simpa [ho] using hmem.mp h
            rw [hn hnm, closeInstr_eq_self _ _ (hcl r hrm ho)]
            have := hden.instr.blur hT hnd (hop r hrm) (.inl rfl)
            rwa [blur_eq_self _ (hcl r hrm ho)] at this

/-- The items at which a mask is set. -/
def picked : List Bool → List Item → List Item
  | b :: bs, r :: rs => if b then r :: picked bs rs else picked bs rs
  | _, _ => []

theorem picked_flags (items : List Item) : picked (flags items) items = items.filter (·.own) := by
  induction items with
  | nil => rfl
  | cons r rs ih =>
      rw [flags_cons, picked, List.filter_cons, ih]

/-- The stack counts of a walk over the instructions at which a mask is set. -/
theorem walkStack_picked {T : Tables} {new : List TaggedInstr} {items : List Item}
    (hd : Dens T new items) {mask : List Bool} (hmask : mask.length = items.length)
    (pre : List TaggedInstr) (cm : Nat × Nat) :
    walkStack (pre ++ new) (maskPos pre.length mask) cm = stackWalk cm (picked mask items) := by
  induction hd generalizing pre cm mask with
  | nil =>
      obtain rfl := List.length_eq_zero_iff.mp hmask
      rfl
  | @cons n r new items hr _ ih =>
      obtain ⟨b, bs, rfl⟩ : ∃ b bs, mask = b :: bs :=
        List.exists_cons_of_length_eq_add_one hmask
      have ih' := ih (Nat.succ.inj hmask) (pre ++ [n])
      simp only [List.append_assoc, List.singleton_append, List.length_append,
        List.length_singleton] at ih'
      simp only [maskPos, picked]
      cases b with
      | true =>
          have hn : (pre ++ n :: new)[pre.length]? = some n := by simp
          simp only [if_true, walkStack, List.foldl_cons, hn, stackWalk] at ih' ⊢
          rw [ih', hr.instr.effect]
          rfl
      | false => simpa using ih' cm

/-- The stack counts of a walk over the instructions of the function at hand. -/
theorem walkStack_dens {T : Tables} {new : List TaggedInstr} {items : List Item}
    (hd : Dens T new items) (pre : List TaggedInstr) (cm : Nat × Nat) :
    walkStack (pre ++ new) (maskPos pre.length (flags items)) cm =
      stackWalk cm (items.filter (·.own)) := by
  rw [walkStack_picked hd (flags_length items), picked_flags]

end Calx
