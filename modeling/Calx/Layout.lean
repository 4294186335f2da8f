import Calx.WellFormed
import Mathlib.Tactic.Common

/-!
# The layout of code

How the code of a statement is divided between the function it belongs to and
the functions nested in it: nested code follows its `OP_FUNCTION` item, is
already closed, and is exactly as long as the item says.
-/

namespace Calx

open LexemeKind Instr

/-- Which items belong to the function at hand. -/
def flags (code : List Item) : List Bool := code.map (·.own)

@[simp] theorem flags_nil : flags [] = [] := rfl

@[simp] theorem flags_cons (r : Item) (rs : List Item) : flags (r :: rs) = r.own :: flags rs := rfl

@[simp] theorem flags_append (l l' : List Item) : flags (l ++ l') = flags l ++ flags l' :=
  List.map_append

@[simp] theorem flags_length (l : List Item) : (flags l).length = l.length := List.length_map _

@[simp] theorem nest_length (l : List Item) : (nest l).length = l.length := List.length_map _

@[simp] theorem flags_nest (l : List Item) : flags (nest l) = List.replicate l.length false := by
  simp [flags, nest, Function.comp_def]

@[simp] theorem Item.mine_own (i : AInstr) (l : Option Nat) : (Item.mine i l).own = true := rfl

@[simp] theorem Item.mine_instr (i : AInstr) (l : Option Nat) : (Item.mine i l).instr = i := rfl

@[simp] theorem Item.mine_line (i : AInstr) (l : Option Nat) : (Item.mine i l).line = l := rfl

/-! ## Straight code -/

/-- Items of expressions and assignments: no jumps, no functions, not resolved yet. -/
def AInstr.isStraight : AInstr → Bool
  | .plain _ | .const _ | .load _ | .store _ | .modify .. | .storeNew _ => true
  | _ => false

/-- Code of the function at hand that runs from its first item through its last. -/
def Straight (code : List Item) : Prop :=
  ∀ r ∈ code, r.own = true ∧ r.instr.isStraight = true

@[simp] theorem straight_nil : Straight [] := by simp [Straight]

@[simp] theorem straight_cons {r : Item} {rs : List Item} :
    Straight (r :: rs) ↔ (r.own = true ∧ r.instr.isStraight = true) ∧ Straight rs := by
  simp [Straight]

@[simp] theorem straight_append {l l' : List Item} :
    Straight (l ++ l') ↔ Straight l ∧ Straight l' := by
  simp only [Straight, List.forall_mem_append]

theorem Straight.snoc {l : List Item} (h : Straight l) {i : AInstr} (hi : i.isStraight = true)
    {line : Option Nat} : Straight (l ++ [.mine i line]) := by
  simp [h, hi]

theorem Straight.dropLast {l : List Item} (h : Straight l) : Straight l.dropLast :=
  fun r hr => h r (List.dropLast_subset _ hr)

theorem assignInstr_straight {op : LexemeKind} {t a : AInstr} (h : assignInstr op t = some a) :
    a.isStraight = true := by
  unfold assignInstr at h
  split at h
  · split_ifs at h
    · exact Option.some.inj h ▸ rfl
    · exact Option.some.inj h ▸ rfl
    · obtain ⟨b, -, rfl⟩ := Option.map_eq_some_iff.mp h
      rfl
  · split_ifs at h
    · exact Option.some.inj h ▸ rfl
    · obtain ⟨b, -, rfl⟩ := Option.map_eq_some_iff.mp h
      rfl
  · simp at h

theorem Straight.flags {l : List Item} (h : Straight l) :
    flags l = List.replicate l.length true :=
  List.eq_replicate_iff.mpr ⟨flags_length l, by
    intro b hb
    obtain ⟨r, hr, rfl⟩ := List.mem_map.mp hb
    exact (h r hr).1⟩

/-- The instructions of the operators. -/
def Instr.isOperator : Instr → Bool
  | opLoadAt | opCall .. | opNeg | opNot | opLen | opAop _ | opCmp2way _ | opCmp3way _ | opList _
  | opDict _ => true
  | _ => false

/-- Items of expressions. -/
def AInstr.isExpr : AInstr → Bool
  | .const _ | .load _ => true
  | .plain i => i.isOperator
  | _ => false

theorem AInstr.isStraight_of_isExpr {a : AInstr} (h : a.isExpr = true) : a.isStraight = true := by
  cases a <;> simp_all [AInstr.isExpr, AInstr.isStraight]

theorem unaryInstr_isOperator (k : LexemeKind) : (unaryInstr k).isOperator = true := by
  cases k <;> rfl

theorem binaryInstr_isOperator (k : LexemeKind) : (binaryInstr k).isOperator = true := by
  cases k <;> rfl

theorem isExpr_snoc {l : List Item} (h : ∀ r ∈ l, r.own = true ∧ r.instr.isExpr = true) {i : Instr}
    (hi : i.isOperator = true) {line : Option Nat} :
    ∀ r ∈ l ++ [.mine (.plain i) line], r.own = true ∧ r.instr.isExpr = true :=
  List.forall_mem_append.mpr ⟨h, by simp [AInstr.isExpr, hi]⟩

section

variable [DeciBase]

mutual

/-- The items of an expression are constants, loads and operators. -/
theorem Expr.code_isExpr : ∀ e : Expr, ∀ r ∈ e.code, r.own = true ∧ r.instr.isExpr = true
  | .literal _ | .ident _ | .list0 .. | .dict0 .. => by
      simp [Expr.code, AInstr.isExpr, Instr.isOperator]
  | .list _ es _ => isExpr_snoc es.code_isExpr rfl
  | .dict _ kvs _ => isExpr_snoc kvs.code_isExpr rfl
  | .paren _ e _ => e.code_isExpr
  | .unary op e => isExpr_snoc e.code_isExpr (unaryInstr_isOperator op.kind)
  | .binary l op r => by
      rw [Expr.code, ← List.append_assoc]
      exact isExpr_snoc (List.forall_mem_append.mpr ⟨l.code_isExpr, r.code_isExpr⟩)
        (binaryInstr_isOperator op.kind)
  | .index e _ i _ => by
      rw [Expr.code, ← List.append_assoc]
      exact isExpr_snoc (List.forall_mem_append.mpr ⟨e.code_isExpr, i.code_isExpr⟩) rfl
  | .field e _ _ =>
      List.forall_mem_append.mpr ⟨e.code_isExpr, by simp [AInstr.isExpr, Instr.isOperator]⟩
  | .call0 f _ _ => isExpr_snoc f.code_isExpr rfl
  | .call f _ args _ _ => by
      rw [Expr.code, ← List.append_assoc]
      exact isExpr_snoc (List.forall_mem_append.mpr ⟨f.code_isExpr, args.code_isExpr⟩) rfl

/-- `Expr.code_isExpr` for lists of expressions. -/
theorem Elems.code_isExpr : ∀ es : Elems, ∀ r ∈ es.code, r.own = true ∧ r.instr.isExpr = true
  | .last e => e.code_isExpr
  | .more e _ es => List.forall_mem_append.mpr ⟨e.code_isExpr, es.code_isExpr⟩

/-- `Expr.code_isExpr` for lists of dict entries. -/
theorem Entries.code_isExpr : ∀ kvs : Entries, ∀ r ∈ kvs.code, r.own = true ∧ r.instr.isExpr = true
  | .last k _ v => List.forall_mem_append.mpr ⟨k.code_isExpr, v.code_isExpr⟩
  | .more k _ v _ kvs => List.forall_mem_append.mpr ⟨k.code_isExpr,
      List.forall_mem_append.mpr ⟨v.code_isExpr, kvs.code_isExpr⟩⟩

end

theorem Expr.code_straight (e : Expr) : Straight e.code := fun r hr =>
  ⟨(e.code_isExpr r hr).1, AInstr.isStraight_of_isExpr (e.code_isExpr r hr).2⟩

theorem Simple.code_straight (next : Lexeme) (s : Simple) : Straight (s.code next) := by
  cases s with
  | expr e => simp [Simple.code, AInstr.isStraight, e.code_straight]
  | assign lhs op rhs =>
      have h : ((assignInstr op.kind lhs.lastInstr).getD (.plain opPrint)).isStraight = true := by
        cases ha : assignInstr op.kind lhs.lastInstr with
        | none => rfl
        | some a => exact assignInstr_straight ha
      simp [Simple.code, lhs.code_straight.dropLast, rhs.code_straight, h]

end

/-! ## Open jumps -/

/-- The positions of the items that are open jumps `a`; the first item is at `i`. -/
def opens (a : AInstr) : Nat → List Item → List Int
  | _, [] => []
  | i, r :: rs => if r.instr = a then (i : Int) :: opens a (i + 1) rs else opens a (i + 1) rs

theorem opens_append (a : AInstr) (i : Nat) (l l' : List Item) :
    opens a i (l ++ l') = opens a i l ++ opens a (i + l.length) l' := by
  induction l generalizing i with
  | nil => simp [opens]
  | cons r rs ih =>
      simp only [List.cons_append, opens, ih, List.length_cons]
      rw [show i + 1 + rs.length = i + (rs.length + 1) by omega]
      split <;> simp

theorem opens_eq_nil {a : AInstr} {i : Nat} {l : List Item} :
    opens a i l = [] ↔ ∀ r ∈ l, r.instr ≠ a := by
  induction l generalizing i with
  | nil => simp [opens]
  | cons r rs ih =>
      simp only [opens, List.forall_mem_cons]
      split <;> simp_all

/-- The items of an open jump: what `aimFrom` aims. -/
def AInstr.isOpen : AInstr → Bool
  | .breakTo | .continueTo | .ifTo => true
  | _ => false

theorem AInstr.isOpen_of_isStraight {a : AInstr} (h : a.isStraight = true) : a.isOpen = false := by
  cases a <;> first | rfl | cases h

theorem Straight.ne_open {l : List Item} (h : Straight l) {a : AInstr} (ha : a.isOpen = true) :
    ∀ r ∈ l, r.instr ≠ a := by
  rintro r hr rfl
  rw [AInstr.isOpen_of_isStraight (h r hr).2] at ha
  cases ha

@[simp] theorem aimFrom_length (a : AInstr) (dst : Int) (i : Nat) (l : List Item) :
    (aimFrom a dst i l).length = l.length := by
  induction l generalizing i with
  | nil => rfl
  | cons r rs ih => simp [aimFrom, ih]

@[simp] theorem aimFrom_flags (a : AInstr) (dst : Int) (i : Nat) (l : List Item) :
    flags (aimFrom a dst i l) = flags l := by
  induction l generalizing i with
  | nil => rfl
  | cons r rs ih =>
      simp only [aimFrom, flags_cons, ih]
      split <;> rfl

theorem aimFrom_append (a : AInstr) (dst : Int) (i : Nat) (l l' : List Item) :
    aimFrom a dst i (l ++ l') = aimFrom a dst i l ++ aimFrom a dst (i + l.length) l' := by
  induction l generalizing i with
  | nil => rfl
  | cons r rs ih =>
      simp only [List.cons_append, aimFrom, ih, List.length_cons]
      rw [show i + 1 + rs.length = i + (rs.length + 1) by omega]

theorem aimFrom_eq_self {a : AInstr} {l : List Item} (h : ∀ r ∈ l, r.instr ≠ a) (dst : Int)
    (i : Nat) : aimFrom a dst i l = l := by
  induction l generalizing i with
  | nil => rfl
  | cons r rs ih =>
      simp only [List.forall_mem_cons] at h
      simp [aimFrom, h.1, ih h.2]

theorem aimFrom_cons_ne {a : AInstr} {dst : Int} {i : Nat} {r : Item} {rs : List Item}
    (h : r.instr ≠ a) : aimFrom a dst i (r :: rs) = r :: aimFrom a dst (i + 1) rs := by
  simp [aimFrom, h]

theorem aimFrom_shift (a : AInstr) (dst : Int) (i k : Nat) (l : List Item) :
    aimFrom a (dst + k) (i + k) l = aimFrom a dst i l := by
  induction l generalizing i with
  | nil => rfl
  | cons r rs ih =>
      simp only [aimFrom]
      rw [show i + k + 1 = i + 1 + k by omega, ih, show dst + (k : Int) - ((i + k : Nat) : Int) =
        dst - i by omega]

theorem mem_aimFrom {a : AInstr} {dst : Int} {i : Nat} {l : List Item} {r : Item}
    (h : r ∈ aimFrom a dst i l) : r.instr ≠ a ∧ r ∈ l ∨ ∃ off, r.instr = .jump off := by
  induction l generalizing i with
  | nil => simp [aimFrom] at h
  | cons x xs ih =>
      simp only [aimFrom, List.mem_cons] at h
      obtain rfl | h := h
      · split
        · exact .inr ⟨_, rfl⟩
        · rename_i hx
          exact .inl ⟨hx, by simp⟩
      · exact (ih h).imp (fun h => ⟨h.1, List.mem_cons_of_mem _ h.2⟩) id

theorem opens_aimFrom {a b : AInstr} (hb : b.isOpen = true) (hab : b ≠ a) (dst : Int) (i j : Nat)
    (l : List Item) : opens b j (aimFrom a dst i l) = opens b j l := by
  induction l generalizing i j with
  | nil => rfl
  | cons r rs ih =>
      simp only [aimFrom, opens, ih]
      by_cases hr : r.instr = a
      · have h1 : ¬ (AInstr.jump (dst - (i : Int)) = b) := by
          rintro rfl
          simp [AInstr.isOpen] at hb
        have h2 : ¬ r.instr = b := fun h => hab (h ▸ hr)
        simp [hr, h1, hab.symm]
      · simp [hr]

@[simp] theorem patch_length (brk cnt : Int) (l : List Item) : (patch brk cnt l).length = l.length := by
  simp [patch]

@[simp] theorem patch_flags (brk cnt : Int) (l : List Item) : flags (patch brk cnt l) = flags l := by
  simp [patch]

theorem mem_patch {brk cnt : Int} {l : List Item} {r : Item} (h : r ∈ patch brk cnt l) :
    r.instr ≠ .breakTo ∧ r.instr ≠ .continueTo ∧ (r ∈ l ∨ ∃ off, r.instr = .jump off) := by
  obtain ⟨h1, h⟩ | ⟨off, h⟩ := mem_aimFrom h
  · obtain ⟨h2, h⟩ | ⟨off, h⟩ := mem_aimFrom h
    · exact ⟨h2, h1, .inl h⟩
    · exact ⟨by simp [h], h1, .inr ⟨off, h⟩⟩
  · exact ⟨by simp [h], by simp [h], .inr ⟨off, h⟩⟩

/-- Code without open `break` and `continue` items. -/
def NoLoop (code : List Item) : Prop :=
  ∀ r ∈ code, r.instr ≠ .breakTo ∧ r.instr ≠ .continueTo

theorem Straight.noLoop {l : List Item} (h : Straight l) : NoLoop l := fun r hr =>
  ⟨h.ne_open rfl r hr, h.ne_open rfl r hr⟩

theorem NoLoop.append {l l' : List Item} (h : NoLoop l) (h' : NoLoop l') : NoLoop (l ++ l') :=
  List.forall_mem_append.mpr ⟨h, h'⟩

theorem NoLoop.mine {i : AInstr} (h : i.isOpen = false) (line : Option Nat) :
    NoLoop [.mine i line] := by
  intro r hr
  rw [List.mem_singleton.mp hr]
  constructor <;> rintro rfl <;> simp [AInstr.isOpen] at h

/-- Only the open part of a piece of code is patched, with targets relative to its own start. -/
theorem patch_append {A C : List Item} (hA : NoLoop A) (hC : NoLoop C) (B : List Item)
    (brk cnt brk' cnt' : Int) (hb : brk = brk' + A.length) (hc : cnt = cnt' + A.length) :
    patch brk cnt (A ++ (B ++ C)) = A ++ (patch brk' cnt' B ++ C) := by
  have h1 := aimFrom_shift .breakTo brk' 0 A.length B
  have h2 := aimFrom_shift .continueTo cnt' 0 A.length (aimFrom .breakTo brk' 0 B)
  simp only [patch, aimFrom_append, aimFrom_length, hb, hc, aimFrom_eq_self fun r hr => (hA r hr).1,
    aimFrom_eq_self fun r hr => (hC r hr).1, aimFrom_eq_self fun r hr => (hA r hr).2,
    aimFrom_eq_self fun r hr => (hC r hr).2, h1, h2]

/-! ## Blocks -/

/-- Items that no later step of the compilation changes. -/
def AInstr.isClosed : AInstr → Bool
  | .load _ | .store _ | .modify .. | .storeNew _ | .breakTo | .continueTo | .ifTo => false
  | _ => true

theorem AInstr.isOpen_of_isClosed {a : AInstr} (h : a.isClosed = true) : a.isOpen = false := by
  cases a <;> first | rfl | cases h

/-- Code in which every `OP_FUNCTION` item is followed by the closed code of its function, and
`P` holds of the two. -/
inductive Blocked (P : FunInfo → List Item → Prop) : List Item → Prop
  | nil : Blocked P []
  | own {r : Item} {rs : List Item} (ho : r.own = true) (hf : ∀ f, r.instr ≠ .function f)
      (h : Blocked P rs) : Blocked P (r :: rs)
  | function {f : FunInfo} {line : Option Nat} {code rs : List Item} (hp : P f code)
      (hc : Blocked P code) (hlen : f.offset = code.length + 1)
      (hcl : ∀ r ∈ code, r.instr.isClosed = true) (h : Blocked P rs) :
      Blocked P (.mine (.function f) line :: (nest code ++ rs))

namespace Blocked

variable {P Q : FunInfo → List Item → Prop} {l l' : List Item}

theorem append (h : Blocked P l) (h' : Blocked P l') : Blocked P (l ++ l') := by
  induction h with
  | nil => exact h'
  | own ho hf _ ih => exact .own ho hf ih
  | function hp hc hlen hcl _ _ ih =>
      simp only [List.cons_append, List.append_assoc]
      exact .function hp hc hlen hcl ih

theorem straight (h : Straight l) : Blocked P l := by
  induction l with
  | nil => exact .nil
  | cons r rs ih =>
      simp only [straight_cons] at h
      obtain ⟨⟨ho, hs⟩, hrs⟩ := h
      refine .own ho (fun f hf => ?_) (ih hrs)
      simp [hf, AInstr.isStraight] at hs

theorem mine {i : AInstr} {line : Option Nat} (hf : ∀ f, i ≠ .function f) (h : Blocked P l) :
    Blocked P (.mine i line :: l) := .own rfl hf h

theorem mono (hPQ : ∀ f code, P f code → Q f code) (h : Blocked P l) : Blocked Q l := by
  induction h with
  | nil => exact .nil
  | own ho hf _ ih => exact .own ho hf ih
  | function hp _ hlen hcl _ ihc ih => exact .function (hPQ _ _ hp) ihc hlen hcl ih

/-- Whatever holds of a function's own items in all functions holds of all nested items. -/
theorem nested {R : AInstr → Prop} (hR : ∀ f code, P f code → ∀ r ∈ code, r.own = true → R r.instr)
    (h : Blocked P l) : ∀ r ∈ l, r.own = false → R r.instr := by
  induction h with
  | nil => simp
  | own ho hf _ ih =>
      simp only [List.forall_mem_cons]
      exact ⟨fun h => by simp [ho] at h, ih⟩
  | @function f line code rs hp hc hlen hcl _ ihc ih =>
      simp only [List.forall_mem_cons, List.forall_mem_append]
      refine ⟨fun h => by simp at h, fun r hr _ => ?_, ih⟩
      obtain ⟨r', hr', rfl⟩ := List.mem_map.mp hr
      cases ho : r'.own with
      | true => exact hR f code hp r' hr' ho
      | false => exact ihc r' hr' ho

theorem isClosed (h : Blocked P l) : ∀ r ∈ l, r.own = false → r.instr.isClosed := by
  induction h with
  | nil => simp
  | own ho hf _ ih =>
      simp only [List.forall_mem_cons]
      exact ⟨fun h => by simp [ho] at h, ih⟩
  | function hp hc hlen hcl _ _ ih =>
      simp only [List.forall_mem_cons, List.forall_mem_append]
      refine ⟨fun h => by simp at h, fun r hr _ => ?_, ih⟩
      obtain ⟨r', hr', rfl⟩ := List.mem_map.mp hr
      exact hcl r' hr'

/-- Code starts with an item of the function at hand. -/
theorem head_own (h : Blocked P l) : ∀ r ∈ l.head?, r.own = true := by
  cases h with
  | nil => simp
  | own ho _ _ => simpa using ho
  | function => simp

theorem aimFrom (h : Blocked P l) {a : AInstr} (ha : a.isOpen = true) (dst : Int) (i : Nat) :
    Blocked P (aimFrom a dst i l) := by
  induction h generalizing i with
  | nil => exact .nil
  | own ho hf _ ih =>
      refine .own ?_ ?_ (ih _)
      · split <;> simpa using ho
      · split
        · simp
        · exact hf
  | @function f line code rs hp hc hlen hcl _ _ ih =>
      have hn : ∀ r ∈ nest code, r.instr ≠ a := by
        rintro r hr rfl
        obtain ⟨r', hr', rfl⟩ := List.mem_map.mp hr
        have hclosed := AInstr.isOpen_of_isClosed (hcl r' hr')
        change r'.instr.isOpen = true at ha
        rw [hclosed] at ha
        cases ha
      have hf : AInstr.function f ≠ a := by
        rintro rfl
        simp [AInstr.isOpen] at ha
      simp only [Calx.aimFrom, Item.mine_instr, hf, if_false, aimFrom_append, aimFrom_eq_self hn]
      exact .function hp hc hlen hcl (ih _)

theorem patch (h : Blocked P l) (brk cnt : Int) : Blocked P (patch brk cnt l) :=
  (h.aimFrom rfl _ _).aimFrom rfl _ _

end Blocked

/-- The layout of the code of a statement; `inLoop` allows open `break` and `continue` items. -/
structure Layout (inLoop : Bool) (code : List Item) : Prop where
  blocked : Blocked (fun _ _ => True) code
  noIf : ∀ r ∈ code, r.instr ≠ .ifTo
  noLoop : inLoop = false → ∀ r ∈ code, r.instr ≠ .breakTo ∧ r.instr ≠ .continueTo

namespace Layout

variable {b : Bool} {l l' : List Item}

/-- Outside a loop no jump is left open. -/
theorem isOpen_eq_false (h : Layout false l) : ∀ r ∈ l, r.instr.isOpen = false := by
  intro r hr
  have hif := h.noIf r hr
  have hloop := h.noLoop rfl r hr
  generalize r.instr = a at hif hloop
  cases a with
  | ifTo => exact absurd rfl hif
  | breakTo => exact absurd rfl hloop.1
  | continueTo => exact absurd rfl hloop.2
  | _ => rfl

theorem append (h : Layout b l) (h' : Layout b l') : Layout b (l ++ l') where
  blocked := h.blocked.append h'.blocked
  noIf := List.forall_mem_append.mpr ⟨h.noIf, h'.noIf⟩
  noLoop hb := List.forall_mem_append.mpr ⟨h.noLoop hb, h'.noLoop hb⟩

theorem straight (h : Straight l) : Layout b l where
  blocked := .straight h
  noIf := h.ne_open rfl
  noLoop _ r hr := ⟨h.ne_open rfl r hr, h.ne_open rfl r hr⟩

theorem nil : Layout b [] := straight straight_nil

theorem cons {i : AInstr} {line : Option Nat} (hi : i.isOpen = false)
    (hf : ∀ f, i ≠ .function f) (h : Layout b l) : Layout b (.mine i line :: l) where
  blocked := .own rfl hf h.blocked
  noIf := List.forall_mem_cons.mpr ⟨by rintro rfl; simp [AInstr.isOpen] at hi, h.noIf⟩
  noLoop hb := List.forall_mem_cons.mpr ⟨by constructor <;> rintro rfl <;> simp [AInstr.isOpen] at hi,
    h.noLoop hb⟩

theorem patch {c : Bool} (h : Layout c l) (brk cnt : Int) : Layout b (patch brk cnt l) where
  blocked := h.blocked.patch brk cnt
  noIf r hr := by
    obtain ⟨-, -, h' | ⟨off, h'⟩⟩ := mem_patch hr
    · exact h.noIf r h'
    · simp [h']
  noLoop _ r hr := ⟨(mem_patch hr).1, (mem_patch hr).2.1⟩

end Layout

end Calx
