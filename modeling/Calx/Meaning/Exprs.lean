import Calx.Meaning.Calls
import Calx.Regroup

/-!
# Compiled expressions

The code of an expression gives the value of the expression, wherever it stands, and the code of
an assignment makes the assignment.

## Implementation notes

A piece of straight code performs a computation when it turns some operands into others, with
whatever operands below. Such pieces are put together as the computations are.
-/

namespace Calx

open LexemeKind Instr Libdeci

/-- A function under way with what it has been compiled from. -/
structure Body [Libdeci] (ι : Type) where
  worlds : Worlds ι
  activation : Activation
  parser : Parser
  program : Stmts
  names : List Bytes
  call : Func → List Value → Nd Store Fault Value
  /-- The bound of the steps for which calls go as they should. -/
  steps : Nat
  /-- The bounds of the function's code. -/
  lo : Nat
  hi : Nat
  compiled : activation.chunk.Compiled parser program
  made : activation.Made parser.tables names
  tracks : worlds.Tracks call steps
  small : hi < lo + 2147483648

namespace Body

variable [Libdeci] {ι α β : Type} (B : Body ι)

/-- What the meaning of the function's body depends on. -/
abbrev context : Context ι := B.activation.context B.worlds B.names B.call

/-- The code stands at `pos`. -/
abbrev Seg (pos : Nat) (code : List Item) : Prop :=
  Calx.Seg B.parser.tables B.activation.chunk B.names pos code

/-- Wherever the code stands, it does what the computation says and turns the operands `before`
into `after`. -/
def Performs (before : List Value) (code : List Item) (c : Run α) (after : α → List Value) : Prop :=
  ∀ n ≤ B.steps, ∀ (m : Machine) (fr : Frame) (ops : List Value) (pos : Nat),
    B.Seg pos code → m.Within B.activation fr (ops ++ before) pos →
      m.Does B.worlds n c fr fun a fr' m' =>
        m'.Within B.activation fr' (ops ++ after a) (pos + code.length)

variable {B} {before held : List Value} {code code' : List Item} {c : Run α} {f : α → Run β}
  {mid : α → List Value} {after : β → List Value} {line : Option Nat} {v : Value}

namespace Performs

/-- A sequence, the second part of which may rely on what the first one has given. -/
theorem seq_of (h : B.Performs before code c mid)
    (hf : ∀ a, (∃ fr fr', c fr (.ok a, fr')) → B.Performs (mid a) code' (f a) after) :
    B.Performs before (code ++ code') (c >>= f) after := by
  intro n hn m fr ops pos hs hm
  obtain ⟨hs, hs'⟩ := seg_append.mp hs
  refine (h n hn m fr ops pos hs hm).bind fun n' hn' a fr' m' hc hm' => ?_
  have hdoes := hf a ⟨fr, fr', hc⟩ n' (Nat.le_trans hn' hn) m' fr' ops _ hs' hm'
  rwa [List.length_append, ← Nat.add_assoc]

theorem seq (h : B.Performs before code c mid)
    (hf : ∀ a, B.Performs (mid a) code' (f a) after) :
    B.Performs before (code ++ code') (c >>= f) after :=
  h.seq_of fun a _ => hf a

/-- The operands below are left as they are. -/
theorem frame (h : B.Performs before code c mid) (held : List Value) :
    B.Performs (held ++ before) code c fun a => held ++ mid a := by
  intro n hn m fr ops pos hs hm
  rw [← List.append_assoc] at hm
  refine (h n hn m fr (ops ++ held) pos hs hm).imp fun a fr' m' hm' => ?_
  rwa [List.append_assoc] at hm'

/-- The value is made of that of a computation. -/
theorem map {g : α → β} (h : B.Performs before code c mid) (hg : ∀ a, mid a = after (g a)) :
    B.Performs before code (c >>= fun a => pure (g a)) after := by
  intro n hn m fr ops pos hs hm
  refine (h n hn m fr ops pos hs hm).bind fun n' _ a fr' m' _ hm' => ?_
  rw [hg] at hm'
  exact Stepper.Does.pure hm'

/-! ## Instructions -/

theorem const (v : Const) :
    B.Performs [] [.mine (.const v) line] (pure v.value) fun u => [u] := by
  intro n _ m fr ops pos hs hm
  rw [List.append_nil] at hm
  exact hm.const B.made hs

theorem load (x : Bytes) :
    B.Performs [] [.mine (.load x) line] (B.context.load x) fun u => [u] := by
  intro n _ m fr ops pos hs hm
  rw [List.append_nil] at hm
  exact hm.load B.made hs

theorem newList (vs : List Value) {k : Nat} (hk : vs.length = k) :
    B.Performs vs [.mine (.plain (opList k)) line] (Run.newList vs) fun u => [u] := by
  subst hk
  intro n _ m fr ops pos hs hm
  exact hm.newList hs

theorem newDict (kv : List Value) {k : Nat} (hk : kv.length = 2 * k) :
    B.Performs kv [.mine (.plain (opDict k)) line] (Run.newDict kv) fun u => [u] := by
  intro n _ m fr ops pos hs hm
  exact hm.newDict hk hs

theorem element (c i : Value) :
    B.Performs [c, i] [.mine (.plain opLoadAt) line] (Run.element c i) fun u => [u] := by
  intro n _ m fr ops pos hs hm
  exact hm.element hs

theorem prefixOp {k : LexemeKind} (hk : (unaryProps k).isSome = true) (v : Value) :
    B.Performs [v] [.mine (.plain (unaryInstr k)) line] (B.context.prefixOp k v) fun u => [u] := by
  intro n _ m fr ops pos hs hm
  exact hm.prefixOp hk hs

theorem infixOp {k : LexemeKind} (hk : (binaryProps k).isSome = true) (left right : Value) :
    B.Performs [left, right] [.mine (.plain (binaryInstr k)) line]
      (B.context.infixOp k left right) fun u => [u] := by
  intro n _ m fr ops pos hs hm
  exact hm.infixOp hk hs

/-- A call. -/
theorem call (callee : Value) (args : List Value) (scatter : Bool) {k : Nat}
    (hk : args.length = k) :
    B.Performs (callee :: args) [.mine (.plain (opCall scatter k)) line]
      (Run.arguments scatter args >>= B.context.apply callee) fun u => [u] := by
  subst hk
  intro n hn m fr ops pos hs hm
  have hi := hs.plain
  obtain ⟨r, hr⟩ : ∃ r, Run.arguments scatter args fr (r, fr) := ⟨_, rfl⟩
  cases r with
  | ok all => exact Stepper.Does.ok_bind hr (hm.apply B.tracks hn hi hr)
  | error e =>
      apply Stepper.Does.of_step
      intro i _
      have hraised := hm.arguments_raised hi hr (B.worlds.world i)
      exact .inr ⟨_, Nd.bind_error hr, _, Worlds.stepper_raised hraised,
        congrArg (StepResult.raised e) hm.store⟩

end Performs

end Body

/-! ## Expressions -/

/-- Without a list to scatter, the arguments are there. -/
theorem Run.arguments_false (args : List Value) : Run.arguments false args = pure args := rfl

section

variable [Libdeci] {ι : Type} {C : Context ι}

/-- A list of expressions has as many values. -/
theorem Elems.eval_length : ∀ {es : Elems} {vs : List Value} {fr fr' : Frame},
    es.eval C fr (.ok vs, fr') → vs.length = es.count
  | .last e, vs, fr, fr', h => by
      obtain ⟨⟨e | v, fr₁⟩, -, h⟩ := h
      · cases h
      · obtain rfl := Except.ok.inj (Prod.mk.inj h).1
        rfl
  | .more e _ es, vs, fr, fr', h => by
      obtain ⟨⟨e | v, fr₁⟩, -, h⟩ := h
      · cases h
      · obtain ⟨⟨e | vs', fr₂⟩, hvs, h⟩ := h
        · cases h
        · obtain rfl := Except.ok.inj (Prod.mk.inj h).1
          exact congrArg (· + 1) (Elems.eval_length hvs)

/-- A list of entries has as many keys and as many values. -/
theorem Entries.eval_length : ∀ {kvs : Entries} {kv : List Value} {fr fr' : Frame},
    kvs.eval C fr (.ok kv, fr') → kv.length = 2 * kvs.count
  | .last k _ v, kv, fr, fr', h => by
      obtain ⟨⟨e | k, fr₁⟩, -, h⟩ := h
      · cases h
      · obtain ⟨⟨e | v, fr₂⟩, -, h⟩ := h
        · cases h
        · obtain rfl := Except.ok.inj (Prod.mk.inj h).1
          rfl
  | .more k _ v _ kvs, kv, fr, fr', h => by
      obtain ⟨⟨e | k, fr₁⟩, -, h⟩ := h
      · cases h
      · obtain ⟨⟨e | v, fr₂⟩, -, h⟩ := h
        · cases h
        · obtain ⟨⟨e | kv', fr₃⟩, hkv, h⟩ := h
          · cases h
          · obtain rfl := Except.ok.inj (Prod.mk.inj h).1
            exact congrArg (· + 2) (Entries.eval_length hkv)

end

namespace Body

variable [Libdeci] {ι : Type} (B : Body ι)

mutual

/-- The code of an expression gives its value. -/
theorem expr : ∀ e : Expr, e.Wf → B.Performs [] e.code (e.eval B.context) fun v => [v]
  | .literal t, _ => .const _
  | .ident t, _ => .load t.text
  | .list0 _ _, _ => .newList [] rfl
  | .list _ es _, h => by
      refine (elems es h.2.1).seq_of fun vs hvs => ?_
      obtain ⟨fr, fr', hvs⟩ := hvs
      exact .newList vs (Elems.eval_length hvs)
  | .dict0 _ _, _ => .newDict [] rfl
  | .dict _ kvs _, h => by
      refine (entries kvs h.2.1).seq_of fun kv hkv => ?_
      obtain ⟨fr, fr', hkv⟩ := hkv
      exact .newDict kv (Entries.eval_length hkv)
  | .paren _ e _, h => expr e h.2.1
  | .unary _ e, h => (expr e h.2).seq fun v => .prefixOp h.1 v
  | .binary l _ r, h => by
      refine (expr l h.1).seq fun left => ?_
      refine ((expr r h.2.2).frame [left]).seq fun right => ?_
      exact .infixOp h.2.1 left right
  | .index e _ i _, h => by
      refine (expr e h.1).seq fun c => ?_
      refine ((expr i h.2.2.1).frame [c]).seq fun i => ?_
      exact .element c i
  | .field e _ name, h => by
      refine (expr e h.1).seq fun c => ?_
      have hname : B.Performs ([c] ++ []) [.mine (.const (.str name.text)) name.tag]
          (pure (Const.str name.text).value) fun u => [c] ++ [u] := (Performs.const _).frame [c]
      have helement : ∀ u, B.Performs [c, u] [.mine (.plain opLoadAt) name.tag] (Run.element c u)
          fun v => [v] := fun u => .element c u
      have hfield := hname.seq helement
      rwa [Nd.pure_bind] at hfield
  | .call0 f lp _, h => by
      refine (expr f h.1).seq fun f => ?_
      have hcall : B.Performs [f] [.mine (.plain (opCall false 0)) lp.tag]
          (Run.arguments false [] >>= B.context.apply f) fun v => [v] := .call f [] false rfl
      rwa [Run.arguments_false, Nd.pure_bind] at hcall
  | .call f _ args star _, h => by
      refine (expr f h.1).seq fun f => ?_
      refine ((elems args h.2.2.1).frame [f]).seq_of fun vs hvs => ?_
      obtain ⟨fr, fr', hvs⟩ := hvs
      exact .call f vs star.isSome (Elems.eval_length hvs)

/-- The code of a list of expressions gives their values. -/
theorem elems : ∀ es : Elems, es.Wf → B.Performs [] es.code (es.eval B.context) id
  | .last e, h => (expr e h).map fun _ => rfl
  | .more e _ es, h => by
      refine (expr e h.1).seq fun v => ?_
      exact ((elems es h.2.2).frame [v]).map fun _ => rfl

/-- The code of a list of dict entries gives their keys and values. -/
theorem entries : ∀ kvs : Entries, kvs.Wf → B.Performs [] kvs.code (kvs.eval B.context) id
  | .last k _ v, h => by
      refine (expr k h.1).seq fun k => ?_
      exact ((expr v h.2.2).frame [k]).map fun _ => rfl
  | .more k _ v _ kvs, h => by
      refine (expr k h.1).seq fun k => ?_
      refine ((expr v h.2.2.1).frame [k]).seq fun v => ?_
      exact ((entries kvs h.2.2.2.2).frame [k, v]).map fun _ => rfl

end

/-! ## Assignments -/

variable {B} {k : LexemeKind} {a : AInstr} {line : Option Nat}

namespace Performs

theorem assignVariable {x : Bytes} (ha : assignInstr k (.load x) = some a) (v : Value) :
    B.Performs [v] [.mine a line] (B.context.assignVariable k x v) fun _ => [] := by
  intro n _ m fr ops pos hs hm
  refine (hm.assignVariable ha B.made hs).imp fun _ fr' m' hm' => ?_
  rw [List.append_nil]
  exact hm'

theorem assignElement (ha : assignInstr k (.plain opLoadAt) = some a) (c i v : Value) :
    B.Performs [c, i, v] [.mine a line] (B.context.assignElement k c i v) fun _ => [] := by
  intro n _ m fr ops pos hs hm
  refine (hm.assignElement ha hs).imp fun _ fr' m' hm' => ?_
  rw [List.append_nil]
  exact hm'

theorem print (v : Value) :
    B.Performs [v] [.mine (.plain opPrint) line] (B.context.print v) fun _ => [] := by
  intro n _ m fr ops pos hs hm
  refine (hm.print hs).imp fun _ fr' m' hm' => ?_
  rw [List.append_nil]
  exact hm'

end Performs

omit [Libdeci] in
/-- Only the load of an element makes way for an assignment to one. -/
theorem assignInstr_plain {i : Instr} (hi : i ≠ opLoadAt) : assignInstr k (.plain i) = none := by
  unfold assignInstr
  split
  · rename_i hx
    cases hx
  · rename_i hx
    exact absurd (AInstr.plain.inj hx) hi
  · rfl

omit [Libdeci] in
theorem unaryInstr_not_target (k : LexemeKind) : unaryInstr k ≠ opLoadAt := by
  cases k <;> exact Instr.noConfusion

theorem dropLast_code {e : Expr} {c : List Item} {r : Item} (h : e.code = c ++ [r]) :
    e.code.dropLast = c := by
  rw [h, List.dropLast_concat]

/-- An expression that ends with another instruction is assigned to by none. -/
theorem not_assigned {e : Expr} {c : List Item} {i : Instr} {l : Option Nat}
    (h : e.code = c ++ [.mine (.plain i) l]) (hi : i ≠ opLoadAt) :
    assignInstr k e.lastInstr ≠ some a := by
  rw [Expr.lastInstr_append h, Item.mine_instr, assignInstr_plain hi]
  intro h
  cases h

variable (B)

/-- The code of an assignment makes the assignment. -/
theorem assign (op : Lexeme) {rhs : Expr} (hrhs : rhs.Wf) : ∀ lhs : Expr, lhs.Wf →
    assignInstr op.kind lhs.lastInstr = some a →
    B.Performs [] (lhs.code.dropLast ++ (rhs.code ++ [.mine a line]))
      ((Simple.assign lhs op rhs).run B.context) fun _ => []
  | .ident t, _, ha => by
      refine (expr B rhs hrhs).seq fun v => ?_
      exact .assignVariable ha v
  | .index e lb i rb, h, ha => by
      have hcode : (Expr.index e lb i rb).code = (e.code ++ i.code) ++
          [Item.mine (.plain opLoadAt) lb.tag] := (List.append_assoc ..).symm
      rw [Expr.lastInstr_append hcode] at ha
      rw [dropLast_code hcode, List.append_assoc]
      refine (expr B e h.1).seq fun c => ?_
      refine ((expr B i h.2.2.1).frame [c]).seq fun i => ?_
      refine ((expr B rhs hrhs).frame [c, i]).seq fun v => ?_
      exact .assignElement ha c i v
  | .field e dot name, h, ha => by
      have hcode : (Expr.field e dot name).code = (e.code ++
          [Item.mine (.const (.str name.text)) name.tag]) ++
          [Item.mine (.plain opLoadAt) name.tag] := (List.append_assoc e.code [_] [_]).symm
      rw [Expr.lastInstr_append hcode] at ha
      rw [dropLast_code hcode, List.append_assoc]
      refine (expr B e h.1).seq fun c => ?_
      have hname : B.Performs ([c] ++ []) [.mine (.const (.str name.text)) name.tag]
          (pure (Const.str name.text).value) fun u => [c] ++ [u] := (Performs.const _).frame [c]
      have hstore : ∀ u v, B.Performs [c, u, v] [.mine a line]
          (B.context.assignElement op.kind c u v) fun _ => [] := fun u v => .assignElement ha c u v
      have hassign := hname.seq fun u => ((expr B rhs hrhs).frame [c, u]).seq (hstore u)
      rwa [Nd.pure_bind] at hassign
  | .paren _ e _, h, ha => assign op hrhs e h.2.1 ha
  | .literal _, _, ha => by cases ha
  | .list0 lb rb, _, ha => absurd ha (not_assigned (c := []) rfl Instr.noConfusion)
  | .list _ es _, _, ha => absurd ha (not_assigned (c := es.code) rfl Instr.noConfusion)
  | .dict0 .., _, ha => absurd ha (not_assigned (c := []) rfl Instr.noConfusion)
  | .dict _ kvs _, _, ha => absurd ha (not_assigned (c := kvs.code) rfl Instr.noConfusion)
  | .unary op e, _, ha =>
      absurd ha (not_assigned (c := e.code) rfl (unaryInstr_not_target op.kind))
  | .binary l op r, _, ha =>
      absurd ha (not_assigned (List.append_assoc l.code r.code _).symm
        (binaryInstr_not_target op.kind))
  | .call0 f _ _, _, ha => absurd ha (not_assigned (c := f.code) rfl Instr.noConfusion)
  | .call f _ args _ _, _, ha =>
      absurd ha (not_assigned (List.append_assoc f.code args.code _).symm Instr.noConfusion)

/-- The code of an expression or assignment that stands as a statement. -/
theorem simple (next : Lexeme) : ∀ s : Simple, s.Wf →
    B.Performs [] (s.code next) (s.run B.context) fun _ => []
  | .expr e, h => (expr B e h).seq fun v => .print v
  | .assign lhs op rhs, h => by
      obtain ⟨hlhs, -, hrhs, htarget⟩ := h
      obtain ⟨a, ha⟩ := Option.isSome_iff_exists.mp htarget
      rw [Simple.code, ha]
      exact assign B op hrhs lhs hlhs ha

end Body

end Calx
