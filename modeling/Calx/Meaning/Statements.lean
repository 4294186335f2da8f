import Calx.ExecSound
import Calx.Meaning.Exprs

/-!
# Compiled statements

The code of a statement does what the statement means, and then the machine is at the end of the
code, on its way out of the loop around or to the next turn of it, or about to return.

## Implementation notes

The code of a nested function stands inside that of the function around it, so that the code of a
body is followed here with all of its items. A statement ends its loop by a jump that the loop
makes for it.
-/

namespace Calx

open LexemeKind Instr Libdeci

/-! ## Placed code -/

/-- A place inside the function. -/
def Body.Has [Libdeci] {ι : Type} (B : Body ι) (pos : Nat) : Prop := B.lo ≤ pos ∧ pos ≤ B.hi

/-- The code stands at `pos` with its open jumps aimed at `brk` and `cnt`, all of it inside the
function. -/
structure Body.Stands [Libdeci] {ι : Type} (B : Body ι) (brk cnt pos : Nat) (code : List Item) :
    Prop where
  breaks : B.Has brk
  continues : B.Has cnt
  begins : B.lo ≤ pos
  ends : pos + code.length ≤ B.hi
  items : ∀ k r, (patch ((brk : Int) - pos) ((cnt : Int) - pos) code)[k]? = some r →
    ∃ i, B.activation.chunk.code[pos + k]? = some i ∧
      DenI B.parser.tables i (closeItem false B.names r).instr

/-- A jump to `dst` stands at `pos`. -/
def Activation.JumpsTo (A : Activation) (pos dst : Nat) : Prop :=
  ∃ t, A.chunk.code[pos]? = some (opJump t) ∧ (pos : Int) + toInt32 t = dst

namespace Body

variable [Libdeci] {ι : Type} {B : Body ι} {brk cnt pos dst : Nat} {code code' : List Item}
  {r : Item} {line : Option Nat} {off : Int}

namespace Stands

theorem append (h : B.Stands brk cnt pos (code ++ code')) :
    B.Stands brk cnt pos code ∧ B.Stands brk cnt (pos + code.length) code' := by
  have hbegins := h.begins
  have hends := h.ends
  rw [List.length_append] at hends
  have hitems := h.items
  rw [patch_append_eq] at hitems
  constructor
  · refine ⟨h.breaks, h.continues, hbegins, by omega, fun k r hk => hitems k r ?_⟩
    rwa [List.getElem?_append_left (List.getElem?_eq_some_iff.mp hk).1]
  · have hshift : ∀ x : Nat, (x : Int) - (pos + code.length : Nat) = x - pos - code.length := by
      intro x
      omega
    refine ⟨h.breaks, h.continues, by omega, by omega, fun k r hk => ?_⟩
    rw [hshift, hshift] at hk
    have hitem := hitems (code.length + k) r
    rw [List.getElem?_append_right (by rw [patch_length]; omega), patch_length,
      Nat.add_sub_cancel_left, ← Nat.add_assoc] at hitem
    exact hitem hk

theorem cons (h : B.Stands brk cnt pos (r :: code)) :
    B.Stands brk cnt pos [r] ∧ B.Stands brk cnt (pos + 1) code := by
  have happend : B.Stands brk cnt pos ([r] ++ code) := h
  exact happend.append

/-- The items of code without open jumps. -/
theorem item (h : B.Stands brk cnt pos code) (hl : NoLoop code) {k : Nat}
    (hk : code[k]? = some r) :
    ∃ i, B.activation.chunk.code[pos + k]? = some i ∧
      DenI B.parser.tables i (closeItem false B.names r).instr := by
  apply h.items
  rwa [patch_eq_self hl]

/-- The code that the function owns. -/
theorem owned (h : B.Stands brk cnt pos code) :
    At B.parser.tables B.activation.chunk B.names brk cnt pos code := by
  intro k r hk ho
  obtain ⟨i, hi, hd⟩ := h.items k r hk
  refine ⟨i, hi, ?_⟩
  rwa [closeItem, if_pos ho] at hd

theorem seg (h : B.Stands brk cnt pos code) (hl : NoLoop code) : B.Seg pos code :=
  (at_noLoop hl).mp h.owned

/-- The body of a loop stands with its jumps aimed by the loop. -/
theorem inside {x y : Int} (h : B.Stands brk cnt pos (patch x y code)) (brk' cnt' : Nat)
    (hx : x = brk' - pos) (hy : y = cnt' - pos) (hbrk : B.Has brk') (hcnt : B.Has cnt') :
    B.Stands brk' cnt' pos code := by
  have hends := h.ends
  rw [patch_length] at hends
  have hitems := h.items
  rw [patch_eq_self (noLoop_patch x y code), hx, hy] at hitems
  exact ⟨hbrk, hcnt, h.begins, hends, hitems⟩

/-! ## Jumps -/

theorem jump_of (h : B.Stands brk cnt pos [r])
    (hs : B.Seg pos [.mine (.jump off) line]) (hdst : B.Has dst) (hoff : off = dst - pos) :
    B.activation.JumpsTo pos dst := by
  obtain ⟨hlo, hhi⟩ := hdst
  have hbegins := h.begins
  have hends := h.ends
  rw [List.length_singleton] at hends
  have hsmall := B.small
  obtain ⟨i, hi, hd⟩ := hs.head rfl
  cases hd with
  | jump =>
      refine ⟨_, hi, ?_⟩
      rw [toInt32_toUint32 (by omega), hoff]
      omega

/-- A jump inside the function. -/
theorem jump (h : B.Stands brk cnt pos [.mine (.jump off) line]) (hdst : B.Has dst)
    (hoff : off = dst - pos) : B.activation.JumpsTo pos dst :=
  h.jump_of (h.seg (.mine rfl line)) hdst hoff

/-- A `break` is a jump out of the loop. -/
theorem breakTo (h : B.Stands brk cnt pos [.mine .breakTo line]) : B.activation.JumpsTo pos brk :=
  h.jump_of (at_breakTo.mp h.owned) h.breaks rfl

/-- A `continue` is a jump to the next turn of the loop. -/
theorem continueTo (h : B.Stands brk cnt pos [.mine .continueTo line]) :
    B.activation.JumpsTo pos cnt :=
  h.jump_of (at_continueTo.mp h.owned) h.continues rfl

end Stands

end Body

/-! ## Ends of statements -/

/-- The machine is at a jump to `dst`. -/
def Activation.Leaves [Libdeci] (A : Activation) (dst : Nat) (fr : Frame) (m : Machine) : Prop :=
  ∃ pos, m.Within A fr [] pos ∧ A.JumpsTo pos dst

/-- The machine is where a statement has left it that ends at `stop`. -/
def Activation.Ended [Libdeci] (A : Activation) (inLoop : Bool) (stop brk cnt : Nat) :
    Finish → Frame → Machine → Prop
  | .fell, fr, m => m.Within A fr [] stop
  | .broke, fr, m => inLoop = true ∧ A.Leaves brk fr m
  | .continued, fr, m => inLoop = true ∧ A.Leaves cnt fr m
  | .returned v, fr, m => ∃ pos, m.Within A fr [v] pos ∧ A.chunk.code[pos]? = some .opReturn

/-- The jump that the machine is at is made. -/
theorem Activation.Leaves.jump [Libdeci] {ι α : Type} {W : Worlds ι} {A : Activation} {dst n : Nat}
    {fr : Frame} {m : Machine} {c : Run α} {After : α → Frame → Machine → Prop}
    (h : A.Leaves dst fr m)
    (hdoes : ∀ n' ≤ n, ∀ m' : Machine, m'.Within A fr [] dst → m'.Does W n' c fr After) :
    m.Does W n c fr After := by
  obtain ⟨pos, hwithin, t, hcode, hdst⟩ := h
  refine Stepper.Does.step (fun i _ => .inr (hwithin.jump hcode hdst i)) fun n' hn' m' hm' => ?_
  exact hdoes n' (Nat.le_of_lt hn') m' hm'

namespace Body

variable [Libdeci] {ι : Type} (B : Body ι)

/-- Wherever the code stands, it does what the computation says and ends as a statement. -/
def Executes (inLoop : Bool) (code : List Item) (c : Run Finish) : Prop :=
  ∀ n ≤ B.steps, ∀ (brk cnt pos : Nat) (fr : Frame) (m : Machine),
    B.Stands brk cnt pos code → m.Within B.activation fr [] pos →
      m.Does B.worlds n c fr (B.activation.Ended inLoop (pos + code.length) brk cnt)

/-- Wherever the code stands, it goes to its end when the condition is true, and `skip` instructions
further when it is not. -/
def Decides (skip : Nat) (code : List Item) (c : Run Bool) : Prop :=
  ∀ n ≤ B.steps, ∀ (brk cnt pos : Nat) (fr : Frame) (m : Machine),
    B.Stands brk cnt pos code → B.Has (pos + code.length + skip) →
    m.Within B.activation fr [] pos → m.Does B.worlds n c fr fun b fr' m' =>
      m'.Within B.activation fr' [] (pos + code.length + if b then 0 else skip)

variable {B} {inLoop : Bool} {brk cnt pos dst n : Nat} {code code' : List Item} {c c' : Run Finish}
  {fr : Frame} {m : Machine}

/-! ## Conditions -/

/-- A condition with the jump that tests it. -/
theorem Performs.decides {c : Run Value} {skip : Nat} {line : Option Nat} (hl : NoLoop code)
    (h : B.Performs [] code c fun v => [v]) :
    B.Decides skip (code ++ [.mine (.jumpUnless (skip + 1)) line])
      (c >>= fun v => pure (valueIsTruthy v)) := by
  intro n hn brk cnt pos fr m hs hskip hm
  have hlen : pos + (code ++ [Item.mine (.jumpUnless (skip + 1)) line]).length =
      pos + code.length + 1 := by
    rw [List.length_append, List.length_singleton, Nat.add_assoc]
  rw [hlen] at hskip ⊢
  obtain ⟨hs, hs'⟩ := hs.append
  rw [← List.append_nil []] at hm
  refine (h n hn m fr [] pos (hs.seg hl) hm).bind fun n' hn' v fr' m' _ hm' => ?_
  obtain ⟨i, hi, hd⟩ := (hs'.seg (.mine rfl line)).head rfl
  have hbegins := hs'.begins
  have hends := hskip.2
  have hsmall := B.small
  cases hd with
  | jumpUnless =>
      have hdst : ((pos + code.length : Nat) : Int) + toInt32 (toUint32 (skip + 1)) =
          (pos + code.length + 1 + skip : Nat) := by
        rw [toInt32_toUint32 (by omega)]
        omega
      refine Stepper.Does.step (fun i _ => .inr (hm'.jumpUnless hi hdst i)) fun n'' _ m'' hm'' => ?_
      apply Stepper.Does.pure
      cases hv : valueIsTruthy v with
      | true => simpa only [hv, if_true] using hm''
      | false => simpa only [hv, Bool.false_eq_true, if_false] using hm''

/-- No condition. -/
theorem Decides.always (skip : Nat) : B.Decides skip [] (pure true) := by
  intro n _ brk cnt pos fr m _ _ hm
  exact Stepper.Does.pure hm

/-! ## Sequences -/

namespace Executes

theorem fell : B.Executes inLoop [] (pure .fell) := by
  intro n _ brk cnt pos fr m _ hm
  exact Stepper.Does.pure hm

/-- Straight code. -/
theorem straight {α : Type} {c : Run α} (hl : NoLoop code)
    (h : B.Performs [] code c fun _ => []) :
    B.Executes inLoop code (c >>= fun _ => pure .fell) := by
  intro n hn brk cnt pos fr m hs hm
  rw [← List.append_nil []] at hm
  refine (h n hn m fr [] pos (hs.seg hl) hm).bind fun n' _ a fr' m' _ hm' => ?_
  exact Stepper.Does.pure hm'

/-- Straight code before a statement. -/
theorem after {c : Run Unit} (hl : NoLoop code) (h : B.Performs [] code c fun _ => [])
    (h' : B.Executes inLoop code' c') : B.Executes inLoop (code ++ code') (c >>= fun _ => c') := by
  intro n hn brk cnt pos fr m hs hm
  obtain ⟨hs, hs'⟩ := hs.append
  rw [← List.append_nil []] at hm
  refine (h n hn m fr [] pos (hs.seg hl) hm).bind fun n' hn' _ fr' m' _ hm' => ?_
  rw [List.length_append, ← Nat.add_assoc]
  exact h' n' (Nat.le_trans hn' hn) brk cnt _ fr' m' hs' hm'

theorem seq (h : B.Executes inLoop code c) (h' : B.Executes inLoop code' c') :
    B.Executes inLoop (code ++ code') (c >>= fun finish => andThen c' finish) := by
  intro n hn brk cnt pos fr m hs hm
  obtain ⟨hs, hs'⟩ := hs.append
  refine (h n hn brk cnt pos fr m hs hm).bind fun n' hn' finish fr' m' _ hm' => ?_
  rw [List.length_append, ← Nat.add_assoc]
  cases finish with
  | fell => exact h' n' (Nat.le_trans hn' hn) brk cnt _ fr' m' hs' hm'
  | broke => exact Stepper.Does.pure hm'
  | continued => exact Stepper.Does.pure hm'
  | returned v => exact Stepper.Does.pure hm'

/-- A value is computed and returned. -/
theorem returns {c : Run Value} {line : Option Nat} (hl : NoLoop code)
    (h : B.Performs [] code c fun v => [v]) :
    B.Executes inLoop (code ++ [.mine (.plain .opReturn) line])
      (c >>= fun v => pure (.returned v)) := by
  intro n hn brk cnt pos fr m hs hm
  obtain ⟨hs, hs'⟩ := hs.append
  rw [← List.append_nil []] at hm
  refine (h n hn m fr [] pos (hs.seg hl) hm).bind fun n' _ v fr' m' _ hm' => ?_
  exact Stepper.Does.pure ⟨_, hm', (hs'.seg (.mine rfl line)).plain⟩

theorem breakTo {line : Option Nat} : B.Executes true [.mine .breakTo line] (pure .broke) := by
  intro n _ brk cnt pos fr m hs hm
  exact Stepper.Does.pure ⟨rfl, pos, hm, hs.breakTo⟩

theorem continueTo {line : Option Nat} :
    B.Executes true [.mine .continueTo line] (pure .continued) := by
  intro n _ brk cnt pos fr m hs hm
  exact Stepper.Does.pure ⟨rfl, pos, hm, hs.continueTo⟩

end Executes

/-! ## Branches -/

/-- The clauses after the first one, behind the jump over them. -/
structure Rests (B : Body ι) (inLoop : Bool) (code : List Item) (c : Run Finish) : Prop where
  skips : ∀ n ≤ B.steps, ∀ (brk cnt pos : Nat) (fr : Frame) (m : Machine),
    B.Stands brk cnt pos code → m.Within B.activation fr [] pos →
      m.Does B.worlds n (pure .fell) fr
        (B.activation.Ended inLoop (pos + code.length) brk cnt)
  executes : ∀ n ≤ B.steps, ∀ (brk cnt pos : Nat) (fr : Frame) (m : Machine),
    B.Stands brk cnt pos code →
      m.Within B.activation fr [] (pos + if code = [] then 0 else 1) →
      m.Does B.worlds n c fr (B.activation.Ended inLoop (pos + code.length) brk cnt)

theorem Rests.none : B.Rests inLoop [] (pure .fell) where
  skips := Executes.fell
  executes := Executes.fell

theorem Rests.over (h : B.Executes inLoop code c) : B.Rests inLoop (overCode code) c where
  skips n hn brk cnt pos fr m hs hm := by
    have hends := hs.ends
    have hbegins := hs.begins
    have hlen : (overCode code).length = code.length + 1 := List.length_cons
    have hjump : B.activation.JumpsTo pos (pos + (overCode code).length) := by
      apply hs.cons.1.jump
      · exact ⟨Nat.le_trans hbegins (Nat.le_add_right ..), hends⟩
      · omega
    have hleaves : B.activation.Leaves (pos + (overCode code).length) fr m := ⟨pos, hm, hjump⟩
    exact hleaves.jump fun n' _ m' hm' => Stepper.Does.pure hm'
  executes n hn brk cnt pos fr m hs hm := by
    have hlen : pos + (overCode code).length = pos + 1 + code.length := by
      rw [overCode, List.length_cons, Nat.add_assoc, Nat.add_comm 1]
    rw [hlen]
    exact h n hn brk cnt _ fr m hs.cons.2 hm

/-- A clause of an `if` statement and the clauses after it. -/
theorem Executes.clause {cond body rest : List Item} {test : Run Value} (hl : NoLoop cond)
    (hcond : B.Performs [] cond test fun v => [v]) (hbody : B.Executes inLoop body c)
    (hrest : B.Rests inLoop rest c') :
    B.Executes inLoop (clauseCode cond body rest)
      ((test >>= fun v => pure (valueIsTruthy v)) >>= fun b => if b then c else c') := by
  intro n hn brk cnt pos fr m hs hm
  have hjump : (1 + (body.length : Int) + if rest = [] then 0 else 1) =
      (body.length + (if rest = [] then 0 else 1) : Nat) + 1 := by
    split
    · omega
    · omega
  have hskip : (if rest = [] then 0 else 1) ≤ rest.length := by
    split
    · exact Nat.zero_le _
    · rename_i hne
      exact List.length_pos_iff.mpr hne
  have hlen : pos + (clauseCode cond body rest).length =
      pos + (cond.length + 1) + body.length + rest.length := by
    rw [clauseCode, List.length_append, List.length_cons, List.length_append]
    omega
  have hends := hs.ends
  have hbegins := hs.begins
  rw [hlen] at hends ⊢
  rw [clauseCode, List.append_cons, hjump] at hs
  obtain ⟨hs, hs'⟩ := hs.append
  obtain ⟨hs', hs''⟩ := hs'.append
  have hdecides := hcond.decides hl n hn brk cnt pos fr m hs
  rw [List.length_append, List.length_singleton] at hdecides hs' hs''
  refine (hdecides ⟨by omega, by omega⟩ hm).bind fun n' hn' b fr' m' _ hm' => ?_
  have hle := Nat.le_trans hn' hn
  cases b with
  | true =>
      rw [if_pos rfl, ← Nd.bind_pure c]
      refine (hbody n' hle brk cnt _ fr' m' hs' hm').bind fun n'' hn'' finish fr'' m'' _ hm'' => ?_
      cases finish with
      | fell => exact hrest.skips n'' (Nat.le_trans hn'' hle) brk cnt _ fr'' m'' hs'' hm''
      | broke => exact Stepper.Does.pure hm''
      | continued => exact Stepper.Does.pure hm''
      | returned v => exact Stepper.Does.pure hm''
  | false =>
      rw [if_neg Bool.false_ne_true]
      refine hrest.executes n' hle brk cnt _ fr' m' hs'' ?_
      rw [if_neg Bool.false_ne_true, ← Nat.add_assoc] at hm'
      exact hm'

/-! ## Loops -/

/-- The loop with its condition at `top`, its body from `start` to `last`, and its third clause at
`last` and after a jump to `again`. -/
theorem loop {A : Activation} {W : Worlds ι} {cond : Run Bool} {post : Run Unit} {body : Run Finish}
    {top last again stop : Nat} (start : Nat)
    (hcond : ∀ n' ≤ n, ∀ (fr : Frame) (m : Machine), m.Within A fr [] top →
      m.Does W n' cond fr fun b fr' m' => m'.Within A fr' [] (if b then start else stop))
    (hbody : ∀ n' ≤ n, ∀ (fr : Frame) (m : Machine), m.Within A fr [] start →
      m.Does W n' body fr (A.Ended true last stop again))
    (hlast : ∀ n' ≤ n, ∀ (fr : Frame) (m : Machine), m.Within A fr [] last →
      m.Does W n' post fr fun _ => A.Leaves top)
    (hagain : ∀ n' ≤ n, ∀ (fr : Frame) (m : Machine), A.Leaves again fr m →
      m.Does W n' post fr fun _ => A.Leaves top)
    (hm : m.Within A fr [] top) :
    m.Does W n (loopRun cond post body) fr (A.Ended inLoop stop brk cnt) := by
  refine Stepper.Does.loop (fun fr (m : Machine) => m.Within A fr [] top) (A.Leaves top)
    (fun n' hn' fr m hm => ?_) (fun fr m hlast i _ => ?_) hm
  · refine (hcond n' hn' fr m hm).bind fun n₁ hn₁ b fr₁ m₁ _ hm₁ => ?_
    have hle₁ := Nat.le_trans hn₁ hn'
    cases b with
    | false => exact Stepper.Does.pure (.inr ⟨_, rfl, hm₁⟩)
    | true =>
        refine (hbody n₁ hle₁ fr₁ m₁ hm₁).bind fun n₂ hn₂ finish fr₂ m₂ _ hm₂ => ?_
        have hle₂ := Nat.le_trans hn₂ hle₁
        cases finish with
        | fell =>
            refine (hlast n₂ hle₂ fr₂ m₂ hm₂).bind fun _ _ _ _ m₃ _ hm₃ => ?_
            exact Stepper.Does.pure (.inl ⟨rfl, hm₃⟩)
        | continued =>
            refine (hagain n₂ hle₂ fr₂ m₂ hm₂.2).bind fun _ _ _ _ m₃ _ hm₃ => ?_
            exact Stepper.Does.pure (.inl ⟨rfl, hm₃⟩)
        | broke =>
            refine Activation.Leaves.jump hm₂.2 fun n₃ _ m₃ hm₃ => ?_
            exact Stepper.Does.pure (.inr ⟨_, rfl, hm₃⟩)
        | returned v => exact Stepper.Does.pure (.inr ⟨_, rfl, hm₂⟩)
  · obtain ⟨pos, hwithin, t, hcode, hdst⟩ := hlast
    exact hwithin.jump hcode hdst i

/-- A `while` loop. -/
theorem Executes.whileLoop {cond body : List Item} {test : Run Value} (hl : NoLoop cond)
    (hcond : B.Performs [] cond test fun v => [v]) (hbody : B.Executes true body c) :
    B.Executes inLoop (whileCode cond body)
      (loopRun (test >>= fun v => pure (valueIsTruthy v)) (pure ()) c) := by
  intro n hn brk cnt pos fr m hs hm
  have hlen : pos + (whileCode cond body).length = pos + (cond.length + 1) + (body.length + 1) := by
    rw [whileCode, List.length_append, List.length_cons, List.length_append, patch_length,
      List.length_singleton]
    omega
  have hends := hs.ends
  have hbegins := hs.begins
  rw [hlen] at hends ⊢
  have hjump : ((body.length : Int) + 2) = (body.length + 1 : Nat) + 1 := by omega
  rw [whileCode, List.append_cons, hjump] at hs
  obtain ⟨hs, hs'⟩ := hs.append
  obtain ⟨hs', hs''⟩ := hs'.append
  rw [List.length_append, List.length_singleton] at hs' hs''
  rw [patch_length] at hs''
  have hinside := hs'.inside (pos + (cond.length + 1) + (body.length + 1)) pos
    (by omega) (by omega) ⟨by omega, hends⟩ ⟨hbegins, by omega⟩
  refine loop (pos + (cond.length + 1)) (fun n' hn' fr m hm => ?_)
    (fun n' hn' fr m hm => hbody n' (Nat.le_trans hn' hn) _ _ _ fr m hinside hm)
    (fun n' _ fr m hm => ?_) (fun n' _ fr m hm => Stepper.Does.pure hm) hm
  · have hdecides := hcond.decides hl n' (Nat.le_trans hn' hn) brk cnt pos fr m hs
    rw [List.length_append, List.length_singleton] at hdecides
    refine (hdecides ⟨by omega, by omega⟩ hm).imp fun b fr' m' hm' => ?_
    cases b with
    | true => exact hm'
    | false => exact hm'
  · refine Stepper.Does.pure ⟨_, hm, hs''.jump ⟨hbegins, by omega⟩ ?_⟩
    push_cast
    omega

/-- A `for` loop after the first clause of its header. -/
theorem Executes.forLoop {C post body : List Item} {cond : Run Bool} {after : Run Unit}
    (hcond : B.Decides (body.length + post.length + 1) C cond) (hl : NoLoop post)
    (hpost : B.Performs [] post after fun _ => []) (hbody : B.Executes true body c) :
    B.Executes inLoop (C ++ (patch (body.length + post.length + 1) body.length body ++ (post ++
        [.mine (.jump (-(C.length + body.length + post.length : Nat))) none])))
      (loopRun cond after c) := by
  intro n hn brk cnt pos fr m hs hm
  have hends := hs.ends
  have hbegins := hs.begins
  simp only [List.length_append, patch_length, List.length_singleton] at hends ⊢
  have hstop : pos + (C.length + (body.length + (post.length + 1))) =
      pos + C.length + (body.length + post.length + 1) := by omega
  rw [hstop] at hends ⊢
  obtain ⟨hs, hrest⟩ := hs.append
  obtain ⟨hs', hrest⟩ := hrest.append
  obtain ⟨hthird, hback⟩ := hrest.append
  rw [patch_length] at hthird hback
  have hinside := hs'.inside (pos + C.length + (body.length + post.length + 1))
    (pos + C.length + body.length) (by omega) (by omega) ⟨by omega, hends⟩
    ⟨by omega, by omega⟩
  -- the third clause and the jump back to the condition
  have hlast : ∀ n' ≤ n, ∀ (fr : Frame) (m : Machine),
      m.Within B.activation fr [] (pos + C.length + body.length) →
      m.Does B.worlds n' after fr fun _ => B.activation.Leaves pos := by
    intro n' hn' fr m hm
    rw [← List.append_nil []] at hm
    refine (hpost n' (Nat.le_trans hn' hn) m fr [] _ (hthird.seg hl) hm).imp fun _ fr' m' hm' => ?_
    refine ⟨_, hm', hback.jump ⟨hbegins, by omega⟩ ?_⟩
    push_cast
    omega
  refine loop (pos + C.length) (fun n' hn' fr m hm => ?_)
    (fun n' hn' fr m hm => hbody n' (Nat.le_trans hn' hn) _ _ _ fr m hinside hm) hlast
    (fun n' hn' fr m hm => hm.jump fun n'' hn'' m' hm' =>
      hlast n'' (Nat.le_trans hn'' hn') fr m' hm') hm
  have hdecides := hcond n' (Nat.le_trans hn' hn) brk cnt pos fr m hs
  refine (hdecides ⟨by omega, by omega⟩ hm).imp fun b fr' m' hm' => ?_
  cases b with
  | true => exact hm'
  | false => exact hm'

/-! ## Functions -/

/-- The function at `pos` is one that the definition of `q` makes. -/
theorem placed {q : Option Params × Stmts} {rest : List Item} (hwf : q.2.Wf false)
    (hmem : q ∈ B.program.functions)
    (hs : B.Stands brk cnt pos
      (.mine (.function (shapeInfo q)) none :: (nest (closedCode q) ++ rest)))
    (hl : NoLoop (Item.mine (.function (shapeInfo q)) none :: (nest (closedCode q) ++ rest)))
    {f : Func} (hchunk : f.chunk = B.activation.chunk) (hip : f.ip = pos) : f.Of q := by
  refine ⟨B.parser, B.program, hchunk ▸ B.compiled, hmem, ?_⟩
  have hshapes : B.parser.tables.shapes = f.chunk.shapes := by rw [hchunk, B.made.shapes]
  obtain ⟨i, hi, hd⟩ := hs.item hl (k := 0) rfl
  change DenI B.parser.tables i (.function (shapeInfo q)) at hd
  have hshape := f.shape_eq
  rw [Chunk.shapeAt, Calx.shapeAt, hip, hchunk, ← Nat.add_zero pos, hi] at hshape
  cases hd with
  | @function k s _ hk _ ha =>
      obtain rfl : s = f.shape := by
        rw [B.made.shapes] at hk
        exact Option.some.inj (hk.symm.trans hshape)
      refine ⟨f.shape_eq, hwf, ha, hshapes, fun j r hj => ?_⟩
      have hitem :
          (Item.mine (.function (shapeInfo q)) none :: (nest (closedCode q) ++ rest))[j + 1]? =
            some { r with own := false } := by
        rw [List.getElem?_cons_succ, List.getElem?_append_left]
        · rw [nest, List.getElem?_map, hj]
          rfl
        · rw [nest_length]
          exact (List.getElem?_eq_some_iff.mp hj).1
      obtain ⟨i', hi', hd'⟩ := hs.item hl hitem
      refine ⟨i', ?_, hd'⟩
      rw [hchunk, hip, Nat.add_assoc, Nat.add_comm 1]
      exact hi'

/-- The definition of a function. -/
theorem Executes.define {q : Option Params × Stmts} {x : Bytes} {line : Option Nat}
    (hwf : q.2.Wf false) (hmem : q ∈ B.program.functions)
    (hl : NoLoop (Item.mine (.function (shapeInfo q)) none ::
      (nest (closedCode q) ++ [.mine (.store x) line]))) :
    B.Executes inLoop
      (.mine (.function (shapeInfo q)) none :: (nest (closedCode q) ++ [.mine (.store x) line]))
      (B.context.newFunction q >>= fun f => B.context.store x f >>= fun _ => pure .fell) := by
  intro n hn brk cnt pos fr m hs hm
  have hof := fun (f : Func) => placed (f := f) hwf hmem hs hl
  have hseg := hs.seg hl
  obtain ⟨hfunction, hseg⟩ := (seg_append (l := [_])).mp hseg
  obtain ⟨-, hstore⟩ := seg_append.mp hseg
  obtain ⟨i, hi, hd⟩ := hfunction.head rfl
  change DenI B.parser.tables i (.function (shapeInfo q)) at hd
  cases hd with
  | @function k s _ hk _ ha =>
      rw [B.made.shapes] at hk
      have hoffset : s.offset = (nest (closedCode q)).length + 1 := by
        rw [ha.offset, nest_length, closedCode_length]
        rfl
      have hlen : pos + 1 + (nest (closedCode q)).length = pos + s.offset := by omega
      have hstop : pos + (Item.mine (.function (shapeInfo q)) none ::
          (nest (closedCode q) ++ [Item.mine (.store x) line])).length = pos + s.offset + 1 := by
        rw [List.length_cons, List.length_append, List.length_singleton]
        omega
      rw [List.length_singleton, hlen] at hstore
      refine (hm.newFunction hi hk hof).bind fun n' _ f fr' m' _ hm' => ?_
      refine (hm'.storeVariable B.made (.inl hstore)).bind fun n'' _ _ fr'' m'' _ hm'' => ?_
      rw [hstop]
      exact Stepper.Does.pure hm''

/-! ## Programs -/

variable (B)

/-- A clause of a `for` header. -/
theorem optSimple (next : Lexeme) (s : Option Simple) (h : ∀ t ∈ s, t.Wf) :
    B.Performs [] ((s.map (Simple.code next)).getD []) (Simple.optRun B.context s) fun _ => [] := by
  cases s with
  | none =>
      intro n _ m fr ops pos _ hm
      exact Stepper.Does.pure hm
  | some t => exact B.simple next t (h t rfl)

/-- The condition of a `for` header. -/
theorem optTest (skip : Nat) (e : Option Expr) (h : ∀ x ∈ e, x.Wf) :
    B.Decides skip (forCondCode skip (e.map Expr.code)) (Expr.optTest B.context e) := by
  cases e with
  | none => exact .always skip
  | some x => exact (B.expr x (h x rfl)).decides x.code_acts.noLoop

mutual

/-- The code of a statement does what the statement means. -/
theorem stmt : ∀ (b : Bool) (t : Stmt), t.Wf b → (∀ q ∈ t.funs, q ∈ B.program.functions) →
    B.Executes b t.code (t.run B.context)
  | _, .empty _, _, _ => .fell
  | _, .simple s semi, h, _ => .straight (s.code_acts semi).noLoop (B.simple semi s h.1)
  | b, .ifStmt _ _ e _ _ body _ rest, h, hf => by
      obtain ⟨-, -, he, -, -, hbody, -, hrest⟩ := h
      refine .clause e.code_acts.noLoop (B.expr e he) ?_ ?_
      · exact stmts b body hbody fun q hq => hf q (List.mem_append_left _ hq)
      · exact clauses b rest hrest fun q hq => hf q (List.mem_append_right _ hq)
  | _, .whileStmt _ _ e _ _ body _, h, hf => by
      obtain ⟨-, -, he, -, -, hbody, -⟩ := h
      exact .whileLoop e.code_acts.noLoop (B.expr e he) (stmts true body hbody hf)
  | _, .forStmt _ _ pre semi1 cond _ post rp _ body _, h, hf => by
      obtain ⟨-, -, hpre, -, hcond, -, hpost, -, -, hbody, -⟩ := h
      refine .after (Simple.optCode_acts semi1 pre).noLoop (B.optSimple semi1 pre hpre) ?_
      refine .forLoop (B.optTest _ cond hcond) (Simple.optCode_acts rp post).noLoop ?_ ?_
      · exact B.optSimple rp post fun t ht => (hpost t ht).1
      · exact stmts true body hbody hf
  | _, .funStmt kw name lp ps rp lb body rb, h, hf => by
      refine .define (q := (ps, body)) h.2.2.2.2.2.2.1 ?_ ?_
      · exact hf _ (List.mem_append_right _ (List.mem_singleton_self _))
      · exact (Stmt.code_layout false (.funStmt kw name lp ps rp lb body rb) h).noLoop rfl
  | b, .returnStmt _ none _, _, _ => by
      have hnil : B.Performs [] [.mine (.const .nil) none] (pure Const.nil.value) fun v => [v] :=
        .const _
      have hreturn : B.Executes b ([.mine (.const .nil) none] ++ [.mine (.plain .opReturn) none])
          (pure Const.nil.value >>= fun v => pure (.returned v)) := .returns (.mine rfl none) hnil
      rwa [Nd.pure_bind] at hreturn
  | _, .returnStmt _ (some e) _, h, _ => .returns e.code_acts.noLoop (B.expr e (h.2.1 e rfl))
  | b, .breakStmt _ _, h, _ => by
      obtain rfl := h.1
      exact .breakTo
  | b, .continueStmt _ _, h, _ => by
      obtain rfl := h.1
      exact .continueTo

/-- The code of a statement sequence does what the sequence means. -/
theorem stmts : ∀ (b : Bool) (ts : Stmts), ts.Wf b → (∀ q ∈ ts.funs, q ∈ B.program.functions) →
    B.Executes b ts.code (ts.run B.context)
  | _, .nil, _, _ => .fell
  | b, .cons t ts, h, hf => by
      refine (stmt b t h.1 fun q hq => hf q (List.mem_append_left _ hq)).seq ?_
      exact stmts b ts h.2 fun q hq => hf q (List.mem_append_right _ hq)

/-- The code of further clauses does what these mean. -/
theorem clauses : ∀ (b : Bool) (e : Else), e.Wf b → (∀ q ∈ e.funs, q ∈ B.program.functions) →
    B.Rests b e.code (e.run B.context)
  | _, .none, _, _ => .none
  | b, .elifClause _ _ e _ _ body _ rest, h, hf => by
      obtain ⟨-, -, he, -, -, hbody, -, hrest⟩ := h
      refine .over (.clause e.code_acts.noLoop (B.expr e he) ?_ ?_)
      · exact stmts b body hbody fun q hq => hf q (List.mem_append_left _ hq)
      · exact clauses b rest hrest fun q hq => hf q (List.mem_append_right _ hq)
  | b, .elseClause _ _ body _, h, hf => .over (stmts b body h.2.2.1 hf)

end

end Body

end Calx
