import Calx.Natives.Table
import Calx.Number.Encode
import Calx.Vm.Safety

/-!
# What native functions never do

Called with sound arguments on a sound store, a native function does nothing undefined: it
throws, or its result and the store that it leaves are sound.

## Implementation notes

Two functions compile a source, and one evaluates a module. What they rely on is `Fair`: the
source defines no function in the body of a `for` loop with a third clause, and the module has
been evaluated safely. `X_RawRead` relies on `getline` to do something with its arguments.
-/

namespace Calx

open Libdeci Stateful

/-! ## Rules -/

/-- From a sound store a native function leaves a sound one, in which there is whatever there was. -/
def Act.Safe [DeciBase] {α : Type} (P : Store → α → Prop) (st : Store) (c : Act α) : Prop :=
  Keeps Store.Sound (fun st st' => st.extent.Le st'.extent) (· ≠ .illegal) P st c

/-- A native function does nothing undefined, and its result is sound. -/
abbrev Act.Returns [DeciBase] (st : Store) (c : Act Value) : Prop :=
  c.Safe (fun st v => v.Sound st.extent) st

section

variable [DeciBase] {α β : Type} {st st' : Store} {P : Store → α → Prop} {Q : Store → β → Prop}
  {a : α}

theorem nativeSound_of_returns {c : Act Value} (h : c.Returns st) :
    NativeSound st (outcome c st) := by
  obtain ⟨hst, hle, hok, herror⟩ := h
  rcases hc : outcome c st with ⟨e | v, st'⟩
  · rw [hc] at hst hle herror
    exact ⟨herror e rfl, hst, hle⟩
  · rw [hc] at hst hle hok
    exact ⟨hok v rfl, hst, hle⟩

namespace Act.Safe

theorem pure (hst : st.Sound) (h : P st a) : Act.Safe P st (Pure.pure a) :=
  Keeps.pure hst (.refl _) h

theorem throw {e : Fault} (hst : st.Sound) (he : e ≠ .illegal) :
    Act.Safe P st (MonadExcept.throw e) := Keeps.throw hst (.refl _) he

theorem fail (hst : st.Sound) {message : Bytes} : Act.Safe P st (Act.fail message) :=
  .throw hst Fault.noConfusion

theorem check (hst : st.Sound) {r : Except String α} (h : ∀ a, r = .ok a → P st a) :
    Act.Safe P st (Act.check r) := by
  cases r with
  | ok a => exact .pure hst (h a rfl)
  | error text => exact .fail hst

theorem ofFault (hst : st.Sound) {r : Except Fault α} (h : ∀ a, r = .ok a → P st a)
    (he : ∀ e, r = .error e → e ≠ .illegal) : Act.Safe P st (Act.ofFault r) := by
  cases r with
  | ok a => exact .pure hst (h a rfl)
  | error e => exact .throw hst (he e rfl)

theorem need (hst : st.Sound) {o : Option α} (ho : o = some a) (h : P st a) :
    Act.Safe P st (Act.need o) := by
  rw [ho]
  exact .pure hst h

theorem get (hst : st.Sound) : Act.Safe (fun st' st'' => st' = st ∧ st'' = st) st MonadState.get :=
  Keeps.get hst (.refl _) ⟨rfl, rfl⟩

theorem set (hst' : st'.Sound) (hle : st.extent.Le st'.extent) :
    Act.Safe (fun st'' _ => st'' = st') st (MonadState.set st') := Keeps.set hst' hle rfl

theorem bind {c : Act α} {f : α → Act β} (h : c.Safe P st)
    (hf : ∀ a st', st'.Sound → st.extent.Le st'.extent → P st' a → (f a).Safe Q st') :
    (c >>= f).Safe Q st :=
  Keeps.bind (R := fun st st' : Store => st.extent.Le st'.extent) (fun h h' => h.trans h') h
    fun a st' _ hst' hle ha => hf a st' hst' hle ha

/-- A check leaves the store as it is. -/
theorem check_bind (hst : st.Sound) {r : Except String α} {f : α → Act β}
    (hf : ∀ a, r = .ok a → (f a).Safe Q st) : (Act.check r >>= f).Safe Q st := by
  cases r with
  | ok a => exact hf a rfl
  | error text => exact .fail hst

theorem need_bind {o : Option α} {f : α → Act β} (ho : o = some a) (hf : (f a).Safe Q st) :
    (Act.need o >>= f).Safe Q st := by
  rw [ho]
  exact hf

theorem get_bind {f : Store → Act β} (hf : (f st).Safe Q st) : (MonadState.get >>= f).Safe Q st := hf

/-- The store is replaced. -/
theorem set_bind (hst' : st'.Sound) (hle : st.extent.Le st'.extent) {f : PUnit → Act β}
    (hf : (f ⟨⟩).Safe Q st') : (MonadState.set st' >>= f).Safe Q st := by
  refine (set hst' hle).bind fun _ st'' _ _ h => ?_
  rw [h]
  exact hf

/-- A store and a result are left. -/
theorem leave {v : Value} (hst' : st'.Sound) (hle : st.extent.Le st'.extent)
    (hv : v.Sound st'.extent) : Act.Returns st (do MonadState.set st'; Pure.pure v) :=
  set_bind hst' hle (pure hst' hv)

theorem fault_bind (hst : st.Sound) {r : Except Fault α} {f : α → Act β}
    (he : ∀ e, r = .error e → e ≠ .illegal) (hf : ∀ a, r = .ok a → (f a).Safe Q st) :
    (Act.ofFault r >>= f).Safe Q st := by
  cases r with
  | ok a => exact hf a rfl
  | error e => exact .throw hst (he e rfl)

end Act.Safe

end

/-! ## Arguments -/

section

variable {α : Type} {pick : Value → Option α} {args : List Value} {i n : Nat} {expected : String}

theorem guardn_ok {k : Nat} {u : Unit} (h : guardn n k = .ok u) : n = k := by
  unfold guardn at h
  split at h
  · cases h
  · exact not_not.mp ‹_›

/-- The only argument. -/
theorem guardn_one {u : Unit} (h : guardn args.length 1 = .ok u) : ∃ v, args = [v] :=
  List.length_eq_one_iff.mp (guardn_ok h)

theorem guardv_ok {a : α} (h : guardv expected pick args i = .ok a) : ∃ v ∈ args, pick v = some a := by
  unfold guardv at h
  split at h
  · rename_i a' ha
    obtain rfl := Except.ok.inj h
    obtain ⟨v, hv, hpick⟩ := Option.bind_eq_some_iff.mp ha
    exact ⟨v, List.mem_of_getElem? hv, hpick⟩
  · cases h

theorem guardNum_ok {x : Number} (h : guardNum args i = .ok x) : .num x ∈ args := by
  unfold guardNum at h
  split at h
  · cases h
    exact List.mem_of_getElem? ‹_›
  · cases h

theorem guardBase_ok [Libdeci] {x : Number} {base : Nat} (h : guardBase x = .ok base) :
    2 ≤ base ∧ base ≤ 36 := by
  unfold guardBase at h
  dsimp only at h
  split at h
  · cases h
  · obtain rfl := Except.ok.inj h
    omega

theorem Value.list?_eq {v : Value} {id : Nat} (h : v.list? = some id) : v = .list id := by
  cases v with
  | list id' => rw [Option.some.inj h]
  | _ => cases h

theorem Value.dict?_eq {v : Value} {id : Nat} (h : v.dict? = some id) : v = .dict id := by
  cases v with
  | dict id' => rw [Option.some.inj h]
  | _ => cases h

theorem Value.weakref?_eq {v : Value} {id : Nat} (h : v.weakref? = some id) : v = .weakref id := by
  cases v with
  | weakref id' => rw [Option.some.inj h]
  | _ => cases h

end

/-! ## Sound arguments -/

/-- A call with sound arguments on a sound store. -/
structure Callable [DeciBase] (st : Store) (args : List Value) : Prop where
  store : st.Sound
  args : ∀ v ∈ args, v.Sound st.extent

namespace Callable

variable [Libdeci] {st : Store} {args : List Value} {i : Nat} {expected : String}

theorem num_wf (h : Callable st args) {x : Number} (hx : guardNum args i = .ok x) : x.Wf :=
  h.args _ (guardNum_ok hx)

theorem list_at (h : Callable st args) {id : Nat}
    (hid : guardv expected Value.list? args i = .ok id) :
    ∃ l, st.lists[id]? = some l ∧ ∀ v ∈ l, v.Sound st.extent := by
  obtain ⟨v, hv, hpick⟩ := guardv_ok hid
  have hsound := h.args v hv
  rw [Value.list?_eq hpick] at hsound
  have hlist := List.getElem?_eq_getElem (l := st.lists) (i := id) hsound
  exact ⟨_, hlist, h.store.containers.lists _ (List.mem_of_getElem? hlist)⟩

theorem dict_at (h : Callable st args) {id : Nat}
    (hid : guardv expected Value.dict? args i = .ok id) :
    ∃ d m, st.dicts[id]? = some d ∧ Str.Holds d m ∧
      ∀ key v, m.lookup key = some v → v.Sound st.extent := by
  obtain ⟨v, hv, hpick⟩ := guardv_ok hid
  have hsound := h.args v hv
  rw [Value.dict?_eq hpick] at hsound
  have hdict := List.getElem?_eq_getElem (l := st.dicts) (i := id) hsound
  obtain ⟨m, hm, hall⟩ := h.store.containers.dicts _ (List.mem_of_getElem? hdict)
  exact ⟨_, m, hdict, hm, hall⟩

theorem weakref_at (h : Callable st args) {id : Nat}
    (hid : guardv expected Value.weakref? args i = .ok id) :
    ∃ o, st.weakrefs[id]? = some o ∧ ∀ v ∈ o, v.Sound st.extent := by
  obtain ⟨v, hv, hpick⟩ := guardv_ok hid
  have hsound := h.args v hv
  rw [Value.weakref?_eq hpick] at hsound
  have htarget := List.getElem?_eq_getElem (l := st.weakrefs) (i := id) hsound
  exact ⟨_, htarget, h.store.weakrefs _ (List.mem_of_getElem? htarget)⟩

end Callable

/-! ## Kinds, text and numbers -/

section

variable [Libdeci] {st : Store} {args : List Value} {o : Outside}

theorem Callable.xDasm (h : Callable st args) : (xDasm args).Returns st := by
  apply Act.Safe.check_bind h.store
  intro _ _
  apply Act.Safe.check_bind h.store
  intro _ _
  exact .pure h.store trivial

theorem Callable.xKind (h : Callable st args) : (xKind args).Returns st := by
  apply Act.Safe.check_bind h.store
  intro _ hn
  obtain ⟨v, rfl⟩ := guardn_one hn
  exact .pure h.store trivial

theorem Callable.xOrd (h : Callable st args) : (xOrd args).Returns st := by
  apply Act.Safe.check_bind h.store
  intro _ _
  apply Act.Safe.check_bind h.store
  intro s _
  split
  · exact .fail h.store
  · exact .pure h.store (numberNewFromZu_spec _).1

theorem Callable.xChr (h : Callable st args) : (xChr args).Returns st := by
  apply Act.Safe.check_bind h.store
  intro _ _
  apply Act.Safe.check_bind h.store
  intro n _
  exact .pure h.store trivial

theorem Callable.xError (h : Callable st args) : (xError args).Returns st := by
  apply Act.Safe.check_bind h.store
  intro _ _
  apply Act.Safe.check_bind h.store
  intro s _
  exact .fail h.store

theorem Callable.xInput (h : Callable st args) : (xInput o args).Returns st := by
  apply Act.Safe.check_bind h.store
  intro _ _
  exact .pure h.store trivial

theorem Callable.xRandom32 (h : Callable st args) : (xRandom32 o args).Returns st := by
  apply Act.Safe.check_bind h.store
  intro _ _
  apply Act.Safe.check_bind h.store
  intro word _
  exact .pure h.store (numberNewFromZu_spec _).1

theorem Callable.xWhere (h : Callable st args) : (xWhere args).Returns st := by
  apply Act.Safe.check_bind h.store
  intro _ _
  exact .pure h.store trivial

theorem Callable.xToNumber (h : Callable st args) : (xToNumber args).Returns st := by
  apply Act.Safe.check_bind h.store
  intro _ _
  apply Act.Safe.check_bind h.store
  intro s _
  split
  · exact .fail h.store
  · rename_i hvalid
    exact .pure h.store (numberParse_spec (by simpa using hvalid)).1

theorem Callable.xMapNumber (h : Callable st args) {f : Number → Number}
    (hf : ∀ x : Number, x.Wf → (f x).Wf) : (Act.check (xMapNumber f args)).Returns st := by
  apply Act.Safe.check h.store
  intro v hv
  obtain ⟨x, rfl, rfl⟩ := xMapNumber_ok_iff.mp hv
  exact hf x (h.args _ (List.mem_singleton_self _))

theorem Callable.xMovePoint (h : Callable st args) {f : Number → Nat → Number}
    (hf : ∀ (x : Number) (n : Nat), x.Wf → (f x n).Wf) :
    (Act.check (xMovePoint f args)).Returns st := by
  apply Act.Safe.check h.store
  intro v hv
  unfold Calx.xMovePoint at hv
  obtain ⟨_, -, hv⟩ := bind_ok hv
  obtain ⟨x, hx, hv⟩ := bind_ok hv
  obtain ⟨m, -, hv⟩ := bind_ok hv
  obtain ⟨mag, -, hv⟩ := bind_ok hv
  obtain rfl := Except.ok.inj hv
  exact hf x mag (h.num_wf hx)

theorem Callable.xClock (h : Callable st args) : (xClock o args).Returns st := by
  apply Act.Safe.check_bind h.store
  intro _ _
  cases o.clock with
  | none => exact .fail h.store
  | some t =>
      have hvalid := (clockNumeral t.1 t.2).text_accepted (by norm_num)
      exact .pure h.store (numberParse_spec hvalid).1

theorem Callable.xNumDigits (h : Callable st args) : (xNumDigitsOf args).Returns st := by
  unfold xNumDigitsOf Calx.xNumDigits
  cases hargs : numDigitsArgs args with
  | error text => exact .fail h.store
  | ok r =>
      obtain ⟨_, -, hargs⟩ := bind_ok hargs
      obtain ⟨x, hx, hargs⟩ := bind_ok hargs
      obtain ⟨s, -, hargs⟩ := bind_ok hargs
      obtain rfl := Except.ok.inj hargs
      obtain ⟨n, hn⟩ : ∃ n, countDigits x s = some n := by
        rw [countDigits, numberNfracdigits_eq (h.num_wf hx)]
        split_ifs <;> exact ⟨_, rfl⟩
      dsimp only
      rw [hn]
      refine .check h.store fun v hv => ?_
      obtain ⟨k, -, hv⟩ := bind_ok hv
      unfold digitsResult at hv
      split at hv
      · cases hv
      · obtain rfl := Except.ok.inj hv
        exact (numberNewFromZu_spec _).1

/-- The size that `X_Encode` reserves is enough. -/
theorem encode_fits {a : Number} (ha : a.Wf) {base scale : Nat} (hb : 2 ≤ base) (hb' : base ≤ 36) :
    ∃ nr, numberTostringBaseSize 65 a base scale = some nr ∧
      (nr ≠ sizeMax → ∃ text, numberTostringBase (nr + 1) nr a base scale = some text) := by
  have hdpw : dpwLoop base 65 1 0 = some (Nat.clog base deciBase) :=
    dpwLoop_eq hb (Nat.zero_le _) (Nat.lt_succ_of_le (clog_deciBase_le hb))
  refine ⟨_, by rw [numberTostringBaseSize, hdpw]; rfl, fun hsize => ?_⟩
  rw [baseSize_eq] at hsize ⊢
  refine ⟨_, numberTostringBase_eq ha hb hb' rfl rfl ?_ ?_⟩ <;> omega

theorem Callable.xEncode (h : Callable st args) : (xEncode args).Returns st := by
  apply Act.Safe.check_bind h.store
  intro _ _
  apply Act.Safe.check_bind h.store
  intro a ha
  apply Act.Safe.check_bind h.store
  intro b _
  apply Act.Safe.check_bind h.store
  intro scale _
  apply Act.Safe.check_bind h.store
  intro base hbase
  obtain ⟨hb, hb'⟩ := guardBase_ok hbase
  obtain ⟨nr, hnr, htext⟩ := encode_fits (h.num_wf ha) hb hb'
  apply Act.Safe.need_bind hnr
  split
  · exact .throw h.store Fault.noConfusion
  · obtain ⟨text, htext⟩ := htext ‹_›
    exact Act.Safe.need_bind htext (.pure h.store trivial)

theorem Callable.xDecode (h : Callable st args) : (xDecode args).Returns st := by
  apply Act.Safe.check_bind h.store
  intro _ _
  apply Act.Safe.check_bind h.store
  intro s _
  apply Act.Safe.check_bind h.store
  intro b _
  apply Act.Safe.check_bind h.store
  intro base hbase
  obtain ⟨hb, hb'⟩ := guardBase_ok hbase
  split
  · exact .fail h.store
  · apply Act.Safe.get_bind
    obtain ⟨p, hp⟩ := h.store.ntp
    rw [hp]
    exact .pure h.store (numberParseBase_spec (by omega) (by omega) s p).1

theorem Callable.xScale (h : Callable st args) : (xScaleOf args).Returns st := by
  apply Act.Safe.get_bind
  apply Act.Safe.check_bind h.store
  rintro ⟨v, ntp⟩ hscale
  obtain ⟨_, -, hscale⟩ := bind_ok hscale
  have hresult : v.Sound st.extent ∧ ∃ p, ntp = ntpFromPrec p := by
    split at hscale
    · cases hscale
      exact ⟨(numberNewFromZu_spec _).1, h.store.ntp⟩
    · obtain ⟨n, -, hscale⟩ := bind_ok hscale
      obtain ⟨p, -, hscale⟩ := bind_ok hscale
      cases hscale
      exact ⟨trivial, p, rfl⟩
  have hst' : ({ st with ntp := ntp } : Store).Sound :=
    ⟨h.store.containers, h.store.weakrefs, h.store.globals, h.store.values, hresult.2⟩
  exact .leave hst' (.refl _) hresult.1

theorem Callable.xRawWrite (h : Callable st args) : (xRawWrite args).Returns st := by
  apply Act.Safe.check_bind h.store
  intro _ _
  apply Act.Safe.check_bind h.store
  intro s _
  apply Act.Safe.get_bind
  have hst' : ({ st with out := st.out ++ s } : Store).Sound :=
    ⟨h.store.containers, h.store.weakrefs, h.store.globals, h.store.values, h.store.ntp⟩
  exact .leave hst' (.refl _) trivial

/-! ## Containers and weak references -/

omit [Libdeci] in
theorem iterFuel_spec {hash : Bytes → UInt32} {d : Str.Dict} (h : d.Wf hash) :
    d.items.length < iterFuel ∧ d.nbuckets < iterFuel := by
  have hle := h.length_le
  obtain ⟨r, hr, hn⟩ := h.rank
  have hpow : 2 ^ r ≤ 2 ^ 31 := Nat.pow_le_pow_right (by decide) hr
  unfold maxItems at hle
  unfold iterFuel
  omega

omit [Libdeci] in
/-- `wref_new`. -/
theorem Store.Sound.newWeakref [DeciBase] (hst : st.Sound) {v : Value} (hv : v.Sound st.extent) :
    ({ st with weakrefs := st.weakrefs ++ [some v] } : Store).Sound ∧
      st.extent.Le ({ st with weakrefs := st.weakrefs ++ [some v] } : Store).extent := by
  have hle : st.extent.Le ({ st with weakrefs := st.weakrefs ++ [some v] } : Store).extent := by
    refine ⟨le_rfl, le_rfl, ?_, List.prefix_rfl⟩
    simp [Store.extent]
  refine ⟨⟨hst.containers.imp fun u hu => hu.mono hle, fun o ho u hu => ?_, hst.globals,
    fun o ho u hu => (hst.values o ho u hu).mono hle, hst.ntp⟩, hle⟩
  rcases List.mem_append.mp ho with ho | ho
  · exact (hst.weakrefs o ho u hu).mono hle
  · rw [List.mem_singleton.mp ho] at hu
    rw [← Option.some.inj hu]
    exact hv.mono hle

theorem Callable.xPop (h : Callable st args) : (xPop args).Returns st := by
  apply Act.Safe.check_bind h.store
  intro _ _
  apply Act.Safe.check_bind h.store
  intro id hid
  apply Act.Safe.get_bind
  obtain ⟨l, hlist, hsound⟩ := h.list_at hid
  apply Act.Safe.need_bind hlist
  cases hlast : l.getLast? with
  | none => exact .fail h.store
  | some v =>
      have hpopped := h.store.containers.setList (l := l.dropLast)
        (fun u hu => hsound u (List.mem_of_mem_dropLast hu)) id
      obtain ⟨hst', hextent⟩ := h.store.withContainers hpopped (Containers.sameSize_setList _)
      refine .leave hst' (hextent ▸ Extent.Le.refl _) ?_
      rw [hextent]
      exact hsound v (List.mem_of_getLast? hlast)

theorem Callable.xRemoveKey (h : Callable st args) : (xRemoveKey args).Returns st := by
  apply Act.Safe.check_bind h.store
  intro _ _
  apply Act.Safe.check_bind h.store
  intro id hid
  apply Act.Safe.check_bind h.store
  intro key _
  apply Act.Safe.get_bind
  obtain ⟨d, m, hdict, hm, hsound⟩ := h.dict_at hid
  obtain ⟨d', hrun, hd'⟩ := Str.xhtRemove_holds hm key
  apply Act.Safe.need_bind hdict
  rw [hrun]
  have hremoved := h.store.containers.setDict hd' (fun k v hv => ?_) id
  · obtain ⟨hst', hextent⟩ := h.store.withContainers hremoved (Containers.sameSize_setDict _)
    exact .leave hst' (hextent ▸ Extent.Le.refl _) trivial
  · rcases eq_or_ne k key with rfl | hne
    · rw [Finmap.lookup_erase] at hv
      cases hv
    · rw [Finmap.lookup_erase_ne hne] at hv
      exact hsound k v hv

theorem Callable.xNextKey (h : Callable st args) : (xNextKey args).Returns st := by
  apply Act.Safe.check_bind h.store
  intro _ _
  apply Act.Safe.check_bind h.store
  intro id hid
  apply Act.Safe.check_bind h.store
  intro s _
  apply Act.Safe.get_bind
  obtain ⟨d, m, hdict, ⟨hwf, -⟩, -⟩ := h.dict_at hid
  apply Act.Safe.need_bind hdict
  obtain ⟨hitems, hbuckets⟩ := iterFuel_spec hwf
  obtain ⟨i, hi, hpoints⟩ : ∃ i, nextKey d s = .ok i ∧ d.Points i := by
    cases s with
    | none => exact hwf.first hbuckets
    | some key => exact hwf.next key hitems hbuckets
  rw [hi]
  change Act.Safe _ st (if i = noIndex then _ else _)
  split
  · exact .pure h.store trivial
  · obtain rfl | ⟨item, hitem⟩ := hpoints
    · exact absurd rfl ‹_›
    · rw [xhtIndexedKey, xhtLoad_eq_ok.mpr hitem]
      exact .pure h.store trivial

theorem Callable.xWref (h : Callable st args) : (xWref args).Returns st := by
  apply Act.Safe.check_bind h.store
  intro _ hn
  obtain ⟨v, rfl⟩ := guardn_one hn
  apply Act.Safe.need_bind (a := v) rfl
  obtain ⟨hst', hle⟩ := h.store.newWeakref (h.args v (List.mem_singleton_self v))
  have hnew : st.weakrefs.length < (st.weakrefs ++ [some v]).length := by
    rw [List.length_append, List.length_singleton]
    exact Nat.lt_succ_self _
  cases v with
  | list id => exact .leave hst' hle hnew
  | dict id => exact .leave hst' hle hnew
  | _ => exact .fail h.store

theorem Callable.xWvalue (h : Callable st args) : (xWvalue o args).Returns st := by
  apply Act.Safe.check_bind h.store
  intro _ _
  apply Act.Safe.check_bind h.store
  intro id hid
  apply Act.Safe.get_bind
  obtain ⟨target, htarget, hsound⟩ := h.weakref_at hid
  apply Act.Safe.need_bind htarget
  refine .pure h.store ?_
  split
  · trivial
  · cases target with
    | none => trivial
    | some v => exact hsound v rfl

end

/-! ## Interning -/

section

variable [Libdeci] {st : Store} {args : List Value} {o : Outside} {source : Bytes}

omit [Libdeci] in
/-- The names that are new come out in the order in which they have been put. -/
theorem putNames_append_new {names new : List Bytes} (h : (names ++ new).Nodup) :
    putNames names new = names ++ new := by
  induction new generalizing names with
  | nil => exact (List.append_nil _).symm
  | cons x new ih =>
      have hassoc : names ++ x :: new = names ++ [x] ++ new := by simp
      have hx : x ∉ names := fun hmem =>
        (List.nodup_append.mp h).2.2 x hmem x List.mem_cons_self rfl
      rw [hassoc] at h
      rw [putNames, List.foldl_cons, putName, if_neg hx, hassoc]
      exact ih h

omit [Libdeci] in
/-- Putting the new names again gives the same table. -/
theorem putNames_again {names xs : List Bytes} (h : names.Nodup) :
    putNames names ((putNames names xs).drop names.length) = putNames names xs := by
  obtain ⟨new, hnew⟩ := putNames_isPrefix names xs
  have hnodup := putNames_nodup h xs
  rw [← hnew] at hnodup
  rw [← hnew, List.drop_left, putNames_append_new hnodup]

/-- Interning a name adds a global at most. -/
theorem Store.Sound.intern (hst : st.Sound) {name : Bytes} {idx : Nat} {g : Globals}
    (h : Globals.Interned st.globals name idx g) : ({ st with globals := g } : Store).Sound ∧
      st.extent.Le ({ st with globals := g } : Store).extent := by
  have hle : st.extent.Le ({ st with globals := g } : Store).extent :=
    ⟨le_rfl, le_rfl, le_rfl, h.names_prefix⟩
  refine ⟨⟨hst.containers.imp fun u hu => hu.mono hle, fun u hu v hv => (hst.weakrefs u hu v hv).mono hle,
    h.wf, fun u hu v hv => ?_, hst.ntp⟩, hle⟩
  have hmem : u ∈ st.globals.globals.data ∨ u = none := by
    have hdata : u ∈ g.globals.data := hu
    rw [h.values] at hdata
    split at hdata
    · exact .inl hdata
    · rcases List.mem_append.mp hdata with hmem | hmem
      · exact .inl hmem
      · exact .inr (List.mem_singleton.mp hmem)
  rcases hmem with hmem | rfl
  · exact (hst.values u hmem v hv).mono hle
  · cases hv

/-- Names are interned in turn, or the table is full. -/
theorem Store.Sound.internAll (hst : st.Sound) (xs : List Bytes) :
    (∃ g, Globals.globalRun st.globals (xs.map .intern) = .ok g ∧
      ({ st with globals := g } : Store).Sound ∧
      st.extent.Le ({ st with globals := g } : Store).extent) ∨
    Globals.globalRun st.globals (xs.map .intern) = .error (.table .panic) := by
  induction xs generalizing st with
  | nil => exact .inl ⟨st.globals, rfl, hst, .refl _⟩
  | cons x xs ih =>
      obtain ⟨idx, g, hrun, hint⟩ | ⟨-, -, hfull⟩ := Globals.stateInternGlobal_spec hst.globals x
      · obtain ⟨hst', hle⟩ := hst.intern hint
        have hstep : Globals.globalRun st.globals ((x :: xs).map .intern) =
            Globals.globalRun g (xs.map .intern) := by
          rw [Globals.globalRun, List.map_cons, List.foldlM_cons, Globals.globalCall, hrun]
          rfl
        obtain ⟨g', hrun', hst'', hle'⟩ | hfull := ih hst'
        · exact .inl ⟨g', hstep.trans hrun', hst'', hle.trans hle'⟩
        · exact .inr (hstep.trans hfull)
      · right
        rw [Globals.globalRun, List.map_cons, List.foldlM_cons, Globals.globalCall, hfull]
        rfl

theorem Act.Safe.internAll (hst : st.Sound) (xs : List Bytes) :
    Act.Safe (fun st' _ => st'.globals.names = putNames st.globals.names xs) st (internAll xs) := by
  apply Act.Safe.get_bind
  obtain ⟨g, hrun, hst', hle⟩ | hfull := hst.internAll xs
  · rw [hrun]
    refine (Act.Safe.set hst' hle).imp fun st' _ h => ?_
    rw [h]
    exact Globals.globalRun_intern hst.globals hrun
  · rw [hfull]
    exact .throw hst Fault.noConfusion

/-! ## Sources -/

omit [Libdeci] in
/-- What native functions rely on. -/
structure Outside.Lawful (o : Outside) : Prop where
  /-- One object is one value. -/
  sharing : ∀ left right, (o.base.sharing left right).Fits left right
  /-- `mk_func` makes what it is told to make. -/
  made : ∀ c i f, o.base.mkFunc c i = some f → f.chunk = c ∧ f.ip = i
  makes : ∀ f : Func, ∃ f', o.base.mkFunc f.chunk f.ip = some f'

/-- A source is compiled into sound code, or rejected. -/
theorem Act.Safe.loadString (hst : st.Sound) (ho : o.Lawful) (hsource : Unposted source)
    (origin : String) : Act.Safe (fun st' r => ∀ f ∈ r, f.chunk.Sound st'.extent.globals) st
      (loadString o source origin) := by
  apply Act.Safe.get_bind
  rcases hparse : parse st.globals.names source origin with e | ⟨c, names⟩
  · refine (Act.Safe.internAll hst o.tried).bind fun _ st' hst' _ _ => ?_
    exact .pure hst' fun f hf => (nomatch hf)
  · obtain ⟨body, htree, hsound, ⟨f, hchunk, hip⟩, xs, hnames⟩ := parse_sound_chunk hparse
    refine (Act.Safe.internAll hst _).bind fun _ st' hst' _ hst'names => ?_
    rw [hnames, putNames_again hst.globals.nodup, ← hnames] at hst'names
    obtain ⟨f', hf'⟩ := ho.makes f
    rw [hchunk, hip] at hf'
    refine Act.Safe.need_bind hf' (.pure hst' ?_)
    rintro _ ⟨⟩
    have hextent : st'.extent.globals = names := hst'names
    rw [(ho.made _ _ _ hf').1, hextent]
    exact hsound (hsource body htree)

/-- The number of a native function. -/
def Outside.Numbers (o : Outside) (id : Nat) (name : String) : Prop :=
  (natives o)[id]?.map Prod.fst = some name

/-- The source that a call of `LoadString` or `Require` compiles. -/
def Outside.Parses (o : Outside) (id : Nat) (args : List Value) (source : Bytes) : Prop :=
  (o.Numbers id "LoadString" ∧ args = [.str source]) ∨
    o.Numbers id "Require" ∧ ∃ calxPath s, args = [.str s] ∧ o.calxPath = some calxPath ∧
      o.file (modulePath calxPath s) = some source

/-- The call of `RawRead` reads a line, with a `getline` on variables that have not been set. -/
def Outside.ReadsLine (o : Outside) (id : Nat) (args : List Value) : Prop :=
  o.Numbers id "RawRead" ∧ (args = [.str [ch 'L']] ∨ args = [.str [ch 's']])

/-- What a call of a native function relies on. -/
structure Outside.Fair (o : Outside) (id : Nat) (st : Store) (args : List Value) : Prop where
  sources : ∀ source, o.Parses id args source → Unposted source
  lines : o.ReadsLine id args → o.line ≠ .error .illegal
  /-- A module has been evaluated safely. -/
  module : o.Numbers id "Require" → ∀ f st', f.chunk.Sound st'.extent.globals → st'.Sound →
    outcome (requireModule o args) st = (.ok f, st') → NativeSound st' o.evaluated

omit [Libdeci] in
theorem guardStr_one {s : Bytes} {u : Unit} (hn : guardn args.length 1 = .ok u)
    (hs : guardStr args 0 = .ok s) : args = [.str s] := by
  obtain ⟨v, rfl⟩ := guardn_one hn
  unfold guardStr at hs
  split at hs
  · rename_i s' hv
    obtain rfl := Except.ok.inj hs
    rw [Option.some.inj hv]
  · cases hs

theorem Callable.xRawRead (h : Callable st args)
    (hline : args = [.str [ch 'L']] ∨ args = [.str [ch 's']] → o.line ≠ .error .illegal) :
    (xRawRead o args).Returns st := by
  apply Act.Safe.check_bind h.store
  intro _ hn
  apply Act.Safe.check_bind h.store
  intro s hs
  have hargs := guardStr_one hn hs
  have hread : s = [ch 'L'] ∨ s = [ch 's'] → ∀ e, o.line = .error e → e ≠ .illegal := by
    rintro hmode e he rfl
    refine hline ?_ he
    rcases hmode with rfl | rfl
    · exact .inl hargs
    · exact .inr hargs
  split
  · rename_i hmode
    apply Act.Safe.fault_bind h.store (hread (.inl hmode))
    intro line _
    exact .pure h.store trivial
  · split
    · rename_i hmode
      apply Act.Safe.fault_bind h.store (hread (.inr hmode))
      intro line _
      exact .pure h.store trivial
    · split
      · exact .pure h.store trivial
      · exact .fail h.store

theorem Callable.xLoadString (h : Callable st args) (ho : o.Lawful)
    (hsource : ∀ source, args = [.str source] → Unposted source) :
    (xLoadString o args).Returns st := by
  apply Act.Safe.check_bind h.store
  intro _ hn
  apply Act.Safe.check_bind h.store
  intro s hs
  refine (Act.Safe.loadString h.store ho (hsource s (guardStr_one hn hs)) _).bind
    fun r st' hst' _ hr => ?_
  cases r with
  | none => exact .fail hst'
  | some f => exact .pure hst' (hr f rfl)

theorem Callable.requireModule (h : Callable st args) (ho : o.Lawful)
    (hsource : ∀ source calxPath s, args = [.str s] → o.calxPath = some calxPath →
      o.file (modulePath calxPath s) = some source → Unposted source) :
    (requireModule o args).Safe (fun st' f => f.chunk.Sound st'.extent.globals) st := by
  apply Act.Safe.check_bind h.store
  intro _ hn
  apply Act.Safe.check_bind h.store
  intro s hs
  cases hpath : o.calxPath with
  | none => exact .fail h.store
  | some calxPath =>
      dsimp only
      split_ifs
      · exact .fail h.store
      · exact .fail h.store
      · exact .fail h.store
      · cases hfile : o.file (modulePath calxPath s) with
        | none => exact .fail h.store
        | some source =>
            have hunposted := hsource source calxPath s (guardStr_one hn hs) hpath hfile
            refine (Act.Safe.loadString h.store ho hunposted _).bind fun r st' hst' _ hr => ?_
            cases r with
            | none => exact .fail hst'
            | some f => exact .pure hst' (hr f rfl)

theorem Act.Safe.evaluateModule (h : NativeSound st o.evaluated) :
    (evaluateModule o).Returns st := by
  unfold Calx.evaluateModule
  rcases hend : o.evaluated with ⟨e | v, st'⟩ <;> rw [hend] at h
  · obtain ⟨he, hst', hle⟩ := h
    apply Act.Safe.set_bind hst' hle
    cases e with
    | thrown message => exact .fail hst'
    | panic => exact .throw hst' he
    | illegal => exact absurd rfl he
  · obtain ⟨hv, hst', hle⟩ := h
    exact .leave hst' hle hv

theorem Callable.xRequire (h : Callable st args) (ho : o.Lawful)
    (hsource : ∀ source calxPath s, args = [.str s] → o.calxPath = some calxPath →
      o.file (modulePath calxPath s) = some source → Unposted source)
    (hmodule : ∀ f st', f.chunk.Sound st'.extent.globals → st'.Sound →
      outcome (Calx.requireModule o args) st = (.ok f, st') → NativeSound st' o.evaluated) :
    (xRequire o args).Returns st :=
  Keeps.bind (R := fun st st' : Store => st.extent.Le st'.extent) (fun h h' => h.trans h')
    (h.requireModule ho hsource) fun f st' hrun hst' _ hf =>
      Act.Safe.evaluateModule (hmodule f st' hf hst' hrun)

/-! ## The table -/

/-- Every native function does nothing undefined when it is called as it relies on. -/
theorem Callable.native (h : Callable st args) (ho : o.Lawful) {id : Nat} (hid : id < nativeCount)
    (hfair : o.Fair id st args) : NativeSound st (o.world.natives id st args) := by
  have hreturns : ∀ x, (natives o)[id]? = some x → (x.2 args).Returns st := by
    unfold nativeCount at hid
    interval_cases id <;> rintro _ ⟨⟩
    · exact h.xDasm
    · exact h.xKind
    · exact h.xPop
    · exact h.xRemoveKey
    · exact h.xInput
    · exact h.xOrd
    · exact h.xChr
    · exact h.xError
    · exact h.xRawRead fun hargs => hfair.lines ⟨rfl, hargs⟩
    · exact h.xRawWrite
    · exact h.xClock
    · exact h.xScale
    · exact h.xWhere
    · exact h.xRandom32
    · exact h.xMapNumber fun x hx => (numberTrunc_spec false hx).1
    · exact h.xMapNumber fun x hx => (numberFloor_spec false hx).1
    · exact h.xMapNumber fun x hx => (numberCeil_spec false hx).1
    · exact h.xMapNumber fun x hx => (numberRound_spec false hx).1
    · exact h.xMapNumber fun x hx => (numberFrac_spec false hx).1
    · exact h.xLoadString ho fun source hargs => hfair.sources source (.inl ⟨rfl, hargs⟩)
    · exact h.xRequire ho
        (fun source calxPath s hargs hpath hfile =>
          hfair.sources source (.inr ⟨rfl, calxPath, s, hargs, hpath, hfile⟩))
        (hfair.module rfl)
    · exact h.xNextKey
    · exact h.xToNumber
    · exact h.xEncode
    · exact h.xDecode
    · exact h.xNumDigits
    · exact h.xMovePoint fun x n hx => (numberScaleDown_spec false hx n).1
    · exact h.xMovePoint fun x n hx => (numberScaleUp_spec false hx n).1
    · exact h.xWref
    · exact h.xWvalue
  obtain ⟨x, hx⟩ : ∃ x, (natives o)[id]? = some x :=
    ⟨_, List.getElem?_eq_getElem (l := natives o) (i := id) hid⟩
  unfold Outside.world
  dsimp only
  rw [hx]
  exact nativeSound_of_returns (hreturns x hx)

/-- The machine can rely on a world with the native functions of the table. -/
theorem Outside.Lawful.world (ho : o.Lawful) : o.world.Lawful o.Fair where
  native _ _ _ hid hst hargs hfair := Callable.native ⟨hst, hargs⟩ ho hid hfair
  sharing := ho.sharing
  made := ho.made
  makes := ho.makes

end

end Calx
