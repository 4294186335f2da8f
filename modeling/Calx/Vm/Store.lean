import Calx.Vm.Guarantees

/-!
# The store

What values refer to is there, and stays there: the objects are numbered from zero on and
the globals only become more. The operations on lists, dicts and globals keep this, and
none of them runs into what C leaves undefined.

## Implementation notes

A property of values that nil and the strings have carries over to what the containers
hold; `Value.Sound` is the one that matters.
-/

namespace Calx

open Libdeci

/-! ## Sound values -/

/-- How many objects there are, and the names of the globals. -/
structure Extent where
  lists : Nat
  dicts : Nat
  weakrefs : Nat
  globals : List Bytes

/-- Objects and globals that there are stay there. -/
structure Extent.Le (x y : Extent) : Prop where
  lists : x.lists ≤ y.lists
  dicts : x.dicts ≤ y.dicts
  weakrefs : x.weakrefs ≤ y.weakrefs
  globals : x.globals <+: y.globals

theorem Extent.Le.refl (x : Extent) : x.Le x := ⟨le_rfl, le_rfl, le_rfl, List.prefix_rfl⟩

theorem Extent.Le.trans {x y z : Extent} (h : x.Le y) (h' : y.Le z) : x.Le z :=
  ⟨h.lists.trans h'.lists, h.dicts.trans h'.dicts, h.weakrefs.trans h'.weakrefs,
    h.globals.trans h'.globals⟩

def Store.extent (st : Store) : Extent :=
  ⟨st.lists.length, st.dicts.length, st.weakrefs.length, st.globals.names⟩

/-- How many native functions there are. -/
def nativeCount : Nat := 30

/-- What a value refers to is there, its numbers are well-formed, and its code is sound. -/
def Value.Sound [DeciBase] (x : Extent) : Value → Prop
  | .num n => n.Wf
  | .list id => id < x.lists
  | .dict id => id < x.dicts
  | .weakref id => id < x.weakrefs
  | .func f => f.chunk.Sound x.globals
  | .cfunc id => id < nativeCount
  | _ => True

theorem Value.Sound.mono [DeciBase] {x y : Extent} {v : Value} (h : v.Sound x) (hle : x.Le y) :
    v.Sound y := by
  cases v with
  | num n => exact h
  | list id => exact Nat.lt_of_lt_of_le h hle.lists
  | dict id => exact Nat.lt_of_lt_of_le h hle.dicts
  | weakref id => exact Nat.lt_of_lt_of_le h hle.weakrefs
  | func f => exact Chunk.Sound.mono h hle.globals
  | cfunc id => exact h
  | _ => trivial

theorem Value.Sound.wf [DeciBase] {x : Extent} {v : Value} (h : v.Sound x) : v.Wf := by
  cases v with
  | num n => exact h
  | _ => trivial

/-! ## Containers -/

namespace Containers

/-- Dicts are maps, and what the lists and dicts contain has the property. -/
structure Of (P : Value → Prop) (h : Containers) : Prop where
  lists : ∀ l ∈ h.lists, ∀ v ∈ l, P v
  dicts : ∀ d ∈ h.dicts, ∃ m, Str.Holds d m ∧ ∀ key v, m.lookup key = some v → P v

variable {P Q : Value → Prop} {h h' : Containers} {id : Nat} {place : ElementPtr} {v c i : Value}

theorem Of.imp (hh : h.Of P) (hPQ : ∀ v, P v → Q v) : h.Of Q where
  lists l hl v hv := hPQ v (hh.lists l hl v hv)
  dicts d hd := by
    obtain ⟨m, hm, hall⟩ := hh.dicts d hd
    exact ⟨m, hm, fun key v hv => hPQ v (hall key v hv)⟩

theorem Of.wf [DeciBase] (hh : h.Of P) (hP : ∀ v, P v → v.Wf) : h.Wf := by
  have hwf := hh.imp hP
  exact ⟨hwf.lists, hwf.dicts⟩

theorem Of.setList (hh : h.Of P) {l : List Value} (hl : ∀ v ∈ l, P v) (id : Nat) :
    (h.setList id l).Of P := by
  refine ⟨fun l' hl' => ?_, hh.dicts⟩
  rcases List.mem_or_eq_of_mem_set hl' with hmem | rfl
  · exact hh.lists l' hmem
  · exact hl

theorem Of.setDict (hh : h.Of P) {d : Str.Dict} {m : ByteMap Value} (hd : Str.Holds d m)
    (hm : ∀ key v, m.lookup key = some v → P v) (id : Nat) : (h.setDict id d).Of P := by
  refine ⟨hh.lists, fun d' hd' => ?_⟩
  rcases List.mem_or_eq_of_mem_set hd' with hmem | rfl
  · exact hh.dicts d' hmem
  · exact ⟨m, hd, hm⟩

theorem of_insert {m : ByteMap Value} {key : Bytes} (hm : ∀ key v, m.lookup key = some v → P v)
    (hv : P v) : ∀ k u, (m.insert key v).lookup k = some u → P u := by
  intro k u hu
  rcases eq_or_ne k key with rfl | hne
  · rw [Finmap.lookup_insert] at hu
    exact Option.some.inj hu ▸ hv
  · rw [Finmap.lookup_insert_of_ne _ hne] at hu
    exact hm k u hu

theorem Of.write (hh : h.Of P) (hplace : h.HasPlace place) (hv : P v) : (h.write v place).Of P := by
  cases place with
  | element id idx =>
      apply hh.setList
      intro u hu
      rcases List.mem_or_eq_of_mem_set hu with hmem | rfl
      · exact hh.lists _ (list_mem hplace) u hmem
      · exact hv
  | entry id idx =>
      obtain ⟨hid, item, hitem⟩ := hplace
      obtain ⟨m, hd, hm⟩ := hh.dicts _ (dict_mem hid)
      exact hh.setDict (hd.setValue hitem v) (of_insert hm hv) id

theorem Of.read (hh : h.Of P) (hnil : P .nil) (hplace : h.HasPlace place) : P (h.read place) := by
  cases place with
  | element id idx =>
      rw [Containers.read, List.getD_eq_getElem?_getD]
      cases hget : (h.list id)[idx]? with
      | none => exact hnil
      | some v => exact hh.lists _ (list_mem hplace) v (List.mem_of_getElem? hget)
  | entry id idx =>
      obtain ⟨hid, item, hitem⟩ := hplace
      obtain ⟨m, hd, hm⟩ := hh.dicts _ (dict_mem hid)
      rw [Containers.read, hitem, Option.bind_some]
      cases hvalue : item.value with
      | none => exact hnil
      | some v => exact hm item.key v (hd.lookup_item hitem hvalue)

/-- As many lists and as many dicts. -/
def SameSize (h h' : Containers) : Prop :=
  h'.lists.length = h.lists.length ∧ h'.dicts.length = h.dicts.length

theorem sameSize_setList (l : List Value) : h.SameSize (h.setList id l) :=
  ⟨List.length_set, rfl⟩

theorem sameSize_setDict (d : Str.Dict) : h.SameSize (h.setDict id d) :=
  ⟨rfl, List.length_set⟩

theorem SameSize.trans {h'' : Containers} (hs : h.SameSize h') (hs' : h'.SameSize h'') :
    h.SameSize h'' := ⟨hs'.1.trans hs.1, hs'.2.trans hs.2⟩

theorem sameSize_write (place : ElementPtr) : h.SameSize (h.write v place) := by
  cases place with
  | element id idx => exact sameSize_setList _
  | entry id idx => exact sameSize_setDict _

/-! ## Elements -/

section

variable [Libdeci]

/-- What is loaded from a container has the property, and loading runs into nothing undefined. -/
theorem Of.getElemAt (hh : h.Of P) (hnil : P .nil) (hstr : ∀ s, P (.str s)) (hc : h.Has c)
    (i : Value) :
    (∀ v, getElemAt h c i = .ok v → P v) ∧
      ∀ e, getElemAt h c i = .error e → e.fault ≠ .illegal := by
  have hthrown : ∀ {text : String} {r : Except ElementError Value}, r = elementError text →
      (∀ v, r = .ok v → P v) ∧ ∀ e, r = .error e → e.fault ≠ .illegal := by
    rintro text r rfl
    constructor
    · intro v hv
      cases hv
    · rintro e ⟨⟩ he
      cases he
  cases c with
  | list id =>
      cases i with
      | num n =>
          constructor
          · rintro v ⟨⟩
            rw [List.getD_eq_getElem?_getD]
            cases hget : (h.list id)[numberToZu n]? with
            | none => exact hnil
            | some v => exact hh.lists _ (list_mem hc) v (List.mem_of_getElem? hget)
          · intro e he
            cases he
      | _ => exact hthrown rfl
  | dict id =>
      cases i with
      | str key =>
          obtain ⟨m, hd, hm⟩ := hh.dicts _ (dict_mem hc)
          have hget : xhtGet Str.chainFuel (h.dict id) key (hashStr key) none = .ok (m.lookup key) :=
            Str.xhtGet_holds hd
          simp only [Calx.getElemAt, hget]
          constructor
          · rintro v ⟨⟩
            cases hkey : m.lookup key with
            | none => exact hnil
            | some v => exact hm key v hkey
          · intro e he
            cases he
      | _ => exact hthrown rfl
  | str s =>
      cases i with
      | num n =>
          constructor
          · rintro v ⟨⟩
            cases s[numberToZu n]? with
            | none => exact hnil
            | some b => exact hstr _
          · intro e he
            cases he
      | _ => exact hthrown rfl
  | _ => exact hthrown rfl

/-- A new element is nil, and nothing else changes. -/
theorem Of.getElemPtrAt (hh : h.Of P) (hnil : P .nil) (hP : ∀ v, P v → v.Wf) (hc : h.Has c)
    (i : Value) :
    (∀ place h', getElemPtrAt h c i = .ok (place, h') →
      h'.Of P ∧ h'.HasPlace place ∧ h.SameSize h') ∧
      ∀ e, getElemPtrAt h c i = .error e → e.fault ≠ .illegal := by
  have hok : ∀ {place : ElementPtr} {h' : Containers}, Calx.getElemPtrAt h c i = .ok (place, h') →
      h'.Of P → h.SameSize h' → (∀ place h', Calx.getElemPtrAt h c i = .ok (place, h') →
        h'.Of P ∧ h'.HasPlace place ∧ h.SameSize h') ∧
        ∀ e, Calx.getElemPtrAt h c i = .error e → e.fault ≠ .illegal := by
    intro place h' hrun hof hsize
    constructor
    · intro place₁ h₁ hrun₁
      obtain ⟨rfl, rfl⟩ := Prod.mk.inj (Except.ok.inj (hrun.symm.trans hrun₁))
      exact ⟨hof, (getElemPtrAt_found (hh.wf hP) hc hrun).valid, hsize⟩
    · intro e he
      cases hrun.symm.trans he
  have hfails : ∀ {e : ElementError}, Calx.getElemPtrAt h c i = .error e → e.fault ≠ .illegal →
      (∀ place h', Calx.getElemPtrAt h c i = .ok (place, h') →
        h'.Of P ∧ h'.HasPlace place ∧ h.SameSize h') ∧
        ∀ e, Calx.getElemPtrAt h c i = .error e → e.fault ≠ .illegal := by
    intro e hrun hlegal
    constructor
    · intro place h' hrun'
      cases hrun.symm.trans hrun'
    · intro e' he'
      obtain rfl := Except.error.inj (hrun.symm.trans he')
      exact hlegal
  have hthrown : ∀ text : String, (ElementError.operator (.prepared text)).fault ≠ .illegal :=
    fun text => Fault.noConfusion
  cases c with
  | list id =>
      cases i with
      | num n =>
          by_cases hnext : numberToZu n = (h.list id).length
          · have hrun : Calx.getElemPtrAt h (.list id) (.num n) =
                .ok (.element id (numberToZu n), h.setList id (h.list id ++ [.nil])) := if_pos hnext
            refine hok hrun (hh.setList (fun v hv => ?_) id) (sameSize_setList _)
            rcases List.mem_append.mp hv with hv | hv
            · exact hh.lists _ (list_mem hc) v hv
            · rw [List.mem_singleton.mp hv]
              exact hnil
          · by_cases hpast : numberToZu n > (h.list id).length
            · exact hfails ((if_neg hnext).trans (if_pos hpast)) (hthrown _)
            · exact hok ((if_neg hnext).trans (if_neg hpast)) hh ⟨rfl, rfl⟩
      | _ => exact hfails rfl (hthrown _)
  | dict id =>
      cases i with
      | str key =>
          obtain ⟨m, hd, hm⟩ := hh.dicts _ (dict_mem hc)
          have hok' : ∀ {idx : Nat} {d : Str.Dict}, Str.dictEntry (h.dict id) key = .ok (idx, d) →
              Calx.getElemPtrAt h (.dict id) (.str key) =
                .ok (.entry id idx, h.setDict id d) := by
            intro idx d hentry
            rw [Calx.getElemPtrAt, hentry]
          cases hkey : m.lookup key with
          | some v =>
              obtain ⟨idx, item, hentry, -⟩ := Str.dictEntry_present hd hkey
              exact hok (hok' hentry) (hh.setDict hd hm id) (sameSize_setDict _)
          | none =>
              by_cases hroom : (h.dict id).items.length < maxItems
              · obtain ⟨idx, item, d, hentry, -, -, -, hd'⟩ := Str.dictEntry_new hd hkey hroom
                exact hok (hok' hentry) (hh.setDict hd' (of_insert hm hnil) id) (sameSize_setDict _)
              · have hfull := Str.dictEntry_full hd hkey (not_lt.mp hroom)
                refine hfails (e := .table .panic) ?_ Fault.noConfusion
                rw [Calx.getElemPtrAt, hfull]
      | _ => exact hfails rfl (hthrown _)
  | _ => exact hfails rfl (hthrown _)

/-- Storing an element. -/
theorem Of.opStoreAt (hh : h.Of P) (hnil : P .nil) (hP : ∀ v, P v → v.Wf) (hc : h.Has c) (i : Value)
    (hv : P v) :
    (opStoreAt h c i v).2.Of P ∧ h.SameSize (opStoreAt h c i v).2 ∧
      ∀ e, (opStoreAt h c i v).1 = .error e → e.fault ≠ .illegal := by
  obtain ⟨hfound, herror⟩ := hh.getElemPtrAt hnil hP hc i
  rw [Calx.opStoreAt]
  cases hrun : Calx.getElemPtrAt h c i with
  | error e =>
      refine ⟨hh, ⟨rfl, rfl⟩, fun e' he' => ?_⟩
      cases he'
      exact herror e hrun
  | ok r =>
      obtain ⟨place, h'⟩ := r
      obtain ⟨hof, hplace, hsize⟩ := hfound place h' hrun
      refine ⟨hof.write hplace hv, hsize.trans (sameSize_write place), fun e he => ?_⟩
      cases he

end

end Containers

/-! ## Operators -/

section

variable [Libdeci]

/-- Arithmetic on two numbers gives a number. -/
theorem performNumberAop_result {ntp : NumberTruncateParams} {sh : Sharing} {aop : Aop}
    {a b : Number} {v : Value} (haop : aop.takesNil = false)
    (h : (performNumberAop ntp sh a b aop).getD (kindErr aop (.num a) (.num b)) = .ok v) :
    ∃ n, v = .num n := by
  cases aop with
  | aopConcat | aopAnd | aopOr => cases haop
  | aopDiv | aopIdiv | aopMod =>
      simp only [performNumberAop, Option.getD_some, divByZero] at h
      split at h
      · cases h
      · exact ⟨_, (Except.ok.inj h).symm⟩
  | aopPow =>
      simp only [performNumberAop, Option.getD_some, doPow] at h
      split at h
      · cases h
      split at h
      · cases h
      split at h
      · exact ⟨_, (Except.ok.inj h).symm⟩
      · cases h
  | _ => exact ⟨_, (Except.ok.inj h).symm⟩

/-- The results of the operators: numbers, strings, and one of the operands. -/
theorem performAop_result {ntp : NumberTruncateParams} {sh : Sharing} {aop : Aop}
    {left right v : Value} (h : performAop ntp sh aop left right = .ok v) :
    (∃ n, v = .num n) ∨ (∃ s, v = .str s) ∨ v = left ∨ v = right := by
  cases haop : aop.takesNil with
  | false =>
      left
      by_cases hkinds : ∀ a b, left = .num a → right ≠ .num b
      · rw [performAop_kinds haop hkinds] at h
        cases h
      · push Not at hkinds
        obtain ⟨a, b, rfl, rfl⟩ := hkinds
        rw [performAop_numbers haop] at h
        exact performNumberAop_result haop h
  | true =>
      right
      cases aop with
      | aopConcat =>
          left
          simp only [performAop] at h
          split at h <;> exact ⟨_, (Except.ok.inj h).symm⟩
      | aopAnd | aopOr =>
          right
          simp only [performAop, Except.ok.injEq] at h
          split_ifs at h
          · simp [h]
          · simp [h]
      | _ => cases haop

/-- An operator makes no reference to anything new. -/
theorem performAop_sound {x : Extent} {p : Nat} {sh : Sharing} {aop : Aop} {left right v : Value}
    (hl : left.Sound x) (hr : right.Sound x) (hsh : sh.Fits left right)
    (h : performAop (ntpFromPrec p) sh aop left right = .ok v) : v.Sound x := by
  rcases performAop_result h with ⟨n, rfl⟩ | ⟨s, rfl⟩ | rfl | rfl
  · rcases (performAop_oneResult hl.wf hr.wf p aop).compare hsh hsh with
      ⟨e, he, -⟩ | ⟨z, z', hz, -, hwf, -⟩
    · cases he.symm.trans h
    · obtain rfl := Except.ok.inj (hz.symm.trans h)
      exact hwf
  · trivial
  · exact hl
  · exact hr

omit [Libdeci] in
theorem OperatorError.fault_ne (e : OperatorError) : e.fault ≠ .illegal := by
  cases e <;> exact Fault.noConfusion

/-- Modifying an element, with what is known of the element as `get_elem_at` gives it. -/
theorem opModifyAt_of {x : Extent} {p : Nat} {sh : Sharing} {h : Containers}
    {c i v : Value} (hh : h.Of (Value.Sound x)) (hc : h.Has c) (hv : v.Sound x)
    (hsh : ∀ u, getElemAt h c i = .ok u → sh.Fits u v) (aop : Aop) :
    (opModifyAt (ntpFromPrec p) sh aop h c i v).2.Of (Value.Sound x) ∧
      h.SameSize (opModifyAt (ntpFromPrec p) sh aop h c i v).2 ∧
      ∀ e, (opModifyAt (ntpFromPrec p) sh aop h c i v).1 = .error e → e.fault ≠ .illegal := by
  obtain ⟨hfound, herror⟩ := hh.getElemPtrAt trivial (fun _ => Value.Sound.wf) hc i
  rw [Calx.opModifyAt]
  cases hrun : Calx.getElemPtrAt h c i with
  | error e =>
      refine ⟨hh, ⟨rfl, rfl⟩, fun e' he' => ?_⟩
      cases he'
      exact herror e hrun
  | ok r =>
      obtain ⟨place, h'⟩ := r
      obtain ⟨hof, hplace, hsize⟩ := hfound place h' hrun
      have hloaded := (getElemPtrAt_found (hh.wf fun _ => Value.Sound.wf) hc hrun).loaded
      have hread : (h'.read place).Sound x := hof.read trivial hplace
      dsimp only
      cases haop : performAop (ntpFromPrec p) sh aop (h'.read place) v with
      | error e =>
          refine ⟨hof, hsize, fun e' he' => ?_⟩
          cases he'
          exact e.fault_ne
      | ok z =>
          have hz : z.Sound x := performAop_sound hread hv (hsh _ hloaded) haop
          refine ⟨hof.write hplace hz, hsize.trans (Containers.sameSize_write place), fun e he => ?_⟩
          cases he

theorem performLen_sound {x : Extent} {h : Containers} {c v : Value}
    (hrun : performLen h c = .ok v) : v.Sound x := by
  cases c with
  | list _ | dict _ | str _ =>
      obtain rfl := Except.ok.inj hrun
      exact (numberNewFromZu_spec _).1
  | _ => cases hrun

theorem performCmp3way_sound {x : Extent} {left right v : Value} {a : Nat}
    (hrun : performCmp3way left right a = .ok v) : v.Sound x := by
  unfold performCmp3way at hrun
  split at hrun
  · obtain rfl := Except.ok.inj hrun
    trivial
  · obtain rfl := Except.ok.inj hrun
    trivial
  · cases hrun

theorem performNeg_sound {x : Extent} {uniq : Bool} {u v : Value} (hu : u.Sound x)
    (hrun : performNeg uniq u = .ok v) : v.Sound x := by
  cases u with
  | num n =>
      obtain rfl := Except.ok.inj hrun
      exact (numberNegate_spec hu).1
  | _ => cases hrun

end

/-! ## Making dicts -/

/-- A value is stored under a key, unless the table is full. -/
theorem xhtPut_stored {d : Str.Dict} {m : ByteMap Value} (h : Str.Holds d m) (key : Bytes)
    (v : Value) :
    (∃ r t, xhtPut Str.chainFuel d key (hashStr key) none = .ok (r, t) ∧
        Str.Holds (t.setValue r (some v)) (m.insert key v)) ∨
      xhtPut Str.chainFuel d key (hashStr key) none = .error .panic := by
  have hcard := h.card
  obtain ⟨hwf, M, hM, hlookup⟩ := h
  have hfuel : d.items.length < Str.chainFuel := Nat.lt_succ_of_le hwf.length_le
  have hkeys := Str.keys_eq hlookup
  by_cases hfits : (insert key M.keys).card ≤ maxItems
  · left
    obtain ⟨r, item, t, hput, hr, rfl, -, hwf', hM'⟩ := Xht.xhtPut_spec hwf hM hfuel hfits none
    refine ⟨r, t, hput, hwf'.setValue hr _, _, hM'.setValue hwf' hr _, fun k => ?_⟩
    rcases eq_or_ne k item.key with rfl | hk
    · rw [Finmap.lookup_insert, Finmap.lookup_insert, Option.map_some]
    · rw [Finmap.lookup_insert_of_ne _ hk, Finmap.lookup_insert_of_ne _ hk, ← hlookup]
      simp only [mapCall]
      cases M.lookup item.key with
      | none => exact Finmap.lookup_insert_of_ne _ hk
      | some _ => rfl
  · right
    have hnew : key ∉ M.keys := by
      intro hmem
      rw [Finset.insert_eq_of_mem hmem, hkeys, hcard] at hfits
      exact hfits hwf.length_le
    have hfull : M.keys.card = maxItems := by
      have hle := hwf.length_le
      rw [Finset.card_insert_of_notMem hnew] at hfits
      rw [hkeys] at hfits ⊢
      omega
    have habsent : M.lookup key = none := by
      rw [Finmap.mem_keys] at hnew
      exact Finmap.lookup_eq_none.mpr hnew
    exact Xht.xhtPut_panics hwf hM (Nat.lt_succ_self maxItems) habsent hfull

/-- The keys that `check_dict_keys` has looked at are strings. -/
theorem dictNewSteal_spec {P : Value → Prop} {d : Str.Dict} {m : ByteMap Value} {kv : List Value}
    (hd : Str.Holds d m) (hm : ∀ key v, m.lookup key = some v → P v) (hkv : ∀ v ∈ kv, P v)
    (hlen : kv.length % 2 = 0) (hkeys : checkDictKeys kv = .ok ()) :
    (∃ d' m', dictNewSteal d kv = .ok d' ∧ Str.Holds d' m' ∧
        ∀ key v, m'.lookup key = some v → P v) ∨
      dictNewSteal d kv = .error .panic := by
  induction d, kv using dictNewSteal.induct generalizing m with
  | case1 d => exact Or.inl ⟨d, m, rfl, hd, hm⟩
  | case2 d key v kv r t hput ih =>
      rw [dictNewSteal, hput]
      rcases xhtPut_stored hd key v with ⟨r', t', hput', hstored⟩ | hpanic
      · obtain ⟨rfl, rfl⟩ := Prod.mk.inj (Except.ok.inj (hput.symm.trans hput'))
        refine ih hstored (Containers.of_insert hm (hkv v (by simp))) (fun u hu => hkv u ?_) ?_ hkeys
        · exact List.mem_cons_of_mem _ (List.mem_cons_of_mem _ hu)
        · rw [List.length_cons, List.length_cons] at hlen
          omega
      · cases hput.symm.trans hpanic
  | case3 d key v kv e hput =>
      right
      rw [dictNewSteal, hput]
      rcases xhtPut_stored hd key v with ⟨r', t', hput', -⟩ | hpanic
      · cases hput.symm.trans hput'
      · obtain rfl := Except.error.inj (hput.symm.trans hpanic)
        rfl
  | case4 kv d hnil hcons =>
      cases kv with
      | nil => exact absurd rfl hnil
      | cons k kv =>
          cases kv with
          | nil => simp at hlen
          | cons v kv =>
              cases k with
              | str key => exact absurd rfl (hcons key v kv)
              | _ => cases hkeys

theorem checkDictKeys_fault {kv : List Value} {e : Fault} (h : checkDictKeys kv = .error e) :
    e ≠ .illegal := by
  induction kv using checkDictKeys.induct with
  | case1 _ _ kv ih => exact ih h
  | case2 k _ kv hk =>
      rw [checkDictKeys.eq_2 _ _ _ hk] at h
      cases h
      exact Fault.noConfusion
  | case3 kv hstr hcons =>
      rw [checkDictKeys.eq_3 _ hstr hcons] at h
      cases h

/-! ## Sound stores -/

/-- What the objects and the globals refer to is there. -/
structure Store.Sound [DeciBase] (st : Store) : Prop where
  containers : st.containers.Of (Value.Sound st.extent)
  weakrefs : ∀ o ∈ st.weakrefs, ∀ v ∈ o, Value.Sound st.extent v
  globals : st.globals.Wf
  values : ∀ o ∈ st.globals.globals.data, ∀ v ∈ o, Value.Sound st.extent v
  ntp : ∃ p, st.ntp = ntpFromPrec p

namespace Store.Sound

variable [DeciBase] {st : Store} {h : Containers} {v : Value}

/-- The value of a global is sound in the store. -/
theorem global (hst : st.Sound) {c : Nat} (hc : st.globals.globals.data[c]? = some (some v)) :
    v.Sound st.extent := hst.values _ (List.mem_of_getElem? hc) v rfl

/-- Elements of the lists and dicts have been changed. -/
theorem withContainers (hst : st.Sound) (hh : h.Of (Value.Sound st.extent))
    (hsize : st.containers.SameSize h) :
    (st.withContainers h).Sound ∧ (st.withContainers h).extent = st.extent := by
  have hextent : (st.withContainers h).extent = st.extent := by
    simp only [Store.extent, Store.withContainers]
    rw [hsize.1, hsize.2]
    rfl
  refine ⟨⟨?_, ?_, hst.globals, ?_, hst.ntp⟩, hextent⟩
  · rw [hextent]
    exact hh
  · rw [hextent]
    exact hst.weakrefs
  · rw [hextent]
    exact hst.values

/-- Sound values stay sound when objects are added. -/
theorem grow (hst : st.Sound) {st' : Store} (hle : st.extent.Le st'.extent)
    (hcontainers : st'.containers.Of (Value.Sound st'.extent))
    (hweakrefs : st'.weakrefs = st.weakrefs) (hglobals : st'.globals = st.globals)
    (hntp : st'.ntp = st.ntp) : st'.Sound where
  containers := hcontainers
  weakrefs o ho v hv := by
    rw [hweakrefs] at ho
    exact (hst.weakrefs o ho v hv).mono hle
  globals := hglobals ▸ hst.globals
  values o ho v hv := by
    rw [hglobals] at ho
    exact (hst.values o ho v hv).mono hle
  ntp := hntp ▸ hst.ntp

/-- `list_new_steal`. -/
theorem newList (hst : st.Sound) {l : List Value} (hl : ∀ v ∈ l, v.Sound st.extent) :
    ({ st with lists := st.lists ++ [l] } : Store).Sound ∧
      st.extent.Le ({ st with lists := st.lists ++ [l] } : Store).extent := by
  have hle : st.extent.Le ({ st with lists := st.lists ++ [l] } : Store).extent := by
    refine ⟨?_, le_rfl, le_rfl, List.prefix_rfl⟩
    simp [Store.extent]
  have hmono := hst.containers.imp fun v hv => hv.mono hle
  refine ⟨hst.grow hle ⟨fun l' hl' => ?_, hmono.dicts⟩ rfl rfl rfl, hle⟩
  rcases List.mem_append.mp hl' with hl' | hl'
  · exact hmono.lists l' hl'
  · rw [List.mem_singleton.mp hl']
    exact fun v hv => (hl v hv).mono hle

/-- `dict_new_steal`. -/
theorem newDict (hst : st.Sound) {d : Str.Dict} {m : ByteMap Value} (hd : Str.Holds d m)
    (hm : ∀ key v, m.lookup key = some v → Value.Sound st.extent v) :
    ({ st with dicts := st.dicts ++ [d] } : Store).Sound ∧
      st.extent.Le ({ st with dicts := st.dicts ++ [d] } : Store).extent := by
  have hle : st.extent.Le ({ st with dicts := st.dicts ++ [d] } : Store).extent := by
    refine ⟨le_rfl, ?_, le_rfl, List.prefix_rfl⟩
    simp [Store.extent]
  have hmono := hst.containers.imp fun v hv => hv.mono hle
  refine ⟨hst.grow hle ⟨hmono.lists, fun d' hd' => ?_⟩ rfl rfl rfl, hle⟩
  rcases List.mem_append.mp hd' with hd' | hd'
  · exact hmono.dicts d' hd'
  · rw [List.mem_singleton.mp hd']
    exact ⟨m, hd, fun key v hv => (hm key v hv).mono hle⟩

/-- A global has been assigned. -/
theorem assigned (hst : st.Sound) {c : Nat} {g : Globals} (hv : v.Sound st.extent)
    (hrun : Globals.checkedStore st.globals c v = .ok g) :
    ({ st with globals := g } : Store).Sound ∧
      ({ st with globals := g } : Store).extent = st.extent := by
  have hkeeps := (Globals.checkedStore_keeps hst.globals hrun).1
  obtain ⟨-, rfl⟩ := Globals.checkedStore_ok hrun
  have hextent : ({ st with globals := { st.globals with globals := { st.globals.globals with
      data := st.globals.globals.data.set c (some v) } } } : Store).extent = st.extent := rfl
  refine ⟨⟨?_, ?_, hkeeps.wf, fun o ho u hu => ?_, hst.ntp⟩, hextent⟩
  · rw [hextent]
    exact hst.containers
  · rw [hextent]
    exact hst.weakrefs
  · rw [hextent]
    rcases List.mem_or_eq_of_mem_set ho with ho | rfl
    · exact hst.values o ho u hu
    · obtain rfl := Option.some.inj hu
      exact hv

end Store.Sound

end Calx
