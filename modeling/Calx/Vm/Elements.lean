import Calx.Str.Dict
import Calx.Vm.Alike

/-!
# Elements of lists and dicts

`get_elem_at` and `get_elem_ptr_at` of `vm.c`, and the instructions that load, store
and modify an element.

## Implementation notes

What these instructions can change is what the lists and dicts contain. A pointer to
an element is a `ElementPtr`. An instruction that fails leaves what it has done so far.
-/

namespace Calx

open Libdeci

/-- How an instruction on an element ends early. -/
inductive ElementError
  | operator (e : OperatorError)
  /-- What the hash table of a dict ran into. -/
  | table (fault : XhtFault)
deriving DecidableEq

/-- What the lists and dicts contain. -/
structure Containers where
  lists : List (List Value)
  dicts : List Str.Dict

/-- A pointer to a value in a list or in a dict. -/
inductive ElementPtr
  | element (id idx : Nat)
  | entry (id idx : Nat)

namespace Containers

def list (h : Containers) (id : Nat) : List Value := h.lists.getD id []

def dict (h : Containers) (id : Nat) : Str.Dict := h.dicts.getD id (xhtNew 0)

def setList (h : Containers) (id : Nat) (l : List Value) : Containers :=
  { h with lists := h.lists.set id l }

def setDict (h : Containers) (id : Nat) (d : Str.Dict) : Containers :=
  { h with dicts := h.dicts.set id d }

/-- `*where`. -/
def read (h : Containers) : ElementPtr → Value
  | .element id idx => (h.list id).getD idx .nil
  | .entry id idx => ((h.dict id).items[idx]?.bind XhtItem.value).getD .nil

/-- `*where = v`. -/
def write (h : Containers) (v : Value) : ElementPtr → Containers
  | .element id idx => h.setList id ((h.list id).set idx v)
  | .entry id idx => h.setDict id ((h.dict id).setValue idx (some v))

end Containers

/-! ## Access -/

/-- `state_prepare_error`, and the result of the function that called it. -/
def elementError {α : Type} (text : String) : Except ElementError α :=
  .error (.operator (.prepared text))

/-- A list, dict or string with an index of the wrong kind. -/
def badIndex {α : Type} (what : String) (i : Value) (expected : String) : Except ElementError α :=
  elementError ("attempt to index " ++ what ++ " with " ++ valueKindName i ++ " (expected " ++
    expected ++ ")")

/-- A value that has no elements. -/
def badContainer {α : Type} (c : Value) : Except ElementError α :=
  elementError ("attempt to index " ++ valueKindName c ++ " value")

/-- `get_elem_at`. -/
def getElemAt [Libdeci] (h : Containers) (c i : Value) : Except ElementError Value :=
  match c, i with
  | .list id, .num i => .ok ((h.list id).getD (numberToZu i) .nil)
  | .list _, i => badIndex "list" i "number"
  | .dict id, .str key =>
      match xhtGet Str.chainFuel (h.dict id) key (hashStr key) none with
      | .ok r => .ok (r.getD .nil)
      | .error e => .error (.table e)
  | .dict _, i => badIndex "dict" i "string"
  | .str s, .num i => .ok ((s[numberToZu i]?.map fun b => .str [b]).getD .nil)
  | .str _, i => badIndex "string" i "number"
  | c, _ => badContainer c

/-- `get_elem_ptr_at`, which makes the element when it is the next one or its key is new. -/
def getElemPtrAt [Libdeci] (h : Containers) (c i : Value) :
    Except ElementError (ElementPtr × Containers) :=
  match c, i with
  | .list id, .num i =>
      let idx := numberToZu i
      let nlist := (h.list id).length
      if idx = nlist then .ok (.element id idx, h.setList id (h.list id ++ [.nil]))
      else if idx > nlist then elementError "attempt to insert past the end of the list"
      else .ok (.element id idx, h)
  | .list _, i => badIndex "list" i "number"
  | .dict id, .str key =>
      match Str.dictEntry (h.dict id) key with
      | .ok (idx, d) => .ok (.entry id idx, h.setDict id d)
      | .error e => .error (.table e)
  | .dict _, i => badIndex "dict" i "string"
  | .str _, _ => elementError "strings are immutable"
  | c, _ => badContainer c

/-! ## Instructions -/

/-- An instruction that ends with a result or an error, and what it leaves. -/
abbrev ElementRun := Except ElementError Unit × Containers

/-- `OP_STORE_AT`. -/
def opStoreAt [Libdeci] (h : Containers) (c i v : Value) : ElementRun :=
  match getElemPtrAt h c i with
  | .error e => (.error e, h)
  | .ok (place, h) => (.ok (), h.write v place)

/-- `OP_MODIFY_AT`. -/
def opModifyAt [Libdeci] (ntp : NumberTruncateParams) (sh : Sharing) (aop : Aop) (h : Containers)
    (c i v : Value) : ElementRun :=
  match getElemPtrAt h c i with
  | .error e => (.error e, h)
  | .ok (place, h) =>
      match performAop ntp sh aop (h.read place) v with
      | .error e => (.error (.operator e), h)
      | .ok r => (.ok (), h.write r place)

/-- `OP_LOAD_AT`, `OP_AOP` and `OP_STORE_AT`. -/
def loadAopStore [Libdeci] (ntp : NumberTruncateParams) (sh : Sharing) (aop : Aop) (h : Containers)
    (c i v : Value) : ElementRun :=
  match getElemAt h c i with
  | .error e => (.error e, h)
  | .ok left =>
      match performAop ntp sh aop left v with
      | .error e => (.error (.operator e), h)
      | .ok r => opStoreAt h c i r

namespace Containers

/-- The container is one of these, or no list or dict at all. -/
def Has (h : Containers) : Value → Prop
  | .list id => id < h.lists.length
  | .dict id => id < h.dicts.length
  | _ => True

/-- Dicts are maps, and all numbers are well-formed. -/
structure Wf [DeciBase] (h : Containers) : Prop where
  lists : ∀ l ∈ h.lists, ∀ v ∈ l, v.Wf
  dicts : ∀ d ∈ h.dicts, ∃ m, Str.Holds d m ∧ ∀ key v, m.lookup key = some v → v.Wf

/-- Entries with one key and alike values. -/
def EntryAlike [DeciBase] (x y : XhtItem (Option Value)) : Prop :=
  x.key = y.key ∧ Option.Rel Value.Alike x.value y.value

/-- The same lists and dicts up to values that cannot be told apart. -/
structure Alike [DeciBase] (h h' : Containers) : Prop where
  lists : List.Forall₂ (List.Forall₂ Value.Alike) h.lists h'.lists
  dicts : List.Forall₂ (fun d d' => List.Forall₂ EntryAlike d.items d'.items) h.dicts h'.dicts

/-- `get_elem_ptr_at` has to make the element. -/
def Creates [Libdeci] (h : Containers) : Value → Value → Prop
  | .list id, .num i => numberToZu i = (h.list id).length
  | .dict id, .str key =>
      (∀ item ∈ (h.dict id).items, item.key ≠ key) ∧ (h.dict id).items.length < maxItems
  | _, _ => False

/-- A place that can be written. -/
def HasPlace (h : Containers) : ElementPtr → Prop
  | .element id _ => id < h.lists.length
  | .entry id idx => id < h.dicts.length ∧ ∃ item, (h.dict id).items[idx]? = some item

/-! ## Reading and writing -/

section

variable {h : Containers} {id : Nat} {l : List Value} {d : Str.Dict}

theorem list_setList (hid : id < h.lists.length) : (h.setList id l).list id = l := by
  rw [list, setList, List.getD_eq_getElem?_getD, List.getElem?_set_self hid, Option.getD_some]

theorem dict_setDict (hid : id < h.dicts.length) : (h.setDict id d).dict id = d := by
  rw [dict, setDict, List.getD_eq_getElem?_getD, List.getElem?_set_self hid, Option.getD_some]

theorem dict_eq (hid : id < h.dicts.length) : h.dict id = h.dicts[id] := by
  rw [dict, List.getD_eq_getElem?_getD, List.getElem?_eq_getElem hid, Option.getD_some]

theorem setDict_dict (hid : id < h.dicts.length) : h.setDict id (h.dict id) = h := by
  rw [setDict, dict_eq hid, List.set_getElem_self]

theorem list_mem (hid : id < h.lists.length) : h.list id ∈ h.lists := by
  rw [list, List.getD_eq_getElem?_getD, List.getElem?_eq_getElem hid, Option.getD_some]
  exact List.getElem_mem hid

theorem dict_mem (hid : id < h.dicts.length) : h.dict id ∈ h.dicts := by
  rw [dict_eq hid]
  exact List.getElem_mem hid

theorem forall₂_modify {α : Type} {R : α → α → Prop} (hrefl : ∀ x, R x x) {f g : α → α}
    (hfg : ∀ x, R (f x) (g x)) (l : List α) (n : Nat) :
    List.Forall₂ R (l.modify n f) (l.modify n g) := by
  have hself : ∀ l : List α, List.Forall₂ R l l := fun l => List.forall₂_same.mpr fun x _ => hrefl x
  induction l generalizing n with
  | nil =>
      rw [List.modify_nil, List.modify_nil]
      exact .nil
  | cons x l ih =>
      cases n with
      | zero => exact .cons (hfg x) (hself l)
      | succ n => exact .cons (hrefl x) (ih n)

theorem forall₂_set {α : Type} {R : α → α → Prop} (hrefl : ∀ x, R x x) {x y : α} (hxy : R x y)
    (l : List α) (n : Nat) : List.Forall₂ R (l.set n x) (l.set n y) := by
  rw [List.set_eq_modify, List.set_eq_modify]
  exact forall₂_modify hrefl (fun _ => hxy) l n

variable [DeciBase]

theorem Wf.setList (hh : h.Wf) (hl : ∀ v ∈ l, v.Wf) (id : Nat) : (h.setList id l).Wf := by
  refine ⟨fun l' hl' => ?_, hh.dicts⟩
  rcases List.mem_or_eq_of_mem_set hl' with hmem | rfl
  · exact hh.lists l' hmem
  · exact hl

theorem Wf.setDict (hh : h.Wf) {m : ByteMap Value} (hd : Str.Holds d m)
    (hm : ∀ key v, m.lookup key = some v → v.Wf) (id : Nat) : (h.setDict id d).Wf := by
  refine ⟨hh.lists, fun d' hd' => ?_⟩
  rcases List.mem_or_eq_of_mem_set hd' with hmem | rfl
  · exact hh.dicts d' hmem
  · exact ⟨m, hd, hm⟩

/-- What is written has to be well-formed. -/
theorem Wf.write (hh : h.Wf) {place : ElementPtr} (hplace : h.HasPlace place) {v : Value} (hv : v.Wf) :
    (h.write v place).Wf := by
  cases place with
  | element id idx =>
      apply hh.setList
      intro u hu
      rcases List.mem_or_eq_of_mem_set hu with hmem | rfl
      · exact hh.lists _ (list_mem hplace) u hmem
      · exact hv
  | entry id idx =>
      obtain ⟨hid, item, hitem⟩ := hplace
      obtain ⟨m, hd, hm⟩ := hh.dicts _ (dict_mem hid)
      apply hh.setDict (hd.setValue hitem v)
      intro key u hu
      rcases eq_or_ne key item.key with rfl | hne
      · rw [Finmap.lookup_insert] at hu
        exact Option.some.inj hu ▸ hv
      · rw [Finmap.lookup_insert_of_ne _ hne] at hu
        exact hm key u hu

/-- Writing alike values leaves containers that cannot be told apart. -/
theorem alike_write (h : Containers) {v w : Value} (hvw : v.Alike w) (place : ElementPtr) :
    (h.write v place).Alike (h.write w place) := by
  have hlists : ∀ l : List Value, List.Forall₂ Value.Alike l l := fun l =>
    List.forall₂_same.mpr fun x _ => .refl x
  have hentry : ∀ x, EntryAlike x x := by
    intro x
    refine ⟨rfl, ?_⟩
    cases x.value with
    | none => exact .none
    | some v => exact .some (.refl v)
  have hitems : ∀ items : List (XhtItem (Option Value)), List.Forall₂ EntryAlike items items :=
    fun items => List.forall₂_same.mpr fun x _ => hentry x
  cases place with
  | element id idx =>
      refine ⟨?_, List.forall₂_same.mpr fun d _ => hitems d.items⟩
      exact forall₂_set hlists (forall₂_set .refl hvw _ idx) _ id
  | entry id idx =>
      refine ⟨List.forall₂_same.mpr fun l _ => hlists l, ?_⟩
      have hvalue : ∀ x : XhtItem (Option Value),
          EntryAlike { x with value := some v } { x with value := some w } := fun x =>
        ⟨rfl, .some hvw⟩
      apply forall₂_set fun d : Str.Dict => hitems d.items
      exact forall₂_modify hentry hvalue _ idx

end

end Containers

/-! ## The pointer to an element -/

section

variable [Libdeci] {h h' : Containers} {c i v : Value} {place : ElementPtr} {id : Nat} {key : Bytes}

/-- The pointer is to what a load gives. An element that has been made for it is nil. -/
structure Found (h : Containers) (c i : Value) (place : ElementPtr) (h' : Containers) : Prop where
  loaded : getElemAt h c i = .ok (h'.read place)
  wf : h'.Wf
  valid : h'.HasPlace place
  created : h.Creates c i → h'.read place = .nil ∧ h' ≠ h
  kept : ¬ h.Creates c i → h' = h

theorem found_list (hh : h.Wf) (hid : id < h.lists.length) {n : Number}
    (hrun : getElemPtrAt h (.list id) (.num n) = .ok (place, h')) :
    Found h (.list id) (.num n) place h' := by
  rw [getElemPtrAt] at hrun
  split at hrun
  · rename_i hnext
    obtain ⟨rfl, rfl⟩ := Prod.mk.inj (Except.ok.inj hrun)
    have hlist := Containers.list_setList (l := h.list id ++ [.nil]) hid
    have hread : (h.setList id (h.list id ++ [.nil])).read (.element id (numberToZu n)) = .nil := by
      rw [Containers.read, hlist, hnext, List.getD_eq_getElem?_getD, List.getElem?_concat_length,
        Option.getD_some]
    refine ⟨?_, ?_, ?_, fun _ => ⟨hread, fun heq => ?_⟩, fun hnot => absurd hnext hnot⟩
    · rw [hread, getElemAt, hnext, List.getD_eq_getElem?_getD, List.getElem?_eq_none le_rfl,
        Option.getD_none]
    · refine hh.setList (fun v hv => ?_) id
      rcases List.mem_append.mp hv with hv | hv
      · exact hh.lists _ (Containers.list_mem hid) v hv
      · rw [List.mem_singleton.mp hv]
        trivial
    · change id < (h.lists.set id _).length
      rwa [List.length_set]
    · have hlen := congrArg (fun h => (Containers.list h id).length) heq
      rw [hlist, List.length_append, List.length_singleton] at hlen
      omega
  · rename_i hnext
    split at hrun
    · cases hrun
    · obtain ⟨rfl, rfl⟩ := Prod.mk.inj (Except.ok.inj hrun)
      exact ⟨rfl, hh, hid, fun hnew => absurd hnew hnext, fun _ => rfl⟩

theorem found_dict (hh : h.Wf) (hid : id < h.dicts.length)
    (hrun : getElemPtrAt h (.dict id) (.str key) = .ok (place, h')) :
    Found h (.dict id) (.str key) place h' := by
  obtain ⟨m, hd, hm⟩ := hh.dicts _ (Containers.dict_mem hid)
  have hload : getElemAt h (.dict id) (.str key) = .ok ((m.lookup key).getD .nil) := by
    have hget : xhtGet Str.chainFuel (h.dict id) key (hashStr key) none = .ok (m.lookup key) :=
      Str.xhtGet_holds hd
    rw [getElemAt, hget]
  rw [getElemPtrAt] at hrun
  cases hkey : m.lookup key with
  | some v =>
      obtain ⟨idx, item, hentry, hitem, -, hvalue⟩ := Str.dictEntry_present hd hkey
      rw [hentry] at hrun
      dsimp only at hrun
      rw [Containers.setDict_dict hid] at hrun
      obtain ⟨rfl, rfl⟩ := Prod.mk.inj (Except.ok.inj hrun)
      have hread : h.read (.entry id idx) = v := by
        rw [Containers.read, hitem, Option.bind_some, hvalue, Option.getD_some]
      have hnot : ¬ h.Creates (.dict id) (.str key) := by
        intro hnew
        rw [hd.absent_iff.mp hnew.1] at hkey
        cases hkey
      refine ⟨?_, hh, ⟨hid, item, hitem⟩, fun hnew => absurd hnew hnot, fun _ => rfl⟩
      rw [hload, hkey, hread, Option.getD_some]
  | none =>
      by_cases hroom : (h.dict id).items.length < maxItems
      · obtain ⟨idx, item, d, hentry, hitem, hitemKey, hvalue, hd'⟩ := Str.dictEntry_new hd hkey hroom
        rw [hentry] at hrun
        obtain ⟨rfl, rfl⟩ := Prod.mk.inj (Except.ok.inj hrun)
        have hdict := Containers.dict_setDict (d := d) hid
        have hread : (h.setDict id d).read (.entry id idx) = .nil := by
          rw [Containers.read, hdict, hitem, Option.bind_some, hvalue, Option.getD_some]
        have hnew : h.Creates (.dict id) (.str key) := ⟨hd.absent_iff.mpr hkey, hroom⟩
        refine ⟨?_, ?_, ⟨?_, item, ?_⟩, fun _ => ⟨hread, fun heq => ?_⟩,
          fun hnot => absurd hnew hnot⟩
        · rw [hload, hkey, hread, Option.getD_none]
        · refine hh.setDict hd' (fun k v hv => ?_) id
          rcases eq_or_ne k key with rfl | hne
          · rw [Finmap.lookup_insert] at hv
            exact Option.some.inj hv ▸ trivial
          · rw [Finmap.lookup_insert_of_ne _ hne] at hv
            exact hm k v hv
        · change id < (h.dicts.set id _).length
          rwa [List.length_set]
        · rw [hdict]
          exact hitem
        · have hsame : d = h.dict id := by
            rw [← hdict, heq]
          rw [hsame] at hitem
          exact hnew.1 item (List.mem_of_getElem? hitem) hitemKey
      · rw [Str.dictEntry_full hd hkey (not_lt.mp hroom)] at hrun
        cases hrun

/-- What the pointer of `get_elem_ptr_at` points to. -/
theorem getElemPtrAt_found (hh : h.Wf) (hc : h.Has c)
    (hrun : getElemPtrAt h c i = .ok (place, h')) : Found h c i place h' := by
  cases c with
  | list id =>
      cases i with
      | num n => exact found_list hh hc hrun
      | _ => cases hrun
  | dict id =>
      cases i with
      | str key => exact found_dict hh hc hrun
      | _ => cases hrun
  | _ => cases hrun

/-- An element that has to be made is made. -/
theorem getElemPtrAt_creates (hh : h.Wf) (hc : h.Has c) (hnew : h.Creates c i) :
    ∃ place h', getElemPtrAt h c i = .ok (place, h') := by
  cases c with
  | list id =>
      cases i with
      | num n =>
          refine ⟨.element id (numberToZu n), h.setList id (h.list id ++ [.nil]), ?_⟩
          rw [getElemPtrAt]
          exact if_pos hnew
      | _ => exact hnew.elim
  | dict id =>
      cases i with
      | str key =>
          obtain ⟨m, hd, -⟩ := hh.dicts _ (Containers.dict_mem hc)
          obtain ⟨idx, item, d, hentry, -⟩ :=
            Str.dictEntry_new hd (hd.absent_iff.mp hnew.1) hnew.2
          refine ⟨.entry id idx, h.setDict id d, ?_⟩
          rw [getElemPtrAt, hentry]
      | _ => exact hnew.elim
  | _ => exact hnew.elim

/-! ## Modifying an element -/

/-- An instruction that ends with its result. -/
def ElementRun.Succeeds (r : ElementRun) : Prop := r.1 = .ok ()

/-- Modifying an element is loading it, operating on it and storing the result, and a runtime error
leaves all lists and dicts as they were. -/
structure ModifiesAtomically (p : Nat) (sh sh' : Sharing) (aop : Aop) (h : Containers)
    (c i v : Value) : Prop where
  succeeds : (opModifyAt (ntpFromPrec p) sh aop h c i v).Succeeds ↔
    (loadAopStore (ntpFromPrec p) sh' aop h c i v).Succeeds
  alike : (opModifyAt (ntpFromPrec p) sh aop h c i v).Succeeds →
    (opModifyAt (ntpFromPrec p) sh aop h c i v).2.Alike
      (loadAopStore (ntpFromPrec p) sh' aop h c i v).2
  unchanged : ∀ text, (opModifyAt (ntpFromPrec p) sh aop h c i v).1 = elementError text →
    (opModifyAt (ntpFromPrec p) sh aop h c i v).2 = h

variable {p : Nat} {sh sh' : Sharing} {aop : Aop}

theorem Found.read_wf (hfound : Found h c i place h') : (h'.read place).Wf := by
  obtain ⟨-, hwf, hvalid, -, -⟩ := hfound
  cases place with
  | element id idx =>
      rw [Containers.read, List.getD_eq_getElem?_getD]
      cases hget : (h'.list id)[idx]? with
      | none => trivial
      | some v =>
          exact hwf.lists _ (Containers.list_mem hvalid) v (List.mem_of_getElem? hget)
  | entry id idx =>
      obtain ⟨hid, item, hitem⟩ := hvalid
      obtain ⟨m, hd, hm⟩ := hwf.dicts _ (Containers.dict_mem hid)
      rw [Containers.read, hitem, Option.bind_some]
      cases hvalue : item.value with
      | none => trivial
      | some v => exact hm item.key v (hd.lookup_item hitem hvalue)

/-- Without a place for the result nothing succeeds, and nothing has been changed. -/
theorem modifies_of_error {e : ElementError} (hrun : getElemPtrAt h c i = .error e) :
    ModifiesAtomically p sh sh' aop h c i v := by
  have hmodify : opModifyAt (ntpFromPrec p) sh aop h c i v = (.error e, h) := by
    rw [opModifyAt, hrun]
  have hseq : ¬ (loadAopStore (ntpFromPrec p) sh' aop h c i v).Succeeds := by
    rw [loadAopStore]
    split
    · exact fun hok => nomatch hok
    · split
      · exact fun hok => nomatch hok
      · rw [opStoreAt, hrun]
        exact fun hok => nomatch hok
  have hfail : ¬ (opModifyAt (ntpFromPrec p) sh aop h c i v).Succeeds := by
    rw [hmodify]
    exact fun hok => nomatch hok
  exact ⟨iff_of_false hfail hseq, fun hok => absurd hok hfail, fun _ _ => by rw [hmodify]⟩

/-- With a place the operator decides, on the same operands both times. -/
theorem modifies_of_found (hfound : Found h c i place h')
    (hrun : getElemPtrAt h c i = .ok (place, h')) (hv : v.Wf)
    (hsh : sh.Fits (h'.read place) v) (hsh' : sh'.Fits (h'.read place) v) :
    (ModifiesAtomically p sh sh' aop h c i v ↔
      ∀ text, performAop (ntpFromPrec p) sh aop (h'.read place) v = .error (.prepared text) →
        h' = h) := by
  have hmodify : opModifyAt (ntpFromPrec p) sh aop h c i v =
      match performAop (ntpFromPrec p) sh aop (h'.read place) v with
      | .error e => (.error (.operator e), h')
      | .ok r => (.ok (), h'.write r place) := by
    rw [opModifyAt, hrun]
  have hseq : loadAopStore (ntpFromPrec p) sh' aop h c i v =
      match performAop (ntpFromPrec p) sh' aop (h'.read place) v with
      | .error e => (.error (.operator e), h)
      | .ok r => (.ok (), h'.write r place) := by
    rw [loadAopStore, hfound.loaded]
    simp only [opStoreAt, hrun]
  rcases (performAop_oneResult hfound.read_wf hv p aop).compare hsh hsh' with
    ⟨e, he, he'⟩ | ⟨z, z', hz, hz', -, -, halike⟩
  · rw [he] at hmodify
    rw [he'] at hseq
    have hfail : ¬ (opModifyAt (ntpFromPrec p) sh aop h c i v).Succeeds := by
      rw [hmodify]
      exact fun hok => nomatch hok
    constructor
    · intro hatomic text htext
      have hunchanged := hatomic.unchanged text
      rw [hmodify] at hunchanged
      apply hunchanged
      rw [Except.error.inj (he.symm.trans htext)]
      rfl
    · intro hkept
      refine ⟨iff_of_false hfail ?_, fun hok => absurd hok hfail, fun text htext => ?_⟩
      · rw [hseq]
        exact fun hok => nomatch hok
      · rw [hmodify] at htext ⊢
        apply hkept text
        rw [he, ElementError.operator.inj (Except.error.inj htext)]
  · rw [hz] at hmodify
    rw [hz'] at hseq
    constructor
    · intro _ text htext
      rw [hz] at htext
      cases htext
    · intro _
      refine ⟨?_, fun _ => ?_, fun text htext => ?_⟩
      · rw [hmodify, hseq]
        exact Iff.rfl
      · rw [hmodify, hseq]
        exact Containers.alike_write h' halike place
      · rw [hmodify] at htext
        cases htext

/-! ## The invariant -/

/-- Storing keeps the containers well-formed. -/
theorem opStoreAt_wf (hh : h.Wf) (hc : h.Has c) (hv : v.Wf) : (opStoreAt h c i v).2.Wf := by
  rw [opStoreAt]
  split
  · exact hh
  · rename_i place h' hrun
    have hfound := getElemPtrAt_found hh hc hrun
    exact hfound.wf.write hfound.valid hv

/-- Modifying keeps the containers well-formed, also when it fails. -/
theorem opModifyAt_wf (hh : h.Wf) (hc : h.Has c) (hv : v.Wf) (p : Nat) (aop : Aop)
    (hsh : ∀ left, getElemAt h c i = .ok left → sh.Fits left v) :
    (opModifyAt (ntpFromPrec p) sh aop h c i v).2.Wf := by
  rw [opModifyAt]
  split
  · exact hh
  · rename_i place h' hrun
    have hfound := getElemPtrAt_found hh hc hrun
    have hfits := hsh _ hfound.loaded
    rcases (performAop_oneResult hfound.read_wf hv p aop).compare hfits hfits with
      ⟨e, he, -⟩ | ⟨z, -, hz, -, hwf, -⟩
    · rw [he]
      exact hfound.wf
    · rw [hz]
      exact hfound.wf.write hfound.valid hwf

/-! ## Atomic modification -/

/-- Modifying an element is atomic, except that an element which has to be made stays when the
operator does not take nil. -/
theorem modify_at_atomic_iff (hh : h.Wf) (hc : h.Has c) (hv : v.Wf) (p : Nat) (aop : Aop)
    (hsh : ∀ left, getElemAt h c i = .ok left → sh.Fits left v)
    (hsh' : ∀ left, getElemAt h c i = .ok left → sh'.Fits left v) :
    ModifiesAtomically p sh sh' aop h c i v ↔ ¬ (h.Creates c i ∧ aop.takesNil = false) := by
  cases hrun : getElemPtrAt h c i with
  | error e =>
      have hnot : ¬ h.Creates c i := by
        intro hnew
        obtain ⟨place, h', hok⟩ := getElemPtrAt_creates hh hc hnew
        rw [hok] at hrun
        cases hrun
      exact iff_of_true (modifies_of_error hrun) fun hnew => hnot hnew.1
  | ok r =>
      obtain ⟨place, h'⟩ := r
      have hfound := getElemPtrAt_found hh hc hrun
      rw [modifies_of_found hfound hrun hv (hsh _ hfound.loaded) (hsh' _ hfound.loaded)]
      by_cases hnew : h.Creates c i
      · obtain ⟨hnil, hne⟩ := hfound.created hnew
        rw [hnil]
        cases htakes : aop.takesNil with
        | true =>
            obtain ⟨z, hz⟩ := performAop_takesNil htakes (ntpFromPrec p) sh v
            refine iff_of_true (fun text htext => ?_) fun h => Bool.noConfusion h.2
            rw [hz] at htext
            cases htext
        | false =>
            have herror : performAop (ntpFromPrec p) sh aop .nil v = kindErr aop .nil v := by
              apply performAop_kinds htakes
              intro a b h
              cases h
            exact iff_of_false (fun hkept => hne (hkept _ herror)) fun hnot => hnot ⟨hnew, rfl⟩
      · exact iff_of_true (fun _ _ => hfound.kept hnew) fun h => hnew h.1

end

/-- One is added to the only element of a list. -/
theorem modify_at_atomic_iff_present :
    @ModifiesAtomically libdeciByValue 0 ⟨false, false, false⟩ ⟨false, false, false⟩ .aopAdd
      ⟨[[.num ⟨false, 0, [5]⟩]], []⟩ (.list 0) (.num ⟨false, 0, []⟩) (.num ⟨false, 0, [1]⟩) := by
  let := libdeciByValue
  have hfive : Number.Wf ⟨false, 0, [5]⟩ := by decide
  have hone : Value.Wf (.num ⟨false, 0, [1]⟩) := by
    change Number.Wf ⟨false, 0, [1]⟩
    decide
  have hwf : Containers.Wf ⟨[[.num ⟨false, 0, [5]⟩]], []⟩ := by
    refine ⟨fun l hl v hv => ?_, fun d hd => absurd hd List.not_mem_nil⟩
    rw [List.mem_singleton.mp hl] at hv
    rw [List.mem_singleton.mp hv]
    exact hfive
  have hhas : Containers.Has ⟨[[.num ⟨false, 0, [5]⟩]], []⟩ (.list 0) := Nat.zero_lt_one
  apply (modify_at_atomic_iff hwf hhas hone 0 .aopAdd ?_ ?_).mpr
  · exact fun hnew => absurd hnew.1 (by decide : numberToZu ⟨false, 0, []⟩ ≠ 1)
  · exact fun _ _ hsame => nomatch hsame
  · exact fun _ _ hsame => nomatch hsame

/-- Adding to the element after the last one of an empty list fails and leaves nil in the list. -/
theorem modify_at_not_atomic :
    ¬ @ModifiesAtomically libdeciByValue 0 ⟨false, false, false⟩ ⟨false, false, false⟩ .aopAdd
      ⟨[[]], []⟩ (.list 0) (.num ⟨false, 0, []⟩) (.num ⟨false, 0, [1]⟩) := by
  let := libdeciByValue
  intro hatomic
  have hsame := hatomic.unchanged "attempt to compute nil + number" rfl
  have hlists := congrArg Containers.lists hsame
  cases hlists

end Calx
