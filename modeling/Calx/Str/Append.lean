import Calx.Str.Basic

/-!
# Appending to strings

What the operations of `str.c` leave behind: a string whose contents are its text,
whose hash is the hash of the text, and whose buffer has the room that was asked
for, while the strings of all other references stay as they are.

## Implementation notes

`Holds` describes a string with its text and with what has been written to the
buffer behind it. `limit` bounds the capacities, so that `Excused` can say which
blocks a program may end for.
-/

namespace Calx.Str

open Refcount

variable {m m' : Memory StringObj} {own : Multiset Nat} {s t : Addr}
  {x y z : StringObj} {text text' w : Bytes} {room room' : List (Option UInt8)}
  {c n k need limit : Nat}

/-- The string holds a text, and its buffer holds what has been written to it. -/
structure StringObj.Holds (x : StringObj) (text : Bytes) (room : List (Option UInt8)) : Prop where
  size : x.size = text.length
  fits : x.size + room.length ≤ x.capacity
  length_data : x.data.length = x.capacity
  data : Block.Agrees x.data 0 (text.map some)
  room : Block.Agrees x.data x.size room
  hash : x.hash = hashStr text

/-- The buffer can be given up. -/
theorem StringObj.Holds.plain (h : x.Holds text room) : x.Holds text [] :=
  { h with
    fits := (Nat.le_add_right _ _).trans h.fits
    room := fun i c hc => by cases hc }

/-- The text is read from the string. -/
theorem StringObj.Holds.read (h : x.Holds text room) (hn : n ≤ text.length) :
    Block.read x.data 0 n = some (text.take n) :=
  h.data.read (Block.read_map_some hn)

/-! ## Writing and ending -/

theorem stringHotAppendBuf_bind {f : Addr × Nat → Strings Addr} {E : StrPanic → Prop}
    {Q : StringObj → Prop} (hx : m.content? s = some x)
    (hf : Attempts (f (s, x.size)) m own E Q) :
    Attempts (stringHotAppendBuf s >>= f) m own E Q := by
  rw [stringHotAppendBuf, bind_assoc]
  refine Attempts.load hx ?_
  rwa [pure_bind]

/-- What is written to the buffer. -/
theorem writeHotBuf_spec {off : Nat} {E : StrPanic → Prop} (h : m.Counts (s ::ₘ own))
    (hs : s ∉ own) (hx : m.content? s = some x) (hold : x.Holds text room)
    (hw : Block.write room off w = some room') :
    Attempts (writeHotBuf (s, x.size) off w) m own E
      fun z => z.Holds text room' ∧ z.capacity = x.capacity := by
  have hfits := hold.fits
  have hlen := Block.write_length hw
  obtain ⟨data, hdata, hagrees⟩ := hold.room.write (by rw [hold.length_data]; exact hfits) hw
  rw [writeHotBuf]
  refine Attempts.load hx ?_
  refine Attempts.compute hdata ?_
  refine Attempts.store h hs fun m₁ hleaves => ?_
  refine Attempts.pure hleaves.counts hleaves.uniq hleaves.content ⟨?_, rfl⟩
  have hbefore : (text.map some).length ≤ x.size + off := by
    rw [List.length_map, ← hold.size]
    exact Nat.le_add_right _ _
  exact
    { size := hold.size
      fits := by rw [hlen]; exact hfits
      length_data := (Block.write_length hdata).trans hold.length_data
      data := hold.data.frame hdata hbefore
      room := hagrees
      hash := hold.hash }

/-- The first bytes of the buffer become part of the string. -/
theorem stringHotAppendEnd_spec {E : StrPanic → Prop} (h : m.Counts (s ::ₘ own)) (hs : s ∉ own)
    (hx : m.content? s = some x) (hold : x.Holds text room) (hw : Block.read room 0 k = some w) :
    Attempts (stringHotAppendEnd s k) m own E
      fun z => z.Holds (text ++ w) [] ∧ z.capacity = x.capacity := by
  have hread := hold.room.read hw
  have hlen := Block.read_length hw
  have hle := Block.read_le hw
  have hfits := hold.fits
  have hsize := hold.size
  rw [Nat.add_zero] at hread
  rw [stringHotAppendEnd]
  refine Attempts.load hx ?_
  refine Attempts.compute hread ?_
  refine Attempts.store h hs fun m₁ hleaves => ?_
  refine Attempts.pure hleaves.counts hleaves.uniq hleaves.content ⟨?_, rfl⟩
  exact
    { size := by rw [List.length_append, hlen, hsize]
      fits := by change x.size + k + 0 ≤ x.capacity; omega
      length_data := hold.length_data
      data := hold.data.append (hsize ▸ Block.agrees_of_read hread)
      room := fun i c hc => by cases hc
      hash := by rw [hold.hash, hashStr, hashStr, hashStrConcat_append] }

/-- The buffer is written from its start and appended as far as it has been written. -/
theorem append_buffer_spec {E : StrPanic → Prop} (h : m.Counts (s ::ₘ own)) (hs : s ∉ own)
    (hx : m.content? s = some x) (hold : x.Holds text (List.replicate n none))
    (hcap : x.capacity ≤ limit) (hn : w.length ≤ n) :
    Attempts (writeHotBuf (s, x.size) 0 w >>= fun s => stringHotAppendEnd s w.length) m own E
      fun z => z.Holds (text ++ w) [] ∧ z.capacity ≤ limit := by
  have hroom : 0 + w.length ≤ (List.replicate n (none : Option UInt8)).length := by
    rw [List.length_replicate, Nat.zero_add]
    exact hn
  have hwrite := Block.write_eq hroom
  refine (writeHotBuf_spec h hs hx hold hwrite).bind le_rfl ?_
  rintro r m' z ⟨hz, hzcap⟩ hleaves
  refine (stringHotAppendEnd_spec hleaves.counts hleaves.uniq hleaves.content hz
    (Block.agrees_written hwrite).read_all).mono (fun _ he => he) ?_
  rintro y ⟨hy, hycap⟩
  exact ⟨hy, by omega⟩

/-! ## Reading sources -/

/-- A source gives the bytes for as long as the strings of some references stay as they are. -/
def Source.Gives (src : Source) (m : Memory StringObj) (own : Multiset Nat) (w : Bytes) : Prop :=
  ∀ m' : Memory StringObj, (∀ p ∈ own, m'.content? p = m.content? p) →
    ∀ (f : Bytes → Strings Addr) (E : StrPanic → Prop) (Q : StringObj → Prop),
      Attempts (f w) m' own E Q → Attempts (src.read w.length >>= f) m' own E Q

theorem Source.gives_bytes (w : Bytes) : (Source.bytes w).Gives m own w := by
  intro m' _ f E Q hf
  have hread := Block.read_map_some (Nat.le_refl w.length)
  rw [List.take_length] at hread
  exact Attempts.compute hread hf

/-- The data of a string behind one of the references. -/
theorem Source.gives_data (ht : t ∈ own) (hy : m.content? t = some y) (hold : y.Holds text room) :
    (Source.data t).Gives m own text := by
  intro m' hframe f E Q hf
  have hread := hold.read (Nat.le_refl text.length)
  rw [List.take_length] at hread
  rw [Source.read, bind_assoc]
  exact Attempts.load ((hframe t ht).trans hy) (Attempts.compute hread hf)

/-! ## Growing -/

/-- The capacity is doubled until it is enough. -/
theorem growCapacity_spec {fuel : Nat} (hn : n ≤ sizeMax / 2) (hc : n ≤ c * 2 ^ fuel) :
    ∃ c', growCapacity n (fuel + 1) c = some c' ∧ n ≤ c' ∧ c ≤ c' ∧ (c' = c ∨ c' < 2 * n) := by
  induction fuel generalizing c with
  | zero =>
      have hle : n ≤ c := by simpa using hc
      exact ⟨c, by rw [growCapacity, if_neg (Nat.not_lt.mpr hle)], hle, Nat.le_refl c, Or.inl rfl⟩
  | succ fuel ih =>
      rw [growCapacity]
      split
      · rename_i hlt
        have hmod : c * 2 % 2 ^ 64 = c * 2 := Nat.mod_eq_of_lt (by unfold sizeMax at hn; omega)
        have hle : n ≤ c * 2 * 2 ^ fuel := by rwa [Nat.mul_assoc, ← Nat.pow_succ']
        obtain ⟨c', hrun, hle', hge, hbound⟩ := ih hle
        refine ⟨c', by rw [hmod, hrun], hle', by omega, Or.inr ?_⟩
        rcases hbound with rfl | hbound
        · omega
        · exact hbound
      · rename_i hge
        exact ⟨c, rfl, Nat.not_lt.mp hge, Nat.le_refl c, Or.inl rfl⟩

section

variable [Allocator]

/-- The reasons to end that sizes up to `need` and capacities up to `limit` admit. -/
def Excused (need limit : Nat) : StrPanic → Prop
  | .length n => sizeMax / 2 < n ∧ n ≤ need
  | .block n => (2 ^ 64 ≤ n ∨ ∃ p, Allocator.provides p n = false) ∧ n ≤ limit + sizeofString
  | .table => False

/-! ## New strings -/

/-- A block that is not provided excuses the end. -/
theorem unsafeReallocate_excused (hc : c ≤ limit)
    (h : 2 ^ 64 ≤ c + sizeofString ∨ Allocator.provides n (c + sizeofString) = false) :
    Excused need limit (.block (c + sizeofString)) :=
  ⟨h.imp_right fun h => ⟨n, h⟩, Nat.add_le_add_right hc _⟩

theorem unsafeReallocate_new (h : m.Counts own) (hc : c ≤ limit) :
    Attempts (unsafeReallocate none c) m own (Excused need limit)
      fun z => z = ⟨0, c, 0, Block.resize [] c⟩ := by
  rw [unsafeReallocate]
  refine Attempts.nextAddr ?_
  split
  · rename_i hno
    exact Attempts.throw (unsafeReallocate_excused hc hno)
  · exact Attempts.alloc h rfl

/-- A string that nobody else holds moves to a larger block. -/
theorem unsafeReallocate_grow (h : m.Counts (s ::ₘ own)) (hs : s ∉ own)
    (hx : m.content? s = some x) (hc : c ≤ limit) :
    Attempts (unsafeReallocate (some s) c) m own (Excused need limit)
      fun z => z = { x with capacity := c, data := Block.resize x.data c } := by
  rw [unsafeReallocate]
  refine Attempts.nextAddr ?_
  split
  · rename_i hno
    exact Attempts.throw (unsafeReallocate_excused hc hno)
  · exact Attempts.load hx (Attempts.realloc h hs rfl)

theorem stringNewWithCapacity_spec (h : m.Counts own) (hc : c ≤ limit) (hle : text.length ≤ c) :
    Attempts (stringNewWithCapacity text c) m own (Excused need limit)
      fun z => z.Holds text [] ∧ z.capacity = c := by
  rw [stringNewWithCapacity]
  refine (unsafeReallocate_new h hc).bind le_rfl ?_
  rintro s m' _ rfl hleaves
  refine Attempts.load hleaves.content ?_
  have hroom : 0 + text.length ≤ (Block.resize ([] : List (Option UInt8)) c).length := by
    rw [Block.resize_length, Nat.zero_add]
    exact hle
  obtain ⟨data, hdata⟩ : ∃ data, Block.write (Block.resize [] c) 0 text = some data :=
    ⟨_, Block.write_eq hroom⟩
  refine Attempts.compute hdata ?_
  refine Attempts.store hleaves.counts hleaves.uniq fun m₁ hleaves₁ => ?_
  refine Attempts.pure hleaves₁.counts hleaves₁.uniq hleaves₁.content ⟨?_, rfl⟩
  exact
    { size := rfl
      fits := hle
      length_data := (Block.write_length hdata).trans Block.resize_length
      data := Block.agrees_written hdata
      room := fun i c hc => by cases hc
      hash := rfl }

/-! ## Making room -/

/-- Making room keeps the text and gives the buffer the room that was asked for. -/
theorem stringHotAppendBegin_spec (h : m.Counts (s ::ₘ own)) (hx : m.content? s = some x)
    (hold : x.Holds text room) (hcap : x.capacity ≤ limit) (hneed : text.length + n ≤ need)
    (hlimit : 2 * need < limit) :
    Attempts (stringHotAppendBegin s n) m own (Excused need limit)
      fun z => z.Holds text (List.replicate n none) ∧ z.capacity ≤ limit := by
  have hsize := hold.size
  rw [stringHotAppendBegin]
  refine Attempts.load hx ?_
  dsimp only
  by_cases hlong : 2 ^ 64 ≤ x.size + n ∨ sizeMax / 2 < x.size + n
  · rw [if_pos hlong]
    have hexcused : sizeMax / 2 < x.size + n ∧ x.size + n ≤ need := by
      unfold sizeMax at hlong ⊢
      omega
    exact Attempts.throw hexcused
  rw [if_neg hlong]
  have hreq : x.size + n ≤ sizeMax / 2 := by omega
  obtain ⟨c₀, hc₀⟩ : ∃ c₀, c₀ = if x.capacity = 0 then 1 else x.capacity := ⟨_, rfl⟩
  have hpos : 1 ≤ c₀ ∧ x.capacity ≤ c₀ ∧ c₀ ≤ limit := by
    rw [hc₀]
    split <;> omega
  have hpow : x.size + n ≤ c₀ * 2 ^ 63 := by
    unfold sizeMax at hreq
    omega
  obtain ⟨c, hrun, hle, hge, hbound⟩ := growCapacity_spec hreq hpow
  rw [← hc₀]
  refine Attempts.compute hrun (Attempts.isUniq h ?_)
  have hclimit : c ≤ limit := by omega
  by_cases hs : s ∉ own
  · rw [if_pos (decide_eq_true hs)]
    split
    · -- The string moves, and the new cells have not been written.
      refine (unsafeReallocate_grow h hs hx hclimit).mono (fun _ he => he) ?_
      rintro z rfl
      refine ⟨?_, hclimit⟩
      exact
        { size := hold.size
          fits := by rw [List.length_replicate]; exact hle
          length_data := Block.resize_length
          data := hold.data.resize (by rw [List.length_map]; omega)
          room := Block.agrees_none
          hash := hold.hash }
    · refine Attempts.pure h hs hx ⟨?_, hcap⟩
      exact
        { hold with
          fits := by rw [List.length_replicate]; omega
          room := Block.agrees_none }
  · -- The string is shared: a copy with the larger capacity takes the place of the reference.
    rw [if_neg fun hu => hs (of_decide_eq_true hu)]
    have hread := hold.read (Nat.le_of_eq hsize)
    rw [hsize, List.take_length] at hread
    rw [hsize]
    refine Attempts.compute hread ?_
    refine Attempts.bind (stringNewWithCapacity_spec h hclimit (by omega))
      (Multiset.le_cons_self own s) ?_
    rintro t m' z ⟨hz, hzcap⟩ hleaves
    have hcounts : m'.Counts (s ::ₘ t ::ₘ own) := Multiset.cons_swap t s own ▸ hleaves.counts
    refine Attempts.decref hcounts (Multiset.le_cons_self own t) fun m₁ hcounts₁ hframe₁ => ?_
    have hcontent : m₁.content? t = some z := by
      rw [hframe₁ t (Multiset.mem_cons_self t own), hleaves.content]
    have huniq : t ∉ own := fun ht => hleaves.uniq (Multiset.mem_cons_of_mem ht)
    refine Attempts.pure hcounts₁ huniq hcontent ⟨?_, hzcap.le.trans hclimit⟩
    exact
      { hz with
        fits := by rw [List.length_replicate, hz.size, hzcap]; omega
        room := Block.agrees_none }

/-! ## Appending -/

theorem stringAppend_spec {src : Source} (h : m.Counts (s ::ₘ own)) (hx : m.content? s = some x)
    (hold : x.Holds text room) (hcap : x.capacity ≤ limit) (hsrc : src.Gives m own w)
    (hneed : text.length + w.length ≤ need) (hlimit : 2 * need < limit) :
    Attempts (stringAppend s src w.length) m own (Excused need limit)
      fun z => z.Holds (text ++ w) [] ∧ z.capacity ≤ limit := by
  rw [stringAppend]
  refine (stringHotAppendBegin_spec h hx hold hcap hneed hlimit).bind le_rfl ?_
  rintro r m' z ⟨hz, hzcap⟩ hleaves
  by_cases hnil : w.length = 0
  · obtain rfl := List.length_eq_zero_iff.mp hnil
    rw [if_pos hnil]
    refine (stringHotAppendEnd_spec hleaves.counts hleaves.uniq hleaves.content hz
      (k := 0) (w := []) rfl).mono (fun _ he => he) ?_
    rintro y ⟨hy, hycap⟩
    exact ⟨hy, by omega⟩
  · rw [if_neg hnil]
    refine stringHotAppendBuf_bind hleaves.content ?_
    refine hsrc m' hleaves.frame _ _ _ ?_
    exact append_buffer_spec hleaves.counts hleaves.uniq hleaves.content hz hzcap le_rfl

/-! ## Representations of values -/

theorem appendLiteral_spec (lit : String) (h : m.Counts (s ::ₘ own)) (hx : m.content? s = some x)
    (hold : x.Holds text room) (hcap : x.capacity ≤ limit)
    (hneed : (text ++ bytesOf lit).length ≤ need) (hlimit : 2 * need < limit) :
    Attempts (appendLiteral s lit) m own (Excused need limit)
      fun z => z.Holds (text ++ bytesOf lit) [] ∧ z.capacity ≤ limit := by
  rw [List.length_append] at hneed
  exact stringAppend_spec h hx hold hcap (Source.gives_bytes _) hneed hlimit

/-- The representation of a value of which only the kind is shown. -/
theorem appendKind_spec (name : String) (h : m.Counts (s ::ₘ own)) (hx : m.content? s = some x)
    (hold : x.Holds text room) (hcap : x.capacity ≤ limit)
    (hneed : (text ++ bytesOf "<" ++ bytesOf name ++ bytesOf ">").length ≤ need)
    (hlimit : 2 * need < limit) :
    Attempts (do
        let s ← appendLiteral s "<"
        let s ← appendLiteral s name
        appendLiteral s ">") m own (Excused need limit)
      fun z => z.Holds (text ++ bytesOf "<" ++ bytesOf name ++ bytesOf ">") [] ∧
        z.capacity ≤ limit := by
  obtain ⟨hneed₁, hneed₂⟩ : (text ++ bytesOf "<").length ≤ need ∧
      (text ++ bytesOf "<" ++ bytesOf name).length ≤ need := by
    simp only [List.length_append] at hneed ⊢
    omega
  refine (appendLiteral_spec _ h hx hold hcap hneed₁ hlimit).bind le_rfl ?_
  rintro s₁ m₁ x₁ ⟨hold₁, hcap₁⟩ hleaves₁
  refine (appendLiteral_spec _ hleaves₁.counts hleaves₁.content hold₁ hcap₁ hneed₂ hlimit).bind
    le_rfl ?_
  rintro s₂ m₂ x₂ ⟨hold₂, hcap₂⟩ hleaves₂
  exact appendLiteral_spec _ hleaves₂.counts hleaves₂.content hold₂ hcap₂ hneed hlimit

/-- A number of a value is well formed. -/
def Printable [DeciBase] : Value → Prop
  | .num n => n.Wf
  | _ => True

instance [DeciBase] : DecidablePred Printable := fun v =>
  match v with
  | .num n => inferInstanceAs (Decidable n.Wf)
  | .flag _ | .nil | .str _ | .list _ | .dict _ | .weakref _ | .func _ | .cfunc _ =>
      inferInstanceAs (Decidable True)

/-- The size that the string needs for a representation: a number reserves its buffer. -/
def reprNeed [DeciBase] (text : Bytes) : Value → Nat
  | .num n => text.length + numberTostringSize n
  | v => (Calx.appendStringRepr text v).length

/-- A number is printed into the buffer that is reserved for it. -/
theorem appendNumber_spec [DeciBase] {a : Number} (ha : a.Wf) (h : m.Counts (s ::ₘ own))
    (hx : m.content? s = some x) (hold : x.Holds text room) (hcap : x.capacity ≤ limit)
    (hneed : text.length + numberTostringSize a ≤ need) (hlimit : 2 * need < limit) :
    Attempts (appendStringRepr s (.val (.num a))) m own (Excused need limit)
      fun z => z.Holds (text ++ numberTostring a) [] ∧ z.capacity ≤ limit := by
  rw [appendStringRepr]
  by_cases hmax : numberTostringSize a = sizeMax
  · rw [if_pos hmax]
    have hexcused : sizeMax / 2 < numberTostringSize a ∧ numberTostringSize a ≤ need := by
      rw [hmax] at hneed ⊢
      unfold sizeMax at hneed ⊢
      omega
    exact Attempts.throw hexcused
  rw [if_neg hmax]
  have hsize : numberTostringSize a = 3 + a.nwords * deciBaseLog := by
    have hmin := numberTostringSize_eq a
    omega
  have hprint := numberTostringIn_eq ha hsize.ge
  have hlen : (numberTostring a).length ≤ numberTostringSize a :=
    (length_numberTostring_le ha).trans hsize.ge
  refine (stringHotAppendBegin_spec h hx hold hcap hneed hlimit).bind le_rfl ?_
  rintro r m' z ⟨hz, hzcap⟩ hleaves
  refine stringHotAppendBuf_bind hleaves.content ?_
  refine Attempts.compute hprint ?_
  exact append_buffer_spec hleaves.counts hleaves.uniq hleaves.content hz hzcap hlen

/-- A string or another value is appended as it is represented. -/
theorem appendStringRepr_spec [DeciBase] {v : Value} (hv : Printable v) (h : m.Counts (s ::ₘ own))
    (hx : m.content? s = some x) (hold : x.Holds text room) (hcap : x.capacity ≤ limit)
    (hneed : reprNeed text v ≤ need) (hlimit : 2 * need < limit) :
    Attempts (appendStringRepr s (.val v)) m own (Excused need limit)
      fun z => z.Holds (Calx.appendStringRepr text v) [] ∧ z.capacity ≤ limit := by
  cases v with
  | num a => exact appendNumber_spec hv h hx hold hcap hneed hlimit
  | str t =>
      have hlen : text.length + t.length ≤ need := by
        rw [← List.length_append]
        exact hneed
      exact stringAppend_spec h hx hold hcap (Source.gives_bytes t) hlen hlimit
  | flag b => exact appendLiteral_spec _ h hx hold hcap hneed hlimit
  | nil => exact appendKind_spec _ h hx hold hcap hneed hlimit
  | list => exact appendKind_spec _ h hx hold hcap hneed hlimit
  | dict => exact appendKind_spec _ h hx hold hcap hneed hlimit
  | weakref => exact appendKind_spec _ h hx hold hcap hneed hlimit
  | func => exact appendKind_spec _ h hx hold hcap hneed hlimit
  | cfunc => exact appendKind_spec _ h hx hold hcap hneed hlimit

/-- A string behind another reference is appended. -/
theorem appendStringRepr_str [DeciBase] (h : m.Counts (s ::ₘ own)) (hx : m.content? s = some x)
    (hold : x.Holds text room) (hcap : x.capacity ≤ limit) (ht : t ∈ own)
    (hy : m.content? t = some y) (hold' : y.Holds text' room')
    (hneed : (text ++ text').length ≤ need) (hlimit : 2 * need < limit) :
    Attempts (appendStringRepr s (.str t)) m own (Excused need limit)
      fun z => z.Holds (text ++ text') [] ∧ z.capacity ≤ limit := by
  rw [List.length_append] at hneed
  rw [appendStringRepr]
  refine Attempts.load hy ?_
  rw [hold'.size]
  exact stringAppend_spec h hx hold hcap (Source.gives_data ht hy hold') hneed hlimit

end

end Calx.Str
