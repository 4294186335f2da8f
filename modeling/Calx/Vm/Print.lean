import Calx.Line
import Calx.Number.Writer
import Calx.Vm.Elements

/-!
# Printing values

`value_write` of `vm.c`, which prints a value to a bounded depth, and `value_print`
behind `OP_PRINT`. Strings inside lists and dicts are written with escapes, and what
is written for a string is a string literal: the lexer reads it as one lexeme, and its
content is the string.

## Implementation notes

Output is what the calls of `fwrite`, `fputs` and `fputc` add up to. What `%p` prints
of an object is left open. The entries of a dict hold values; a null value, which none
has, would be printed as nothing.
-/

namespace Calx

open LexemeKind

/-! ## Escapes -/

/-- A digit of `HEX_CHARS`. -/
def hexChar (d : Nat) : UInt8 := (bytesOf "0123456789ABCDEF").getD d 0

/-- The bytes that `write_char_escaped` writes as a backslash and a letter. -/
def escapeLetter (c : UInt8) : Option UInt8 :=
  if c = 0 then some (ch '0')
  else if c = 7 then some (ch 'a')
  else if c = 8 then some (ch 'b')
  else if c = 9 then some (ch 't')
  else if c = 10 then some (ch 'n')
  else if c = 11 then some (ch 'v')
  else if c = 12 then some (ch 'f')
  else if c = 13 then some (ch 'r')
  else if c = 27 then some (ch 'e')
  else if c = ch '\\' then some (ch '\\')
  else if c = ch '"' then some (ch '"')
  else none

/-- `write_char_escaped`. -/
def writeCharEscaped (c : UInt8) : Bytes :=
  match escapeLetter c with
  | some e => [ch '\\', e]
  | none => [ch '\\', ch 'x', hexChar (c.toNat / 16), hexChar (c.toNat % 16)]

/-- The condition of `write_string_escaped`. -/
def mustEscape (c : UInt8) : Bool := c < 32 || c = ch '\\' || c = ch '"'

/-- The loop of `write_string_escaped`; `prev` is what has been passed and not been written. -/
def writeEscapedLoop (prev : Bytes) : Bytes → Bytes
  | [] => prev
  | c :: s =>
      if mustEscape c then prev ++ (writeCharEscaped c ++ writeEscapedLoop [] s)
      else writeEscapedLoop (prev ++ [c]) s

/-- `write_string_escaped`. -/
def writeStringEscaped (s : Bytes) : Bytes := ch '"' :: (writeEscapedLoop [] s ++ [ch '"'])

/-! ## Values -/

/-- Texts with a comma and a blank between any two. -/
def separated : List Bytes → Bytes
  | [] => []
  | [t] => t
  | t :: t' :: ts => t ++ (bytesOf ", " ++ separated (t' :: ts))

/-- `value_write`; `pointer` is what `%p` prints of an object. -/
def valueWrite [Libdeci] (pointer : Value → Bytes) (h : Containers) : Nat → Bool → Value → Bytes
  | 0, _, _ => bytesOf "..."
  | reclimit + 1, esc, v =>
      match v with
      | .num a => (numberWrite a).flatten
      | .flag b => bytesOf (if b then "true" else "false")
      | .nil => bytesOf "nil"
      | .str s => if esc then writeStringEscaped s else s
      | .list id =>
          ch '[' :: (separated ((h.list id).map (valueWrite pointer h reclimit true)) ++ [ch ']'])
      | .dict id =>
          ch '{' :: (separated ((h.dict id).items.map fun item =>
            writeStringEscaped item.key ++ (bytesOf ": " ++
              (item.value.map (valueWrite pointer h reclimit true)).getD [])) ++ [ch '}'])
      | .func _ | .cfunc _ => bytesOf "<function at " ++ pointer v ++ bytesOf ">"
      | .weakref _ => bytesOf "<weakref at " ++ pointer v ++ bytesOf ">"

/-- `value_print`. -/
def valuePrint [Libdeci] (pointer : Value → Bytes) (h : Containers) : Value → Bytes
  | .nil => []
  | v => valueWrite pointer h 3 false v ++ [ch '\n']

/-! ## Escapes are read back -/

/-- What is written for a byte of a string. -/
def escaped (c : UInt8) : Bytes := if mustEscape c then writeCharEscaped c else [c]

theorem writeEscapedLoop_eq (prev s : Bytes) :
    writeEscapedLoop prev s = prev ++ s.flatMap escaped := by
  induction s generalizing prev with
  | nil => rw [writeEscapedLoop, List.flatMap_nil, List.append_nil]
  | cons c s ih =>
      rw [writeEscapedLoop, List.flatMap_cons, escaped]
      split
      · rw [ih, List.nil_append]
      · rw [ih, List.append_assoc]

/-- What is written for a string, between its quotes. -/
theorem writeStringEscaped_eq (s : Bytes) :
    writeStringEscaped s = ch '"' :: (s.flatMap escaped ++ [ch '"']) := by
  rw [writeStringEscaped, writeEscapedLoop_eq, List.nil_append]

theorem hexChar_spec : ∀ d < 16, decodeHex (hexChar d) = some d ∧ mustEscape (hexChar d) = false := by
  decide

theorem escapeLetter_spec {c e : UInt8} (h : escapeLetter c = some e) :
    e ≠ ch 'x' ∧ escapeByte e = some c := by
  unfold escapeLetter at h
  repeat' split at h
  all_goals cases h <;> subst_vars <;> decide

/-- `unescape` reads what `write_char_escaped` has written behind the backslash. -/
theorem unescape_written (c : UInt8) : ∃ e, writeCharEscaped c = ch '\\' :: e ∧
    ∀ r, unescape (e ++ r) = .ok (c, e.length) := by
  unfold writeCharEscaped
  split
  · rename_i e he
    obtain ⟨hx, hbyte⟩ := escapeLetter_spec he
    refine ⟨[e], rfl, fun r => ?_⟩
    simp [unescape, hx, hbyte]
  · refine ⟨_, rfl, fun r => ?_⟩
    have hlt := c.toNat_lt
    have hhi := (hexChar_spec (c.toNat / 16) (by omega)).1
    have hlo := (hexChar_spec (c.toNat % 16) (by omega)).1
    have hbyte : (c.toNat / 16 * 16 + c.toNat % 16).toUInt8 = c := by
      rw [Nat.mul_comm, Nat.div_add_mod]
      simp
    simp [unescape, hhi, hlo, hbyte]

theorem mustEscape_backslash : mustEscape (ch '\\') = true := by decide

theorem flatMap_escaped_plain {s : Bytes} (h : ∀ c ∈ s, mustEscape c = false) :
    s.flatMap escaped = s := by
  induction s with
  | nil => rfl
  | cons c s ih =>
      have hc : escaped c = [c] := by rw [escaped, h c List.mem_cons_self, if_neg Bool.false_ne_true]
      rw [List.flatMap_cons, hc, ih fun b hb => h b (List.mem_cons_of_mem c hb)]
      rfl

/-- The loop of `add_string_const` reads what has been written for the bytes of a string. -/
theorem stringContent_written {fuel : Nat} {s : Bytes} (hfuel : (s.flatMap escaped).length < fuel) :
    stringContent fuel (s.flatMap escaped) = .ok s := by
  induction fuel generalizing s with
  | zero => exact absurd hfuel (Nat.not_lt_zero _)
  | succ fuel ih =>
      -- the bytes up to the first escape
      obtain ⟨p, t, rfl, hp, ht⟩ : ∃ p t, s = p ++ t ∧ (∀ c ∈ p, mustEscape c = false) ∧
          (t = [] ∨ ∃ c t', t = c :: t' ∧ mustEscape c = true) := by
        refine ⟨s.takeWhile (!mustEscape ·), s.dropWhile (!mustEscape ·),
          (List.takeWhile_append_dropWhile).symm, fun c hc => ?_, ?_⟩
        · simpa using List.mem_takeWhile_imp hc
        · cases hd : s.dropWhile (!mustEscape ·) with
          | nil => exact Or.inl rfl
          | cons c t' =>
              have hc := List.head_dropWhile_not (!mustEscape ·) (l := s) (by simp [hd])
              simp only [hd, List.head_cons] at hc
              exact Or.inr ⟨c, t', rfl, by simpa using hc⟩
      have hplain : ∀ b ∈ p, decide (b ≠ ch '\\') = true := by
        intro b hb
        rw [decide_eq_true_eq]
        rintro rfl
        exact absurd (hp _ hb) (by rw [mustEscape_backslash]; decide)
      rw [List.flatMap_append, flatMap_escaped_plain hp] at hfuel ⊢
      obtain rfl | ⟨c, t', rfl, hc⟩ := ht
      · rw [List.flatMap_nil, List.append_nil, stringContent]
        have htake : p.takeWhile (· ≠ ch '\\') = p := List.takeWhile_eq_self_iff.mpr hplain
        simp only [htake, List.drop_length]
      · obtain ⟨e, hwritten, hread⟩ := unescape_written c
        have hesc : escaped c = ch '\\' :: e := by rw [escaped, if_pos hc, hwritten]
        rw [List.flatMap_cons, hesc] at hfuel ⊢
        have htake : (p ++ (ch '\\' :: e ++ t'.flatMap escaped)).takeWhile (· ≠ ch '\\') = p := by
          rw [List.takeWhile_append_of_pos hplain]
          simp
        rw [stringContent]
        simp only [htake, List.drop_left]
        simp only [List.length_append, List.length_cons] at hfuel
        rw [List.cons_append]
        simp only [hread, List.drop_left, ih (s := t') (by omega)]

/-! ## Strings are lexed -/

theorem stringScan_plain {c : UInt8} {s : Bytes} (hs : s ≠ []) (hq : c ≠ ch '"')
    (hb : c ≠ ch '\\') (hn : c ≠ ch '\n') : stringScan (c :: s) = (stringScan s).shift 1 := by
  obtain ⟨c', cs, rfl⟩ := List.exists_cons_of_ne_nil hs
  rw [stringScan, if_neg hq, if_neg hb, if_neg hn]

/-- A byte that is not escaped is passed as it is. -/
theorem stringScan_unescaped {c : UInt8} {s : Bytes} (hs : s ≠ []) (hc : mustEscape c = false) :
    stringScan (c :: s) = (stringScan s).shift 1 := by
  have hne : ∀ b, mustEscape b = true → c ≠ b := by
    rintro b hb rfl
    rw [hc] at hb
    cases hb
  exact stringScan_plain hs (hne _ (by decide)) (hne _ (by decide)) (hne _ (by decide))

/-- `string` passes what is written for a byte. -/
theorem stringScan_escaped (c : UInt8) {s : Bytes} (hs : s ≠ []) :
    stringScan (escaped c ++ s) = (stringScan s).shift (escaped c).length := by
  have hescape : ∀ e w, w ≠ [] → stringScan (ch '\\' :: e :: w) = (stringScan w).shift 2 := by
    intro e w hw
    rw [stringScan, if_neg (by decide), if_pos rfl]
  unfold escaped
  cases hc : mustEscape c with
  | false => exact stringScan_unescaped hs hc
  | true =>
      rw [if_pos rfl, writeCharEscaped]
      split
      · exact hescape _ s hs
      · have hlt := c.toNat_lt
        have hhi := (hexChar_spec (c.toNat / 16) (by omega)).2
        have hlo := (hexChar_spec (c.toNat % 16) (by omega)).2
        simp only [List.cons_append, List.nil_append]
        rw [hescape _ _ (List.cons_ne_nil _ _), stringScan_unescaped (List.cons_ne_nil _ _) hhi,
          stringScan_unescaped hs hlo]
        simp [StringEnd.shift_shift]

/-- What is written for a string is a string literal. -/
theorem stringScan_written (s r : Bytes) : stringScan (s.flatMap escaped ++ ch '"' :: r) =
    .closed ((s.flatMap escaped).length + 1) := by
  induction s with
  | nil =>
      rw [List.flatMap_nil, List.nil_append]
      cases r <;> simp [stringScan]
  | cons c s ih =>
      rw [List.flatMap_cons, List.append_assoc, stringScan_escaped c (by simp), ih]
      simp only [StringEnd.shift, List.length_append, StringEnd.closed.injEq]
      omega

theorem spells_written (s : Bytes) : Spells lkString (writeStringEscaped s) := by
  rw [writeStringEscaped_eq]
  apply Spells.string
  rw [stringScan_written, List.length_append, List.length_singleton]

end Calx
