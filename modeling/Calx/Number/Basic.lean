import Mathlib.Algebra.Group.Nat.Hom
import Mathlib.Data.List.DropRight

/-!
# Numbers as word arrays

The data of `number.h` and the decimal reader `number_parse` of `number.c`.
A number is a sign, a scale and an array of base-`DECI_BASE` words with the
least significant word first; the first `scale` words are the fraction.

## Implementation notes

The word size belongs to libdeci, whose sources are not part of the
repository. Its two configurations, nine and nineteen decimal digits to a
word, are kept as the parameter `DeciBase` of everything that reads a word.
`nwords` is the length of the word list.
-/

namespace Calx

/-- A span of source or string bytes. -/
abbrev Bytes := List UInt8

instance : LawfulBEq Bytes := List.instLawfulBEq

/-- The byte of an ASCII character. -/
def ch (c : Char) : UInt8 := c.toNat.toUInt8

/-- The single quote that may separate digits. -/
def quote : UInt8 := 39

/-- The word layout of libdeci: `DECI_BASE_LOG` decimal digits to a word. -/
class DeciBase where
  baseLog : Nat
  baseLog_eq : baseLog = 9 ∨ baseLog = 19

/-- `DECI_BASE_LOG`. -/
def deciBaseLog [DeciBase] : Nat := DeciBase.baseLog

/-- `DECI_BASE`. -/
def deciBase [DeciBase] : Nat := 10 ^ deciBaseLog

/-- The 64-bit configuration of libdeci, nineteen digits to a word. -/
@[reducible] def deciBase64 : DeciBase := ⟨19, Or.inr rfl⟩

/-- `Number`: sign, number of fraction words, all words from the lowest up. -/
structure Number where
  sign : Bool
  scale : Nat
  words : List Nat
deriving DecidableEq, Repr

namespace Number

/-- `nwords`. -/
def nwords (a : Number) : Nat := a.words.length

end Number

/-! ## Results of comparisons -/

/-- `COMPARE_LESS`. -/
def compareLess : Nat := 1

/-- `COMPARE_EQ`. -/
def compareEq : Nat := 2

/-- `COMPARE_GREATER`. -/
def compareGreater : Nat := 4

/-! ## Reading a decimal -/

/-- `copy_remove_sq`: the digits with every single quote left out. -/
def copyRemoveSq (s : Bytes) : Bytes := s.filter (· ≠ quote)

/-- `parse_word`. -/
def parseWord (s : Bytes) : Nat :=
  s.foldl (fun r c => r * 10 + (c.toNat - (ch '0').toNat)) 0

/-- `parse_word_pad`: a short word is filled up with zeros on the right. -/
def parseWordPad [DeciBase] (s : Bytes) : Nat :=
  parseWord s * 10 ^ (deciBaseLog - s.length)

/-- `parse_nchars_to_nwords`. -/
def parseNcharsToNwords [DeciBase] (n : Nat) : Nat :=
  n / deciBaseLog + if n % deciBaseLog = 0 then 0 else 1

/-- `parse_int_part`: `n` words cut from the right, the last one taking what is left. -/
def parseIntPart [DeciBase] : Nat → Bytes → List Nat
  | 0, _ => []
  | 1, s => [parseWord s]
  | n + 2, s =>
      parseWord (s.drop (s.length - deciBaseLog)) ::
        parseIntPart (n + 1) (s.take (s.length - deciBaseLog))

/-- `parse_frac_part`: `n` words cut from the left, the lowest one padded. -/
def parseFracPart [DeciBase] : Nat → Bytes → List Nat
  | 0, _ => []
  | 1, s => [parseWordPad s]
  | n + 2, s =>
      parseFracPart (n + 1) (s.drop deciBaseLog) ++ [parseWord (s.take deciBaseLog)]

/-- `parse_no_sq`. -/
def parseNoSq [DeciBase] (s : Bytes) : Number :=
  let sign := s.head? = some (ch '-')
  let s := if s.head? = some (ch '-') then s.tail else s
  let s := s.dropWhile (· = ch '0')
  if ch '.' ∈ s then
    let s := s.rdropWhile (· = ch '0')
    let intPart := s.takeWhile (· ≠ ch '.')
    let fracPart := (s.dropWhile (· ≠ ch '.')).tail
    let intNwords := parseNcharsToNwords intPart.length
    let fracNwords := parseNcharsToNwords fracPart.length
    ⟨sign, fracNwords, parseFracPart fracNwords fracPart ++ parseIntPart intNwords intPart⟩
  else
    ⟨sign, 0, parseIntPart (parseNcharsToNwords s.length) s⟩

/-- `number_parse`. -/
def numberParse [DeciBase] (s : Bytes) : Number :=
  if quote ∈ s then parseNoSq (copyRemoveSq s) else parseNoSq s

end Calx
