import Calx.Number.Libdeci

/-!
# The arithmetic of numbers

The operations of `number.h`, `number.c` and `ntp.c` other than reading and
printing, on arrays of words.

## Implementation notes

Numbers are values here. `uniq` says that a number has one reference (`nrefs == 1`)
and may be changed in place, `same` that both operands are one object. Sizes are
natural numbers: where the code's `size_t` arithmetic saturates or an allocation
fails, the process ends.
-/

namespace Calx

open Libdeci

/-- The largest `size_t`. -/
def sizeMax : Nat := 2 ^ 64 - 1

/-! ## Precision -/

/-- `NumberTruncateParams`. -/
structure NumberTruncateParams where
  scale : Nat
  submod : Nat
deriving DecidableEq, Repr

/-- `ntp_from_prec`. -/
def ntpFromPrec [DeciBase] (prec : Nat) : NumberTruncateParams :=
  let q := prec / deciBaseLog
  let r := prec % deciBaseLog
  if r = 0 then ⟨q, 1⟩ else ⟨q + 1, 10 ^ (deciBaseLog - r)⟩

/-- `word_ctz` on the lowest bits of a word. -/
def ctzLoop : Nat → Nat → Nat
  | 0, _ => 0
  | bits + 1, x => if x % 2 = 0 then ctzLoop bits (x / 2) + 1 else 0

/-- `word_ctz`. -/
def wordCtz (x : Nat) : Nat := ctzLoop 64 x

/-- `ntp_to_prec`, in `size_t`. -/
def ntpToPrec [DeciBase] (ntp : NumberTruncateParams) : Nat :=
  (ntp.scale * deciBaseLog + (2 ^ 64 - wordCtz ntp.submod)) % 2 ^ 64

/-! ## Conversion -/

/-- The loop of `number_new_from_zu` over a buffer of `slots` words. -/
def zuWords [DeciBase] : Nat → Nat → Option (List Nat)
  | _, 0 => some []
  | 0, _ + 1 => none
  | slots + 1, y + 1 =>
      if y + 1 < deciBase then some [y + 1]
      else (zuWords slots ((y + 1) / deciBase)).map ((y + 1) % deciBase :: ·)

/-- `number_new_from_zu`; the slow way pushes the words one by one. -/
def numberNewFromZu [DeciBase] (x : Nat) : Number :=
  ⟨false, 0, (zuWords 4 x).getD (Nat.digits deciBase x)⟩

/-- `number_is_zero`. -/
def numberIsZero [Libdeci] (a : Number) : Bool :=
  decide (a.scale = a.nwords) && deciIsZero (a.words.take a.scale)

/-- `number_is_izero`. -/
def numberIsIzero (a : Number) : Bool := decide (a.nwords = a.scale)

/-- `number_is_fzero`. -/
def numberIsFzero [Libdeci] (a : Number) : Bool := deciIsZero (a.words.take a.scale)

/-- The loop of `number_to_zu` over the words from the top; `none` is an overflow. -/
def zuLoop [DeciBase] : List Nat → Nat → Option Nat
  | [], r => some r
  | w :: words, r =>
      if r * deciBase < 2 ^ 64 then
        if r * deciBase + w < 2 ^ 64 then zuLoop words (r * deciBase + w) else none
      else none

/-- `number_to_zu`. -/
def numberToZu [Libdeci] (a : Number) : Nat :=
  if a.sign then if numberIsZero a then 0 else sizeMax
  else (zuLoop (a.words.drop a.scale).reverse 0).getD sizeMax

/-- `number_to_u32`. -/
def numberToU32 [DeciBase] (a : Number) : UInt32 :=
  let r := (a.words.drop a.scale).reverse.foldl
    (fun r w => r * UInt32.ofNat deciBase + UInt32.ofNat w) 0
  if a.sign then -r else r

/-! ## The shape of the array -/

/-- `unsafe_push_word`. -/
def unsafePushWord (a : Number) (w : Nat) : Number := { a with words := a.words ++ [w] }

/-- `unsafe_strip`: `nwr` words stay, `sr` of them in the fraction. -/
def unsafeStrip (a : Number) (nwr sr : Nat) : Number :=
  if a.nwords = nwr ∧ a.scale = sr then a
  else { a with scale := sr, words := (a.words.drop (a.scale - sr)).take nwr }

/-- `unsafe_normalize_full`. -/
def unsafeNormalizeFull [Libdeci] (a : Number) : Number :=
  let ds := a.scale - (deciSkip0 (a.words.take a.scale)).length
  let newNintpart := (deciNormalize (a.words.drop a.scale)).length
  let newScale := a.scale - ds
  unsafeStrip a (newScale + newNintpart) newScale

/-- `words[0] -= words[0] % submod`. -/
def cutLow (submod : Nat) : List Nat → List Nat
  | [] => []
  | w :: words => (w - w % submod) :: words

/-- `unsafe_normalize_after_div`. -/
def unsafeNormalizeAfterDiv [Libdeci] (a : Number) (nwr : Nat) (ntp : NumberTruncateParams) :
    Number :=
  let sa := a.scale
  let newNwa :=
    if nwr > sa then sa + (deciNormalize ((a.words.take nwr).drop sa)).length else sa
  let a :=
    if nwr > sa then a
    else { a with words := a.words.take nwr ++ List.replicate (sa - nwr) 0 ++ a.words.drop sa }
  if sa ≥ ntp.scale then
    let a := unsafeStrip a (newNwa - sa + ntp.scale) ntp.scale
    if ntp.scale ≠ 0 then { a with words := cutLow ntp.submod a.words } else a
  else unsafeStrip a newNwa sa

/-- `unsafe_normalize_after_idiv`. -/
def unsafeNormalizeAfterIdiv [Libdeci] (a : Number) (nwr : Nat) : Number :=
  unsafeStrip a (deciNormalize (a.words.take nwr)).length 0

/-- `mkuniq`. -/
def mkuniq (uniq : Bool) (a : Number) : Number :=
  if uniq then a else ⟨a.sign, a.scale, a.words⟩

/-- `mkuniq_scale_down`. -/
def mkuniqScaleDown (uniq : Bool) (a : Number) (sr : Nat) : Number :=
  if uniq ∧ a.scale = sr then a
  else
    let nwr := a.nwords - a.scale + sr
    ⟨a.sign, sr, a.words.drop (a.nwords - nwr)⟩

/-- `mkuniq_scale_up`. -/
def mkuniqScaleUp (uniq : Bool) (a : Number) (sr : Nat) : Number :=
  if uniq ∧ a.scale = sr then a
  else ⟨a.sign, sr, List.replicate (sr - a.scale) 0 ++ a.words⟩

/-- `mkuniq_extend`. -/
def mkuniqExtend (uniq : Bool) (a : Number) (newNwords : Nat) : Number :=
  if uniq then
    if a.nwords ≠ newNwords then
      { a with words := a.words ++ List.replicate (newNwords - a.nwords) 0 }
    else a
  else ⟨a.sign, a.scale, a.words ++ List.replicate (newNwords - a.nwords) 0⟩

/-! ## Addition and subtraction -/

/-- The operand that `do_add_or_sub` writes the result over, with the room that it needs. -/
def makeRoom (uniq : Bool) (a b : Number) : Number :=
  let ninta := a.nwords - a.scale
  let nintb := b.nwords - b.scale
  if ninta < nintb then mkuniqExtend uniq a (a.scale + nintb)
  else if a.scale < b.scale then mkuniqScaleUp uniq a b.scale
  else mkuniq uniq a

/-- The sum of the magnitudes, over the first operand. -/
def addWords [Libdeci] (a b : Number) : Number :=
  let d := a.scale - b.scale
  let r := deciAdd (a.words.drop d) b.words
  let a := { a with words := a.words.take d ++ r.1 }
  if r.2 then unsafePushWord a 1 else a

/-- The difference of the magnitudes, over the first operand, and whether it is negative. -/
def subWords [Libdeci] (a b : Number) : Number × Bool :=
  let d := a.scale - b.scale
  let r := deciSubRaw (a.words.drop d) b.words
  let words := a.words.take d ++ r.1
  let words := if r.2 then deciUncomplement words else words
  let words :=
    if words.length ≠ a.scale ∧ words.getLast? = some 0 then
      words.take a.scale ++ deciNormalize (words.drop a.scale)
    else words
  ({ a with words := words }, r.2)

/-- `do_add_or_sub`. -/
def doAddOrSub [Libdeci] (uniqA uniqB : Bool) (a b : Number) (add : Bool) : Number :=
  let swap := decide (a.nwords < b.nwords) || (decide (a.nwords = b.nwords) && uniqB)
  let x := if swap then b else a
  let y := if swap then a else b
  let negateResult := swap && !add
  let x := makeRoom (if swap then uniqB else uniqA) x y
  if x.sign ^^ y.sign ^^ add then
    let r := addWords x y
    { r with sign := r.sign ^^ negateResult }
  else
    let r := subWords x y
    { r.1 with sign := r.1.sign ^^ (negateResult ^^ r.2) }

/-- `number_add`. -/
def numberAdd [Libdeci] (uniqA uniqB : Bool) (a b : Number) : Number :=
  doAddOrSub uniqA uniqB a b true

/-- `number_sub`. -/
def numberSub [Libdeci] (uniqA uniqB : Bool) (a b : Number) : Number :=
  doAddOrSub uniqA uniqB a b false

/-- `number_abs_add_uword`. -/
def numberAbsAddUword [Libdeci] (uniq : Bool) (a : Number) (b : Nat) : Number :=
  if b = 0 then a
  else
    let a := mkuniq uniq a
    if a.scale = a.nwords then unsafePushWord a b
    else
      let r := deciAdd (a.words.drop a.scale) [b]
      let a := { a with words := a.words.take a.scale ++ r.1 }
      if r.2 then unsafePushWord a 1 else a

/-! ## Multiplication -/

/-- `number_mul`. -/
def numberMul [Libdeci] (same : Bool) (a b : Number) : Number :=
  unsafeNormalizeFull ⟨a.sign ^^ b.sign, a.scale + b.scale, fancyMul same a.words b.words⟩

/-- `number_mul_uword`. -/
def numberMulUword [Libdeci] (uniq : Bool) (a : Number) (b : Nat) : Number :=
  if b = 0 then numberNewFromZu 0
  else
    let a := mkuniq uniq a
    let r := deciMulUword a.words b
    let a := { a with words := r.1 }
    if r.2 ≠ 0 then unsafePushWord a r.2 else a

/-- The loop of `number_pow_zu` over the lowest bits of the exponent. -/
def powLoop [Libdeci] (b : Number) (e : Nat) : Nat → Number → Number
  | 0, s => s
  | h + 1, s =>
      let s := numberMul true s s
      powLoop b e h (if e.testBit h then numberMul false s b else s)

/-- `number_pow_zu`; `2 ^ Nat.log2 e` is the highest bit of `e`. -/
def numberPowZu [Libdeci] (uniq : Bool) (b : Number) (e : Nat) : Number :=
  if e = 0 then numberNewFromZu 1
  else
    let b := unsafeNormalizeFull (mkuniq uniq b)
    powLoop b e (Nat.log2 e) b

/-- `number_abs_eq_uword`. -/
def numberAbsEqUword [Libdeci] (a : Number) (w : Nat) : Bool :=
  if w = 0 then numberIsZero a
  else numberIsFzero a && decide (a.words.drop a.scale = [w])

/-- `number_pow`; `none` is the panic "exponent is too large". -/
def numberPow [Libdeci] (uniq : Bool) (b e : Number) : Option Number :=
  let x := numberToZu e
  if x = sizeMax then
    if numberIsZero b then some b
    else if numberAbsEqUword b 1 then
      if b.sign && decide (numberToU32 e &&& 1 ≠ 0) then some b else some (numberNewFromZu 1)
    else none
  else some (numberPowZu uniq b x)

/-! ## Division -/

/-- `div_prepare`. -/
def divPrepare (uniq : Bool) (a : Number) (mulBasePow minScale : Nat) : Number :=
  let sr := if minScale > a.scale then minScale else a.scale
  { mkuniqScaleUp uniq a (sr + mulBasePow) with scale := sr }

/-- `number_div`. -/
def numberDiv [Libdeci] (uniq : Bool) (a b : Number) (ntp : NumberTruncateParams) : Number :=
  let a := divPrepare uniq a b.scale ntp.scale
  let r := fancyDiv a.words b.words
  unsafeNormalizeAfterDiv ⟨a.sign ^^ b.sign, a.scale, r.1⟩ r.2 ntp

/-- `number_imod`. -/
def numberImod [Libdeci] (uniq : Bool) (a b : Number) : Number :=
  let a := mkuniqScaleDown uniq a 0
  let r := fancyMod a.words (b.words.drop b.scale)
  unsafeNormalizeAfterIdiv { a with words := r.1 } r.2

/-- `number_idiv`. -/
def numberIdiv [Libdeci] (uniq : Bool) (a b : Number) : Number :=
  let a := mkuniqScaleDown uniq a 0
  let r := fancyDiv a.words (b.words.drop b.scale)
  unsafeNormalizeAfterIdiv ⟨a.sign ^^ b.sign, a.scale, r.1⟩ r.2

/-! ## Rounding -/

/-- `number_negate`. -/
def numberNegate (uniq : Bool) (a : Number) : Number :=
  let a := mkuniq uniq a
  { a with sign := a.sign ^^ true }

/-- `number_trunc`. -/
def numberTrunc (uniq : Bool) (a : Number) : Number := mkuniqScaleDown uniq a 0

/-- The rounding away from zero that `number_floor`, `number_ceil` and `number_round` share. -/
def truncAway [Libdeci] (uniq away : Bool) (a : Number) : Number :=
  if away then mkuniqScaleDown true (numberAbsAddUword uniq a 1) 0 else mkuniqScaleDown uniq a 0

/-- `number_floor`. -/
def numberFloor [Libdeci] (uniq : Bool) (a : Number) : Number :=
  truncAway uniq (a.sign && !numberIsFzero a) a

/-- `number_ceil`. -/
def numberCeil [Libdeci] (uniq : Bool) (a : Number) : Number :=
  truncAway uniq (!a.sign && !numberIsFzero a) a

/-- `number_round`. -/
def numberRound [Libdeci] (uniq : Bool) (a : Number) : Number :=
  truncAway uniq ((a.words.take a.scale).getLast?.any (deciBase / 2 ≤ ·)) a

/-- `number_frac`. -/
def numberFrac (uniq : Bool) (a : Number) : Number :=
  let a := mkuniq uniq a
  unsafeStrip a a.scale a.scale

/-! ## Comparison -/

/-- The loops of `compare_abs` over the words from the top down; the first span is the longer one. -/
def compareWords (xorResultWith : Nat) : List Nat → List Nat → Nat
  | [], _ => compareEq
  | w₁, [] => if w₁.any (· ≠ 0) then xorResultWith ^^^ compareGreater else compareEq
  | x :: w₁, y :: w₂ =>
      if x < y then xorResultWith ^^^ compareLess
      else if x > y then xorResultWith ^^^ compareGreater
      else compareWords xorResultWith w₁ w₂

/-- `compare_abs`. -/
def compareAbs (a b : Number) : Nat :=
  let ninta := a.nwords - a.scale
  let nintb := b.nwords - b.scale
  if ninta ≠ nintb then if ninta < nintb then compareLess else compareGreater
  else if a.scale < b.scale then
    compareWords (compareLess ||| compareGreater) b.words.reverse a.words.reverse
  else compareWords 0 a.words.reverse b.words.reverse

/-- `number_compare`. -/
def numberCompare [Libdeci] (a b : Number) : Nat :=
  if a.sign = b.sign then if a.sign then compareAbs b a else compareAbs a b
  else if numberIsZero a && numberIsZero b then compareEq
  else if a.sign then compareLess else compareGreater

/-! ## Bit operations -/

/-- `number_bit_and`. -/
def numberBitAnd [DeciBase] (a b : Number) : Number :=
  numberNewFromZu (numberToU32 a &&& numberToU32 b).toNat

/-- `number_bit_or`. -/
def numberBitOr [DeciBase] (a b : Number) : Number :=
  numberNewFromZu (numberToU32 a ||| numberToU32 b).toNat

/-- `number_bit_xor`. -/
def numberBitXor [DeciBase] (a b : Number) : Number :=
  numberNewFromZu (numberToU32 a ^^^ numberToU32 b).toNat

/-- `number_bit_shl`. -/
def numberBitShl [DeciBase] (a b : Number) : Number :=
  let y := numberToU32 b
  numberNewFromZu (if y < 32 then numberToU32 a <<< y else 0).toNat

/-- `number_bit_lshr`. -/
def numberBitLshr [DeciBase] (a b : Number) : Number :=
  let y := numberToU32 b
  numberNewFromZu (if y < 32 then numberToU32 a >>> y else 0).toNat

/-! ## Powers of ten -/

/-- `number_scale_down`. -/
def numberScaleDown [Libdeci] (uniq : Bool) (a : Number) (n : Nat) : Number :=
  let q := n / deciBaseLog
  let r := n % deciBaseLog
  let s := a.scale + q
  let a := mkuniqExtend uniq a (if a.nwords > s then a.nwords else s)
  let a := { a with scale := a.scale + q }
  let a :=
    if r ≠ 0 then
      let d := deciDivmodUword a.words (10 ^ r)
      let a := { a with words := d.1 }
      if d.2 ≠ 0 then
        let a := mkuniqScaleUp true a (a.scale + 1)
        { a with words := a.words.set 0 (d.2 * 10 ^ (deciBaseLog - r)) }
      else a
    else a
  unsafeNormalizeFull a

/-- `number_scale_up`. -/
def numberScaleUp [Libdeci] (uniq : Bool) (a : Number) (n : Nat) : Number :=
  let q := n / deciBaseLog
  let r := n % deciBaseLog
  let a := mkuniqScaleUp uniq a (if a.scale > q then a.scale else q)
  let a := unsafeNormalizeFull { a with scale := a.scale - q }
  if r ≠ 0 then numberMulUword true a (10 ^ r) else a

end Calx
