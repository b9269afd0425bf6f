/-
  StackVM.Literal — numbers as they are written in sources.

  An unsigned literal is decimal, or hexadecimal after the mark `0x`; what follows the mark may carry a
  sign, taken modulo 2^64, and a second mark. A word pushed on the stack may also be written as a negative
  decimal, stored in two's complement, or as a floating-point number, which is what a literal without
  the hexadecimal mark is taken for as soon as it contains a point or the letter `e`.

  A reader of numbers sees a literal up to its first zero byte, and that part has to be used up.
-/

import StackVM.Text
import StackVM.Binary64

namespace StackVM

namespace Literal

open Text (byte isDigit isAlphanumeric isUpper isLower lower untilZero ofString)

/-! ## Digits -/

/-- The value of a digit or letter, the letters continuing after nine. -/
def digitValue? (b : UInt8) : Option Nat :=
  if isDigit b then some (b - byte '0').toNat
  else if isLower b then some ((b - byte 'a').toNat + 10)
  else if isUpper b then some ((b - byte 'A').toNat + 10)
  else none

def isDigitOf (base : Nat) (b : UInt8) : Bool := (digitValue? b).any (· < base)

/-- The number a row of digits denotes. -/
def value (base : Nat) (t : Text) : Nat :=
  t.foldl (fun n b => n * base + (digitValue? b).getD 0) 0

/-- The number a text denotes that is a row of digits, at least one, from end to end. -/
def whole? (base : Nat) (t : Text) : Option Nat :=
  if !t.isEmpty && t.all (isDigitOf base) then some (value base t) else none

/-- Takes a sign off the front; tells whether it was a minus. -/
def splitSign : Text → Bool × Text
  | [] => (false, [])
  | b :: rest =>
    if b == byte '-' then (true, rest)
    else if b == byte '+' then (false, rest)
    else (false, b :: rest)

/-! ## Words -/

def ofNat? (n : Nat) : Option UInt64 := if n < UInt64.size then some (UInt64.ofNat n) else none

def decimal? (t : Text) : Option UInt64 := whole? 10 t >>= ofNat?

/-- The mark of a hexadecimal number, followed by at least one more byte. -/
def hasHexMark : Text → Bool
  | z :: x :: _ :: _ => z == byte '0' && lower x == byte 'x'
  | _ => false

/-- Takes a mark off the front where a hexadecimal digit follows it. -/
def dropHexMark (t : Text) : Text :=
  if hasHexMark t && (t.drop 2).head?.any (isDigitOf 16) then t.drop 2 else t

/-- What may follow the hexadecimal mark. Nothing at all denotes zero. -/
def hexadecimal? (t : Text) : Option UInt64 :=
  if t.isEmpty then some 0
  else
    let (negative, t) := splitSign t
    (whole? 16 (dropHexMark t) >>= ofNat?).map fun n => if negative then 0 - n else n

/-- An unsigned literal. It starts with a digit. -/
def unsigned? (t : Text) : Option UInt64 :=
  if t.head?.any isDigit then
    if hasHexMark t then hexadecimal? (untilZero (t.drop 2)) else decimal? (untilZero t)
  else none

/-- A negative decimal, in two's complement. -/
def negative? (t : Text) : Option UInt64 :=
  (whole? 10 ((untilZero t).drop 1)).bind fun n =>
    if n ≤ UInt64.size / 2 then some (0 - UInt64.ofNat n) else none

/-! ## Floating-point numbers -/

/-- Digits with or without a point, at least one of them: the number without the point, and how many
digits follow the point; and what comes after. -/
def mantissa? (base : Nat) (t : Text) : Option ((Nat × Nat) × Text) :=
  let front := t.takeWhile (isDigitOf base)
  let rest := t.dropWhile (isDigitOf base)
  let (back, rest) :=
    match rest with
    | b :: rest' =>
      if b == byte '.' then (rest'.takeWhile (isDigitOf base), rest'.dropWhile (isDigitOf base))
      else ([], rest)
    | [] => ([], rest)
  let digits := front ++ back
  if digits.isEmpty then none else some ((value base digits, back.length), rest)

/-- The exponent after a mantissa, marked by the letter; it is zero where nothing follows. -/
def exponent? (letter : UInt8) : Text → Option Int
  | [] => some 0
  | b :: rest =>
    if lower b == letter then
      let (negative, digits) := splitSign rest
      (whole? 10 digits).map fun n => if negative then -(n : Int) else (n : Int)
    else none

/-- Fraction digits of a hexadecimal mantissa stand for four bits each. -/
def hexFloat? (t : Text) : Option UInt64 :=
  (mantissa? 16 t).bind fun ((m, places), rest) =>
    (exponent? (byte 'p') rest).map fun e => Binary64.ofBinary m (e - 4 * (places : Int))

def decimalFloat? (t : Text) : Option UInt64 :=
  (mantissa? 10 t).bind fun ((m, places), rest) =>
    (exponent? (byte 'e') rest).map fun e => Binary64.ofDecimal m (e - (places : Int))

/-- The number in the brackets of a `nan`, in base sixteen after the hexadecimal mark, in base eight
after a zero, in base ten otherwise; one past the largest word counts as that. -/
def payload? (t : Text) : Option UInt64 :=
  let n :=
    if t.isEmpty then some 0
    else if hasHexMark t then whole? 16 (t.drop 2)
    else if t.head? == some (byte '0') then whole? 8 t
    else whole? 10 t
  n.map fun n => UInt64.ofNat (min n (UInt64.size - 1))

/-- What stands for no number: the brackets, if any, hold letters, digits and underscores, and give the
low fifty-one bits where they can be read as a number. -/
def nan? (t : Text) : Option UInt64 :=
  match t with
  | [] => some Binary64.nan
  | b :: rest =>
    let word := rest.dropLast
    if b == byte '(' && rest.getLast? == some (byte ')') &&
        word.all (fun c => isAlphanumeric c || c == byte '_') then
      some (Binary64.nan ||| ((payload? word).getD 0 &&& 0x7FFFFFFFFFFFF))
    else none

/-- A floating-point literal without its sign. -/
def magnitude? (t : Text) : Option UInt64 :=
  let low := t.map lower
  if low == ofString "inf" || low == ofString "infinity" then some Binary64.infinity
  else if low.take 3 == ofString "nan" then nan? (t.drop 3)
  else if hasHexMark t then hexFloat? (t.drop 2)
  else decimalFloat? t

/-- A floating-point literal, rounded to the nearest number. -/
def float? (t : Text) : Option UInt64 :=
  let (negative, t) := splitSign (untilZero t)
  (magnitude? t).map fun bits => if negative then bits ||| Binary64.signBit else bits

/-- Whether a literal is taken for a floating-point one. -/
def looksLikeFloat (t : Text) : Bool :=
  !hasHexMark t && t.any fun b => b == byte '.' || lower b == byte 'e'

/-! ## Words to push -/

inductive WordError
  | float
  | signed
  | integer
  deriving DecidableEq, Repr

/-- The literal of a word to push. -/
def word (t : Text) : Except WordError UInt64 :=
  if looksLikeFloat t then (float? t).elim (.error .float) .ok
  else if t.head? == some (byte '-') then (negative? t).elim (.error .signed) .ok
  else (unsigned? t).elim (.error .integer) .ok

end Literal

end StackVM
