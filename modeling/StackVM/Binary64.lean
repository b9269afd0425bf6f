/-
  StackVM.Binary64 — double-precision numbers as words.

  A number is its 64-bit pattern: a sign, eleven bits of exponent and fifty-two of fraction. A finite
  magnitude is a whole number of units, the unit being the smallest positive number, two to the power
  -1074; `units` gives that number, so remainders and roundings are done on natural numbers and are
  exact. `nearestUnits` rounds a quotient to the closest number, a tie to the one with an even last bit.
  `nearest` does the same for numbers that were read, of which the ones below the normal range may have
  lost a bit before.
-/

namespace StackVM

namespace Binary64

/-! ## Patterns -/

def signBit : UInt64 := 0x8000000000000000

def infinity : UInt64 := 0x7FF0000000000000

/-- The number that is none, without a payload. -/
def nan : UInt64 := 0x7FF8000000000000

/-- The pattern without its sign. -/
def magnitude (x : UInt64) : UInt64 := x &&& 0x7FFFFFFFFFFFFFFF

def sign (x : UInt64) : UInt64 := x &&& signBit

def isNaN (x : UInt64) : Bool := infinity < magnitude x

def isInfinite (x : UInt64) : Bool := magnitude x == infinity

/-- Either zero. -/
def isZero (x : UInt64) : Bool := magnitude x == 0

/-- Whether a single-precision pattern is no number. -/
def isNaN32 (x : UInt32) : Bool := 0x7F800000 < x &&& 0x7FFFFFFF

/-- A finite magnitude as a number of units. -/
def units (x : UInt64) : Nat :=
  let fraction := (x &&& 0xFFFFFFFFFFFFF).toNat
  match (magnitude x >>> 52).toNat with
  | 0 => fraction
  | e + 1 => (fraction + (1 <<< 52)) <<< e

/-! ## Rounding -/

/-- The quotient to the nearest whole number, a tie to the even one. -/
def roundDiv (num den : Nat) : Nat :=
  let q := num / den
  let r := num % den
  if 2 * r < den then q
  else if den < 2 * r then q + 1
  else q + q % 2

/-- The number nearest to `num / den` units; infinity where that is past the largest one. -/
def nearestUnits (num den : Nat) : UInt64 :=
  let shift := (num / den).log2 - 52
  let bits := (shift <<< 52) + roundDiv num (den <<< shift)
  if bits < infinity.toNat then UInt64.ofNat bits else infinity

/-- Fewer units than this are below the normal range. -/
def normalUnits : Nat := 1 <<< 52

/-- A number of units as it is kept by a reader that follows so many binary places below the unit, and of
what is further down notes only that there is something. Below the normal range, where a number takes
exactly 54 significant bits and the last of them is within reach, that bit is lost. It is missed where
the others make up a tie. -/
def kept (reach num den : Nat) : Nat × Nat :=
  let whole := num / den
  let places := 54 - (2 * whole).log2
  let bits := (num <<< places) / den
  if whole < normalUnits && places ≤ reach && bits % 2 == 1 && bits * den == num <<< places then
    (bits - 1, 1 <<< places)
  else (num, den)

/-- The number nearest to `num / den` as it is kept. -/
def nearest (reach num den : Nat) : UInt64 :=
  let (num, den) := kept reach (num <<< 1074) den
  nearestUnits num den

/-- A decimal is followed down to a quarter of a unit. -/
def decimalReach : Nat := 2

/-- A binary is followed as far as a bit can matter. -/
def binaryReach : Nat := 54

/-- The number nearest to `m * 10 ^ e`. Powers far out of range are not computed. -/
def ofDecimal (m : Nat) (e : Int) : UInt64 :=
  let top := e + (Nat.toDigits 10 m).length
  if m == 0 || top < -345 then 0
  else if 310 < top then infinity
  else if 0 ≤ e then nearest decimalReach (m * Nat.pow 10 e.toNat) 1
  else nearest decimalReach m (Nat.pow 10 (-e).toNat)

/-- The number nearest to `m * 2 ^ e`. Powers far out of range are not computed. -/
def ofBinary (m : Nat) (e : Int) : UInt64 :=
  let top := e + (m.log2 + 1 : Nat)
  if m == 0 || top < -1080 then 0
  else if 1030 < top then infinity
  else if 0 ≤ e then nearest binaryReach (m <<< e.toNat) 1
  else nearest binaryReach m (1 <<< (-e).toNat)

/-! ## Arithmetic -/

def add (a b : UInt64) : UInt64 := (Float.ofBits a + Float.ofBits b).toBits

def sub (a b : UInt64) : UInt64 := (Float.ofBits a - Float.ofBits b).toBits

def mul (a b : UInt64) : UInt64 := (Float.ofBits a * Float.ofBits b).toBits

def div (a b : UInt64) : UInt64 := (Float.ofBits a / Float.ofBits b).toBits

/-- What is left of `a` after the division by `b` with the quotient cut toward zero. It has the sign of
`a` and is exact. -/
def rem (a b : UInt64) : UInt64 :=
  if isNaN a || isNaN b || isInfinite a || isZero b then nan
  else if isInfinite b then a
  else sign a ||| nearestUnits (units a % units b) 1

end Binary64

end StackVM
