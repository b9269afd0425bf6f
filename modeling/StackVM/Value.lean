/-
  StackVM.Value — what the machine computes with.

  A value is either a raw word of 64 bits, read as an unsigned or signed number or as a floating-point
  number by the instruction that uses it, or a reference to an object of the heap. The two never mix:
  a raw word is never taken for a reference, whatever its bits.
-/

namespace StackVM

/-- A reference into the object table. The generation tells the objects apart that have lived, one after
the other, at the same index. -/
structure Handle where
  index : UInt32
  generation : UInt32
  deriving DecidableEq, Repr, Inhabited

namespace Handle

def text (x : Handle) : String := s!"#{x.index}:{x.generation}"

end Handle

inductive Value
  | raw (bits : UInt64)
  | ref (handle : Handle)
  deriving DecidableEq, Repr

namespace Value

instance : Inhabited Value := ⟨.raw 0⟩

def text : Value → String
  | raw bits => s!"Raw({bits})"
  | ref x => s!"Ref({x.text})"

inductive Kind
  | raw
  | reference
  deriving DecidableEq, Repr

namespace Kind

def all : List Kind := [raw, reference]

def name : Kind → String
  | raw => "raw"
  | reference => "reference"

end Kind

def kind : Value → Kind
  | raw _ => .raw
  | ref _ => .reference

/-! ## Numbers as raw words -/

/-- Zero-extends. -/
def ofUnsigned (n : UInt64) : Value := raw n

/-- Sign-extends: a negative number is stored in two's complement. -/
def ofSigned (n : Int64) : Value := raw n.toUInt64

/-- A single-precision number occupies the low half of the word; the high half is zero. -/
def ofBinary32 (bits : UInt32) : Value := raw bits.toUInt64

def ofBinary64 (bits : UInt64) : Value := raw bits

/-- The word read in two's complement. -/
def signed (bits : UInt64) : Int64 := bits.toInt64

/-- The low half, read as a single-precision number. -/
def binary32 (bits : UInt64) : UInt32 := bits.toUInt32

end Value

end StackVM
