/-
  StackVM.Bytes — byte buffers and little-endian words.

  Every multi-byte number of a program or an image is stored lowest byte first. `LittleEndian.bytes`
  writes the low bytes of a word, `LittleEndian.read` reads them back out of a buffer.
-/

namespace StackVM

abbrev Bytes := Array UInt8

namespace LittleEndian

/-- The `width` low bytes of a word, lowest first. -/
def bytes : Nat → UInt64 → List UInt8
  | 0, _ => []
  | width + 1, v => v.toUInt8 :: bytes width (v >>> 8)

@[simp] theorem length_bytes (width : Nat) (v : UInt64) : (bytes width v).length = width := by
  induction width generalizing v with
  | zero => rfl
  | succ width ih => simp [bytes, ih]

/-- The word whose bytes, lowest first, stand at `offset`; what lies past the end counts as zero. -/
def read (code : Bytes) (offset : Nat) : Nat → UInt64
  | 0 => 0
  | width + 1 => (code.getD offset 0).toUInt64 ||| (read code (offset + 1) width <<< 8)

end LittleEndian

end StackVM
