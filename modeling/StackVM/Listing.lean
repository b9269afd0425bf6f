/-
  StackVM.Listing — programs shown to people.

  A listing has one line per instruction: the offset in at least four digits, the name, and the operand
  in the form its kind asks for. A byte that is no opcode takes a line of its own and is stepped over; an
  instruction whose operand is cut short takes the rest of the buffer. The line at the entry is marked.
-/

import StackVM.Instruction

namespace StackVM

namespace Listing

open Text (ofString decimal hexadecimal padStart padEnd byte)

def offsetColumn (offset : Nat) : Text := padStart 4 (byte '0') (decimal offset) ++ ofString " "

/-- The name, padded so that operands line up. -/
def nameColumn (op : Opcode) : Text := padEnd 16 (byte ' ') (ofString op.name) ++ ofString " "

def number (n : Nat) : Text := padStart 4 (byte ' ') (decimal n)

/-- What stands on a line after the offset. -/
def instruction (offset : Nat) (i : Instruction) : Text :=
  let operand := i.operand.toNat
  match i.op with
  | .jump | .jumpIfZero | .jumpIfNotZero =>
    nameColumn i.op ++ number offset ++ ofString " -> " ++ decimal operand
  | .pushInput _ | .alloc | .prop | .setProp => nameColumn i.op ++ number operand
  | .pushWord =>
    nameColumn i.op ++ decimal operand ++ ofString " (0x" ++ hexadecimal operand ++ ofString ")"
  | op => ofString op.name

/-- The line of whatever stands at the offset. -/
def line (code : Bytes) (offset : Nat) : Text :=
  offsetColumn offset ++
    match Instruction.decode code offset with
    | .ok i => instruction offset i
    | .error .endOfCode => ofString "<<end of code>>"
    | .error (.illegalOpcode b) =>
      ofString "<<illegal 0x" ++ padStart 2 (byte '0') (hexadecimal b.toNat) ++ ofString ">>"
    | .error (.truncated op) => nameColumn op ++ ofString "<truncated>"

/-- Where the line after this one starts. -/
def following (code : Bytes) (offset : Nat) : Nat :=
  match Instruction.decode code offset with
  | .ok i => offset + i.length
  | .error .endOfCode => offset + 1
  | .error (.illegalOpcode _) => offset + 1
  | .error (.truncated _) => code.size

/-- The same as a 64-bit offset, which wraps past the largest one. -/
def followingWord (code : Bytes) (offset : UInt64) : UInt64 :=
  UInt64.ofNat (following code offset.toNat)

theorem lt_following {code : Bytes} {offset : Nat} (h : offset < code.size) :
    offset < following code offset := by
  unfold following
  split
  · unfold Instruction.length; omega
  · omega
  · omega
  · exact h

/-- The offsets of the lines from `offset` on. -/
def offsetsFrom (code : Bytes) (offset : Nat) : List Nat :=
  if _h : offset < code.size then offset :: offsetsFrom code (following code offset) else []
termination_by code.size - offset
decreasing_by have := lt_following ‹_›; omega

def offsets (code : Bytes) : List Nat := offsetsFrom code 0

def markedLine (code : Bytes) (entry offset : Nat) : Text :=
  ofString (if offset = entry then "> " else "  ") ++ line code offset

/-- The lines of a whole program, the one at the entry marked. -/
def lines (code : Bytes) (entry : Nat) : List Text := (offsets code).map (markedLine code entry)

/-- The lines, each ended by a line feed. -/
def text (code : Bytes) (entry : Nat) : Text :=
  (lines code entry).flatMap (· ++ [byte '\n'])

/-- The heading above a listing. The name ends at its first zero byte. -/
def heading (name : Text) : Text := ofString "== " ++ name.untilZero ++ ofString " =="

end Listing

end StackVM
