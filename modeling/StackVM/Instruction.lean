/-
  StackVM.Instruction — one instruction and its stored form.

  An instruction is stored as its opcode's byte followed by the operand, lowest byte first, in exactly as
  many bytes as the opcode asks for. `decode` reads one instruction at an offset of a code buffer; it
  fails past the end, on a byte that is no opcode, and where the operand is cut short.
-/

import StackVM.Bytes
import StackVM.Opcode

namespace StackVM

structure Instruction where
  op : Opcode
  /-- Zero when the opcode has no operand. -/
  operand : UInt64
  deriving DecidableEq, Repr

namespace Instruction

def length (i : Instruction) : Nat := 1 + i.op.operandWidth

def bytes (i : Instruction) : List UInt8 :=
  i.op.byte :: LittleEndian.bytes i.op.operandWidth i.operand

@[simp] theorem length_bytes (i : Instruction) : i.bytes.length = i.length := by
  simp [bytes, length, Nat.add_comm]

/-- The operand can be stored in the opcode's operand bytes. -/
def Fits (i : Instruction) : Prop := i.operand.toNat < 1 <<< (8 * i.op.operandWidth)

instance (i : Instruction) : Decidable i.Fits := inferInstanceAs (Decidable (_ < _))

inductive DecodeError
  | endOfCode
  | illegalOpcode (byte : UInt8)
  | truncated (op : Opcode)
  deriving DecidableEq, Repr

def decode (code : Bytes) (offset : Nat) : Except DecodeError Instruction :=
  if h : offset < code.size then
    match Opcode.ofByte? code[offset] with
    | none => .error (.illegalOpcode code[offset])
    | some op =>
      if code.size - offset - 1 < op.operandWidth then .error (.truncated op)
      else .ok ⟨op, LittleEndian.read code (offset + 1) op.operandWidth⟩
  else .error .endOfCode

/-! ## Outcomes by name -/

inductive DecodeStatus
  | ok
  | endOfCode
  | illegalOpcode
  | truncated
  deriving DecidableEq, Repr

namespace DecodeStatus

def all : List DecodeStatus := [ok, endOfCode, illegalOpcode, truncated]

def name : DecodeStatus → String
  | ok => "ok"
  | endOfCode => "end of code"
  | illegalOpcode => "illegal opcode"
  | truncated => "truncated"

end DecodeStatus

def DecodeError.status : DecodeError → DecodeStatus
  | endOfCode => .endOfCode
  | illegalOpcode _ => .illegalOpcode
  | truncated _ => .truncated

end Instruction

end StackVM
