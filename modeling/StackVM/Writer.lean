/-
  StackVM.Writer — programs written piece by piece.

  A writer appends to a buffer of code. The pieces are taken as they come; only `emitInstruction` checks
  that a byte is an opcode and that the operand fits, and refuses without writing anything otherwise.
  A jump can be written before its target is known and patched later, which overwrites its four operand
  bytes and nothing else.
-/

import StackVM.Instruction

namespace StackVM

structure Writer where
  code : Bytes
  deriving DecidableEq, Repr

namespace Writer

def empty : Writer := ⟨#[]⟩

def offset (w : Writer) : Nat := w.code.size

def append (w : Writer) (bs : List UInt8) : Writer := ⟨w.code ++ bs⟩

/-! ## Pieces -/

def u8 (w : Writer) (v : UInt8) : Writer := w.append [v]

def u32 (w : Writer) (v : UInt32) : Writer := w.append (LittleEndian.bytes 4 v.toUInt64)

def u64 (w : Writer) (v : UInt64) : Writer := w.append (LittleEndian.bytes 8 v)

/-- An opcode without operand. -/
def emit (w : Writer) (op : UInt8) : Writer := w.u8 op

/-- An opcode with a one-byte operand. -/
def emitByte (w : Writer) (op operand : UInt8) : Writer := (w.u8 op).u8 operand

/-- An instruction that pushes the word. -/
def emitWord (w : Writer) (v : UInt64) : Writer := (w.u8 Opcode.pushWord.byte).u64 v

/-- An instruction that pushes the number in two's complement. -/
def emitSigned (w : Writer) (v : Int64) : Writer := w.emitWord v.toUInt64

/-- A jump; its operand stands at the offset given by `jumpOperand` before the call. -/
def emitJump (w : Writer) (op : UInt8) (target : UInt32) : Writer := (w.u8 op).u32 target

/-- Where the operand of a jump written next will stand. -/
def jumpOperand (w : Writer) : Nat := w.offset + 1

/-- Overwrites the four bytes of a jump's target. -/
def patchJump (w : Writer) (operand : Nat) (target : UInt32) : Writer :=
  let t := target.toUInt64
  ⟨(((w.code.setIfInBounds operand t.toUInt8).setIfInBounds (operand + 1) (t >>> 8).toUInt8).setIfInBounds
      (operand + 2) (t >>> 16).toUInt8).setIfInBounds (operand + 3) (t >>> 24).toUInt8⟩

/-! ## Checked instructions -/

inductive EmitError
  | unknownOpcode
  | exceedsByte (op : Opcode)
  | exceedsJump (op : Opcode)
  deriving DecidableEq, Repr

def EmitError.message : EmitError → String
  | unknownOpcode => "unknown opcode"
  | exceedsByte op => s!"operand of '{op.name}' must fit in one byte"
  | exceedsJump op => s!"operand of '{op.name}' must fit in 32 bits"

/-- What speaks against an operand, if anything. An opcode without operand takes any, and ignores it. -/
def refusal? (op : Opcode) (operand : UInt64) : Option EmitError :=
  match op.operandWidth with
  | 1 => if 0xFF < operand then some (.exceedsByte op) else none
  | 4 => if 0xFFFFFFFF < operand then some (.exceedsJump op) else none
  | _ => none

/-- One instruction, after a check of the opcode and of the operand's width. -/
def emitInstruction (w : Writer) (b : UInt8) (operand : UInt64) : Except EmitError Writer :=
  match Opcode.ofByte? b with
  | none => .error .unknownOpcode
  | some op =>
    match refusal? op operand with
    | some e => .error e
    | none => .ok (w.append (Instruction.bytes ⟨op, operand⟩))

end Writer

end StackVM
