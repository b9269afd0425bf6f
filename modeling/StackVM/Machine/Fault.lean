/-
  StackVM.Machine.Fault — why a machine stops short.

  A `Fault` is the kind of failure, by name. A `Cause` is what happened in full; it has a kind and a
  message. Where the heap refuses something, the kind goes by the kind of its error.
-/

import StackVM.Heap.Object
import StackVM.Instruction

namespace StackVM

inductive Fault
  | none
  | unreachable
  | illegalInstruction
  | unexpectedEndOfCode
  | stackOverflow
  | stackUnderflow
  | divisionByZero
  | typeMismatch
  | outOfBounds
  | invalidReference
  | outOfMemory
  | invalidSizeClass
  | invalidJump
  | stepBudgetExhausted
  | cancelled
  deriving DecidableEq, Repr

namespace Fault

def all : List Fault :=
  [none, unreachable, illegalInstruction, unexpectedEndOfCode, stackOverflow, stackUnderflow,
   divisionByZero, typeMismatch, outOfBounds, invalidReference, outOfMemory, invalidSizeClass,
   invalidJump, stepBudgetExhausted, cancelled]

def name : Fault → String
  | none => "none"
  | unreachable => "unreachable"
  | illegalInstruction => "illegal instruction"
  | unexpectedEndOfCode => "unexpected end of code"
  | stackOverflow => "stack overflow"
  | stackUnderflow => "stack underflow"
  | divisionByZero => "division by zero"
  | typeMismatch => "type mismatch"
  | outOfBounds => "out of bounds"
  | invalidReference => "invalid reference"
  | outOfMemory => "out of memory"
  | invalidSizeClass => "invalid size class"
  | invalidJump => "invalid jump"
  | stepBudgetExhausted => "step budget exhausted"
  | cancelled => "cancelled"

end Fault

/-- What a refusal of the heap is to a machine that used a handle. -/
def HeapError.fault (e : HeapError) : Fault :=
  match e.status with
  | .invalidSizeClass => .invalidSizeClass
  | .outOfMemory => .outOfMemory
  | .outOfBounds => .outOfBounds
  | .ok | .invalidConfiguration | .invalidHandle => .invalidReference

inductive Cause
  | unreachable
  | illegalOpcode (byte : UInt8)
  | missingOperand (op : Opcode)
  | stackOverflow (capacity : Nat)
  | stackUnderflow
  /-- An operator found fewer than two values. -/
  | needsTwo (op : Opcode)
  | nothingToPrint
  | divisionByZero
  | expectedRaw (found : Value)
  | expectedReference (found : Value)
  | inputOutOfRange (side : Side) (index count : Nat)
  | slotOutOfRange (slot size : Nat)
  | invalidReference (handle : Handle)
  | exhausted (sizeClass : Nat)
  | noSuchClass (sizeClass classes : Nat)
  /-- Any other refusal of the heap. -/
  | heap (error : HeapError)
  /-- An allocation that failed, but not because of its class. -/
  | allocationFailed (status : HeapError.Status)
  | jumpPastEnd (target size : Nat)
  | entryPastEnd (entry size : Nat)
  | budgetExhausted (budget : UInt64)
  | cancelled
  deriving DecidableEq, Repr

namespace Cause

def fault : Cause → Fault
  | unreachable => .unreachable
  | illegalOpcode _ => .illegalInstruction
  | missingOperand _ => .unexpectedEndOfCode
  | stackOverflow _ => .stackOverflow
  | stackUnderflow | needsTwo _ | nothingToPrint => .stackUnderflow
  | divisionByZero => .divisionByZero
  | expectedRaw _ | expectedReference _ => .typeMismatch
  | inputOutOfRange _ _ _ | slotOutOfRange _ _ => .outOfBounds
  | invalidReference _ => .invalidReference
  | heap e => e.fault
  | exhausted _ | allocationFailed _ => .outOfMemory
  | noSuchClass _ _ => .invalidSizeClass
  | jumpPastEnd _ _ | entryPastEnd _ _ => .invalidJump
  | budgetExhausted _ => .stepBudgetExhausted
  | cancelled => .cancelled

/-- Two hexadecimal digits. -/
def twoDigits (b : UInt8) : String :=
  (if b < 16 then "0" else "") ++ String.ofList (Nat.toDigits 16 b.toNat)

def sideName : Side → String
  | .a => "A"
  | .b => "B"

/-- The heap's own text says enough, unless the kind of the failure says something else. -/
def refusal (e : HeapError) : String :=
  match e.status with
  | .invalidSizeClass | .outOfMemory | .outOfBounds => e.message
  | .ok | .invalidConfiguration | .invalidHandle => s!"heap error: {e.message}"

def message : Cause → String
  | unreachable => "Reached unreachable code"
  | illegalOpcode b => "Illegal opcode 0x" ++ twoDigits b
  | missingOperand op => s!"'{op.name}' is missing operand bytes"
  | stackOverflow n => s!"Stack overflow (capacity {n})"
  | stackUnderflow => "Stack underflow"
  | needsTwo op => s!"Stack underflow: '{op.name}' needs two operands"
  | nothingToPrint => "Stack underflow: nothing to print"
  | divisionByZero => "Division by zero"
  | expectedRaw v => s!"expected a raw value, got {v.text}"
  | expectedReference v => s!"expected a reference, got {v.text}"
  | inputOutOfRange side i n => s!"{sideName side} input {i} out of bounds ({n} inputs)"
  | slotOutOfRange i n => s!"slot {i} out of bounds (size={n})"
  | invalidReference x => s!"invalid reference {x.text}"
  | exhausted i => s!"size class {i} exhausted"
  | noSuchClass i n => s!"size class {i} out of range ({n} classes)"
  | heap e => refusal e
  | allocationFailed s => s!"allocation failed: {s.name}"
  | jumpPastEnd t n => s!"jump target {t} past end of code ({n} bytes)"
  | entryPastEnd t n => s!"entry offset {t} past end of code ({n} bytes)"
  | budgetExhausted n => s!"Step budget of {n} exhausted"
  | cancelled => "Execution cancelled"

/-- What a refusal by the heap means to a machine that used the handle. -/
def ofHandleUse (x : Handle) : HeapError → Cause
  | .stale _ | .indexOutOfRange _ => invalidReference x
  | .slotOutOfRange i n => slotOutOfRange i n
  | e => heap e

/-- What a refusal by the heap means to a machine that asked for an object. -/
def ofAllocation : HeapError → Cause
  | .noSuchClass i n => noSuchClass i n
  | .unknownClass i => heap (.unknownClass i)
  | .exhausted i _ => exhausted i
  | e => allocationFailed e.status

end Cause

end StackVM
