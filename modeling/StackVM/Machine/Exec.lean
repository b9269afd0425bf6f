/-
  StackVM.Machine.Exec — what each instruction does.

  An instruction works on a frame: the stack, the register and the heap. It takes its operands off the
  stack before it looks at them, so a fault can leave the stack shorter by what was taken; nothing else is
  changed by an instruction that faults. An allocation makes sure that there is room on the stack before
  it asks the heap.
-/

import StackVM.Machine.Arithmetic
import StackVM.Machine.Basic

namespace StackVM

/-- The part of a machine's world that an instruction changes. -/
structure Frame where
  stack : Stack
  r : Value
  heap : Heap

abbrev Exec := EStateM Cause Frame

/-- Where the machine goes after an instruction. -/
inductive Flow
  | next
  | jump (target : Nat)
  | halt
  /-- On to the next instruction, with a value to print. -/
  | print (v : Value)
  deriving DecidableEq, Repr

namespace Exec

/-! ## The stack -/

def push (v : Value) : Exec Unit := fun f =>
  let ⟨stack, r, heap⟩ := f
  match stack.push v with
  | (true, stack) => .ok () ⟨stack, r, heap⟩
  | (false, stack) => .error (.stackOverflow stack.capacity) ⟨stack, r, heap⟩

def pop : Exec Value := fun f =>
  let ⟨stack, r, heap⟩ := f
  match stack.pop with
  | (some v, stack) => .ok v ⟨stack, r, heap⟩
  | (none, stack) => .error .stackUnderflow ⟨stack, r, heap⟩

/-- The topmost value, left where it is. -/
def top (otherwise : Cause) : Exec Value := fun f =>
  match f.stack.peek 0 with
  | some v => .ok v f
  | none => .error otherwise f

def swapTop : Exec Unit := fun f =>
  let ⟨stack, r, heap⟩ := f
  match stack.swapTop with
  | (true, stack) => .ok () ⟨stack, r, heap⟩
  | (false, stack) => .error (.needsTwo .swap) ⟨stack, r, heap⟩

def clear : Exec Unit := modify fun f => { f with stack := f.stack.clear }

/-- Fails unless there are two values for the operator. -/
def twoOperands (op : Opcode) : Exec Unit := fun f =>
  if f.stack.size < 2 then .error (.needsTwo op) f else .ok () f

/-- Fails if there is no room for one more value. -/
def room : Exec Unit := fun f =>
  if f.stack.isFull then .error (.stackOverflow f.stack.capacity) f else .ok () f

def popRaw : Exec UInt64 := do
  match ← pop with
  | .raw bits => return bits
  | v => throw (.expectedRaw v)

def popReference : Exec Handle := do
  match ← pop with
  | .ref x => return x
  | v => throw (.expectedReference v)

/-! ## Operators -/

/-- Takes the right and then the left operand and puts the result in their place. -/
def operator (op : Opcode) (apply : UInt64 → UInt64 → Option UInt64) : Exec Unit := do
  twoOperands op
  let b ← popRaw
  let a ← popRaw
  match apply a b with
  | some v => push (.raw v)
  | none => throw .divisionByZero

/-! ## The register and the inputs -/

def pushRegister : Exec Unit := do push (← get).r

def setRegister (v : Value) : Exec Unit := modify fun f => { f with r := v }

def pushInput (p : Program) (side : Side) (i : Nat) : Exec Unit :=
  match (p.inputs side)[i]? with
  | some v => push v
  | none => throw (.inputOutOfRange side i (p.inputs side).size)

/-! ## Jumps -/

/-- A jump may go to the very end of the code, but not past it. -/
def jump (p : Program) (target : UInt64) : Exec Flow :=
  if p.code.size < target.toNat then throw (.jumpPastEnd target.toNat p.code.size)
  else return .jump target.toNat

def jumpIf (p : Program) (taken : UInt64 → Bool) (target : UInt64) : Exec Flow := do
  let condition ← popRaw
  if taken condition then jump p target else return .next

/-! ## Objects -/

/-- Runs a heap operation. -/
def onHeap {α : Type} (cause : HeapError → Cause) (act : HeapM α) : Exec α := fun f =>
  let ⟨stack, r, heap⟩ := f
  match act heap with
  | .ok a heap => .ok a ⟨stack, r, heap⟩
  | .error e heap => .error (cause e) ⟨stack, r, heap⟩

def alloc (sizeClass : Nat) : Exec Unit := do
  room
  let x ← onHeap Cause.ofAllocation (Heap.allocate sizeClass)
  push (.ref x)

def prop (slot : Nat) : Exec Unit := do
  let x ← popReference
  let v ← onHeap (Cause.ofHandleUse x) (Heap.readSlot x slot)
  push v

def setProp (slot : Nat) : Exec Unit := do
  let v ← pop
  let x ← popReference
  onHeap (Cause.ofHandleUse x) (Heap.writeSlot x slot v)

def sizeOf : Exec Unit := do
  let x ← popReference
  let n ← onHeap (Cause.ofHandleUse x) (Heap.sizeOf x)
  push (.ofUnsigned (UInt64.ofNat n))

def retain : Exec Unit := do
  let x ← popReference
  onHeap (Cause.ofHandleUse x) (Heap.retain x)

def release : Exec Unit := do
  let x ← popReference
  let _ ← onHeap (Cause.ofHandleUse x) (Heap.release x)

/-! ## All instructions -/

/-- Goes on to the next instruction. -/
def andNext (act : Exec Unit) : Exec Flow := do
  act
  return .next

def instruction (p : Program) (i : Instruction) : Exec Flow :=
  match i.op with
  | .unreachable => throw .unreachable
  | .noop => return .next
  | .halt => return .halt
  | .jump => jump p i.operand
  | .jumpIfZero => jumpIf p (· == 0) i.operand
  | .jumpIfNotZero => jumpIf p (· != 0) i.operand
  | .pushInput side => andNext (pushInput p side i.operand.toNat)
  | .pushR => andNext pushRegister
  | .pop => andNext (do let _ ← pop)
  | .popIntoR => andNext (do setRegister (← pop))
  | .dup => andNext (do push (← top .stackUnderflow))
  | .swap => andNext swapTop
  | .pushWord => andNext (push (.raw i.operand))
  | .clear => andNext clear
  | .int op => andNext (operator (.int op) op.apply)
  | .float op => andNext (operator (.float op) op.apply)
  | .alloc => andNext (alloc i.operand.toNat)
  | .prop => andNext (prop i.operand.toNat)
  | .setProp => andNext (setProp i.operand.toNat)
  | .sizeOf => andNext sizeOf
  | .retain => andNext retain
  | .release => andNext release
  | .print => do return .print (← top .nothingToPrint)

end Exec

end StackVM
