/-
  StackVM.Opcode — the instruction set.

  Each opcode has a byte, a name, sometimes a shorter second name, and a fixed number of operand bytes:
  none, one (an index), four (a jump target) or eight (a word). Bytes are part of the stored form of a
  program and never change.
-/

import StackVM.Text

namespace StackVM

/-- Which of a program's two input lists. -/
inductive Side
  | a
  | b
  deriving DecidableEq, Repr

inductive IntOp
  | add
  | sub
  | mul
  | divU
  | remU
  | divS
  | remS
  deriving DecidableEq, Repr

/-- Operators on double-precision numbers. -/
inductive FloatOp
  | add
  | sub
  | mul
  | div
  | rem
  deriving DecidableEq, Repr

inductive Opcode
  | unreachable
  | noop
  | halt
  | jump
  | jumpIfZero
  | jumpIfNotZero
  | pushInput (side : Side)
  | pushR
  | pop
  | popIntoR
  | dup
  | swap
  | pushWord
  | clear
  | int (op : IntOp)
  | float (op : FloatOp)
  | alloc
  | prop
  | setProp
  | sizeOf
  | retain
  | release
  | print
  deriving DecidableEq, Repr

namespace Opcode

/-- Every opcode, in the order of the bytes. -/
def all : List Opcode :=
  [unreachable, noop, halt, jump, jumpIfZero, jumpIfNotZero,
   pushInput .a, pushInput .b, pushR, pop, popIntoR, dup, swap, pushWord, clear,
   int .add, int .sub, int .mul, int .divU, int .remU, int .divS, int .remS,
   float .add, float .sub, float .mul, float .div, float .rem,
   alloc, prop, setProp, sizeOf, retain, release, print]

def byte : Opcode → UInt8
  | unreachable => 0x00
  | noop => 0x01
  | halt => 0x02
  | jump => 0x08
  | jumpIfZero => 0x09
  | jumpIfNotZero => 0x0A
  | pushInput .a => 0x10
  | pushInput .b => 0x11
  | pushR => 0x12
  | pop => 0x13
  | popIntoR => 0x14
  | dup => 0x15
  | swap => 0x16
  | pushWord => 0x17
  | clear => 0x18
  | int .add => 0x20
  | int .sub => 0x21
  | int .mul => 0x22
  | int .divU => 0x23
  | int .remU => 0x24
  | int .divS => 0x25
  | int .remS => 0x26
  | float .add => 0x28
  | float .sub => 0x29
  | float .mul => 0x2A
  | float .div => 0x2B
  | float .rem => 0x2C
  | alloc => 0x30
  | prop => 0x31
  | setProp => 0x32
  | sizeOf => 0x33
  | retain => 0x34
  | release => 0x35
  | print => 0x40

def ofByte? (b : UInt8) : Option Opcode :=
  match b with
  | 0x00 => some unreachable
  | 0x01 => some noop
  | 0x02 => some halt
  | 0x08 => some jump
  | 0x09 => some jumpIfZero
  | 0x0A => some jumpIfNotZero
  | 0x10 => some (pushInput .a)
  | 0x11 => some (pushInput .b)
  | 0x12 => some pushR
  | 0x13 => some pop
  | 0x14 => some popIntoR
  | 0x15 => some dup
  | 0x16 => some swap
  | 0x17 => some pushWord
  | 0x18 => some clear
  | 0x20 => some (int .add)
  | 0x21 => some (int .sub)
  | 0x22 => some (int .mul)
  | 0x23 => some (int .divU)
  | 0x24 => some (int .remU)
  | 0x25 => some (int .divS)
  | 0x26 => some (int .remS)
  | 0x28 => some (float .add)
  | 0x29 => some (float .sub)
  | 0x2A => some (float .mul)
  | 0x2B => some (float .div)
  | 0x2C => some (float .rem)
  | 0x30 => some alloc
  | 0x31 => some prop
  | 0x32 => some setProp
  | 0x33 => some sizeOf
  | 0x34 => some retain
  | 0x35 => some release
  | 0x40 => some print
  | _ => none

def name : Opcode → String
  | unreachable => "unreachable"
  | noop => "noop"
  | halt => "halt"
  | jump => "jump"
  | jumpIfZero => "jump_if_zero"
  | jumpIfNotZero => "jump_if_not_zero"
  | pushInput .a => "push_a"
  | pushInput .b => "push_b"
  | pushR => "push_r"
  | pop => "pop"
  | popIntoR => "pop_into_r"
  | dup => "dup"
  | swap => "swap"
  | pushWord => "push_imm"
  | clear => "clear"
  | int .add => "add"
  | int .sub => "sub"
  | int .mul => "mul"
  | int .divU => "div_u"
  | int .remU => "rem_u"
  | int .divS => "div_s"
  | int .remS => "rem_s"
  | float .add => "add_f"
  | float .sub => "sub_f"
  | float .mul => "mul_f"
  | float .div => "div_f"
  | float .rem => "rem_f"
  | alloc => "alloc"
  | prop => "prop"
  | setProp => "set_prop"
  | sizeOf => "size_of"
  | retain => "retain"
  | release => "release"
  | print => "print"

/-- The second name, where there is one. -/
def alias? : Opcode → Option String
  | unreachable => some "!!!"
  | noop => some "_"
  | halt => some "ret"
  | jump => some "jmp"
  | jumpIfZero => some "jz"
  | jumpIfNotZero => some "jnz"
  | int .add => some "+"
  | int .sub => some "-"
  | int .mul => some "*"
  | int .divU => some "/u"
  | int .remU => some "%u"
  | int .divS => some "/s"
  | int .remS => some "%s"
  | prop => some "."
  | _ => none

/-- How many operand bytes follow the opcode's own. -/
def operandWidth : Opcode → Nat
  | jump | jumpIfZero | jumpIfNotZero => 4
  | pushInput _ | alloc | prop | setProp => 1
  | pushWord => 8
  | _ => 0

/-- Whether the word is one of the opcode's names. -/
def answersTo (op : Opcode) (word : Text) : Bool :=
  Text.ofString op.name == word || op.alias?.any fun s => Text.ofString s == word

def ofName? (word : Text) : Option Opcode := all.find? (·.answersTo word)

theorem ofByte?_byte (op : Opcode) : ofByte? op.byte = some op := by
  cases op with
  | pushInput side => cases side <;> rfl
  | int op => cases op <;> rfl
  | float op => cases op <;> rfl
  | _ => rfl

theorem byte_of_ofByte? {b : UInt8} {op : Opcode} (h : ofByte? b = some op) : op.byte = b := by
  unfold ofByte? at h
  split at h
  all_goals cases h
  all_goals rfl

/-- The name to show for a byte that may be no opcode at all. -/
def nameOfByte (b : UInt8) : String :=
  match ofByte? b with
  | some op => op.name
  | none => "<illegal>"

end Opcode

end StackVM
