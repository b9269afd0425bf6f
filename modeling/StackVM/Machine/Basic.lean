/-
  StackVM.Machine.Basic — a machine and where it stands.

  A machine runs one program: a buffer of code, an entry and two lists of inputs. It has an operand stack
  and one register, and works on a heap that it shares with others. It is running until it halts or
  faults, and then stays as it is.
-/

import StackVM.Log
import StackVM.Machine.Fault
import StackVM.Stack

namespace StackVM

structure Program where
  code : Bytes
  entry : Nat
  a : Array Value
  b : Array Value
  deriving Repr

namespace Program

def inputs (p : Program) : Side → Array Value
  | .a => p.a
  | .b => p.b

end Program

structure Settings where
  stackCapacity : Nat := Stack.defaultCapacity
  /-- How many instructions may be run; zero sets no limit. -/
  stepBudget : UInt64 := 10000000
  /-- Whether every instruction and every fault is logged. -/
  trace : Bool := false
  deriving DecidableEq, Repr

inductive Status
  | running
  | halted
  | faulted (cause : Cause)
  deriving DecidableEq, Repr

namespace Status

inductive Kind
  | running
  | halted
  | faulted
  deriving DecidableEq, Repr

namespace Kind

def all : List Kind := [running, halted, faulted]

def name : Kind → String
  | running => "running"
  | halted => "halted"
  | faulted => "faulted"

end Kind

def kind : Status → Kind
  | running => .running
  | halted => .halted
  | faulted _ => .faulted

def fault : Status → Fault
  | faulted c => c.fault
  | _ => .none

def message : Status → String
  | faulted c => c.message
  | _ => ""

end Status

structure Machine where
  program : Program
  settings : Settings
  stack : Stack
  /-- The register. -/
  r : Value
  /-- The offset of the next instruction. -/
  pc : Nat
  /-- How many instructions have been run. -/
  steps : UInt64
  status : Status
  /-- Where the machine halted or faulted; the entry until then. -/
  offset : Nat
  stopRequested : Bool

namespace Machine

/-! ## Ends -/

def isRunning (m : Machine) : Bool :=
  match m.status with
  | .running => true
  | _ => false

def halt (m : Machine) : Machine := { m with status := .halted, offset := m.pc }

def fail (m : Machine) (c : Cause) : Machine := { m with status := .faulted c, offset := m.pc }

/-- What a tracing machine says about a fault. -/
def faultLine (offset : Nat) (c : Cause) : Log.Line :=
  Log.warning (Text.ofString s!"fault at {offset}: {c.fault.name} ({c.message})")

def faultLines (m : Machine) (c : Cause) : List Log.Line :=
  if m.settings.trace then [faultLine m.pc c] else []

/-! ## Start -/

/-- A machine about to run its first instruction. -/
def ready (p : Program) (s : Settings) (stack : Stack) : Machine where
  program := p
  settings := s
  stack := stack
  r := .raw 0
  pc := p.entry
  steps := 0
  status := .running
  offset := p.entry
  stopRequested := false

/-- A new machine. One whose entry lies past the end of the code has faulted before it starts; an entry
at the very end is an empty program. -/
def start (p : Program) (s : Settings) (stack : Stack) : Machine × List Log.Line :=
  let m := ready p s stack
  if p.code.size < p.entry then
    let c := Cause.entryPastEnd p.entry p.code.size
    (m.fail c, m.faultLines c)
  else (m, [])

/-- A new machine, if its stack is not too large. -/
def create (p : Program) (s : Settings) : Except Stack.CapacityError (Machine × List Log.Line) :=
  match Stack.create s.stackCapacity with
  | .error e => .error e
  | .ok stack => .ok (start p s stack)

/-! ## Views -/

/-- What a collection has to keep for the machine: the stack, bottom first, and the register. -/
def roots (m : Machine) : List Value := m.stack.toList ++ [m.r]

/-- The next step will end the run. -/
def requestStop (m : Machine) : Machine := { m with stopRequested := true }

end Machine

end StackVM
