/-
  StackVM.Machine.Report — what can be seen of a machine.

  A snapshot is taken between two steps; a report says in full what a run has come to.
-/

import StackVM.Machine.Step

namespace StackVM

namespace Machine

structure Snapshot where
  state : Status.Kind
  pc : Nat
  r : Value
  /-- Bottom first, as everywhere. -/
  stack : List Value
  deriving DecidableEq, Repr

def snapshot (m : Machine) : Snapshot := ⟨m.status.kind, m.pc, m.r, m.stack.toList⟩

structure Report where
  state : Status.Kind
  fault : Fault
  message : String
  offset : Nat
  steps : UInt64
  pc : Nat
  r : Value
  stack : List Value
  deriving DecidableEq, Repr

def Report.ok (r : Report) : Bool := r.state == .halted

def report (m : Machine) : Report where
  state := m.status.kind
  fault := m.status.fault
  message := m.status.message
  offset := m.offset
  steps := m.steps
  pc := m.pc
  r := m.r
  stack := m.stack.toList

/-- Takes at most `n` steps while the machine runs and notes what is seen after each. -/
def watch (n : Nat) (m : Machine) (h : Heap) (log : Array Log.Line) :
    List Snapshot × Machine × Heap × Array Log.Line :=
  match n with
  | 0 => ([], m, h, log)
  | n + 1 =>
    if m.isRunning then
      let (m, h, lines) := m.step h
      let seen := m.snapshot
      let (rest, after) := watch n m h (log ++ lines)
      (seen :: rest, after)
    else ([], m, h, log)

end Machine

end StackVM
