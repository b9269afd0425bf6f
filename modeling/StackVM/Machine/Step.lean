/-
  StackVM.Machine.Step — running a machine.

  A step looks, in this order, whether the machine still runs, whether it was asked to stop, whether it
  is at the end of the code and whether its budget is used up; then it decodes one instruction, counts it
  and carries it out. A machine that halts or faults keeps the offset where it did so.
-/

import StackVM.Listing
import StackVM.Machine.Exec

namespace StackVM

namespace Machine

/-- What a tracing machine says before an instruction. -/
def traceLine (m : Machine) : Log.Line :=
  Log.info (Listing.line m.program.code m.pc ++ Text.ofString s!"    depth={m.stack.size}")

def traceLines (m : Machine) : List Log.Line := if m.settings.trace then [m.traceLine] else []

/-- Stops with a fault. -/
def failing (m : Machine) (c : Cause) (h : Heap) : Machine × Heap × List Log.Line :=
  let lines := m.faultLines c
  (m.fail c, h, lines)

/-- Goes where an instruction of the given length leads. -/
def follow (m : Machine) (length : Nat) : Flow → Machine × List Log.Line
  | .next => ({ m with pc := m.pc + length }, [])
  | .jump target => ({ m with pc := target }, [])
  | .halt => (m.halt, [])
  | .print v => ({ m with pc := m.pc + length }, [Log.info (Text.ofString v.text)])

/-- Counts an instruction and carries it out. -/
def perform (m : Machine) (i : Instruction) (h : Heap) : Machine × Heap × List Log.Line :=
  let traced := m.traceLines
  let ⟨program, settings, stack, r, pc, steps, status, offset, stopRequested⟩ := m
  match Exec.instruction program i ⟨stack, r, h⟩ with
  | .ok flow ⟨stack, r, h⟩ =>
    let m : Machine := ⟨program, settings, stack, r, pc, steps + 1, status, offset, stopRequested⟩
    let (m, printed) := m.follow i.length flow
    (m, h, traced ++ printed)
  | .error c ⟨stack, r, h⟩ =>
    let m : Machine := ⟨program, settings, stack, r, pc, steps + 1, status, offset, stopRequested⟩
    let (m, h, said) := m.failing c h
    (m, h, traced ++ said)

/-- No instruction may be run any more. -/
def outOfBudget (m : Machine) : Bool :=
  m.settings.stepBudget != 0 && m.settings.stepBudget ≤ m.steps

def step (m : Machine) (h : Heap) : Machine × Heap × List Log.Line :=
  match m.status with
  | .running =>
    if m.stopRequested then m.failing .cancelled h
    else if m.pc = m.program.code.size then (m.halt, h, [])
    else if m.outOfBudget then m.failing (.budgetExhausted m.settings.stepBudget) h
    else
      match Instruction.decode m.program.code m.pc with
      | .ok i => m.perform i h
      | .error .endOfCode => (m.halt, h, [])
      | .error (.illegalOpcode b) => m.failing (.illegalOpcode b) h
      | .error (.truncated op) => m.failing (.missingOperand op) h
  | _ => (m, h, [])

/-! ## Runs -/

/-- Takes steps while the machine runs, at most `n` of them. The log is added to `log`. -/
def run : Nat → Machine → Heap → Array Log.Line → Machine × Heap × Array Log.Line
  | 0, m, h, log => (m, h, log)
  | n + 1, m, h, log =>
    if m.isRunning then
      let (m, h, lines) := m.step h
      run n m h (log ++ lines)
    else (m, h, log)

/-- A number of steps that no run exceeds: one more than the budget, or than the step counter holds. -/
def stepLimit (m : Machine) : Nat :=
  if m.settings.stepBudget = 0 then UInt64.size else m.settings.stepBudget.toNat + 1

/-- Runs to the end. -/
def execute (m : Machine) (h : Heap) : Machine × Heap × Array Log.Line := run m.stepLimit m h #[]

end Machine

end StackVM
