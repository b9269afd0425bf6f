/-
  StackVM.Launch — jobs, and what becomes of them.

  A job is a program that is still to be assembled, if need be, together with its inputs. A launch gives
  it a heap of its own and runs it to the end; the first steps can be watched one by one.
-/

import StackVM.Assembly.Basic
import StackVM.Machine.Report

namespace StackVM

/-! ## Jobs -/

structure Job where
  /-- The code, or a source to make it from. -/
  content : Bytes ⊕ Text
  /-- Overrides the entry, which else is zero for code and whatever a source says. -/
  entry : Option Nat
  a : Array Value
  b : Array Value
  deriving Repr

/-- The program, or what came of assembling it where that failed. -/
def Job.program (j : Job) : Except Assembly Program :=
  match j.content with
  | .inl code => .ok ⟨code, j.entry.getD 0, j.a, j.b⟩
  | .inr source =>
    let assembly := assemble source
    if assembly.ok then .ok ⟨assembly.code, j.entry.getD assembly.entry, j.a, j.b⟩
    else .error assembly

/-! ## Launches -/

structure Launch where
  heap : Heap.Config
  job : Job
  settings : Settings
  /-- How many steps to watch. -/
  watch : Nat

namespace Launch

inductive Error
  | heap (error : HeapError)
  | assembly (assembly : Assembly)
  | stack (error : Stack.CapacityError)

structure Outcome where
  watched : List Machine.Snapshot
  report : Machine.Report
  /-- The live objects left on the heap. -/
  live : Nat
  log : Array Log.Line

/-- Sets up the heap, then assembles, then starts the machine and runs it to the end. -/
def run (l : Launch) : Except Error Outcome :=
  match Heap.ofConfig l.heap with
  | .error e => .error (.heap e)
  | .ok h =>
    match l.job.program with
    | .error assembly => .error (.assembly assembly)
    | .ok p =>
      match Machine.create p l.settings with
      | .error e => .error (.stack e)
      | .ok (m, log) =>
        let (watched, m, h, log) := m.watch l.watch h log.toArray
        let (m, h, rest) := m.execute h
        .ok ⟨watched, m.report, h.liveObjects, log ++ rest⟩

end Launch

/-! ## Single operators -/

/-- A program that pushes the first input of either side and applies an opcode. -/
def Program.applying (op : Opcode) (a b : Value) : Program where
  code := (Instruction.bytes ⟨.pushInput .a, 0⟩ ++ Instruction.bytes ⟨.pushInput .b, 0⟩ ++
    Instruction.bytes ⟨op, 0⟩).toArray
  entry := 0
  a := #[a]
  b := #[b]

/-- What an opcode makes of two values, on a heap without live objects. -/
def Opcode.applied (op : Opcode) (a b : Value) : Machine.Report :=
  let p := Program.applying op a b
  let (m, _) := Machine.start p {} (Stack.empty Stack.defaultCapacity)
  (m.execute (Heap.build ⟨[1], 1⟩)).1.report

end StackVM
