/-
  StackVM.Proofs.Machine.Step — all that a step can do.

  `Stepped m h m' h'` lists, case by case, the ways in which a step can take a machine and its heap on, each with
  what has led to it. Whatever holds from step to step is shown once for each case, without another look at how
  a step is carried out.

  - `stepped`: a step is one of these.
  - `instruction?_eq_some`: when a step comes to an instruction.
-/

import StackVM.Proofs.Machine.HeapUse

namespace StackVM

namespace Machine

/-- What an instruction of the machine works on. -/
def frame (m : Machine) (h : Heap) : Frame := ⟨m.stack, m.r, h⟩

/-- The machine with what an instruction has left, and that instruction counted. -/
def counting (m : Machine) (f : Frame) : Machine := { m with stack := f.stack, r := f.r, steps := m.steps + 1 }

/-- The machine where no instruction can be decoded. -/
def stumble (m : Machine) : Instruction.DecodeError → Machine
  | .endOfCode => m.halt
  | .illegalOpcode b => m.fail (.illegalOpcode b)
  | .truncated op => m.fail (.missingOperand op)

/-- The next step ends the run before it looks at the code. -/
def endsHere (m : Machine) : Prop :=
  m.stopRequested = true ∨ m.pc = m.program.code.size ∨ m.outOfBudget = true

inductive Stepped (m : Machine) (h : Heap) : Machine → Heap → Prop
  /-- A machine that has come to an end stays as it is. -/
  | finished : m.status ≠ .running → Stepped m h m h
  | cancelled : m.status = .running → m.stopRequested = true → Stepped m h (m.fail .cancelled) h
  | ended : m.status = .running → m.stopRequested = false → m.pc = m.program.code.size → Stepped m h m.halt h
  | exhausted : m.status = .running → m.stopRequested = false → m.pc ≠ m.program.code.size → m.outOfBudget = true →
      Stepped m h (m.fail (.budgetExhausted m.settings.stepBudget)) h
  | stumbled {e : Instruction.DecodeError} : m.status = .running → ¬ m.endsHere →
      Instruction.decode m.program.code m.pc = .error e → Stepped m h (m.stumble e) h
  | performed {i : Instruction} {flow : Flow} {f : Frame} : m.instruction? = some i →
      Exec.instruction m.program i (m.frame h) = .ok flow f →
      Stepped m h ((m.counting f).follow i.length flow).1 f.heap
  | faulted {i : Instruction} {c : Cause} {f : Frame} : m.instruction? = some i →
      Exec.instruction m.program i (m.frame h) = .error c f → Stepped m h ((m.counting f).fail c) f.heap

theorem instruction?_eq_some {m : Machine} {i : Instruction} : m.instruction? = some i ↔
    m.status = .running ∧ ¬ m.endsHere ∧ Instruction.decode m.program.code m.pc = .ok i := by
  unfold instruction? endsHere
  cases m.status with
  | halted | faulted c => simp
  | running =>
    simp only [true_and]
    by_cases hends : m.stopRequested = true ∨ m.pc = m.program.code.size ∨ m.outOfBudget = true
    · simp [hends]
    · simp only [hends, if_false, not_false_iff, true_and]
      cases Instruction.decode m.program.code m.pc <;> simp [Except.toOption]

theorem perform_of_ok {m : Machine} {i : Instruction} {h : Heap} {flow : Flow} {f : Frame}
    (hx : Exec.instruction m.program i (m.frame h) = .ok flow f) : m.perform i h =
      (((m.counting f).follow i.length flow).1, f.heap, m.traceLines ++ ((m.counting f).follow i.length flow).2) := by
  rcases m with ⟨program, settings, stack, r, pc, steps, status, offset, stopRequested⟩
  simp only [frame] at hx
  simp only [perform, hx]
  rfl

theorem perform_of_error {m : Machine} {i : Instruction} {h : Heap} {c : Cause} {f : Frame}
    (hx : Exec.instruction m.program i (m.frame h) = .error c f) :
    m.perform i h = ((m.counting f).fail c, f.heap, m.traceLines ++ (m.counting f).faultLines c) := by
  rcases m with ⟨program, settings, stack, r, pc, steps, status, offset, stopRequested⟩
  simp only [frame] at hx
  simp only [perform, hx]
  rfl

theorem perform_stepped {m : Machine} {i : Instruction} (hi : m.instruction? = some i) (h : Heap) :
    Stepped m h (m.perform i h).1 (m.perform i h).2.1 := by
  cases hx : Exec.instruction m.program i (m.frame h) with
  | ok flow f => rw [perform_of_ok hx]; exact .performed hi hx
  | error c f => rw [perform_of_error hx]; exact .faulted hi hx

/-- Every step is one of the ways. -/
theorem stepped (m : Machine) (h : Heap) : Stepped m h (m.step h).1 (m.step h).2.1 := by
  cases hi : m.instruction? with
  | some i => rw [step_of_instruction? hi]; exact perform_stepped hi h
  | none =>
    unfold step
    cases hst : m.status with
    | halted | faulted c => exact .finished (by simp [hst])
    | running =>
      simp only
      by_cases hstop : m.stopRequested = true
      · rw [if_pos hstop]; exact .cancelled hst hstop
      by_cases hend : m.pc = m.program.code.size
      · rw [if_neg hstop, if_pos hend]; exact .ended hst (Bool.eq_false_iff.mpr hstop) hend
      by_cases hbudget : m.outOfBudget = true
      · rw [if_neg hstop, if_neg hend, if_pos hbudget]
        exact .exhausted hst (Bool.eq_false_iff.mpr hstop) hend hbudget
      have hgo : ¬ m.endsHere := by simp [endsHere, hstop, hend, hbudget]
      rw [if_neg hstop, if_neg hend, if_neg hbudget]
      cases hd : Instruction.decode m.program.code m.pc with
      | ok i => rw [instruction?_eq_some.mpr ⟨hst, hgo, hd⟩] at hi; cases hi
      | error e =>
        have := Stepped.stumbled (h := h) hst hgo hd
        cases e <;> exact this

/-- A machine that still runs after a step has carried out an instruction. -/
theorem performed_of_running {m : Machine} {h : Heap} (hrun : (m.step h).1.status = .running) :
    ∃ i flow f, m.instruction? = some i ∧ Exec.instruction m.program i (m.frame h) = .ok flow f := by
  have hs := stepped m h
  generalize (m.step h).1 = m' at hs hrun
  generalize (m.step h).2.1 = h' at hs
  cases hs with
  | finished hend => exact absurd hrun hend
  | cancelled | ended | exhausted | faulted => cases hrun
  | @stumbled e => cases e <;> cases hrun
  | performed hi hx => exact ⟨_, _, _, hi, hx⟩

/-! ## What stays and what is left -/

theorem status_follow (m : Machine) (length : Nat) (flow : Flow) :
    (m.follow length flow).1.status = if flow = .halt then .halted else m.status := by
  cases flow <;> rfl

/-- No step touches the program. -/
theorem program_step (m : Machine) (h : Heap) : (m.step h).1.program = m.program := by
  have hs := stepped m h
  generalize (m.step h).1 = m' at hs
  generalize (m.step h).2.1 = h' at hs
  cases hs with
  | finished | cancelled | ended | exhausted | faulted => rfl
  | @stumbled e => cases e <;> rfl
  | @performed i flow f => cases flow <;> rfl

end Machine

end StackVM
