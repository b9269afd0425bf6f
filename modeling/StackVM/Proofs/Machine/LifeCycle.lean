/-
  StackVM.Proofs.Machine.LifeCycle — a machine from its start to its end.

  Whoever has a machine can have it take a step, let it run to the end or ask it to stop, in any order and with
  the heap in whatever state it is in by then; `afterAll` is what is left of the machine after a list of such requests.
  In between its report can be looked at, and `Report.Proper` is what holds of it then.

  - `Stepped.orderly`: what a step keeps; `Later.orderly`: what any number of steps keeps.
  - `afterAll_of_ended`: a machine that has come to an end stays there.
  - `ask_requestStop`: a machine that was asked to stop does nothing more.
  - `life_cycle`: all of it, for a new machine and any requests.
-/

import StackVM.Machine.Report
import StackVM.Proofs.Code.Encoding
import StackVM.Proofs.Machine.Flow

namespace StackVM

/-- No instruction changes how many values there is room for. -/
theorem Exec.capacity_instruction (p : Program) (i : Instruction) : Keeps (·.stack.capacity) (instruction p i) :=
  keeps_instruction ⟨fun _ _ hcap => hcap, fun _ _ => rfl⟩ p i fun _ _ _ => rfl

/-! ## What a fault is -/

theorem Cause.fault_ne_none (c : Cause) : c.fault ≠ .none := by
  cases c with
  | heap e => cases e <;> simp [Cause.fault, HeapError.fault, HeapError.status]
  | _ => simp [Cause.fault]

namespace Status

theorem fault_eq_none_iff (s : Status) : s.fault = .none ↔ s.kind ≠ .faulted := by
  cases s with
  | running | halted => simp [fault, kind]
  | faulted c => simp [fault, kind, c.fault_ne_none]

theorem kind_eq_running_iff {s : Status} : s.kind = .running ↔ s = .running := by
  cases s <;> simp [kind]

theorem kind_eq_halted_iff {s : Status} : s.kind = .halted ↔ s = .halted := by
  cases s <;> simp [kind]

end Status

namespace Machine

/-! ## Between two requests -/

/-- What holds of a machine for a program whenever it is not at work. -/
structure Orderly (p : Program) (s : Settings) (m : Machine) : Prop where
  program : m.program = p
  settings : m.settings = s
  running : m.status = .running → m.pc ≤ p.code.size ∧ m.offset = p.entry
  ended : m.status ≠ .running → m.offset = m.pc
  halted : m.status = .halted → m.pc = p.code.size ∨ p.code[m.pc]? = some Opcode.halt.byte
  capacity : m.stack.capacity = s.stackCapacity
  budget : s.stepBudget ≠ 0 → m.steps ≤ s.stepBudget
  /-- An entry past the end is noticed before the first step. -/
  entry : p.code.size < p.entry → m.status = .faulted (.entryPastEnd p.entry p.code.size)

variable {p : Program} {s : Settings} {m m' : Machine} {h h' : Heap}

theorem Orderly.entry_le (hm : Orderly p s m) (hrun : m.status = .running) : p.entry ≤ p.code.size := by
  refine Nat.le_of_not_lt fun hpast => ?_
  rw [hm.entry hpast] at hrun
  cases hrun

theorem orderly_of_create {log : List Log.Line} (hm : create p s = .ok (m, log)) : Orderly p s m := by
  obtain ⟨-, heq⟩ := create_eq_ok.mp hm
  have hcap : (Stack.empty s.stackCapacity).capacity = s.stackCapacity := by simp [Stack.empty, Stack.capacity]
  have hbudget : s.stepBudget ≠ 0 → 0 ≤ s.stepBudget := fun _ => UInt64.zero_le
  by_cases hentry : p.entry ≤ p.code.size
  · rw [start_of_le hentry] at heq
    cases heq
    exact {
      program := rfl, settings := rfl, capacity := hcap, budget := hbudget
      running := fun _ => ⟨hentry, rfl⟩
      ended := fun hend => absurd rfl hend
      halted := fun hend => by cases hend
      entry := fun hpast => absurd hentry (Nat.not_le_of_lt hpast) }
  · have hpast := Nat.lt_of_not_le hentry
    simp only [start, if_pos hpast] at heq
    cases heq
    exact {
      program := rfl, settings := rfl, capacity := hcap, budget := hbudget
      running := fun hrun => by cases hrun
      ended := fun _ => rfl
      halted := fun hend => by cases hend
      entry := fun _ => rfl }

theorem Orderly.requestStop (hm : Orderly p s m) : Orderly p s m.requestStop :=
  ⟨hm.program, hm.settings, hm.running, hm.ended, hm.halted, hm.capacity, hm.budget, hm.entry⟩

/-- A run can end anywhere, but a machine halts only where it may. -/
theorem Orderly.finish (hm : Orderly p s m) (hrun : m.status = .running) {st : Status} (hst : st ≠ .running)
    (hplace : st = .halted → m.pc = p.code.size ∨ p.code[m.pc]? = some Opcode.halt.byte) :
    Orderly p s { m with status := st, offset := m.pc } where
  program := hm.program
  settings := hm.settings
  running hrun' := absurd hrun' hst
  ended _ := rfl
  halted := hplace
  capacity := hm.capacity
  budget := hm.budget
  entry hpast := absurd (hm.entry_le hrun) (Nat.not_le_of_lt hpast)

theorem Orderly.fail (hm : Orderly p s m) (hrun : m.status = .running) (c : Cause) : Orderly p s (m.fail c) :=
  hm.finish hrun (by simp) (by simp)

theorem Orderly.halt (hm : Orderly p s m) (hrun : m.status = .running)
    (hplace : m.pc = p.code.size ∨ p.code[m.pc]? = some Opcode.halt.byte) : Orderly p s m.halt :=
  hm.finish hrun (by simp) fun _ => hplace

theorem Orderly.goOn (hm : Orderly p s m) (hrun : m.status = .running) {pc : Nat} (hpc : pc ≤ p.code.size) :
    Orderly p s { m with pc := pc } where
  program := hm.program
  settings := hm.settings
  running _ := ⟨hpc, (hm.running hrun).2⟩
  ended hend := absurd hrun hend
  halted hend := by
    rw [show m.status = .halted from hend] at hrun
    cases hrun
  capacity := hm.capacity
  budget := hm.budget
  entry := hm.entry

theorem steps_lt_of_not_outOfBudget (hgo : m.outOfBudget = false) (hlimit : m.settings.stepBudget ≠ 0) :
    m.steps < m.settings.stepBudget := by
  simpa [outOfBudget, hlimit] using hgo

/-- Below a limit there is room for one more. -/
theorem add_one_le_of_lt {a b : UInt64} (hab : a < b) : a + 1 ≤ b := by
  have hb := b.toNat_lt
  rw [UInt64.lt_iff_toNat_lt] at hab
  rw [UInt64.le_iff_toNat_le, UInt64.toNat_add, show UInt64.toNat 1 = 1 from rfl]
  omega

/-- An instruction is counted only where the budget has one left. -/
theorem Orderly.counting (hm : Orderly p s m) (hgo : ¬ m.endsHere) {f : Frame}
    (hcap : f.stack.capacity = m.stack.capacity) : Orderly p s (m.counting f) := by
  refine ⟨hm.program, hm.settings, hm.running, hm.ended, hm.halted, hcap.trans hm.capacity, fun hlimit => ?_, hm.entry⟩
  have hleft : m.outOfBudget = false := Bool.eq_false_iff.mpr fun hout => hgo (.inr (.inr hout))
  rw [← hm.settings] at hlimit ⊢
  exact add_one_le_of_lt (steps_lt_of_not_outOfBudget hleft hlimit)

/-- A step leaves a machine in order. -/
theorem Stepped.orderly (hs : Stepped m h m' h') (hm : Orderly p s m) : Orderly p s m' := by
  cases hs with
  | finished => exact hm
  | cancelled hrun | exhausted hrun => exact hm.fail hrun _
  | ended hrun _ hend => exact hm.halt hrun (.inl (hm.program ▸ hend))
  | @stumbled e hrun hgo hd =>
    cases e with
    | illegalOpcode b => exact hm.fail hrun _
    | truncated op => exact hm.fail hrun _
    | endOfCode =>
      have hend := Instruction.size_le_of_decode hd
      rw [hm.program] at hend
      exact hm.halt hrun (.inl (Nat.le_antisymm (hm.running hrun).1 hend))
  | @faulted i c f hi hx =>
    obtain ⟨hrun, hgo, -⟩ := instruction?_eq_some.mp hi
    have hcap := Exec.capacity_instruction m.program i (m.frame h)
    rw [Exec.frameAfter_of_error hx] at hcap
    exact (hm.counting hgo hcap).fail hrun c
  | @performed i flow f hi hx =>
    obtain ⟨hrun, hgo, hd⟩ := instruction?_eq_some.mp hi
    have hcap := Exec.capacity_instruction m.program i (m.frame h)
    rw [Exec.frameAfter_of_ok hx] at hcap
    have hm' := hm.counting hgo hcap
    obtain ⟨hbyte, hlength, -⟩ := Instruction.decode_eq_ok hd
    rw [hm.program] at hbyte hlength
    cases flow with
    | next | print v => exact hm'.goOn hrun hlength
    | jump target => exact hm'.goOn hrun (hm.program ▸ (Exec.instruction_eq_jump hx).2.2)
    | halt => exact hm'.halt hrun (.inr (Exec.instruction_eq_halt hx ▸ hbyte))

theorem Later.orderly (hl : Later m m') (hm : Orderly p s m) : Orderly p s m' := by
  induction hl with
  | refl => exact hm
  | step h _ ih => exact (stepped _ h).orderly ih
  | stop _ ih => exact ih.requestStop

/-! ## What is reported -/

/-- A report as it can be given of a machine for a program. -/
structure Report.Proper (p : Program) (s : Settings) (r : Report) : Prop where
  running : r.state = .running → r.pc ≤ p.code.size ∧ r.fault = .none ∧ r.offset = p.entry ∧ r.message = ""
  ended : r.state ≠ .running → r.offset = r.pc
  fault : r.fault = .none ↔ r.state ≠ .faulted
  halted : r.state = .halted → r.pc = p.code.size ∨ p.code[r.pc]? = some Opcode.halt.byte
  stack : r.stack.length ≤ s.stackCapacity
  budget : s.stepBudget ≠ 0 → r.steps ≤ s.stepBudget
  entry : p.code.size < p.entry → r.state = .faulted ∧ r.fault = .invalidJump

theorem Orderly.report (hm : Orderly p s m) : m.report.Proper p s where
  running hrun := by
    have hst : m.status = .running := Status.kind_eq_running_iff.mp hrun
    obtain ⟨hpc, hoffset⟩ := hm.running hst
    exact ⟨hpc, by simp [Machine.report, hst, Status.fault], hoffset, by simp [Machine.report, hst, Status.message]⟩
  ended hend := hm.ended fun hrun => hend (Status.kind_eq_running_iff.mpr hrun)
  fault := m.status.fault_eq_none_iff
  halted hend := hm.halted (Status.kind_eq_halted_iff.mp hend)
  stack := by
    rw [← hm.capacity]
    exact m.stack.length_toList.symm ▸ m.stack.top_le
  budget := hm.budget
  entry hpast := by
    have hst := hm.entry hpast
    exact ⟨by simp [Machine.report, hst, Status.kind], by simp [Machine.report, hst, Status.fault, Cause.fault]⟩

/-! ## Requests -/

inductive Request
  | step
  | execute
  | stop
  deriving DecidableEq, Repr

/-- What becomes of the machine and of the heap it finds. -/
def ask (m : Machine) (h : Heap) : Request → Machine × Heap
  | .step => ((m.step h).1, (m.step h).2.1)
  | .execute => ((m.execute h).1, (m.execute h).2.1)
  | .stop => (m.requestStop, h)

/-- One request after the other, each with the heap as it is by then. -/
def afterAll (m : Machine) : List (Request × Heap) → Machine
  | [] => m
  | (q, h) :: rest => (m.ask h q).1.afterAll rest

theorem Later.ask (hl : Later m m') (h : Heap) (q : Request) : Later m (m'.ask h q).1 := by
  cases q with
  | step => exact hl.step h
  | execute => exact hl.run h #[]
  | stop => exact hl.stop

theorem Later.afterAll (hl : Later m m') (calls : List (Request × Heap)) : Later m (m'.afterAll calls) := by
  induction calls generalizing m' with
  | nil => exact hl
  | cons call rest ih => exact ih (hl.ask call.2 call.1)

/-! ## After the end -/

theorem step_of_ended (hend : m.status ≠ .running) (h : Heap) : m.step h = (m, h, []) := by
  unfold step
  cases hst : m.status with
  | running => exact absurd hst hend
  | halted | faulted c => rfl

theorem isRunning_eq (m : Machine) : m.isRunning = decide (m.status.kind = .running) := by
  unfold isRunning
  cases m.status <;> rfl

theorem run_of_ended (hend : m.status ≠ .running) (n : Nat) (h : Heap) (log : Array Log.Line) :
    run n m h log = (m, h, log) := by
  have hstill : m.isRunning = false := by
    rw [isRunning_eq]
    exact decide_eq_false (mt Status.kind_eq_running_iff.mp hend)
  cases n with
  | zero => rfl
  | succ n => rw [run, hstill, if_neg Bool.false_ne_true]

/-- There is nothing left to do but to note that a stop was asked for. -/
theorem ask_of_ended (hend : m.status ≠ .running) (h : Heap) (q : Request) :
    m.ask h q = (if q = .stop then m.requestStop else m, h) := by
  cases q with
  | step => simp [ask, step_of_ended hend]
  | execute => simp [ask, execute, run_of_ended hend]
  | stop => rfl

theorem afterAll_of_ended (hend : m.status ≠ .running) (calls : List (Request × Heap)) :
    ∃ b, m.afterAll calls = { m with stopRequested := b } := by
  induction calls generalizing m with
  | nil => exact ⟨m.stopRequested, rfl⟩
  | cons call rest ih =>
    rw [afterAll, ask_of_ended hend]
    split
    · exact ih (m := m.requestStop) hend
    · exact ih hend

/-! ## Asked to stop -/

theorem step_requestStop (hrun : m.status = .running) (h : Heap) :
    (m.requestStop.step h).1 = m.requestStop.fail .cancelled ∧ (m.requestStop.step h).2.1 = h := by
  simp [step, requestStop, failing, hrun]

theorem stepLimit_pos (m : Machine) : 0 < m.stepLimit := by
  unfold stepLimit
  split
  · decide
  · exact Nat.succ_pos _

/-- The step that comes next only ends the run. -/
theorem ask_requestStop (hrun : m.status = .running) (h : Heap) {q : Request} (hq : q ≠ .stop) :
    m.requestStop.ask h q = (m.requestStop.fail .cancelled, h) := by
  obtain ⟨hm, hh⟩ := step_requestStop hrun h
  cases q with
  | step => simp [ask, hm, hh]
  | stop => exact absurd rfl hq
  | execute =>
    obtain ⟨n, hn⟩ := Nat.exists_eq_succ_of_ne_zero (Nat.ne_of_gt m.requestStop.stepLimit_pos)
    have hgoes : m.requestStop.isRunning = true := by simp [isRunning, requestStop, hrun]
    have hended : (m.requestStop.fail .cancelled).status ≠ .running := by simp [fail]
    simp [ask, execute, hn, run, hgoes, hm, hh, run_of_ended hended]

/-! ## All together -/

/-- After whatever requests, the report of a machine is a proper one. Once the machine has come to an end, no request
changes the report or a heap. And while it runs, it does nothing more from when it is asked to stop. -/
theorem life_cycle {m₀ : Machine} {log : List Log.Line} (hm : create p s = .ok (m₀, log))
    (calls : List (Request × Heap)) :
    let m := m₀.afterAll calls
    m.report.Proper p s ∧
      (m.report.state ≠ .running → ∀ more, (m.afterAll more).report = m.report ∧
        ∀ h q, ((m.afterAll more).ask h q).2 = h) ∧
      (m.report.state = .running → ∀ h q, q ≠ .stop →
        (m.requestStop.ask h q).1.report =
          { m.report with state := .faulted, fault := .cancelled, message := "Execution cancelled", offset := m.pc } ∧
        (m.requestStop.ask h q).2 = h) := by
  intro m
  have horder : Orderly p s m := ((Later.refl).afterAll calls).orderly (orderly_of_create hm)
  refine ⟨horder.report, fun hend more => ?_, fun hrun h q hq => ?_⟩
  · have hended : m.status ≠ .running := fun hrun => hend (Status.kind_eq_running_iff.mpr hrun)
    obtain ⟨b, hmore⟩ := afterAll_of_ended hended more
    rw [hmore]
    exact ⟨rfl, fun h q => congrArg Prod.snd (ask_of_ended (m := { m with stopRequested := b }) hended h q)⟩
  · rw [ask_requestStop (Status.kind_eq_running_iff.mp hrun) h hq]
    exact ⟨rfl, rfl⟩

/-- A machine that is asked to stop when it has come to the end of its code. -/
theorem life_cycle_atEnd :
    let h := Heap.build ⟨[1], 1⟩
    let p : Program := ⟨#[0x01], 0, #[], #[]⟩
    let s : Settings := ⟨1, 1, false⟩
    ∃ m₀, create p s = .ok (m₀, []) ∧
      let m := m₀.afterAll [(.step, h)]
      m.report = ⟨.running, .none, "", 0, 1, 1, .raw 0, []⟩ ∧ m.report.Proper p s ∧
        (m.requestStop.ask h .execute).1.report =
          ⟨.faulted, .cancelled, "Execution cancelled", 1, 1, 1, .raw 0, []⟩ := by
  intro h p s
  have hcreate : create p s = .ok (ready p s (.empty 1), []) := rfl
  obtain ⟨hproper, -, hstop⟩ := life_cycle hcreate [(.step, h)]
  exact ⟨_, hcreate, rfl, hproper, (hstop rfl h .execute (by decide)).1⟩

end Machine

end StackVM
