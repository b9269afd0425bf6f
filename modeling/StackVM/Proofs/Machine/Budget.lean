/-
  StackVM.Proofs.Machine.Budget — what the step budget does to a run.

  `withBudget b` is the machine with another budget. As long as fewer instructions have been run than a budget `B`
  allows, no step can tell `B` from a larger budget or from none, so the runs go the same way until either is at its
  end or `B` instructions have been run. Then one more step ends the run under `B`: at the end of the code it halts, as
  it does under any budget, and elsewhere it fails for the budget.

  - `step_spent`: a step within the budget counts itself or ends the run, and not for the budget.
  - `step_withBudget`, `run_withBudget`: steps within both budgets are the same steps.
  - `run_spent`: what is left of a machine by as many steps as its budget has left.
  - `completes_or_cut`: the two ways in which the step after these ends a run.
  - `execute_budget`: a whole run under a budget beside the runs under others.
-/

import StackVM.Proofs.Machine.Causes
import StackVM.Proofs.Machine.LifeCycle

namespace StackVM

theorem Cause.fault_ne_budget {c : Cause} (hc : c.OfInstruction) : c.fault ≠ .stepBudgetExhausted := by
  intro he
  cases c with
  | budgetExhausted b => exact hc
  | heap e => cases e <;> cases he
  | _ => cases he

namespace Machine

variable {m m' : Machine} {h h' : Heap} {b : UInt64} {j : Nat}

/-! ## Runs in parts -/

theorem isRunning_eq_true_iff : m.isRunning = true ↔ m.status = .running := by
  rw [isRunning_eq, decide_eq_true_iff]
  exact Status.kind_eq_running_iff

theorem run_succ (hrun : m.status = .running) (n : Nat) (h : Heap) (log : Array Log.Line) :
    run (n + 1) m h log = run n (m.step h).1 (m.step h).2.1 (log ++ (m.step h).2.2) := by
  rw [run, if_pos (isRunning_eq_true_iff.mpr hrun)]

theorem run_add (i j : Nat) (m : Machine) (h : Heap) (log : Array Log.Line) :
    run (i + j) m h log = run j (run i m h log).1 (run i m h log).2.1 (run i m h log).2.2 := by
  induction i generalizing m h log with
  | zero => rw [Nat.zero_add]; rfl
  | succ i ih =>
    by_cases hrun : m.status = .running
    · rw [Nat.succ_add, run_succ hrun, run_succ hrun, ih]
    · rw [run_of_ended hrun, run_of_ended hrun, run_of_ended hrun]

theorem settings_step (m : Machine) (h : Heap) : (m.step h).1.settings = m.settings := by
  have hs := stepped m h
  generalize (m.step h).1 = m' at hs
  generalize (m.step h).2.1 = h' at hs
  cases hs with
  | finished | cancelled | ended | exhausted | faulted => rfl
  | @stumbled e => cases e <;> rfl
  | @performed i flow f => cases flow <;> rfl

theorem settings_run (n : Nat) (m : Machine) (h : Heap) (log : Array Log.Line) :
    (run n m h log).1.settings = m.settings := by
  induction n generalizing m h log with
  | zero => rfl
  | succ n ih =>
    rw [run]
    split
    · exact (ih _ _ _).trans (settings_step m h)
    · rfl

theorem stepLimit_run (n : Nat) (m : Machine) (h : Heap) (log : Array Log.Line) :
    (run n m h log).1.stepLimit = m.stepLimit := by
  rw [stepLimit, settings_run, stepLimit]

/-- To watch steps is to take them. -/
theorem watch_snd (n : Nat) (m : Machine) (h : Heap) (log : Array Log.Line) : (m.watch n h log).2 = run n m h log := by
  induction n generalizing m h log with
  | zero => rfl
  | succ n ih =>
    rw [watch, run]
    split
    · exact ih _ _ _
    · rfl

/-! ## Another budget -/

/-- The machine with another budget, where it stands. -/
def withBudget (m : Machine) (b : UInt64) : Machine := { m with settings := { m.settings with stepBudget := b } }

@[simp] theorem withBudget_pc (m : Machine) (b : UInt64) : (m.withBudget b).pc = m.pc := rfl

theorem halt_withBudget (m : Machine) (b : UInt64) : (m.withBudget b).halt = m.halt.withBudget b := rfl

theorem follow_withBudget (m : Machine) (b : UInt64) (length : Nat) (flow : Flow) :
    (m.withBudget b).follow length flow = ((m.follow length flow).1.withBudget b, (m.follow length flow).2) := by
  cases flow <;> rfl

theorem failing_withBudget (m : Machine) (b : UInt64) (c : Cause) (h : Heap) :
    (m.withBudget b).failing c h =
      ((m.failing c h).1.withBudget b, (m.failing c h).2.1, (m.failing c h).2.2) := rfl

/-- An instruction does not see the budget. -/
theorem perform_withBudget (m : Machine) (b : UInt64) (i : Instruction) (h : Heap) :
    (m.withBudget b).perform i h =
      ((m.perform i h).1.withBudget b, (m.perform i h).2.1, (m.perform i h).2.2) := by
  have hframe : (m.withBudget b).frame h = m.frame h := rfl
  have hprogram : (m.withBudget b).program = m.program := rfl
  cases hx : Exec.instruction m.program i (m.frame h) with
  | ok flow f =>
    rw [perform_of_ok hx, perform_of_ok (m := m.withBudget b) (by rw [hprogram, hframe]; exact hx)]
    have hfollow := follow_withBudget (m.counting f) b i.length flow
    rw [show (m.withBudget b).counting f = (m.counting f).withBudget b from rfl, hfollow]
    rfl
  | error c f =>
    rw [perform_of_error hx, perform_of_error (m := m.withBudget b) (by rw [hprogram, hframe]; exact hx)]
    rfl

/-- Where neither budget ends the run, or the end of the code does so first, a step does the same under both. -/
theorem step_withBudget (hsame : m.pc = m.program.code.size ∨
      (m.outOfBudget = false ∧ (m.withBudget b).outOfBudget = false)) (h : Heap) :
    (m.withBudget b).step h = ((m.step h).1.withBudget b, (m.step h).2.1, (m.step h).2.2) := by
  by_cases hrun : m.status = .running
  · have hrun' : (m.withBudget b).status = .running := hrun
    have hprogram : (m.withBudget b).program = m.program := rfl
    have hstop : (m.withBudget b).stopRequested = m.stopRequested := rfl
    simp only [step, hrun, hrun', hprogram, hstop, withBudget_pc]
    by_cases hstop : m.stopRequested = true
    · simp only [if_pos hstop, failing_withBudget]
    by_cases hend : m.pc = m.program.code.size
    · simp only [if_neg hstop, if_pos hend, halt_withBudget]
    obtain ⟨hleft, hleft'⟩ := hsame.resolve_left hend
    simp only [if_neg hstop, if_neg hend, hleft, hleft', if_neg Bool.false_ne_true]
    cases Instruction.decode m.program.code m.pc with
    | ok i => exact perform_withBudget m b i h
    | error e => cases e <;> rfl
  · rw [step_of_ended hrun, step_of_ended (m := m.withBudget b) hrun]

/-! ## Within the budget -/

/-- The budget allows at least `j` more instructions. -/
def HasLeft (m : Machine) (j : Nat) : Prop := m.steps.toNat + j ≤ m.settings.stepBudget.toNat

theorem HasLeft.outOfBudget (hleft : m.HasLeft (j + 1)) : m.outOfBudget = false := by
  have hlt : m.steps < m.settings.stepBudget := UInt64.lt_iff_toNat_lt.mpr (by unfold HasLeft at hleft; omega)
  simp [Machine.outOfBudget, hlt]

/-- What has something left under a budget has something left under a wider one. -/
theorem HasLeft.outOfBudget_withBudget (hleft : m.HasLeft (j + 1)) (hwider : b = 0 ∨ m.settings.stepBudget ≤ b) :
    (m.withBudget b).outOfBudget = false := by
  rcases hwider with rfl | hle
  · rfl
  · refine HasLeft.outOfBudget (j := j) ?_
    rw [UInt64.le_iff_toNat_le] at hle
    exact Nat.le_trans hleft hle

/-- What is left of a machine by `j` steps within its budget: if it still runs, it has counted all of them, and if it
has come to an end, that was not for the budget. -/
structure Spent (m : Machine) (j : Nat) (m' : Machine) : Prop where
  settings : m'.settings = m.settings
  stopRequested : m'.stopRequested = m.stopRequested
  fault : m.status.fault ≠ .stepBudgetExhausted → m'.status.fault ≠ .stepBudgetExhausted
  steps : m'.status = .running → m'.steps.toNat = m.steps.toNat + j

theorem Spent.refl (m : Machine) : Spent m 0 m := ⟨rfl, rfl, id, fun _ => rfl⟩

theorem Spent.of_ended (hend : m.status ≠ .running) (j : Nat) : Spent m j m :=
  ⟨rfl, rfl, id, fun hrun => absurd hrun hend⟩

theorem Spent.trans {m₁ m₂ : Machine} {i : Nat} (h₁ : Spent m i m₁) (hrun : m₁.status = .running)
    (h₂ : Spent m₁ j m₂) : Spent m (i + j) m₂ where
  settings := h₂.settings.trans h₁.settings
  stopRequested := h₂.stopRequested.trans h₁.stopRequested
  fault hm := h₂.fault (h₁.fault hm)
  steps hrun' := by rw [h₂.steps hrun', h₁.steps hrun, Nat.add_assoc]

theorem Spent.hasLeft (hs : Spent m 1 m') (hrun : m'.status = .running) (hleft : m.HasLeft (j + 1)) :
    m'.HasLeft j := by
  have hsteps := hs.steps hrun
  unfold HasLeft at hleft ⊢
  rw [hs.settings]
  omega

theorem HasLeft.toNat_steps_add_one (hleft : m.HasLeft (j + 1)) : (m.steps + 1).toNat = m.steps.toNat + 1 := by
  have hbudget := m.settings.stepBudget.toNat_lt
  unfold HasLeft at hleft
  rw [UInt64.toNat_add, show UInt64.toNat 1 = 1 from rfl]
  omega

theorem step_spent (hrun : m.status = .running) (hstop : m.stopRequested = false) (hleft : m.HasLeft (j + 1))
    (h : Heap) : Spent m 1 (m.step h).1 := by
  have hend {st : Status} {offset : Nat} {f : Frame} {steps : UInt64} (hst : st ≠ .running)
      (hfault : st.fault ≠ .stepBudgetExhausted) :
      Spent m 1 { m with stack := f.stack, r := f.r, steps := steps, status := st, offset := offset } :=
    ⟨rfl, rfl, fun _ => hfault, fun hgo => absurd hgo hst⟩
  have hs := stepped m h
  generalize (m.step h).1 = m' at hs
  generalize (m.step h).2.1 = h' at hs
  cases hs with
  | finished hend => exact absurd hrun hend
  | cancelled _ hstop' => rw [hstop] at hstop'; cases hstop'
  | exhausted _ _ _ hout => rw [hleft.outOfBudget] at hout; cases hout
  | ended => exact hend (f := m.frame h) (by decide) (by decide)
  | @stumbled e =>
    cases e with
    | endOfCode => exact hend (f := m.frame h) (by decide) (by decide)
    | illegalOpcode _ | truncated _ =>
      exact hend (f := m.frame h) (by simp) (by simp [Status.fault, Cause.fault])
  | @faulted i c f hi hx =>
    have hc : c.OfInstruction := Exec.raises_instruction m.program i _ _ _ hx
    exact hend (by simp) (c.fault_ne_budget hc)
  | @performed i flow f hi hx =>
    cases flow with
    | halt => exact hend (by decide) (by decide)
    | next | jump target | print v => exact ⟨rfl, rfl, id, fun _ => hleft.toNat_steps_add_one⟩

theorem run_spent (hstop : m.stopRequested = false) (hleft : m.HasLeft j) (h : Heap) (log : Array Log.Line) :
    Spent m j (run j m h log).1 := by
  induction j generalizing m h log with
  | zero => exact .refl m
  | succ j ih =>
    by_cases hrun : m.status = .running
    · have hs := step_spent hrun hstop hleft h
      rw [run_succ hrun]
      by_cases hrun' : (m.step h).1.status = .running
      · have hrest := ih (hs.stopRequested.trans hstop) (hs.hasLeft hrun' hleft) (m.step h).2.1 (log ++ (m.step h).2.2)
        exact Nat.add_comm 1 j ▸ hs.trans hrun' hrest
      · rw [run_of_ended hrun']
        exact ⟨hs.settings, hs.stopRequested, hs.fault, fun hgo => absurd hgo hrun'⟩
    · rw [run_of_ended hrun]
      exact .of_ended hrun _

/-- As long as the narrower of two budgets lasts, the runs under both are the same. -/
theorem run_withBudget (hstop : m.stopRequested = false) (hleft : m.HasLeft j)
    (hwider : b = 0 ∨ m.settings.stepBudget ≤ b) (h : Heap) (log : Array Log.Line) :
    run j (m.withBudget b) h log = ((run j m h log).1.withBudget b, (run j m h log).2) := by
  induction j generalizing m h log with
  | zero => rfl
  | succ j ih =>
    by_cases hrun : m.status = .running
    · have hs := step_spent hrun hstop hleft h
      rw [run_succ hrun, run_succ (m := m.withBudget b) hrun,
        step_withBudget (.inr ⟨hleft.outOfBudget, hleft.outOfBudget_withBudget hwider⟩)]
      by_cases hrun' : (m.step h).1.status = .running
      · exact ih (hs.stopRequested.trans hstop) (hs.hasLeft hrun' hleft) (hs.settings ▸ hwider) _ _
      · rw [run_of_ended hrun', run_of_ended (m := (m.step h).1.withBudget b) hrun']
    · rw [run_of_ended hrun, run_of_ended (m := m.withBudget b) hrun]

/-! ## The step after the last one -/

/-- Where the budget is used up, the next step ends the run: at the end of the code as it would in any case, and
elsewhere for the budget. -/
theorem step_atLimit (hrun : m.status = .running) (hstop : m.stopRequested = false) (hout : m.outOfBudget = true)
    (h : Heap) : m.step h = if m.pc = m.program.code.size then (m.halt, h, [])
      else m.failing (.budgetExhausted m.settings.stepBudget) h := by
  simp only [step, hrun, hstop, hout, if_neg Bool.false_ne_true, if_true]

theorem outOfBudget_of_eq (hlimit : m.settings.stepBudget ≠ 0) (heq : m.steps = m.settings.stepBudget) :
    m.outOfBudget = true := by
  simp [outOfBudget, hlimit, heq]

/-- One step more than the budget has left ends the run, in a way that wider budgets share. -/
structure Completes (m : Machine) (j : Nat) (h : Heap) : Prop where
  ended : (run (j + 1) m h #[]).1.status ≠ .running
  fault : m.status.fault ≠ .stepBudgetExhausted → (run (j + 1) m h #[]).1.status.fault ≠ .stepBudgetExhausted
  same : ∀ b, b = 0 ∨ m.settings.stepBudget ≤ b →
    run (j + 1) (m.withBudget b) h #[] = ((run (j + 1) m h #[]).1.withBudget b, (run (j + 1) m h #[]).2)

/-- One step more than the budget has left cuts the run short, at an instruction that is still to be run. -/
structure Cut (m : Machine) (j : Nat) (h : Heap) : Prop where
  running : (run j m h #[]).1.status = .running
  inside : (run j m h #[]).1.pc ≠ (run j m h #[]).1.program.code.size
  steps : (run j m h #[]).1.steps = m.settings.stepBudget
  failed : (run (j + 1) m h #[]).1 = (run j m h #[]).1.fail (.budgetExhausted m.settings.stepBudget)
  heap : (run (j + 1) m h #[]).2.1 = (run j m h #[]).2.1

theorem completes_or_cut (hstop : m.stopRequested = false) (hlimit : m.settings.stepBudget ≠ 0)
    (hexact : m.steps.toNat + j = m.settings.stepBudget.toNat) (h : Heap) : Completes m j h ∨ Cut m j h := by
  let v := run j m h #[]
  have hleft : m.HasLeft j := Nat.le_of_eq hexact
  have hv : Spent m j v.1 := run_spent hstop hleft h #[]
  have hlast : run (j + 1) m h #[] = run 1 v.1 v.2.1 v.2.2 := run_add j 1 m h #[]
  have hother (b : UInt64) (hwider : b = 0 ∨ m.settings.stepBudget ≤ b) :
      run (j + 1) (m.withBudget b) h #[] = run 1 (v.1.withBudget b) v.2.1 v.2.2 := by
    rw [run_add, run_withBudget hstop hleft hwider]
  by_cases hrun : v.1.status = .running
  · have hsteps : v.1.steps = m.settings.stepBudget := UInt64.toNat_inj.mp ((hv.steps hrun).trans hexact)
    have hout : v.1.outOfBudget = true :=
      outOfBudget_of_eq (hv.settings ▸ hlimit) (hsteps.trans (congrArg Settings.stepBudget hv.settings).symm)
    have hstep := step_atLimit hrun (hv.stopRequested.trans hstop) hout v.2.1
    rw [run_succ hrun] at hlast
    by_cases hend : v.1.pc = v.1.program.code.size
    · rw [if_pos hend] at hstep
      rw [hstep] at hlast
      exact .inl {
        ended := by rw [hlast]; simp [run, halt]
        fault := fun _ => by rw [hlast]; simp [run, halt, Status.fault]
        same := fun b hwider => by
          rw [hother b hwider, run_succ (m := v.1.withBudget b) hrun, step_withBudget (.inl hend), hstep, hlast]
          rfl }
    · rw [if_neg hend, hv.settings] at hstep
      rw [hstep] at hlast
      exact .inr ⟨hrun, hend, hsteps, by rw [hlast]; rfl, by rw [hlast]; rfl⟩
  · rw [run_of_ended hrun] at hlast
    exact .inl {
      ended := by rw [hlast]; exact hrun
      fault := fun hm => by rw [hlast]; exact hv.fault hm
      same := fun b hwider => by rw [hother b hwider, run_of_ended (m := v.1.withBudget b) hrun, hlast] }

theorem Cut.ended (hcut : Cut m j h) : (run (j + 1) m h #[]).1.status ≠ .running := by
  rw [hcut.failed]
  simp [fail]

theorem Cut.fault (hcut : Cut m j h) : (run (j + 1) m h #[]).1.status.fault = .stepBudgetExhausted := by
  rw [hcut.failed]
  rfl

/-! ## Whole runs -/

theorem run_of_le {i j : Nat} {log : Array Log.Line} (hend : (run i m h log).1.status ≠ .running) (hij : i ≤ j) :
    run j m h log = run i m h log := by
  obtain ⟨k, rfl⟩ := Nat.exists_eq_add_of_le hij
  rw [run_add, run_of_ended hend]

theorem execute_of_le (hend : (run j m h #[]).1.status ≠ .running) (hj : j ≤ m.stepLimit) :
    m.execute h = run j m h #[] := run_of_le hend hj

/-- A wider budget means a later limit on the steps that are tried. -/
theorem le_stepLimit_withBudget (hj : j ≤ m.settings.stepBudget.toNat)
    (hwider : b = 0 ∨ m.settings.stepBudget ≤ b) : j + 1 ≤ (m.withBudget b).stepLimit := by
  have hbudget := m.settings.stepBudget.toNat_lt
  show j + 1 ≤ if b = 0 then UInt64.size else b.toNat + 1
  split
  · unfold UInt64.size; omega
  · next hb =>
    have hle := UInt64.le_iff_toNat_le.mp (hwider.resolve_left hb)
    omega

/-- A whole run is over after one step more than the budget has left. -/
theorem execute_eq_run (hj : j ≤ m.settings.stepBudget.toNat) (hends : Completes m j h ∨ Cut m j h) :
    (run (j + 1) m h #[]).1.status ≠ .running ∧ m.execute h = run (j + 1) m h #[] := by
  have hended : (run (j + 1) m h #[]).1.status ≠ .running := hends.elim Completes.ended Cut.ended
  have hlimit : j + 1 ≤ m.stepLimit := le_stepLimit_withBudget (m := m) hj (.inr (UInt64.le_refl _))
  exact ⟨hended, execute_of_le hended hlimit⟩

theorem Completes.execute_withBudget (hends : Completes m j h) (hj : j ≤ m.settings.stepBudget.toNat)
    (hwider : b = 0 ∨ m.settings.stepBudget ≤ b) :
    (m.withBudget b).execute h = ((m.execute h).1.withBudget b, (m.execute h).2) := by
  have hended : (run (j + 1) (m.withBudget b) h #[]).1.status ≠ .running := by
    rw [hends.same b hwider]
    exact hends.ended
  rw [execute_of_le hended (le_stepLimit_withBudget hj hwider), hends.same b hwider,
    (execute_eq_run hj (.inl hends)).2]

theorem create_withBudget {p : Program} {s : Settings} {log : List Log.Line} (hm : create p s = .ok (m, log))
    (b : UInt64) : create p { s with stepBudget := b } = .ok (m.withBudget b, log) := by
  obtain ⟨hcap, heq⟩ := create_eq_ok.mp hm
  refine create_eq_ok.mpr ⟨hcap, ?_⟩
  unfold start at heq ⊢
  split at heq
  · next hpast => cases heq; exact (if_pos hpast).symm
  · next hentry => cases heq; exact (if_neg hentry).symm

/-- A run under a budget `B`, of a machine that is new or has taken some steps, and that nobody asks to stop. It is over
after one step more than `B` has left. Unless it fails for the budget, it ends as it does under any wider budget and
under none. And if it fails for the budget, `B` instructions have been run, and all is as it is after as many steps
without a budget, where the machine still runs and is not at the end of its code. -/
theorem execute_budget {p : Program} {s : Settings} {m₀ : Machine} {log : List Log.Line}
    (hm : create p s = .ok (m₀, log)) (hlimit : s.stepBudget ≠ 0) (hl : m₀.Later m) (hstop : m.stopRequested = false)
    (h : Heap) :
    let B := s.stepBudget
    let left := B.toNat - m.steps.toNat
    let out := m.execute h
    (∀ b, create p { s with stepBudget := b } = .ok (m₀.withBudget b, log)) ∧
      (out.1.status ≠ .running ∧ out.1.steps ≤ B ∧ ∀ n, left < n → run n m h #[] = out) ∧
      (out.1.status.fault ≠ .stepBudgetExhausted → ∀ b, b = 0 ∨ B ≤ b →
        (m.withBudget b).execute h = (out.1.withBudget b, out.2)) ∧
      (out.1.status.fault = .stepBudgetExhausted → m.status = .running →
        let u := run left (m.withBudget 0) h #[]
        out.1.steps = B ∧ u.1.steps = B ∧ u.1.status = .running ∧ u.1.pc ≠ p.code.size ∧
          out.1.stack = u.1.stack ∧ out.1.r = u.1.r ∧ out.1.pc = u.1.pc ∧ out.2.1 = u.2.1) := by
  intro B left out
  have horder : Orderly p s m := hl.orderly (orderly_of_create hm)
  have hB : m.settings.stepBudget = B := congrArg Settings.stepBudget horder.settings
  have hle : m.steps.toNat ≤ B.toNat := UInt64.le_iff_toNat_le.mp (horder.budget hlimit)
  have hexact : m.steps.toNat + left = m.settings.stepBudget.toNat := by rw [hB]; omega
  have hleft : left ≤ m.settings.stepBudget.toNat := by omega
  have hends := completes_or_cut hstop (hB ▸ hlimit) hexact h
  obtain ⟨hended, hexecute⟩ := execute_eq_run hleft hends
  have hout : out = run (left + 1) m h #[] := hexecute
  refine ⟨create_withBudget hm, ⟨?_, ?_, ?_⟩, ?_, ?_⟩
  · exact hout ▸ hended
  · exact ((hl.run h #[]).orderly (orderly_of_create hm)).budget hlimit
  · intro n hn
    exact (run_of_le hended hn).trans hout.symm
  · intro hother b hwider
    rcases hends with hcompletes | hcut
    · exact hcompletes.execute_withBudget hleft (hB ▸ hwider)
    · exact absurd (hout ▸ hcut.fault) hother
  · intro hexhausted hrun
    rcases hends with hcompletes | hcut
    · have hfault : m.status.fault ≠ .stepBudgetExhausted := by simp [hrun, Status.fault]
      exact absurd (hout ▸ hexhausted) (hcompletes.fault hfault)
    · have hprogram : (run left m h #[]).1.program = p := by
        rw [((Later.refl (m := m)).run h #[]).program]
        exact horder.program
      rw [hout, run_withBudget hstop (Nat.le_of_eq hexact) (.inl rfl), hcut.failed]
      have hsteps := hcut.steps.trans hB
      exact ⟨hsteps, hsteps, hcut.running, hprogram ▸ hcut.inside, rfl, rfl, rfl, hcut.heap⟩

/-- A jump to itself, cut after three rounds. -/
theorem execute_budget_loop :
    let h := Heap.build ⟨[1], 1⟩
    let p : Program := ⟨#[0x08, 0, 0, 0, 0], 0, #[], #[]⟩
    let s : Settings := ⟨1, 3, false⟩
    ∃ m, create p s = .ok (m, []) ∧ s.stepBudget ≠ 0 ∧ m.stopRequested = false ∧
      (m.execute h).1.status.fault = .stepBudgetExhausted ∧ (m.execute h).1.steps = 3 ∧
      (∀ n, 3 < n → run n m h #[] = m.execute h) ∧ (run 3 (m.withBudget 0) h #[]).1.status = .running := by
  intro h p s
  have hcreate : create p s = .ok (ready p s (.empty 1), []) := rfl
  obtain ⟨-, ⟨-, -, hover⟩, -, hcut⟩ := execute_budget hcreate (by decide) .refl rfl h
  have hexhausted : ((ready p s (.empty 1)).execute h).1.status.fault = .stepBudgetExhausted := by decide +kernel
  obtain ⟨hsteps, -, hgoes, -⟩ := hcut hexhausted rfl
  exact ⟨_, hcreate, by decide, rfl, hexhausted, hsteps, hover, hgoes⟩

end Machine

end StackVM
