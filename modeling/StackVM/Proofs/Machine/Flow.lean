/-
  StackVM.Proofs.Machine.Flow — where execution goes.

  After an instruction a machine goes on to the next one or, with an instruction whose operand is a jump target, to
  the place the operand names. A set of places in the code is `Closed` when at each of them, but for the end, an
  instruction can be decoded that leads to places of the set only. A machine that starts in a closed set stays in it
  and never comes to a fault that the code is to blame for, whatever happens to the heap between its steps.

  - `Exec.instruction_eq_jump`: where an instruction can lead.
  - `Machine.Stepped.onCourse`: a step does not leave a closed set.
  - `Machine.Later.onCourse`: nor does any number of steps.
-/

import StackVM.Proofs.Machine.Faults

namespace StackVM

/-! ## Where instructions lead -/

namespace Exec

variable {α : Type} {act : Exec α} {p : Program} {f f' : Frame} {target : Nat}

/-- What leads on in a way that its answer tells leads on in no other. -/
theorem bind_pure_ne {out : α → Flow} {flow : Flow} (hout : ∀ a, out a ≠ flow) :
    (act >>= fun a => pure (out a)) f ≠ .ok flow f' := by
  intro he
  cases hx : act f with
  | ok a g =>
    rw [bind_of_ok hx] at he
    injection he with hflow
    exact hout a hflow
  | error c g => rw [bind_of_error hx] at he; cases he

theorem andNext_ne {act : Exec Unit} {flow : Flow} (hflow : .next ≠ flow) : andNext act f ≠ .ok flow f' :=
  bind_pure_ne fun _ => hflow

theorem jump_eq_jump {v : UInt64} (he : jump p v f = .ok (.jump target) f') :
    target = v.toNat ∧ target ≤ p.code.size := by
  unfold jump at he
  split at he
  next => cases he
  next hle => cases he; exact ⟨rfl, Nat.le_of_not_lt hle⟩

theorem jumpIf_eq_jump {taken : UInt64 → Bool} {v : UInt64} (he : jumpIf p taken v f = .ok (.jump target) f') :
    target = v.toNat ∧ target ≤ p.code.size := by
  cases hx : popRaw f with
  | error c g => rw [jumpIf, bind_of_error hx] at he; cases he
  | ok w g =>
    rw [jumpIf, bind_of_ok hx] at he
    split at he
    next => exact jump_eq_jump he
    next => cases he

/-- An instruction leads on to the next one or to the place that its operand names. -/
theorem instruction_eq_jump {i : Instruction} (he : instruction p i f = .ok (.jump target) f') :
    i.op.operandWidth = 4 ∧ target = i.operand.toNat ∧ target ≤ p.code.size := by
  rcases i with ⟨op, operand⟩
  cases op with
  | unreachable | noop | halt => cases he
  | jump => exact ⟨rfl, jump_eq_jump he⟩
  | jumpIfZero | jumpIfNotZero => exact ⟨rfl, jumpIf_eq_jump he⟩
  | print => exact absurd he (bind_pure_ne fun v he => by cases he)
  | _ => exact absurd he (andNext_ne (by simp))

theorem jump_ne_halt {v : UInt64} : jump p v f ≠ .ok .halt f' := by
  intro he
  unfold jump at he
  split at he <;> cases he

theorem jumpIf_ne_halt {taken : UInt64 → Bool} {v : UInt64} : jumpIf p taken v f ≠ .ok .halt f' := by
  intro he
  cases hx : popRaw f with
  | error c g => rw [jumpIf, bind_of_error hx] at he; cases he
  | ok w g =>
    rw [jumpIf, bind_of_ok hx] at he
    split at he
    next => exact jump_ne_halt he
    next => cases he

/-- There is one instruction that ends a run. -/
theorem instruction_eq_halt {i : Instruction} (he : instruction p i f = .ok .halt f') : i.op = .halt := by
  rcases i with ⟨op, operand⟩
  cases op with
  | halt => rfl
  | unreachable | noop => cases he
  | jump => exact absurd he jump_ne_halt
  | jumpIfZero | jumpIfNotZero => exact absurd he jumpIf_ne_halt
  | print => exact absurd he (bind_pure_ne fun v he => by cases he)
  | _ => exact absurd he (andNext_ne (by simp))

end Exec

/-! ## Places that execution does not leave -/

/-- At every place of the set that is not the end of the code stands an instruction, and all places it leads to are
in the set as well. -/
def Closed (code : Bytes) (place : Nat → Prop) : Prop :=
  ∀ o, place o → o ≠ code.size → ∃ i, Instruction.decode code o = .ok i ∧ place (o + i.length) ∧
    (i.op.operandWidth = 4 → place i.operand.toNat ∧ i.operand.toNat ≤ code.size)

namespace Machine

/-- The machine is at a place of the set, and if it has faulted the code is not to blame. -/
structure OnCourse (place : Nat → Prop) (m : Machine) : Prop where
  pc : place m.pc
  fault : m.status.fault.ofCode = false

variable {m m' : Machine} {h h' : Heap} {place : Nat → Prop}

theorem Stepped.onCourse (hs : Stepped m h m' h') (hclosed : Closed m.program.code place) (hm : OnCourse place m) :
    OnCourse place m' := by
  cases hs with
  | finished => exact hm
  | cancelled | ended | exhausted => exact ⟨hm.pc, rfl⟩
  | stumbled hrun hgo hd =>
    obtain ⟨i, hi, -⟩ := hclosed m.pc hm.pc fun he => hgo (.inr (.inl he))
    rw [hi] at hd
    cases hd
  | @performed i flow f hi hx =>
    obtain ⟨hrun, hgo, hd⟩ := instruction?_eq_some.mp hi
    obtain ⟨j, hj, hnext, htarget⟩ := hclosed m.pc hm.pc fun he => hgo (.inr (.inl he))
    rw [hd] at hj
    cases hj
    have hfault : (m.counting f).status.fault.ofCode = false := hm.fault
    cases flow with
    | next => exact ⟨hnext, hfault⟩
    | print v => exact ⟨hnext, hfault⟩
    | halt => exact ⟨hm.pc, rfl⟩
    | jump target =>
      obtain ⟨hwidth, rfl, -⟩ := Exec.instruction_eq_jump hx
      exact ⟨(htarget hwidth).1, hfault⟩
  | @faulted i c f hi hx =>
    obtain ⟨-, hgo, hd⟩ := instruction?_eq_some.mp hi
    obtain ⟨j, hj, -, htarget⟩ := hclosed m.pc hm.pc fun he => hgo (.inr (.inl he))
    rw [hd] at hj
    cases hj
    refine ⟨hm.pc, Bool.eq_false_iff.mpr fun hc => ?_⟩
    -- only a jump past the end would be the code's fault, and its target is a place of the set
    obtain ⟨hwidth, hlt⟩ := (Exec.fails_instruction m.program i _ _ _ hx).2 hc
    exact absurd (htarget hwidth).2 (Nat.not_le_of_lt hlt)

/-! ## Start -/

theorem create_eq_ok {p : Program} {settings : Settings} {x : Machine × List Log.Line} :
    create p settings = .ok x ↔
      settings.stackCapacity ≤ Stack.maxCapacity ∧ x = start p settings (.empty settings.stackCapacity) := by
  unfold create Stack.create
  by_cases hstack : Stack.maxCapacity < settings.stackCapacity
  · simp [hstack, Nat.not_le_of_lt hstack]
  · simp [hstack, Nat.le_of_not_lt hstack, eq_comm]

theorem start_of_le {p : Program} {settings : Settings} {stack : Stack} (hentry : p.entry ≤ p.code.size) :
    start p settings stack = (ready p settings stack, []) := by
  simp only [start, if_neg (Nat.not_lt_of_le hentry)]

/-- A new machine stands at the entry of its program. -/
theorem onCourse_of_create {p : Program} {settings : Settings} {log : List Log.Line}
    (hm : create p settings = .ok (m, log)) (hplace : place p.entry) (hentry : p.entry ≤ p.code.size) :
    OnCourse place m ∧ m.program = p := by
  obtain ⟨-, heq⟩ := create_eq_ok.mp hm
  rw [start_of_le hentry] at heq
  cases heq
  exact ⟨⟨hplace, rfl⟩, rfl⟩

/-! ## Any number of steps -/

/-- What a machine can become by steps, each on whatever the heap is by then, and by requests to stop. -/
inductive Later (m : Machine) : Machine → Prop
  | refl : Later m m
  | step {m' : Machine} (h : Heap) : Later m m' → Later m (m'.step h).1
  | stop {m' : Machine} : Later m m' → Later m m'.requestStop

theorem Later.program (hl : Later m m') : m'.program = m.program := by
  induction hl with
  | refl => rfl
  | step h _ ih => exact (program_step _ h).trans ih
  | stop _ ih => exact ih

theorem Later.onCourse (hl : Later m m') (hclosed : Closed m.program.code place) (hm : OnCourse place m) :
    OnCourse place m' := by
  induction hl with
  | refl => exact hm
  | @step m₁ h hl ih => exact (stepped m₁ h).onCourse (hl.program ▸ hclosed) ih
  | stop _ ih => exact ⟨ih.pc, ih.fault⟩

/-- A run is a number of steps. -/
theorem Later.run {n : Nat} (hl : Later m m') (h : Heap) (log : Array Log.Line) : Later m (run n m' h log).1 := by
  induction n generalizing m' h log with
  | zero => exact hl
  | succ n ih =>
    rw [Machine.run]
    split
    · exact ih (hl.step h) _ _
    · exact hl

end Machine

end StackVM
