/-
  StackVM.Proofs.Machine.Tracing — a trace only looks on.

  `tracing b` is the machine with the trace on or off. A run goes the same way with the trace on and off, and whatever
  becomes of its log: the switch is never asked but for what to say, and what has been said is never asked for. On
  standard output there is, for every instruction that was counted, the line of the listing at its place and how many
  values were on the stack before it, and right behind it what the instruction has printed, if it has.

  - `step_tracing`, `run_tracing`: the same steps with the trace on and off.
  - `countedSteps`, `output_run`: what a run writes to standard output, step by step.
  - `tracing_observes`: all of it.
-/

import StackVM.Proofs.Machine.Budget

namespace StackVM

theorem Text.ofString_append (s t : String) : ofString (s ++ t) = ofString s ++ ofString t := by
  simp [ofString]

/-- What is said later is written behind. -/
theorem Log.output_append (verbose : Bool) (ls ls' : List Log.Line) :
    output verbose (ls ++ ls') = output verbose ls ++ output verbose ls' := by
  cases verbose <;> simp [output]

open Text (byte ofString decimal)

/-! ## What an instruction prints -/

namespace Exec

variable {p : Program} {i : Instruction} {f f' : Frame} {flow : Flow} {v : Value}

theorem jump_ne_print {target : UInt64} : jump p target f ≠ .ok (.print v) f' := by
  intro he
  unfold jump at he
  split at he <;> cases he

theorem jumpIf_ne_print {taken : UInt64 → Bool} {target : UInt64} : jumpIf p taken target f ≠ .ok (.print v) f' := by
  intro he
  cases hx : popRaw f with
  | error c g => rw [jumpIf, bind_of_error hx] at he; cases he
  | ok w g =>
    rw [jumpIf, bind_of_ok hx] at he
    split at he
    next => exact jump_ne_print he
    next => cases he

theorem instruction_print (hop : i.op = .print) : instruction p i f =
    match f.stack.peek 0 with
    | some v => .ok (.print v) f
    | none => .error .nothingToPrint f := by
  have htop : top .nothingToPrint f = match f.stack.peek 0 with
    | some v => .ok v f
    | none => .error .nothingToPrint f := rfl
  rw [instruction, hop]
  show (top .nothingToPrint >>= fun v => pure (Flow.print v)) f = _
  cases hpeek : f.stack.peek 0 with
  | some v =>
    rw [hpeek] at htop
    exact bind_of_ok htop
  | none =>
    rw [hpeek] at htop
    exact bind_of_error htop

/-- One instruction prints, and what it prints is on top of the stack. -/
theorem instruction_eq_print (he : instruction p i f = .ok (.print v) f') :
    i.op = .print ∧ f.stack.peek 0 = some v := by
  rcases i with ⟨op, operand⟩
  cases op with
  | print =>
    rw [instruction_print rfl] at he
    refine ⟨rfl, ?_⟩
    cases hpeek : f.stack.peek 0 with
    | some w => rw [hpeek] at he; cases he; rfl
    | none => rw [hpeek] at he; cases he
  | unreachable | noop | halt => cases he
  | jump => exact absurd he jump_ne_print
  | jumpIfZero | jumpIfNotZero => exact absurd he jumpIf_ne_print
  | _ => exact absurd he (andNext_ne (by simp))

theorem eq_print_of_op (hop : i.op = .print) (he : instruction p i f = .ok flow f') : ∃ v, flow = .print v := by
  rw [instruction_print hop] at he
  cases hpeek : f.stack.peek 0 with
  | some v => rw [hpeek] at he; cases he; exact ⟨v, rfl⟩
  | none => rw [hpeek] at he; cases he

end Exec

theorem Stack.peek_zero (s : Stack) : s.peek 0 = s.toList.getLast? := by
  rw [Stack.peek_eq, List.getLast?_eq_head?_reverse, List.head?_eq_getElem?]

namespace Machine

variable {m : Machine} {h : Heap} {i : Instruction}

/-! ## The same steps -/

/-- The machine with the trace on or off, where it stands. -/
def tracing (m : Machine) (b : Bool) : Machine := { m with settings := { m.settings with trace := b } }

theorem follow_tracing (m : Machine) (b : Bool) (length : Nat) (flow : Flow) :
    (m.tracing b).follow length flow = ((m.follow length flow).1.tracing b, (m.follow length flow).2) := by
  cases flow <;> rfl

/-- No instruction sees whether there is a trace. -/
theorem perform_tracing (m : Machine) (b : Bool) (i : Instruction) (h : Heap) :
    ((m.tracing b).perform i h).1 = (m.perform i h).1.tracing b ∧
      ((m.tracing b).perform i h).2.1 = (m.perform i h).2.1 := by
  cases hx : Exec.instruction m.program i (m.frame h) with
  | ok flow f =>
    have hx' : Exec.instruction (m.tracing b).program i ((m.tracing b).frame h) = .ok flow f := hx
    have hcounting : (m.tracing b).counting f = (m.counting f).tracing b := rfl
    rw [perform_of_ok hx, perform_of_ok hx', hcounting, follow_tracing]
    exact ⟨rfl, rfl⟩
  | error c f =>
    have hx' : Exec.instruction (m.tracing b).program i ((m.tracing b).frame h) = .error c f := hx
    rw [perform_of_error hx, perform_of_error hx']
    exact ⟨rfl, rfl⟩

theorem step_tracing (m : Machine) (b : Bool) (h : Heap) :
    ((m.tracing b).step h).1 = (m.step h).1.tracing b ∧ ((m.tracing b).step h).2.1 = (m.step h).2.1 := by
  by_cases hrun : m.status = .running
  · have hrun' : (m.tracing b).status = .running := hrun
    have hprogram : (m.tracing b).program = m.program := rfl
    have hpc : (m.tracing b).pc = m.pc := rfl
    have hstop : (m.tracing b).stopRequested = m.stopRequested := rfl
    have hout : (m.tracing b).outOfBudget = m.outOfBudget := rfl
    simp only [step, hrun, hrun', hprogram, hpc, hstop, hout]
    by_cases hstop : m.stopRequested = true
    · simp only [if_pos hstop]
      exact ⟨rfl, rfl⟩
    by_cases hend : m.pc = m.program.code.size
    · simp only [if_neg hstop, if_pos hend]
      exact ⟨rfl, trivial⟩
    by_cases hbudget : m.outOfBudget = true
    · simp only [if_neg hstop, if_neg hend, if_pos hbudget]
      exact ⟨rfl, rfl⟩
    simp only [if_neg hstop, if_neg hend, if_neg hbudget]
    cases Instruction.decode m.program.code m.pc with
    | ok i => exact perform_tracing m b i h
    | error e => cases e <;> exact ⟨rfl, rfl⟩
  · rw [step_of_ended hrun, step_of_ended (m := m.tracing b) hrun]
    exact ⟨rfl, rfl⟩

/-- A run goes the same way, whatever has been said before. -/
theorem run_tracing (n : Nat) (m : Machine) (b : Bool) (h : Heap) (log log' : Array Log.Line) :
    (run n (m.tracing b) h log).1 = (run n m h log').1.tracing b ∧
      (run n (m.tracing b) h log).2.1 = (run n m h log').2.1 := by
  induction n generalizing m h log log' with
  | zero => exact ⟨rfl, rfl⟩
  | succ n ih =>
    by_cases hrun : m.status = .running
    · obtain ⟨hm, hh⟩ := step_tracing m b h
      rw [run_succ hrun, run_succ (m := m.tracing b) hrun, hm, hh]
      exact ih _ _ _ _
    · rw [run_of_ended hrun, run_of_ended (m := m.tracing b) hrun]
      exact ⟨rfl, rfl⟩

/-! ## What a step says -/

/-- The value that the next step prints, if it carries out a print without a fault: the topmost one. -/
def printed? (m : Machine) (h : Heap) : Option Value :=
  match Instruction.decode m.program.code m.pc with
  | .ok i => if i.op = .print ∧ (m.step h).1.status.kind ≠ .faulted then m.stack.toList.getLast? else none
  | .error _ => none

/-- The line of the listing at the machine's place, and how many values are on its stack. -/
def traceText (m : Machine) : Text :=
  Listing.line m.program.code m.pc ++ ofString "    depth=" ++ decimal m.stack.toList.length

/-- What standard output gets of one counted step, with the trace on or off. -/
def shown (trace : Bool) (x : Machine × Heap) : Text :=
  (if trace then x.1.traceText ++ [byte '\n'] else []) ++
    match x.1.printed? x.2 with
    | some v => ofString v.text ++ [byte '\n']
    | none => []

theorem output_traceLines (m : Machine) :
    Log.output true m.traceLines = if m.settings.trace then m.traceText ++ [byte '\n'] else [] := by
  have hdepth : ofString s!"    depth={m.stack.size}" = ofString "    depth=" ++ decimal m.stack.toList.length := by
    rw [Stack.length_toList]
    exact Text.ofString_append _ _
  unfold traceLines
  split
  · rw [traceLine, hdepth, ← List.append_assoc]
    exact List.append_nil _
  · rfl

/-- Of a fault nothing goes to standard output. -/
theorem output_faultLines (m : Machine) (c : Cause) : Log.output true (m.faultLines c) = [] := by
  unfold faultLines
  split <;> rfl

theorem output_follow (m : Machine) (length : Nat) (flow : Flow) : Log.output true (m.follow length flow).2 =
    match flow with
    | .print v => ofString v.text ++ [byte '\n']
    | _ => [] := by
  cases flow <;> simp [follow, Log.output, Log.info, Log.Line.toOutput]

theorem printed?_of_ok (hi : m.instruction? = some i) {flow : Flow} {f : Frame}
    (hx : Exec.instruction m.program i (m.frame h) = .ok flow f) : m.printed? h =
    match flow with
    | .print v => some v
    | _ => none := by
  obtain ⟨hrun, -, hd⟩ := instruction?_eq_some.mp hi
  have hkind : (m.step h).1.status.kind ≠ .faulted := by
    rw [step_of_instruction? hi, perform_of_ok hx, status_follow, counting, hrun]
    split <;> simp [Status.kind]
  simp only [printed?, hd, hkind, ne_eq, not_false_iff, and_true]
  by_cases hop : i.op = .print
  · obtain ⟨v, rfl⟩ := Exec.eq_print_of_op hop hx
    rw [if_pos hop, ← Stack.peek_zero]
    exact (Exec.instruction_eq_print hx).2
  · rw [if_neg hop]
    cases flow with
    | print v => exact absurd (Exec.instruction_eq_print hx).1 hop
    | next | jump target | halt => rfl

theorem printed?_of_error (hi : m.instruction? = some i) {c : Cause} {f : Frame}
    (hx : Exec.instruction m.program i (m.frame h) = .error c f) : m.printed? h = none := by
  have hkind : (m.step h).1.status.kind = .faulted := by
    rw [step_of_instruction? hi, perform_of_error hx]
    rfl
  unfold printed?
  split
  · rw [if_neg (fun hprints => hprints.2 hkind)]
  · rfl

/-- A step that comes to an instruction counts it and says what is to be said of it. -/
theorem step_counted (hi : m.instruction? = some i) (h : Heap) :
    (m.step h).1.steps = m.steps + 1 ∧ Log.output true (m.step h).2.2 = shown m.settings.trace (m, h) := by
  cases hx : Exec.instruction m.program i (m.frame h) with
  | ok flow f =>
    rw [shown, printed?_of_ok hi hx, step_of_instruction? hi, perform_of_ok hx, Log.output_append, output_traceLines,
      output_follow]
    refine ⟨?_, congrArg _ ?_⟩
    · cases flow <;> rfl
    · cases flow <;> rfl
  | error c f =>
    rw [shown, printed?_of_error hi hx, step_of_instruction? hi, perform_of_error hx, Log.output_append,
      output_traceLines, output_faultLines]
    exact ⟨rfl, rfl⟩

/-- A step that comes to none counts nothing and says nothing, but for a fault. -/
theorem step_uncounted (hi : m.instruction? = none) (h : Heap) :
    (m.step h).1.steps = m.steps ∧ Log.output true (m.step h).2.2 = [] := by
  rcases step_of_no_instruction hi h with hs | hs | ⟨c, hs⟩
  · rw [hs]
    exact ⟨rfl, rfl⟩
  · rw [hs]
    exact ⟨rfl, rfl⟩
  · rw [hs]
    exact ⟨rfl, output_faultLines m c⟩

/-! ## What a run says -/

/-- The machine and the heap as they are before each step that is counted, of the first `n`. -/
def countedSteps : Nat → Machine → Heap → List (Machine × Heap)
  | 0, _, _ => []
  | n + 1, m, h =>
    let rest := countedSteps n (m.step h).1 (m.step h).2.1
    if (m.step h).1.steps = m.steps then rest else (m, h) :: rest

theorem countedSteps_of_some (hi : m.instruction? = some i) (n : Nat) (h : Heap) :
    countedSteps (n + 1) m h = (m, h) :: countedSteps n (m.step h).1 (m.step h).2.1 := by
  have hcounted : (m.step h).1.steps ≠ m.steps := by
    rw [(step_counted hi h).1]
    simp
  rw [countedSteps, if_neg hcounted]

theorem countedSteps_of_none (hi : m.instruction? = none) (n : Nat) (h : Heap) :
    countedSteps (n + 1) m h = countedSteps n (m.step h).1 (m.step h).2.1 := by
  rw [countedSteps, if_pos (step_uncounted hi h).1]

theorem countedSteps_of_ended (hend : m.status ≠ .running) (n : Nat) (h : Heap) : countedSteps n m h = [] := by
  induction n with
  | zero => rfl
  | succ n ih =>
    rw [countedSteps, step_of_ended hend, if_pos rfl]
    exact ih

/-- A run counts its steps one by one, and says of each what is to be said of it. -/
theorem output_run (n : Nat) (m : Machine) (h : Heap) (log : Array Log.Line) :
    (run n m h log).1.steps = m.steps + UInt64.ofNat (countedSteps n m h).length ∧
      Log.output true (run n m h log).2.2.toList =
        Log.output true log.toList ++ (countedSteps n m h).flatMap (shown m.settings.trace) := by
  induction n generalizing m h log with
  | zero => simp [run, countedSteps]
  | succ n ih =>
    by_cases hrun : m.status = .running
    · obtain ⟨hsteps, hout⟩ := ih (m.step h).1 (m.step h).2.1 (log ++ (m.step h).2.2)
      rw [settings_step, Array.toList_appendList, Log.output_append] at hout
      rw [run_succ hrun, hsteps, hout]
      cases hi : m.instruction? with
      | some i =>
        obtain ⟨hone, hsaid⟩ := step_counted hi h
        rw [countedSteps_of_some hi, hone, hsaid, List.length_cons, List.flatMap_cons, List.append_assoc,
          UInt64.ofNat_add, UInt64.add_assoc, UInt64.add_comm 1]
        exact ⟨rfl, rfl⟩
      | none =>
        obtain ⟨hnone, hsilent⟩ := step_uncounted hi h
        rw [countedSteps_of_none hi, hnone, hsilent, List.append_nil]
        exact ⟨rfl, rfl⟩
    · rw [run_of_ended hrun, countedSteps_of_ended hrun]
      simp

/-! ## With the trace on and off -/

theorem countedSteps_tracing (n : Nat) (m : Machine) (b : Bool) (h : Heap) :
    countedSteps n (m.tracing b) h = (countedSteps n m h).map fun x => (x.1.tracing b, x.2) := by
  induction n generalizing m h with
  | zero => rfl
  | succ n ih =>
    obtain ⟨hm, hh⟩ := step_tracing m b h
    have hsame : (m.tracing b).instruction? = m.instruction? := rfl
    cases hi : m.instruction? with
    | some i => rw [countedSteps_of_some hi, countedSteps_of_some (hsame.trans hi), hm, hh, ih, List.map_cons]
    | none => rw [countedSteps_of_none hi, countedSteps_of_none (hsame.trans hi), hm, hh, ih]

/-- What is said of a step does not depend on whether it is said. -/
theorem shown_tracing (m : Machine) (b trace : Bool) (h : Heap) : shown trace (m.tracing b, h) = shown trace (m, h) := by
  have htext : (m.tracing b).traceText = m.traceText := rfl
  have hprinted : (m.tracing b).printed? h = m.printed? h := by
    rw [printed?, (step_tracing m b h).1]
    rfl
  rw [shown, shown, htext, hprinted]

theorem output_run_tracing (n : Nat) (m : Machine) (trace verbose : Bool) (h : Heap) :
    Log.output verbose (run n (m.tracing trace) h #[]).2.2.toList =
      if verbose then (countedSteps n m h).flatMap (shown trace) else [] := by
  cases verbose with
  | false => rfl
  | true =>
    have hout := (output_run n (m.tracing trace) h #[]).2
    rw [countedSteps_tracing, List.flatMap_map] at hout
    simp only [shown_tracing] at hout
    exact hout

/-- A new machine is the same with the trace on and off, and says nothing on standard output. -/
theorem create_tracing {p : Program} {s : Settings} {log : List Log.Line} (hm : create p s = .ok (m, log))
    (trace verbose : Bool) : ∃ log', create p { s with trace := trace } = .ok (m.tracing trace, log') ∧
      Log.output verbose log' = [] := by
  obtain ⟨hcap, heq⟩ := create_eq_ok.mp hm
  have hstart : (start p { s with trace := trace } (.empty s.stackCapacity)).1 = m.tracing trace ∧
      Log.output verbose (start p { s with trace := trace } (.empty s.stackCapacity)).2 = [] := by
    unfold start at heq ⊢
    split at heq
    · next hpast =>
      cases heq
      rw [if_pos hpast]
      refine ⟨rfl, ?_⟩
      cases verbose with
      | false => rfl
      | true => exact output_faultLines _ _
    · next hentry =>
      cases heq
      rw [if_neg hentry]
      exact ⟨rfl, by cases verbose <;> rfl⟩
  refine ⟨_, create_eq_ok.mpr ⟨hcap, ?_⟩, hstart.2⟩
  rw [← hstart.1]

/-- A run of at most `n` steps, with the trace on or off, on a context that is verbose or silent: the machine, the heap
and what standard output gets. -/
def runOn (trace verbose : Bool) (n : Nat) (m : Machine) (h : Heap) : Machine × Heap × Text :=
  let out := run n (m.tracing trace) h #[]
  (out.1, out.2.1, Log.output verbose out.2.2.toList)

/-- A run with a trace or a verbose context does with the machine and the heap what a run without does, step for step,
and starts from the same new machine. A verbose context gets, for each step that is counted, one line of trace, if there
is a trace, and right behind it what the step has printed, if it has. A silent one gets nothing. -/
theorem tracing_observes (m : Machine) (h : Heap) (n : Nat) (trace verbose : Bool) :
    let silent := runOn false false n m h
    let seen := runOn trace verbose n m h
    seen.1 = silent.1.tracing trace ∧ seen.1.report = silent.1.report ∧ seen.2.1 = silent.2.1 ∧
    seen.2.2 = (if verbose then (countedSteps n m h).flatMap (shown trace) else []) ∧
    seen.1.steps = m.steps + UInt64.ofNat (countedSteps n m h).length ∧
    ∀ p s m₀ log, create p s = .ok (m₀, log) → ∃ log',
      create p { s with trace := trace } = .ok (m₀.tracing trace, log') ∧ Log.output verbose log' = [] := by
  intro silent seen
  obtain ⟨hsilent, hheap⟩ := run_tracing n m false h #[] #[]
  obtain ⟨hseen, hheap'⟩ := run_tracing n m trace h #[] #[]
  have hsame : seen.1 = silent.1.tracing trace := by
    show (run n (m.tracing trace) h #[]).1 = (run n (m.tracing false) h #[]).1.tracing trace
    rw [hsilent, hseen]
    rfl
  refine ⟨hsame, ?_, hheap'.trans hheap.symm, output_run_tracing n m trace verbose h, ?_,
    fun p s m₀ log hm => create_tracing hm trace verbose⟩
  · rw [hsame]
    rfl
  · show (run n (m.tracing trace) h #[]).1.steps = _
    rw [hseen]
    exact (output_run n m h #[]).1

/-- A value is printed and dropped, and the next instruction finds none. -/
theorem tracing_observes_print :
    let p : Program := ⟨#[0x10, 0, 0x40, 0x13, 0x13], 0, #[.raw 7], #[]⟩
    let m := ready p ⟨2, 100, false⟩ (.empty 2)
    let h := Heap.build ⟨[1], 1⟩
    let said := ["0000 push_a              0    depth=0", "0002 print    depth=1", "Raw(7)",
      "0003 pop    depth=1", "0004 pop    depth=0"]
    create p ⟨2, 100, false⟩ = .ok (m, []) ∧
      (∃ log, create p ⟨2, 100, true⟩ = .ok (m.tracing true, log) ∧ Log.output true log = []) ∧
      (runOn true true 9 m h).2.2 = said.flatMap (fun s => ofString s ++ [byte '\n']) ∧
      (runOn true true 9 m h).1.report = (runOn false false 9 m h).1.report ∧
      (runOn false false 9 m h).1.report.fault = .stackUnderflow := by
  intro p m h said
  have hcreate : create p ⟨2, 100, false⟩ = .ok (m, []) := rfl
  obtain ⟨-, hreport, -, hout, -, hnew⟩ := tracing_observes m h 9 true true
  refine ⟨hcreate, hnew p _ m [] hcreate, hout.trans ?_, hreport, ?_⟩
  · decide +kernel
  · decide +kernel

end Machine

end StackVM
