/-
  StackVM.Proofs.Machine.Extension — a program with more code behind its own.

  Code that is put behind a program is out of its sight until execution gets to the end of the program's own code. An
  instruction is decoded from its own bytes alone; a jump that does not lead past the end of the shorter code does not
  lead past the end of the longer one; and a machine that stands at the end of the shorter code halts there, so as long
  as it runs on it has not been there. Once it is there, the longer program goes on with what has been put behind.

  - `Instruction.decode_append`, `Instruction.decode_behind`: what is decoded in front of the seam and behind it.
  - `Exec.instruction_extend`: an instruction that succeeds does the same in the longer program.
  - `step_extend`, `run_extend`: so do a step and a run, as long as the machine runs on.
  - `run_extended`: a run, from the start to the end of the shorter code.
-/

import StackVM.Proofs.Code.Reading
import StackVM.Proofs.Machine.Budget

namespace StackVM

/-! ## Code in two parts -/

theorem LittleEndian.read_behind (code more : Bytes) (offset width : Nat) :
    read (code ++ more) (code.size + offset) width = read more offset width := by
  induction width generalizing offset with
  | zero => rfl
  | succ width ih =>
    have hbyte : (code ++ more).getD (code.size + offset) 0 = more.getD offset 0 := by
      rw [Array.getD_eq_getD_getElem?, Array.getD_eq_getD_getElem?, Array.getElem?_append_right (Nat.le_add_right _ _),
        Nat.add_sub_cancel_left]
    rw [read, read, hbyte, Nat.add_assoc, ih]

namespace Instruction

variable {code : Bytes} {offset : Nat} {i : Instruction}

/-- An instruction is decoded from its own bytes, whatever comes after them. -/
theorem decode_append (hd : decode code offset = .ok i) (more : Bytes) : decode (code ++ more) offset = .ok i := by
  have hlt : offset < code.size := (Array.getElem?_eq_some_iff.mp (decode_eq_ok hd).1).1
  have hlength : (code.toList.take offset).length = offset := by
    rw [List.length_take, Array.length_toList]
    omega
  have hsplit : code.toList = code.toList.take offset ++ code.toList.drop offset := (List.take_append_drop _ _).symm
  rw [← hlength] at hd
  obtain ⟨hfits, after, hafter⟩ := (decode_eq_ok_iff hsplit).mp hd
  have hmore : (code ++ more).toList = code.toList.take offset ++ (i.bytes ++ (after ++ more.toList)) := by
    rw [Array.toList_append, ← List.append_assoc i.bytes, ← hafter, ← List.append_assoc, List.take_append_drop]
  rw [← hlength]
  exact (decode_eq_ok_iff hmore).mpr ⟨hfits, _, rfl⟩

/-- Behind the seam is found what the second part begins with. -/
theorem decode_behind (code more : Bytes) (offset : Nat) :
    decode (code ++ more) (code.size + offset) = decode more offset := by
  unfold decode
  by_cases hlt : offset < more.size
  · have hlt' : code.size + offset < (code ++ more).size := by rw [Array.size_append]; omega
    have hbyte : (code ++ more)[code.size + offset] = more[offset] := by
      rw [Array.getElem_append_right (Nat.le_add_right _ _)]
      simp only [Nat.add_sub_cancel_left]
    have hroom : (code ++ more).size - (code.size + offset) - 1 = more.size - offset - 1 := by
      rw [Array.size_append]
      omega
    simp only [dif_pos hlt, dif_pos hlt', hbyte, hroom, Nat.add_assoc, LittleEndian.read_behind]
  · have hge : ¬ code.size + offset < (code ++ more).size := by rw [Array.size_append]; omega
    rw [dif_neg hlt, dif_neg hge]

end Instruction

/-! ## Longer programs -/

/-- The program with more code behind its own. -/
def Program.extend (p : Program) (more : Bytes) : Program := { p with code := p.code ++ more }

namespace Exec

variable {p : Program} {f f' : Frame} {flow : Flow}

/-- A jump within the shorter code is one within the longer code. -/
theorem jump_extend {target : UInt64} (hx : jump p target f = .ok flow f') (more : Bytes) :
    jump (p.extend more) target f = .ok flow f' := by
  unfold jump at hx ⊢
  split at hx
  next => cases hx
  next hle =>
    have hle' : ¬ (p.extend more).code.size < target.toNat := by
      rw [Program.extend, Array.size_append]
      omega
    rw [if_neg hle']
    exact hx

theorem jumpIf_extend {taken : UInt64 → Bool} {target : UInt64} (hx : jumpIf p taken target f = .ok flow f')
    (more : Bytes) : jumpIf (p.extend more) taken target f = .ok flow f' := by
  unfold jumpIf at hx ⊢
  cases hpop : popRaw f with
  | error c g => rw [bind_of_error hpop] at hx; cases hx
  | ok condition g =>
    rw [bind_of_ok hpop] at hx ⊢
    cases htaken : taken condition with
    | true =>
      rw [htaken] at hx
      exact jump_extend hx more
    | false =>
      rw [htaken] at hx
      exact hx

/-- An instruction that succeeds does the same in the longer program. -/
theorem instruction_extend {i : Instruction} (hx : instruction p i f = .ok flow f') (more : Bytes) :
    instruction (p.extend more) i f = .ok flow f' := by
  rcases i with ⟨op, operand⟩
  cases op with
  | jump => exact jump_extend hx more
  | jumpIfZero | jumpIfNotZero => exact jumpIf_extend hx more
  | pushInput side => cases side <;> exact hx
  | _ => exact hx

end Exec

namespace Machine

/-- The machine, where it stands, with more code behind its program's own. -/
def extend (m : Machine) (more : Bytes) : Machine := { m with program := m.program.extend more }

variable {m : Machine} {h : Heap} {n : Nat}

theorem follow_extend (m : Machine) (more : Bytes) (length : Nat) (flow : Flow) :
    (m.extend more).follow length flow = ((m.follow length flow).1.extend more, (m.follow length flow).2) := by
  cases flow <;> rfl

theorem instruction?_extend {i : Instruction} (hi : m.instruction? = some i) (more : Bytes) :
    (m.extend more).instruction? = some i := by
  obtain ⟨hrun, hgo, hd⟩ := instruction?_eq_some.mp hi
  have hlt : m.pc < m.program.code.size := (Array.getElem?_eq_some_iff.mp (Instruction.decode_eq_ok hd).1).1
  refine instruction?_eq_some.mpr ⟨hrun, ?_, Instruction.decode_append hd more⟩
  rintro (hstop | hend | hbudget)
  · exact hgo (.inl hstop)
  · have hsize : (m.extend more).program.code.size = m.program.code.size + more.size := Array.size_append
    have hpc : (m.extend more).pc = m.pc := rfl
    omega
  · exact hgo (.inr (.inr hbudget))

/-- A trace shows the instruction and nothing of what comes after it. -/
theorem traceLines_extend {i : Instruction} (hi : m.instruction? = some i) (more : Bytes) :
    (m.extend more).traceLines = m.traceLines := by
  obtain ⟨-, -, hd⟩ := instruction?_eq_some.mp hi
  have hline : Listing.line (m.program.code ++ more) m.pc = Listing.line m.program.code m.pc := by
    rw [Listing.line, Listing.line, hd, Instruction.decode_append hd more]
  have htrace : (m.extend more).traceLine = m.traceLine := by
    rw [traceLine, traceLine, ← hline]
    rfl
  rw [traceLines, traceLines, htrace]
  rfl

/-! ## Steps and runs -/

/-- A step after which the machine runs on is the same step in the longer program. -/
theorem step_extend (hrun : (m.step h).1.status = .running) (more : Bytes) :
    (m.extend more).step h = ((m.step h).1.extend more, (m.step h).2) := by
  obtain ⟨i, flow, f, hi, hx⟩ := performed_of_running hrun
  have hx' : Exec.instruction (m.extend more).program i ((m.extend more).frame h) = .ok flow f :=
    Exec.instruction_extend hx more
  have hcounting : (m.extend more).counting f = (m.counting f).extend more := rfl
  rw [step_of_instruction? hi, step_of_instruction? (instruction?_extend hi more), perform_of_ok hx, perform_of_ok hx',
    traceLines_extend hi more, hcounting, follow_extend]

theorem running_of_run {log : Array Log.Line} (hrun : (run n m h log).1.status = .running) : m.status = .running := by
  by_cases hgoes : m.status = .running
  · exact hgoes
  · rw [run_of_ended hgoes] at hrun
    exact hrun

/-- A machine that runs after some steps has been running all along. -/
theorem running_of_le {log : Array Log.Line} (hrun : (run n m h log).1.status = .running) {k : Nat} (hk : k ≤ n) :
    (run k m h log).1.status = .running := by
  obtain ⟨j, rfl⟩ := Nat.exists_eq_add_of_le hk
  rw [run_add] at hrun
  exact running_of_run hrun

theorem run_extend {log : Array Log.Line} (hrun : (run n m h log).1.status = .running) (more : Bytes) :
    run n (m.extend more) h log = ((run n m h log).1.extend more, (run n m h log).2) := by
  induction n generalizing m h log with
  | zero => rfl
  | succ n ih =>
    have hgoes := running_of_run hrun
    rw [run_succ hgoes] at hrun ⊢
    rw [run_succ (m := m.extend more) hgoes, step_extend (running_of_run hrun)]
    exact ih hrun

/-- The start does not look at the code but for its size, and an entry within the shorter code is one within the
longer code. -/
theorem create_extend {p : Program} {s : Settings} {log : List Log.Line} (hm : create p s = .ok (m, log))
    (hrun : m.status = .running) (more : Bytes) : create (p.extend more) s = .ok (m.extend more, log) := by
  obtain ⟨hcap, heq⟩ := create_eq_ok.mp hm
  have hentry : p.entry ≤ p.code.size := (orderly_of_create hm).entry_le hrun
  have hentry' : (p.extend more).entry ≤ (p.extend more).code.size := by
    show p.entry ≤ (p.code ++ more).size
    rw [Array.size_append]
    omega
  rw [start_of_le hentry] at heq
  cases heq
  exact create_eq_ok.mpr ⟨hcap, (start_of_le hentry').symm⟩

/-- As long as a machine runs on, it makes no difference to it what is put behind its code: after each of its steps the
machine with the longer code stands where it does, with the same stack, register and count of steps, on the same heap,
and has printed and traced the same. If it has come to the end of the shorter code, so has the machine with the longer
code, which goes on with what has been put there. -/
theorem run_extended {p : Program} {s : Settings} {m₀ : Machine} {log : List Log.Line}
    (hm : create p s = .ok (m₀, log)) (h : Heap) {n : Nat} (hrun : (run n m₀ h log.toArray).1.status = .running)
    (more : Bytes) :
    ∃ m₁, create { p with code := p.code ++ more } s = .ok (m₁, log) ∧
      (∀ k ≤ n,
        let u := run k m₀ h log.toArray
        let v := run k m₁ h log.toArray
        u.1.status = .running ∧ v.1.status = .running ∧ v.1.program.code = p.code ++ more ∧ v.1.pc = u.1.pc ∧
          v.1.stack = u.1.stack ∧ v.1.r = u.1.r ∧ v.1.steps = u.1.steps ∧ v.2.1 = u.2.1 ∧ v.2.2 = u.2.2) ∧
      ((run n m₀ h log.toArray).1.pc = p.code.size →
        let m' := (run n m₁ h log.toArray).1
        m'.pc = p.code.size ∧ ∀ o, Instruction.decode m'.program.code (m'.pc + o) = Instruction.decode more o) := by
  have hsame (k : Nat) (hk : k ≤ n) : (run k m₀ h log.toArray).1.program = p ∧
      run k (m₀.extend more) h log.toArray =
        ((run k m₀ h log.toArray).1.extend more, (run k m₀ h log.toArray).2) := by
    refine ⟨?_, run_extend (running_of_le hrun hk) more⟩
    rw [((Later.refl (m := m₀)).run h log.toArray).program]
    exact (orderly_of_create hm).program
  refine ⟨m₀.extend more, create_extend hm (running_of_run hrun) more, fun k hk => ?_, fun hend => ?_⟩
  · obtain ⟨hprogram, hextend⟩ := hsame k hk
    have hrunning := running_of_le hrun hk
    rw [hextend]
    exact ⟨hrunning, hrunning, congrArg (fun q : Program => q.code ++ more) hprogram, rfl, rfl, rfl, rfl, rfl, rfl⟩
  · obtain ⟨hprogram, hextend⟩ := hsame n (Nat.le_refl n)
    rw [hextend]
    refine ⟨hend, fun o => ?_⟩
    show Instruction.decode ((run n m₀ h log.toArray).1.program.code ++ more) ((run n m₀ h log.toArray).1.pc + o) = _
    rw [hprogram, hend]
    exact Instruction.decode_behind p.code more o

/-- A program that prints its input and jumps to its end, and after that what takes the input off the stack again. -/
theorem run_extended_printer :
    let h := Heap.build ⟨[1], 1⟩
    let p : Program := ⟨#[0x10, 0, 0x40, 0x08, 8, 0, 0, 0], 0, #[.raw 7], #[]⟩
    let s : Settings := ⟨1, 0, true⟩
    let more : Bytes := #[0x13]
    ∃ m₀ m₁, create p s = .ok (m₀, []) ∧ (run 3 m₀ h #[]).1.status = .running ∧ (run 3 m₀ h #[]).1.pc = p.code.size ∧
      create { p with code := p.code ++ more } s = .ok (m₁, []) ∧ (run 3 m₁ h #[]).1.status = .running ∧
      (run 3 m₁ h #[]).1.pc = p.code.size ∧ (run 3 m₁ h #[]).1.stack.toList = [.raw 7] ∧
      (run 3 m₁ h #[]).2.2 = (run 3 m₀ h #[]).2.2 ∧ (run 3 m₁ h #[]).2.2.size = 4 ∧
      Instruction.decode (run 3 m₁ h #[]).1.program.code p.code.size = .ok ⟨.pop, 0⟩ := by
  intro h p s more
  have hcreate : create p s = .ok (ready p s (.empty 1), []) := rfl
  have hrun : (run 3 (ready p s (.empty 1)) h #[]).1.status = .running := by decide +kernel
  have hend : (run 3 (ready p s (.empty 1)) h #[]).1.pc = p.code.size := by decide +kernel
  have hstack : (run 3 (ready p s (.empty 1)) h #[]).1.stack.toList = [.raw 7] := by decide +kernel
  have hlines : (run 3 (ready p s (.empty 1)) h #[]).2.2.size = 4 := by decide +kernel
  obtain ⟨m₁, hcreate₁, hsame, hbehind⟩ := run_extended hcreate h hrun more
  obtain ⟨-, hrun₁, -, -, hstack₁, -, -, -, hsaid⟩ := hsame 3 (Nat.le_refl 3)
  obtain ⟨hend₁, hdecode⟩ := hbehind hend
  have hpop := hdecode 0
  rw [hend₁] at hpop
  exact ⟨_, m₁, hcreate, hrun, hend, hcreate₁, hrun₁, hend₁, (congrArg Stack.toList hstack₁).trans hstack, hsaid,
    (congrArg Array.size hsaid).trans hlines, hpop⟩

end Machine

end StackVM
