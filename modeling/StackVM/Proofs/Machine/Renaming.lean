/-
  StackVM.Proofs.Machine.Renaming — machines that differ in where their objects lie.

  A renaming of the object table's indices is applied to a machine by applying it to every reference on the stack, in
  the register and among the inputs. Programs cannot look into references, so a machine does the same before and
  after: each of its steps on the renamed heap leaves the renamed machine and the renamed heap. Only texts can tell
  the difference, those that are printed or traced and the message of a fault, since they may show an index.

  - `Renamed`: two machines of which one is the other renamed, up to messages.
  - `Renamed.step`, `Renamed.run`: they stay so.
  - `step_renamed`: all together.
-/

import StackVM.Proofs.Heap.Renaming
import StackVM.Proofs.Machine.Handles
import StackVM.Proofs.Machine.LifeCycle

namespace StackVM

section

variable (p : Equiv.Perm UInt32)

def Stack.rename (s : Stack) : Stack := ⟨s.cells.map (Value.rename p), s.top, by simpa using s.top_le⟩

def Program.rename (q : Program) : Program :=
  { q with a := q.a.map (Value.rename p), b := q.b.map (Value.rename p) }

namespace Machine

def rename (m : Machine) : Machine :=
  { m with program := m.program.rename p, stack := m.stack.rename p, r := m.r.rename p }

/-- The second machine is the first with its references renamed, whatever the message of a fault says. -/
structure Renamed (m m' : Machine) : Prop where
  code : m'.program.code = m.program.code
  entry : m'.program.entry = m.program.entry
  inputs : ∀ side, m'.program.inputs side = (m.program.inputs side).map (Value.rename p)
  settings : m'.settings = m.settings
  capacity : m'.stack.capacity = m.stack.capacity
  stack : m'.stack.toList = m.stack.toList.map (Value.rename p)
  r : m'.r = m.r.rename p
  pc : m'.pc = m.pc
  steps : m'.steps = m.steps
  state : m'.status.kind = m.status.kind
  fault : m'.status.fault = m.status.fault
  offset : m'.offset = m.offset
  stopRequested : m'.stopRequested = m.stopRequested

end Machine

/-- What links a handle to its new name. -/
def Handle.Renames (x y : Handle) : Prop := y = x.rename p

end

variable {p : Equiv.Perm UInt32}

/-! ## Linked by a renaming -/

theorem Value.linked_renames_iff {v w : Value} : v.Linked (Handle.Renames p) w ↔ w = v.rename p := by
  constructor
  · rintro (_ | hxy)
    · rfl
    · exact congrArg Value.ref hxy
  · rintro rfl
    cases v with
    | raw bits => exact .raw bits
    | ref x => exact .ref rfl

theorem forall₂_linked_renames_iff {l l' : List Value} :
    List.Forall₂ (Value.Linked (Handle.Renames p)) l l' ↔ l' = l.map (Value.rename p) := by
  have hlink : Value.Linked (Handle.Renames p) = fun v w => v.rename p = w := by
    funext v w
    exact propext (Value.linked_renames_iff.trans eq_comm)
  rw [hlink, ← List.forall₂_map_left_iff, List.forall₂_eq_eq_eq, eq_comm]

theorem Heap.Call.Linked.eq_rename {a a' : Heap.Call} (hl : a.Linked (Handle.Renames p) a') : a' = a.rename p := by
  cases hl with
  | allocate n => rfl
  | read _ hxy | sizeOf hxy | retain hxy | release hxy => rw [hxy]; rfl
  | write _ hxy hv => rw [hxy, Value.linked_renames_iff.mp hv]; rfl

theorem Heap.alike_rename (r : Except HeapError Heap.Answer) :
    Heap.Alike (Handle.Renames p) r ((r.map (Heap.Answer.rename p)).mapError (HeapError.rename p)) := by
  cases r with
  | error e =>
    refine .error ?_
    cases e with
    | stale x => exact .stale rfl
    | _ => exact .same _
  | ok answer =>
    refine .ok ?_
    cases answer with
    | handle x => exact .handle rfl
    | value v => exact .value (Value.linked_renames_iff.mpr rfl)
    | size n => exact .size n
    | done => exact .done
    | gone yes => exact .gone yes
    | count n => exact .count n

theorem Cause.Linked.fault {link : Handle → Handle → Prop} {c c' : Cause} (hl : c.Linked link c') :
    c'.fault = c.fault := by
  cases hl with
  | heap he => cases he <;> rfl
  | _ => rfl

namespace Machine

variable {m m' : Machine} {h : Heap}

theorem Renamed.linked (hm : m.Renamed p m') (hrun : m.status = .running) : m.Linked (Handle.Renames p) m' where
  program := by
    refine ⟨hm.code, hm.entry, fun side => forall₂_linked_renames_iff.mpr ?_⟩
    rw [hm.inputs side, Array.toList_map]
  settings := hm.settings
  stack := by
    refine ⟨hm.capacity, forall₂_linked_renames_iff.mpr ?_⟩
    rw [hm.stack, List.map_reverse]
  r := Value.linked_renames_iff.mpr hm.r
  pc := hm.pc
  steps := hm.steps
  status := by
    have hrun' : m'.status = .running := Status.kind_eq_running_iff.mp (by rw [hm.state, hrun]; rfl)
    rw [hrun, hrun']
    exact .running
  offset := hm.offset
  stopRequested := hm.stopRequested

theorem Linked.renamed (hm : m.Linked (Handle.Renames p) m') : m.Renamed p m' where
  code := hm.program.code
  entry := hm.program.entry
  inputs side := by
    have hinputs := forall₂_linked_renames_iff.mp (hm.program.inputs side)
    rw [← Array.toList_map] at hinputs
    exact Array.toList_inj.mp hinputs
  settings := hm.settings
  capacity := hm.stack.capacity
  stack := by
    have hvalues := forall₂_linked_renames_iff.mp hm.stack.values
    rw [List.map_reverse] at hvalues
    exact List.reverse_inj.mp hvalues
  r := Value.linked_renames_iff.mp hm.r
  pc := hm.pc
  steps := hm.steps
  state := by
    have hst := hm.status
    generalize m.status = st at hst
    generalize m'.status = st' at hst
    cases hst <;> rfl
  fault := by
    have hst := hm.status
    generalize m.status = st at hst
    generalize m'.status = st' at hst
    cases hst with
    | running | halted => rfl
    | faulted hc => exact hc.fault
  offset := hm.offset
  stopRequested := hm.stopRequested

theorem renamed_rename (m : Machine) : m.Renamed p (m.rename p) where
  code := rfl
  entry := rfl
  inputs side := by cases side <;> rfl
  settings := rfl
  capacity := by simp [rename, Stack.rename, Stack.capacity]
  stack := by simp [rename, Stack.rename, Stack.toList_eq_take]
  r := rfl
  pc := rfl
  steps := rfl
  state := rfl
  fault := rfl
  offset := rfl
  stopRequested := rfl

/-! ## Steps -/

/-- The renamed machine makes the renamed call. -/
theorem Renamed.heapCall? (hm : m.Renamed p m') (hrun : m.status = .running) :
    m'.heapCall? = m.heapCall?.map (Heap.Call.rename p) := by
  rcases (hm.linked hrun).heapCall? with ⟨ha, ha'⟩ | ⟨a, a', ha, ha', hl⟩
  · rw [ha, ha']
    rfl
  · rw [ha, ha', hl.eq_rename]
    rfl

theorem Renamed.step (hm : m.Renamed p m') (hp : h.Renaming p) :
    (m.step h).1.Renamed p (m'.step (h.rename p)).1 ∧ (m'.step (h.rename p)).2.1 = (m.step h).2.1.rename p := by
  by_cases hrun : m.status = .running
  · constructor
    · refine ((hm.linked hrun).step fun a a' _ _ hl => ?_).machine.renamed
      rw [hl.eq_rename, hp.answer_rename]
      exact Heap.alike_rename _
    · rw [heap_step, heap_step, hm.heapCall? hrun]
      cases m.heapCall? with
      | none => rfl
      | some a => exact hp.after_rename a
  · have hrun' : m'.status ≠ .running := by
      rw [Ne, ← Status.kind_eq_running_iff, hm.state, Status.kind_eq_running_iff]
      exact hrun
    rw [step_of_ended hrun, step_of_ended hrun']
    exact ⟨hm, rfl⟩

/-- A step leaves a heap of which the permutation still is a renaming. -/
theorem renaming_step (hp : h.Renaming p) (m : Machine) : (m.step h).2.1.Renaming p := by
  rw [heap_step]
  cases m.heapCall? with
  | none => exact hp
  | some a => exact hp.after a

theorem Renamed.isRunning (hm : m.Renamed p m') : m'.isRunning = m.isRunning := by
  rw [isRunning_eq, isRunning_eq, hm.state]

theorem Renamed.run (hm : m.Renamed p m') (hp : h.Renaming p) (n : Nat) (log log' : Array Log.Line) :
    (run n m h log).1.Renamed p (run n m' (h.rename p) log').1 ∧
      (run n m' (h.rename p) log').2.1 = (run n m h log).2.1.rename p := by
  induction n generalizing m m' h log log' with
  | zero => exact ⟨hm, rfl⟩
  | succ n ih =>
    rw [Machine.run, Machine.run, hm.isRunning]
    split
    · obtain ⟨hmachine, hheap⟩ := hm.step hp
      simp only [hheap]
      exact ih hmachine (renaming_step hp m) _ _
    · exact ⟨hm, rfl⟩

/-- A permutation of the indices that keeps to the table and to the windows of the classes makes a sound heap of a
sound one, and no machine notices it: a step of the renamed machine on the renamed heap leaves the renamed machine and
the renamed heap of the step, and so does any number of steps. -/
theorem step_renamed (hp : h.Renaming p) :
    (∀ c, Heap.Sound c h → Heap.Sound c (h.rename p)) ∧
    (∀ m : Machine, m.Renamed p (m.rename p)) ∧
    ∀ m m' : Machine, m.Renamed p m' →
      ((m.step h).1.Renamed p (m'.step (h.rename p)).1 ∧
        (m'.step (h.rename p)).2.1 = (m.step h).2.1.rename p) ∧
      ∀ n log log', (Machine.run n m h log).1.Renamed p (Machine.run n m' (h.rename p) log').1 ∧
        (Machine.run n m' (h.rename p) log').2.1 = (Machine.run n m h log).2.1.rename p :=
  ⟨fun _ hs => hs.rename hp, renamed_rename, fun _ _ hm => ⟨hm.step hp, hm.run hp⟩⟩

/-- A machine that allocates an object gets another index when the two of its class have been exchanged. -/
theorem step_renamed_alloc :
    let p : Equiv.Perm UInt32 := Equiv.swap 0 1
    let c : Heap.Config := ⟨[1], 2⟩
    let h := Heap.build c
    let m := ready ⟨#[0x30, 0x00], 0, #[], #[]⟩ {} (Stack.empty 1)
    h.Renaming p ∧ Heap.Sound c (h.rename p) ∧ (m.step h).1.stack.toList = [.ref ⟨0, 0⟩] ∧
      ((m.rename p).step (h.rename p)).1.stack.toList = [.ref ⟨1, 0⟩] := by
  intro p c h m
  have hp : h.Renaming p := Heap.renaming_swap (by decide) (by decide) fun n => by
    simp only [Heap.window, List.mem_range'_1, show h.capacity = 2 from rfl]
    have hzero : UInt32.toNat 0 = 0 := rfl
    have hone : UInt32.toNat 1 = 1 := rfl
    omega
  obtain ⟨hsound, hrename, hstep⟩ := step_renamed hp
  have hfirst : (m.step h).1.stack.toList = [.ref ⟨0, 0⟩] := by decide +kernel
  have hrenamed := (hstep m _ (hrename m)).1.1.stack
  rw [hfirst] at hrenamed
  have hc : c.check = .ok () := by cbv
  exact ⟨hp, hsound c (Heap.sound_build hc), hfirst, hrenamed⟩

end Machine

end StackVM
