/-
  StackVM.Proofs.Shared.Contents — what a read gives, over whole runs.

  A slot can be read through the handle, through a guard, or by a machine's `prop`. Whichever it is and whoever
  else has been at work, what comes back is what the history of the run says was last written.

  - `Fit.recalls_run`: the table agrees with the history all through a run.
  - `Machine.prop_step`: what a machine's `prop` leaves on its stack.
  - `slots_run`: every read after every run on a new heap.
-/

import StackVM.Proofs.Heap.Contents
import StackVM.Proofs.Shared.Basic

namespace StackVM

/-! ## Reading by a machine -/

theorem Exec.prop_of_read {f : Frame} {x : Handle} {k : Nat} {v : Value} {l : List Value}
    (hl : f.stack.toList = l ++ [.ref x]) (hv : Heap.readSlot x k f.heap = .ok v f.heap) :
    ∃ s, prop k f = .ok () ⟨s, f.r, f.heap⟩ ∧ s.toList = l ++ [v] := by
  have hroom := Stack.room_pop hl
  refine ⟨(f.stack.pop.2.push v).2, ?_, ?_⟩
  · have hx := Stack.reference?_eq_some.mpr (Stack.peek_of_toList hl)
    have hread : onHeap (Cause.ofHandleUse x) (Heap.readSlot x k) ⟨f.stack.pop.2, f.r, f.heap⟩ =
        .ok v ⟨f.stack.pop.2, f.r, f.heap⟩ := by
      simp [onHeap, hv]
    unfold prop
    rw [bind_of_ok (popReference_of_reference? hx), bind_of_ok hread]
    exact push_of_room hroom v
  · rw [(Stack.push_of_lt hroom).2, (Stack.pop_of_toList hl).2]

/-- A machine whose next instruction is `prop` puts what it reads in the place of the reference. -/
theorem Machine.prop_step {m : Machine} {i : Instruction} {h : Heap} {x : Handle} {v : Value} {l : List Value}
    (hi : m.instruction? = some i) (hop : i.op = .prop) (hl : m.stack.toList = l ++ [.ref x])
    (hv : Heap.readSlot x i.operand.toNat h = .ok v h) : (m.step h).1.stack.toList = l ++ [v] := by
  rw [step_of_instruction? hi]
  rcases m with ⟨program, settings, stack, r, pc, steps, status, offset, stopRequested⟩
  obtain ⟨s, hs, hlist⟩ := Exec.prop_of_read (f := ⟨stack, r, h⟩) hl hv
  have hx : Exec.instruction program i ⟨stack, r, h⟩ = .ok .next ⟨s, r, h⟩ := by
    simp only [Exec.instruction, hop, Exec.andNext]
    rw [Exec.bind_of_ok hs]
    rfl
  simp only [perform, hx, follow]
  exact hlist

/-! ## Over whole runs -/

namespace Shared

open Heap

variable {c : Heap.Config} {s : Shared}

theorem Fit.recalls_act (hs : Fit c s) {es : List Event} (hr : Recalls es s.heap) (o : Op) :
    Recalls (es ++ (s.event o).toList) (s.act o).heap := by
  have hm := hs.move o
  generalize s.act o = s' at hm
  generalize s.event o = e at hm
  cases hm with
  | change ms hc => exact hr.change hs.sound hc
  | enter | leave => rw [Option.toList_none, List.append_nil]; exact hr

theorem Fit.recalls_run (hs : Fit c s) {es : List Event} (hr : Recalls es s.heap) (os : List Op) :
    Recalls (es ++ s.history os) (s.run os).heap := by
  induction os generalizing s es with
  | nil => rw [history, List.append_nil]; exact hr
  | cons o os ih =>
    rw [history, ← List.append_assoc]
    exact ih (hs.act o) (hs.recalls_act hr o)

/-- On a new heap there is nothing to recall. -/
theorem recalls_build {c : Heap.Config} (hc : c.check = .ok ()) : Recalls [] (build c) := by
  intro x hx
  have hl := liveAt_of_isValid hx
  rw [liveAt_build (Config.bounds_of_check hc).2.1] at hl
  cases hl

/-- An operation that does not write to a slot leaves it as it is. -/
theorem Fit.slot_act (hs : Fit c s) (o : Op) {x : Handle} (hx : s.heap.isValid x = true)
    (hx' : (s.act o).heap.isValid x = true) {k : Nat} (hno : ∀ v, s.event o ≠ some (.wrote x k v)) :
    ((s.act o).heap.slotsAt x.index)[k]? = (s.heap.slotsAt x.index)[k]? := by
  have hm := hs.move o
  generalize s.act o = s' at hm hx'
  generalize s.event o = e at hm hno
  cases hm with
  | enter | leave => rfl
  | change ms hc =>
    rcases hc.slots hs.sound hx' with ⟨rfl, -⟩ | ⟨-, j, v, rfl, hsl⟩ | ⟨-, -, -, hsl⟩
    · exact absurd hc (hs.sound.not_made hx)
    · have hne : j ≠ k := fun e => hno v (by rw [e])
      rw [hsl, Array.getElem?_setIfInBounds, if_neg hne]
    · rw [hsl]

/-- Every read of a slot gives what was last written to it since the object was made, and what is not a write to
a slot leaves it as it is. -/
theorem slots_run {h₀ : Heap} (hc : Heap.ofConfig c = .ok h₀) (os : List Op) {x : Handle}
    (hx : ((start h₀).run os).heap.isValid x = true) {k : Nat} (hk : k < ((start h₀).run os).heap.sizeAt x.index) :
    let s := (start h₀).run os
    let v := lastWritten ((start h₀).history os) x k
    readSlot x k s.heap = .ok v s.heap ∧
    (∀ g ∈ s.guards, g.handle = x → g.read k s.heap = .ok v s.heap) ∧
    (∃ g h, lock x s.heap = .ok g h ∧ g.read k h = .ok v h) ∧
    (∀ (m : Machine) (i : Instruction) (l : List Value), m.instruction? = some i → i.op = .prop →
      i.operand.toNat = k → m.stack.toList = l ++ [.ref x] → (m.step s.heap).1.stack.toList = l ++ [v]) ∧
    ∀ o : Op, (s.act o).heap.isValid x = true → (∀ w, s.event o ≠ some (.wrote x k w)) →
      readSlot x k (s.act o).heap = .ok v (s.act o).heap := by
  obtain ⟨hcheck, rfl⟩ := check_of_ofConfig hc
  have hfit := fit_run hc os
  have hr := (fit_start (sound_build hcheck) rfl).recalls_run (recalls_build hcheck) os
  rw [List.nil_append] at hr
  have hslot := hr x hx k hk
  have hread := hr.readSlot hx hk
  refine ⟨hread, fun g _ hg => ?_, ⟨⟨x⟩, _, lock_of_valid hx, ?_⟩, fun m i l hi hop hik hl => ?_, fun o hx' hno => ?_⟩
  · subst hg
    exact readAt_of_slot hslot
  · exact readAt_of_slot hslot
  · subst hik
    exact Machine.prop_step hi hop hl hread
  · rw [readSlot, bind_check_of_valid hx']
    exact readAt_of_slot ((hfit.slot_act o hx hx' hno).trans hslot)

/-- A second object at one index starts at zero again. -/
theorem slots_run_reused :
    let os : List Op := [.call (.allocate 0), .call (.write ⟨0, 0⟩ 0 (.raw 7)), .call (.release ⟨0, 0⟩),
      .call (.allocate 0)]
    let s := (start (build ⟨[1], 1⟩)).run os
    ofConfig ⟨[1], 1⟩ = .ok (build ⟨[1], 1⟩) ∧ s.heap.isValid ⟨0, 1⟩ = true ∧ 0 < s.heap.sizeAt 0 ∧
      readSlot ⟨0, 1⟩ 0 s.heap = .ok (.raw 0) s.heap := by
  intro os s
  have hc : ofConfig ⟨[1], 1⟩ = .ok (build ⟨[1], 1⟩) := rfl
  have hx : s.heap.isValid ⟨0, 1⟩ = true := by decide
  have hk : 0 < s.heap.sizeAt 0 := by decide
  exact ⟨hc, hx, hk, (slots_run hc os (x := ⟨0, 1⟩) hx hk).1⟩

end Shared

end StackVM
