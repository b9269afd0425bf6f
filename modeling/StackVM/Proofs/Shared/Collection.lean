/-
  StackVM.Proofs.Shared.Collection — collections between operations.

  A collection may come at any point of a run. With no guard taken it frees exactly what the roots it was given
  do not reach; otherwise it does nothing. A machine tells of its stack and its register as roots, not of its
  inputs: what only an input refers to is kept if somebody else refers to it, or if whoever collects adds the
  inputs to the roots.

  - `collect_exact`: what a collection does at any point of any run.
  - `collect_keeps`: what machines can reach, and is kept.
  - `collect_frees_input`: an object of a running machine that goes, because only an input refers to it.
-/

import StackVM.Proofs.Shared.Basic

namespace StackVM

/-- The values that a program may still put on the stack, whatever is there now. -/
def Machine.inputs (m : Machine) : List Value := m.program.a.toList ++ m.program.b.toList

namespace Shared

variable {c : Heap.Config} {s : Shared}

/-- What all machines tell of as roots. -/
def roots (s : Shared) : List Value := s.machines.flatMap Machine.roots

theorem roots_subset {m : Machine} (hm : m ∈ s.machines) : ∀ v ∈ m.roots, v ∈ s.roots :=
  fun _ hv => List.mem_flatMap_of_mem hm hv

theorem Fit.collects (hs : Fit c s) (hg : s.guards = []) (roots : List Value) :
    Heap.Collects s.heap roots (s.heap.collect roots).1 (s.heap.collect roots).2 :=
  hs.sound.collects (hs.held_eq_nil_iff.mpr hg) roots

theorem Fit.collect_of_guards (hs : Fit c s) (hg : s.guards ≠ []) (roots : List Value) :
    s.heap.collect roots = (0, s.heap) := by
  have hheld : s.heap.held ≠ [] := mt hs.held_eq_nil_iff.mp hg
  simp [Heap.collect, hheld]

/-- At any point of a run on a new heap, a collection keeps what the roots reach and frees the rest, or does nothing
because somebody has a guard. -/
theorem collect_exact {h₀ : Heap} (hc : Heap.ofConfig c = .ok h₀) (os : List Op) (roots : List Value) :
    let s := (start h₀).run os
    (s.guards = [] → Heap.Collects s.heap roots (s.heap.collect roots).1 (s.heap.collect roots).2) ∧
      (s.guards ≠ [] → s.heap.collect roots = (0, s.heap)) := by
  have hs := fit_run hc os
  exact ⟨fun hg => hs.collects hg roots, fun hg => hs.collect_of_guards hg roots⟩

/-- A root keeps its object and what that refers to. -/
theorem collect_exact_chain :
    let s := (start (Heap.build ⟨[1], 2⟩)).run
      [.call (.allocate 0), .call (.allocate 0), .call (.write ⟨0, 0⟩ 0 (.ref ⟨1, 0⟩))]
    Heap.ofConfig ⟨[1], 2⟩ = .ok (Heap.build ⟨[1], 2⟩) ∧
      Heap.Collects s.heap [.ref ⟨0, 0⟩] (s.heap.collect [.ref ⟨0, 0⟩]).1 (s.heap.collect [.ref ⟨0, 0⟩]).2 ∧
      s.heap.Reachable [.ref ⟨0, 0⟩] 1 := by
  intro s
  have hc : Heap.ofConfig ⟨[1], 2⟩ = .ok (Heap.build ⟨[1], 2⟩) := rfl
  refine ⟨hc, (collect_exact hc _ _).1 rfl, ?_⟩
  have h0 : s.heap.Reachable [.ref ⟨0, 0⟩] 0 := .root (x := ⟨0, 0⟩) List.mem_cons_self (by decide)
  exact .slot (x := ⟨1, 0⟩) (e := ⟨#[.ref ⟨1, 0⟩], 0, 1, 0, true, false⟩) h0 rfl (by simp) (by decide)

/-! ## What machines can reach -/

/-- At any point of a run on a new heap, with no guard taken, a collection from the roots of all machines and what
else is given keeps every object that a machine reaches from its stack and register, and from its inputs, too, if
these are given. Whatever the object, it stays exactly if the roots reach it. -/
theorem collect_keeps {h₀ : Heap} (hc : Heap.ofConfig c = .ok h₀) (os : List Op)
    (hg : ((start h₀).run os).guards = []) (more : List Value) :
    let s := (start h₀).run os
    let h := (s.heap.collect (s.roots ++ more)).2
    ∀ m ∈ s.machines, ∀ x : Handle, s.heap.isValid x = true →
      (s.heap.Reachable m.roots x.index → h.isValid x = true ∧ h.slotsAt x.index = s.heap.slotsAt x.index) ∧
      ((∀ v ∈ m.inputs, v ∈ more) → s.heap.Reachable (m.roots ++ m.inputs) x.index →
        h.isValid x = true ∧ h.slotsAt x.index = s.heap.slotsAt x.index) ∧
      (h.isValid x = true ↔ s.heap.Reachable (s.roots ++ more) x.index) := by
  intro s h m hm x hx
  have hcol := (fit_run hc os).collects hg (s.roots ++ more)
  obtain ⟨hiff, hsame⟩ := hcol.stays_iff hx
  have hkept : s.heap.Reachable (s.roots ++ more) x.index →
      h.isValid x = true ∧ h.slotsAt x.index = s.heap.slotsAt x.index := fun hr =>
    ⟨hiff.mpr hr, Heap.slotsAt_congr (hsame hr)⟩
  refine ⟨fun hr => hkept (hr.mono fun v hv => ?_), fun hin hr => hkept (hr.mono fun v hv => ?_), hiff⟩
  · exact List.mem_append_left _ (roots_subset hm v hv)
  · rcases List.mem_append.mp hv with hv | hv
    · exact List.mem_append_left _ (roots_subset hm v hv)
    · exact List.mem_append_right _ (hin v hv)

/-- A machine about to push its only input, a reference to the first object of the table. -/
def pusher : Machine := Machine.ready ⟨#[0x10, 0x00], 0, #[.ref ⟨0, 0⟩], #[]⟩ {} (Stack.empty 1)

/-- An object that only an input refers to is kept when the inputs are given. -/
theorem collect_keeps_input :
    let s := (start (Heap.build ⟨[1], 1⟩)).run [.call (.allocate 0), .join pusher]
    Heap.ofConfig ⟨[1], 1⟩ = .ok (Heap.build ⟨[1], 1⟩) ∧ s.guards = [] ∧ pusher ∈ s.machines ∧
      s.heap.isValid ⟨0, 0⟩ = true ∧ (s.heap.collect (s.roots ++ pusher.inputs)).2.isValid ⟨0, 0⟩ = true := by
  have hc : Heap.ofConfig ⟨[1], 1⟩ = .ok (Heap.build ⟨[1], 1⟩) := rfl
  have hm : pusher ∈ [pusher] := List.mem_cons_self
  have hx : ((start (Heap.build ⟨[1], 1⟩)).run [.call (.allocate 0), .join pusher]).heap.isValid ⟨0, 0⟩ = true := by
    decide
  refine ⟨hc, rfl, hm, hx, ?_⟩
  exact ((collect_keeps hc [.call (.allocate 0), .join pusher] rfl pusher.inputs pusher hm ⟨0, 0⟩ hx).2.1
    (fun _ hv => hv) (.root (List.mem_append_right _ List.mem_cons_self) hx)).1

/-- Raw values reach nothing. -/
theorem not_reachable_of_raw {h : Heap} {roots : List Value} (hraw : ∀ x, .ref x ∉ roots) (i : UInt32) :
    ¬ h.Reachable roots i := by
  intro hr
  induction hr with
  | root hv => exact hraw _ hv
  | slot _ _ _ _ ih => exact ih

/-- The roots of the machine do not reach the object that its input refers to, and it goes; yet the machine goes on
to push the reference. -/
theorem collect_frees_input :
    let s := (start (Heap.build ⟨[1], 1⟩)).run [.call (.allocate 0), .join pusher]
    Heap.ofConfig ⟨[1], 1⟩ = .ok (Heap.build ⟨[1], 1⟩) ∧ s.guards = [] ∧ s.machines = [pusher] ∧
      pusher.isRunning = true ∧ s.heap.isValid ⟨0, 0⟩ = true ∧ s.heap.Reachable pusher.inputs 0 ∧
      (s.heap.collect s.roots).2.isValid ⟨0, 0⟩ = false ∧
      (pusher.step (s.heap.collect s.roots).2).1.stack.toList = [.ref ⟨0, 0⟩] := by
  intro s
  have hc : Heap.ofConfig ⟨[1], 1⟩ = .ok (Heap.build ⟨[1], 1⟩) := rfl
  have hx : s.heap.isValid ⟨0, 0⟩ = true := by decide
  have hraw : ∀ x, .ref x ∉ s.roots := by
    intro x hv
    have hroots : s.roots = [.raw 0] := rfl
    rw [hroots] at hv
    cases List.mem_singleton.mp hv
  have hgone : ¬ (s.heap.collect s.roots).2.isValid ⟨0, 0⟩ = true := by
    have hcol := (fit_run hc [.call (.allocate 0), .join pusher]).collects rfl s.roots
    exact mt (hcol.stays_iff hx).1.mp (not_reachable_of_raw hraw 0)
  refine ⟨hc, rfl, rfl, rfl, hx, .root (x := ⟨0, 0⟩) List.mem_cons_self hx, Bool.eq_false_iff.mpr hgone, rfl⟩

end Shared

end StackVM
