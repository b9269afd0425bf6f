/-
  StackVM.Proofs.Shared.References — where references come from.

  Machines take turns, in any order, on one heap. Whatever their code does, no word ever becomes a reference and no
  reference comes out of an object that is gone: each one that is found anywhere was an input, lay in an object from
  the start, or has been given by an allocation since.

  `Confined K s` says that all references to be found are to handles of a set `K`.

  - `Confined.turn`: a turn keeps that, if the set has what the turn allocates.
  - `references_run`: where references come from, over any run.
-/

import StackVM.Proofs.Heap.Generations
import StackVM.Proofs.Machine.Flow
import StackVM.Proofs.Machine.Handles
import StackVM.Proofs.Shared.Collection

namespace StackVM

/-- A reference to the handle lies in a slot of a live object. -/
def Heap.Stores (h : Heap) (y : Handle) : Prop := ∃ x, h.isValid x = true ∧ .ref y ∈ h.slotsAt x.index

namespace Machine

/-- The machine has just been set up. -/
def Fresh (m : Machine) : Prop := ∃ program settings log, create program settings = .ok (m, log)

/-- A new machine has its inputs and nothing else. -/
theorem Fresh.within {m : Machine} {K : Handle → Prop} (hm : m.Fresh) (hin : ∀ x, .ref x ∈ m.inputs → K x) :
    m.Within K := by
  obtain ⟨program, settings, log, hm⟩ := hm
  obtain ⟨-, hstart⟩ := create_eq_ok.mp hm
  have hbare : m.stack.toList = [] ∧ m.r = .raw 0 := by
    unfold start at hstart
    split at hstart
    · cases hstart; exact ⟨Stack.toList_empty _, rfl⟩
    · cases hstart; exact ⟨Stack.toList_empty _, rfl⟩
  refine ⟨fun x hx => ?_, fun x hx => ?_, fun side x hx => hin x ?_⟩
  · rw [hbare.1] at hx; cases hx
  · rw [hbare.2] at hx; cases hx
  · cases side with
    | a => exact List.mem_append_left _ hx
    | b => exact List.mem_append_right _ hx

theorem Within.roots {m : Machine} {K : Handle → Prop} (hm : m.Within K) {x : Handle} (hx : .ref x ∈ m.roots) :
    K x := by
  rcases List.mem_append.mp hx with hx | hx
  · exact hm.stack x hx
  · exact hm.r x (List.mem_singleton.mp hx).symm

end Machine

namespace Shared

/-! ## Machines that take turns -/

/-- One step of a machine after the other, in the order of a list. -/
def turns (ks : List Nat) : List Op := ks.map .step

/-- The handles that allocations have given in the course of the turns, each with the machine that got it. -/
def grants (s : Shared) : List Nat → List (Nat × Handle)
  | [] => []
  | k :: ks => ((s.event (.step k)).bind Heap.Event.made?).toList.map (k, ·) ++ (s.act (.step k)).grants ks

theorem mem_grants_of_event {s : Shared} {k : Nat} {x : Handle} (he : s.event (.step k) = some (.made x))
    (ks : List Nat) : (k, x) ∈ s.grants (k :: ks) := by
  rw [grants, he]
  exact List.mem_append_left _ List.mem_cons_self

/-! ## References stay within a set -/

structure Confined (K : Handle → Prop) (s : Shared) : Prop where
  machines : ∀ m ∈ s.machines, m.Within K
  stored : ∀ y, s.heap.Stores y → K y

variable {K : Handle → Prop} {s : Shared}

/-- What a turn does to the heap is about a handle of the set, or is an object made. What it writes is in the set, too. -/
theorem Confined.event (hs : Confined K s) {k : Nat} {ev : Heap.Event} (he : s.event (.step k) = some ev) :
    ((∃ x, ev = .made x) ∨ ∃ x, ev.handle? = some x ∧ K x) ∧ ∀ x slot y, ev = .wrote x slot (.ref y) → K y := by
  rcases step_cases s k with ⟨-, hnone⟩ | ⟨m, hk, -, hevent, -⟩
  · rw [hnone] at he; cases he
  · exact (hs.machines m (List.mem_of_getElem? hk)).event (hevent.symm.trans he)

theorem Confined.stored_turn (hs : Confined K s) (k : Nat) {y : Handle} (hy : (s.act (.step k)).heap.Stores y) :
    K y := by
  obtain ⟨x, hx, hy⟩ := hy
  have hc := change_turn s k
  cases he : s.event (.step k) with
  | none =>
    rw [he] at hc
    rw [hc.eq_of_none] at hx hy
    exact hs.stored y ⟨x, hx, hy⟩
  | some ev =>
    rw [he] at hc
    obtain ⟨habout, hwritten⟩ := hs.event he
    obtain ⟨z, hz⟩ : ∃ z, ev.handle? = some z := by
      rcases habout with ⟨z, rfl⟩ | ⟨z, hz, -⟩
      · exact ⟨z, rfl⟩
      · exact ⟨z, hz⟩
    -- what lies in a slot now lay there before, or the machine has written it
    rcases hc.ref_stored hz hx hy with ⟨hx₀, hy₀⟩ | ⟨slot, hw⟩
    · exact hs.stored y ⟨x, hx₀, hy₀⟩
    · exact hwritten x slot y hw

theorem Confined.turn (hs : Confined K s) {k : Nat} (hmade : ∀ x, s.event (.step k) = some (.made x) → K x) :
    Confined K (s.act (.step k)) := by
  refine ⟨fun m' hm' => ?_, fun y hy => hs.stored_turn k hy⟩
  rcases step_cases s k with ⟨hact, -⟩ | ⟨m, hk, hact, hevent, -⟩
  · rw [hact] at hm'
    exact hs.machines m' hm'
  · rw [hact] at hm'
    rw [hevent] at hmade
    have hm := hs.machines m (List.mem_of_getElem? hk)
    rcases List.mem_or_eq_of_mem_set hm' with hm' | rfl
    · exact hs.machines m' hm'
    · exact hm.step hmade fun x y _ hx hy => hs.stored y ⟨x, hx, hy⟩

theorem Confined.run (hs : Confined K s) {ks : List Nat} (hK : ∀ k x, (k, x) ∈ s.grants ks → K x) :
    Confined K (s.run (turns ks)) := by
  induction ks generalizing s with
  | nil => exact hs
  | cons k ks ih =>
    refine ih (hs.turn fun x he => hK k x (mem_grants_of_event he ks)) fun j x hx => hK j x ?_
    exact List.mem_append_right _ hx

/-- However new machines take turns on a heap, a reference that is then found on a stack, in a register or in a slot
of a live object was an input of some machine, lay in a live object before the first turn, or has been given by an
allocation since. -/
theorem references_run (hfresh : ∀ m ∈ s.machines, m.Fresh) (ks : List Nat) {x : Handle}
    (hx : (∃ m ∈ (s.run (turns ks)).machines, .ref x ∈ m.roots) ∨ (s.run (turns ks)).heap.Stores x) :
    (∃ m ∈ s.machines, .ref x ∈ m.inputs) ∨ s.heap.Stores x ∨ ∃ k, (k, x) ∈ s.grants ks := by
  have hstart : Confined (fun x => (∃ m ∈ s.machines, .ref x ∈ m.inputs) ∨ s.heap.Stores x ∨
      ∃ k, (k, x) ∈ s.grants ks) s :=
    ⟨fun m hm => (hfresh m hm).within fun x hx => .inl ⟨m, hm, hx⟩, fun y hy => .inr (.inl hy)⟩
  have hrun := hstart.run fun k x hx => .inr (.inr ⟨k, hx⟩)
  rcases hx with ⟨m, hm, hx⟩ | hx
  · exact (hrun.machines m hm).roots hx
  · exact hrun.stored x hx

/-- A machine about to make an object and to put a reference to it into its only slot. -/
def selfReferrer : Machine :=
  Machine.ready ⟨#[0x30, 0x00, 0x15, 0x32, 0x00], 0, #[], #[]⟩ ⟨2, 10, false⟩ (Stack.empty 2)

theorem fresh_selfReferrer : selfReferrer.Fresh :=
  ⟨⟨#[0x30, 0x00, 0x15, 0x32, 0x00], 0, #[], #[]⟩, ⟨2, 10, false⟩, [], rfl⟩

/-- The reference that then lies in the slot has been given by the allocation. -/
theorem references_run_selfReferrer :
    let s : Shared := ⟨Heap.build ⟨[1], 1⟩, [], [selfReferrer]⟩
    (∀ m ∈ s.machines, m.Fresh) ∧ (s.run (turns [0, 0, 0])).heap.Stores ⟨0, 0⟩ ∧
      ((∃ m ∈ s.machines, .ref ⟨0, 0⟩ ∈ m.inputs) ∨ s.heap.Stores ⟨0, 0⟩ ∨
        ∃ k, (k, ⟨0, 0⟩) ∈ s.grants [0, 0, 0]) ∧
      s.grants [0, 0, 0] = [(0, ⟨0, 0⟩)] := by
  intro s
  have hfresh : ∀ m ∈ s.machines, m.Fresh := by
    intro m hm
    rw [List.mem_singleton.mp hm]
    exact fresh_selfReferrer
  have hslot : ((s.run (turns [0, 0, 0])).heap.slotsAt 0)[0]? = some (.ref ⟨0, 0⟩) := by decide
  have hstored : (s.run (turns [0, 0, 0])).heap.Stores ⟨0, 0⟩ :=
    ⟨⟨0, 0⟩, by decide, Array.mem_of_getElem? hslot⟩
  exact ⟨hfresh, hstored, references_run hfresh [0, 0, 0] (.inr hstored), by decide⟩

end Shared

end StackVM
