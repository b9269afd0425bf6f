/-
  StackVM.Proofs.Shared.Isolation — machines that have nothing in common.

  Machines without references among their inputs know of an object only if they have made it themselves. A handle
  names the machine that it was given to, since none is given twice, so no machine ever comes to know of another's
  objects, not even when an index that one of them has freed serves the other.

  `Owned A s` says that every machine, and every object that it has made, refers to its own handles only.

  - `Owned.turn`: a turn keeps that.
  - `Owned.entry_turn`: and leaves the objects of all other machines as they are.
  - `isolated_run`: both, for every run from a heap without objects.
-/

import Mathlib.Data.List.Nodup
import StackVM.Proofs.Shared.Generations
import StackVM.Proofs.Shared.References

namespace StackVM

namespace Shared

open Heap

/-! ## A handle has one owner -/

theorem handles_history_turns (s : Shared) (ks : List Nat) :
    handles (s.history (turns ks)) = (s.grants ks).map Prod.snd := by
  induction ks generalizing s with
  | nil => rfl
  | cons k ks ih =>
    have hrest := ih (s.act (.step k))
    rw [turns, List.map_cons, history, handles_append, grants, List.map_append]
    rw [turns] at hrest
    rw [hrest]
    congr 1
    cases he : s.event (.step k) with
    | none => rfl
    | some e => cases e <;> rfl

/-- As long as no index is freed 2^32 times, a handle is given to one machine only. -/
theorem Fit.owner_unique {c : Config} {s : Shared} (hs : Fit c s) {ks : List Nat}
    (hfew : ∀ i, s.frees i (turns ks) < UInt32.size) {j k : Nat} {x : Handle} (hj : (j, x) ∈ s.grants ks)
    (hk : (k, x) ∈ s.grants ks) : j = k := by
  have hnodup := hs.nodup_handles hfew
  rw [handles_history_turns] at hnodup
  exact congrArg Prod.fst (List.inj_on_of_nodup_map hnodup hj hk rfl)

/-! ## Everybody keeps to their own -/

variable {s : Shared} {A : Nat → Handle → Prop}

structure Owned (A : Nat → Handle → Prop) (s : Shared) : Prop where
  machines : ∀ (k : Nat) (m : Machine), s.machines[k]? = some m → m.Within (A k)
  slots : ∀ k x y, A k x → s.heap.isValid x = true → .ref y ∈ s.heap.slotsAt x.index → A k y

/-- A turn does something to an object of the machine's own, or makes one. -/
theorem Owned.event (hs : Owned A s) {k : Nat} {ev : Event} (he : s.event (.step k) = some ev) :
    ((∃ x, ev = .made x) ∨ ∃ x, ev.handle? = some x ∧ A k x) ∧ ∀ x slot y, ev = .wrote x slot (.ref y) → A k y := by
  rcases step_cases s k with ⟨-, hnone⟩ | ⟨m, hk, -, hevent, -⟩
  · rw [hnone] at he; cases he
  · exact (hs.machines k m hk).event (hevent.symm.trans he)

theorem Owned.slots_turn (hs : Owned A s) (hone : ∀ j k x, A j x → A k x → j = k) (k j : Nat) {x y : Handle}
    (hx : A j x) (hv : (s.act (.step k)).heap.isValid x = true) (hy : .ref y ∈ (s.act (.step k)).heap.slotsAt x.index) :
    A j y := by
  have hc := change_turn s k
  cases he : s.event (.step k) with
  | none =>
    rw [he] at hc
    rw [hc.eq_of_none] at hv hy
    exact hs.slots j x y hx hv hy
  | some ev =>
    rw [he] at hc
    obtain ⟨habout, hwritten⟩ := hs.event he
    rcases habout with ⟨z, rfl⟩ | ⟨z, hz, hown⟩
    · rcases hc.ref_stored rfl hv hy with ⟨hv₀, hy₀⟩ | ⟨slot, hw⟩
      · exact hs.slots j x y hx hv₀ hy₀
      · cases hw
    · rcases hc.ref_stored hz hv hy with ⟨hv₀, hy₀⟩ | ⟨slot, rfl⟩
      · exact hs.slots j x y hx hv₀ hy₀
      · -- whoever has written owns the object
        cases hz
        rw [hone j k x hx hown]
        exact hwritten x slot y rfl

theorem Owned.turn (hs : Owned A s) (hone : ∀ j k x, A j x → A k x → j = k) {k : Nat}
    (hmade : ∀ x, s.event (.step k) = some (.made x) → A k x) : Owned A (s.act (.step k)) := by
  refine ⟨fun j m' hm' => ?_, fun j x y hx hv hy => hs.slots_turn hone k j hx hv hy⟩
  rcases step_cases s k with ⟨hact, -⟩ | ⟨m, hk, hact, hevent, -⟩
  · rw [hact] at hm'
    exact hs.machines j m' hm'
  · rw [hact] at hm'
    rw [hevent] at hmade
    by_cases hjk : k = j
    · subst hjk
      rw [List.getElem?_set_self (List.getElem?_eq_some_iff.mp hk).1] at hm'
      cases hm'
      exact (hs.machines k m hk).step hmade (hs.slots k)
    · rw [List.getElem?_set_ne hjk] at hm'
      exact hs.machines j m' hm'

theorem Owned.run (hs : Owned A s) (hone : ∀ j k x, A j x → A k x → j = k) {ks : List Nat}
    (hA : ∀ k x, (k, x) ∈ s.grants ks → A k x) : Owned A (s.run (turns ks)) := by
  induction ks generalizing s with
  | nil => exact hs
  | cons k ks ih =>
    refine ih (hs.turn hone fun x he => hA k x (mem_grants_of_event he ks)) fun j x hx => hA j x ?_
    exact List.mem_append_right _ hx

/-- A turn leaves the live objects of the other machines as they are. -/
theorem Owned.entry_turn {c : Config} (hs : Owned A s) (hfit : Fit c s) (hone : ∀ j k x, A j x → A k x → j = k)
    {j k : Nat} (hjk : j ≠ k) {x : Handle} (hx : A j x) (hv : s.heap.isValid x = true) :
    (s.act (.step k)).heap.entries[x.index.toNat]? = s.heap.entries[x.index.toNat]? := by
  have hc := change_turn s k
  cases he : s.event (.step k) with
  | none =>
    rw [he] at hc
    rw [hc.eq_of_none]
  | some ev =>
    rw [he] at hc
    -- what is made was not live
    have hmade : ∀ z, ev = .made z → z.index.toNat ≠ x.index.toNat := by
      rintro z rfl hi
      have hdead := (hc.of_made hfit.sound).1
      rw [hi, liveAt_of_isValid hv] at hdead
      cases hdead
    rcases (hs.event he).1 with ⟨z, rfl⟩ | ⟨z, hz, hown⟩
    · exact hc.entry_elsewhere rfl (hmade z rfl)
    · refine hc.entry_elsewhere hz ?_
      rcases hc.made_or_valid hz with rfl | hvz
      · exact hmade z rfl
      · intro hi
        rw [handle_unique hv hvz (UInt32.toNat_inj.mp hi)] at hown
        exact hjk (hone j k x hx hown)

/-! ## Any number of turns -/

/-- What machines that have nothing in common can rely on, when each has made the objects of `made`. -/
structure Isolated (made : List (Nat × Handle)) (s : Shared) : Prop where
  /-- A reference on a machine's stack or in its register is not to an object of another machine. -/
  roots : ∀ (k : Nat) (m : Machine) (x : Handle), s.machines[k]? = some m → .ref x ∈ m.roots →
    s.heap.isValid x = true → ∀ j, (j, x) ∈ made → j = k
  /-- Nor is one in a slot of an object that the machine has made. -/
  slots : ∀ (k : Nat) (x y : Handle), (k, x) ∈ made → s.heap.isValid x = true → .ref y ∈ s.heap.slotsAt x.index →
    s.heap.isValid y = true → ∀ j, (j, y) ∈ made → j = k
  /-- The next step of a machine, whichever it is, changes nothing in the live objects of another: neither liveness,
  generation and count nor the slots. -/
  others : ∀ (j k : Nat) (x : Handle), j ≠ k → (j, x) ∈ made → s.heap.isValid x = true →
    (s.act (.step k)).heap.entries[x.index.toNat]? = s.heap.entries[x.index.toNat]?

theorem Owned.isolated {c : Config} {made : List (Nat × Handle)} (hs : Owned (fun k x => (k, x) ∈ made) s)
    (hfit : Fit c s) (hone : ∀ j k x, (j, x) ∈ made → (k, x) ∈ made → j = k) : Isolated made s := by
  refine ⟨fun k m x hk hx _ j hj => ?_, fun k x y hx hv hy _ j hj => ?_, fun j k x hjk hx hv => ?_⟩
  · exact hone j k x hj ((hs.machines k m hk).roots hx)
  · exact hone j k y hj (hs.slots k x y hx hv hy)
  · exact hs.entry_turn hfit hone hjk hx hv

/-- New machines with raw inputs on a heap without objects are isolated from each other, however they take turns, as
long as no index is freed 2^32 times. -/
theorem isolated_run {c : Config} {h₀ : Heap} (hc : ofConfig c = .ok h₀) (before : List Op)
    (hnone : ((start h₀).run before).heap.liveObjects = 0) {ms : List Machine} (hfresh : ∀ m ∈ ms, m.Fresh)
    (hraw : ∀ m ∈ ms, ∀ x, .ref x ∉ m.inputs) (ks : List Nat)
    (hfew : ∀ i, frees { (start h₀).run before with machines := ms } i (turns ks) < UInt32.size) :
    let s : Shared := { (start h₀).run before with machines := ms }
    Isolated (s.grants ks) (s.run (turns ks)) := by
  intro s
  have hfit : Fit c s := by
    have hb := fit_run hc before
    exact ⟨hb.sound, hb.held, hb.apart, hb.current⟩
  have hone : ∀ j k x, (j, x) ∈ s.grants ks → (k, x) ∈ s.grants ks → j = k :=
    fun j k x hj hk => hfit.owner_unique hfew hj hk
  have hstart : Owned (fun k x => (k, x) ∈ s.grants ks) s := by
    refine ⟨fun k m hk => ?_, fun k x y _ hv _ => ?_⟩
    · have hm := List.mem_of_getElem? hk
      exact (hfresh m hm).within fun x hx => absurd hx (hraw m hm x)
    · have hdead := hfit.sound.books.not_live_of_liveObjects hnone x.index
      rw [liveAt_of_isValid hv] at hdead
      cases hdead
  exact (hstart.run hone fun k x hx => hx).isolated (hfit.run _) hone

/-- A machine about to make an object and to release it; it keeps a reference that is then stale. -/
def releaser : Machine := Machine.ready ⟨#[0x30, 0x00, 0x15, 0x35], 0, #[], #[]⟩ ⟨2, 10, false⟩ (Stack.empty 2)

theorem fresh_releaser : releaser.Fresh :=
  ⟨⟨#[0x30, 0x00, 0x15, 0x35], 0, #[], #[]⟩, ⟨2, 10, false⟩, [], rfl⟩

/-- Two machines use one index, one after the other. -/
theorem isolated_run_reused :
    let s : Shared := { (start (build ⟨[1], 1⟩)).run [] with machines := [releaser, releaser] }
    let ks := [0, 0, 0, 1]
    ofConfig ⟨[1], 1⟩ = .ok (build ⟨[1], 1⟩) ∧ s.heap.liveObjects = 0 ∧
      (∀ m ∈ s.machines, m.Fresh) ∧ (∀ m ∈ s.machines, ∀ x, .ref x ∉ m.inputs) ∧
      (∀ i, s.frees i (turns ks) < UInt32.size) ∧ Isolated (s.grants ks) (s.run (turns ks)) ∧
      s.grants ks = [(0, ⟨0, 0⟩), (1, ⟨0, 1⟩)] := by
  intro s ks
  have hc : ofConfig ⟨[1], 1⟩ = .ok (build ⟨[1], 1⟩) := rfl
  have hfresh : ∀ m ∈ s.machines, m.Fresh := by
    intro m hm
    have hm : m ∈ [releaser, releaser] := hm
    simp only [List.mem_cons, List.not_mem_nil, or_false, or_self] at hm
    rw [hm]
    exact fresh_releaser
  have hraw : ∀ m ∈ s.machines, ∀ x, .ref x ∉ m.inputs := by
    intro m hm x hx
    have hm : m ∈ [releaser, releaser] := hm
    simp only [List.mem_cons, List.not_mem_nil, or_false, or_self] at hm
    rw [hm] at hx
    cases hx
  have hfew : ∀ i, s.frees i (turns ks) < UInt32.size := fun i =>
    Nat.lt_of_le_of_lt (frees_le_length i (turns ks)) (by decide)
  exact ⟨hc, by decide, hfresh, hraw, hfew, isolated_run hc [] (by decide) hfresh hraw ks hfew, by decide⟩

end Shared

end StackVM
