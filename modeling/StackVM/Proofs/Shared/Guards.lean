/-
  StackVM.Proofs.Shared.Guards — what the holder of a guard can rely on.

  A guard reads and writes slots without another look at the handle that it was taken for. It may do so since
  whoever else needs the object waits: a call that names its index, a machine that would, somebody who wants a guard
  of their own. What need not wait is no danger to it either. An allocation gives out the index of an object that is
  not live, and a collection backs off as long as a guard is held.

  - `Fit.write_through`: a write to the object of a guard has gone through that guard.
  - `Fit.slots_act`, `Fit.slots_run_held`: an operation and a run do to the slots what the sets through the guard do.
  - `guards_run`: what holds of every guard after every run on a new heap, and until the guard is dropped.
-/

import StackVM.Proofs.Heap.Effects
import StackVM.Proofs.Shared.Generations

namespace StackVM

namespace Shared

open Heap

/-! ## Slots through a guard -/

/-- What an operation makes of an object's slots, as far as it goes through the guard. -/
def Op.through (g : Guard) (vs : Array Value) : Op → Array Value
  | .set g' slot v => if g' = g then vs.setIfInBounds slot v else vs
  | _ => vs

@[simp] theorem Op.through_set (g : Guard) (vs : Array Value) (slot : Nat) (v : Value) :
    Op.through g vs (.set g slot v) = vs.setIfInBounds slot v := if_pos rfl

theorem Op.through_of_ne {g : Guard} {o : Op} (ho : ∀ slot v, o ≠ .set g slot v) (vs : Array Value) :
    o.through g vs = vs := by
  cases o with
  | set g' slot v =>
    refine if_neg fun hg => ?_
    subst hg
    exact ho slot v rfl
  | _ => rfl

/-- A set leaves the other slots and the number of slots as they are. -/
theorem Op.getElem?_through {g : Guard} {k : Nat} {o : Op} (ho : ∀ v, o ≠ .set g k v) (vs : Array Value) :
    (o.through g vs)[k]? = vs[k]? := by
  cases o with
  | set g' slot v =>
    by_cases hg : g' = g
    · subst hg
      have hslot : slot ≠ k := fun hk => ho v (by rw [hk])
      rw [through_set, Array.getElem?_setIfInBounds, if_neg hslot]
    · rw [through_of_ne fun slot' v' he => hg (by injection he)]
  | _ => rfl

@[simp] theorem Op.size_through (g : Guard) (vs : Array Value) (o : Op) : (o.through g vs).size = vs.size := by
  cases o with
  | set g' slot v =>
    by_cases hg : g' = g
    · rw [hg, through_set, Array.size_setIfInBounds]
    · rw [through_of_ne fun slot' v' he => hg (by injection he)]
  | _ => rfl

/-- What a list of operations makes of an object's slots, as far as they go through the guard. -/
def through (g : Guard) (vs : Array Value) : List Op → Array Value
  | [] => vs
  | o :: os => through g (o.through g vs) os

theorem through_append (g : Guard) (vs : Array Value) (os os' : List Op) :
    through g vs (os ++ os') = through g (through g vs os) os' := by
  induction os generalizing vs with
  | nil => rfl
  | cons o os ih => exact ih _

@[simp] theorem size_through (g : Guard) (vs : Array Value) (os : List Op) : (through g vs os).size = vs.size := by
  induction os generalizing vs with
  | nil => rfl
  | cons o os ih => rw [through, ih, Op.size_through]

theorem getElem?_through {g : Guard} {k : Nat} {os : List Op} (hos : ∀ v, .set g k v ∉ os) (vs : Array Value) :
    (through g vs os)[k]? = vs[k]? := by
  induction os generalizing vs with
  | nil => rfl
  | cons o os ih =>
    have hhead : ∀ v, o ≠ .set g k v := fun v he => hos v (he ▸ List.mem_cons_self)
    rw [through, ih fun v hv => hos v (List.mem_cons_of_mem _ hv), Op.getElem?_through hhead]

/-- The last set of a slot counts. -/
theorem getElem?_through_set {g : Guard} {k : Nat} {v : Value} {before after : List Op}
    (hafter : ∀ w, .set g k w ∉ after) {vs : Array Value} (hk : k < vs.size) :
    (through g vs (before ++ .set g k v :: after))[k]? = some v := by
  rw [through_append, through, getElem?_through hafter, Op.through_set, Array.getElem?_setIfInBounds, if_pos rfl,
    if_pos (by rwa [size_through])]

theorem slot_of_readAt {h h' : Heap} {i : UInt32} {k : Nat} {v : Value} (hv : readAt i k h = .ok v h') :
    (h.slotsAt i)[k]? = some v := by
  unfold readAt at hv
  cases hslot : (h.slotsAt i)[k]? with
  | none => rw [hslot] at hv; cases hv
  | some w => rw [hslot] at hv; cases hv; rfl

/-! ## One operation -/

variable {c : Config} {s : Shared} {g : Guard}

theorem Fit.mem_held (hs : Fit c s) (hg : g ∈ s.guards) : g.handle.index ∈ s.heap.held := by
  rw [hs.held]
  exact List.mem_map_of_mem hg

/-- Two guards on one object are the same. -/
theorem Fit.guard_unique (hs : Fit c s) (hg : g ∈ s.guards) {g' : Guard} (hg' : g' ∈ s.guards)
    (hi : g'.handle.index = g.handle.index) : g' = g := by
  have hh : g'.handle = g.handle := handle_unique (hs.current g hg) (hs.current g' hg') hi
  cases g
  cases g'
  exact congrArg Guard.mk hh

/-- Whoever writes to an object that somebody is inside does so through the guard. -/
theorem Fit.write_through (hs : Fit c s) (hg : g ∈ s.guards) {o : Op} {slot : Nat} {v : Value}
    (he : s.event o = some (.wrote g.handle slot v)) : o = .set g slot v := by
  have hheld := hs.mem_held hg
  unfold event at he
  split at he
  next hr =>
    cases o with
    | call a =>
      have ha : a = .write g.handle slot v := Call.write_of_event he
      exact absurd hheld (not_held_of_ready hr _ (by rw [ha]; rfl))
    | step k =>
      obtain ⟨m, hm, hcall⟩ := Option.bind_eq_some_iff.mp he
      obtain ⟨a, ha, hwrote⟩ := Option.bind_eq_some_iff.mp hcall
      have hwrite : a = .write g.handle slot v := Call.write_of_event hwrote
      refine absurd hheld (not_held_of_ready hr _ ?_)
      simp only [index?, hm, Option.bind_some, ha, hwrite]
      rfl
    | set g' slot' v' =>
      obtain ⟨-, -, hwrote⟩ := Option.map_eq_some_iff.mp he
      injection hwrote with hh hslot hv
      have hg' : g' ∈ s.guards := mem_guards_of_ready hr g' rfl
      rw [hs.guard_unique hg hg' (by rw [hh]), hslot, hv]
    | collect roots => cases he
    | lock | tryLock | unlock | get | join | stop => cases he
  next => cases he

/-- A guard is in use until it is dropped. -/
theorem mem_guards_act (hg : g ∈ s.guards) {o : Op} (ho : o ≠ .unlock g) :
    g ∈ (s.act o).guards := by
  unfold Shared.act
  split
  next hr =>
    cases o with
    | unlock g' =>
      have hne : g ≠ g' := fun e => ho (by rw [e])
      exact (List.mem_erase_of_ne hne).mpr hg
    | lock x => exact List.mem_append_right _ hg
    | tryLock x => exact List.mem_append_right _ hg
    | step k =>
      simp only [perform]
      split
      · exact hg
      · exact hg
    | call | get | set | collect | join | stop => exact hg
  next => exact hg

/-- An operation does to the slots of the object what it does through the guard. -/
theorem Fit.slots_act (hs : Fit c s) (hg : g ∈ s.guards) (o : Op) :
    (s.act o).heap.slotsAt g.handle.index = o.through g (s.heap.slotsAt g.handle.index) := by
  have hvalid := hs.current g hg
  have hm := hs.move o
  by_cases ho : ∃ slot v, o = .set g slot v
  · obtain ⟨slot, v, rfl⟩ := ho
    have hr : s.ready (.set g slot v) = true := by simp [ready, index?, Op.guard?, hg]
    have hact : s.act (.set g slot v) = s.perform (.set g slot v) := if_pos hr
    rw [hact, Op.through_set]
    show (after (writeAt g.handle.index slot v) s.heap).slotsAt g.handle.index = _
    by_cases hslot : slot < s.heap.sizeAt g.handle.index
    · have hwrite : after (writeAt g.handle.index slot v) s.heap = s.heap.setSlot g.handle.index slot v := by
        simp [after, writeAt, hslot]
      rw [hwrite, slotsAt_setSlot, if_pos rfl]
    · have hrefuse : after (writeAt g.handle.index slot v) s.heap = s.heap := by simp [after, writeAt, hslot]
      have hbeyond : (s.heap.slotsAt g.handle.index).size ≤ slot := Nat.le_of_not_lt hslot
      rw [hrefuse, Array.setIfInBounds_eq_of_size_le hbeyond]
  · have hno : ∀ slot v, o ≠ .set g slot v := fun slot v e => ho ⟨slot, v, e⟩
    have hwrote : ∀ slot v, s.event o ≠ some (.wrote g.handle slot v) :=
      fun slot v he => hno slot v (hs.write_through hg he)
    rw [Op.through_of_ne hno]
    generalize s.act o = s' at hm
    generalize s.event o = e at hm hwrote
    cases hm with
    | enter | leave => rfl
    | change ms hc =>
      rcases hc.slots hs.sound (hc.isValid_of_held (hs.mem_held hg) hvalid) with
        ⟨rfl, -⟩ | ⟨-, slot, v, he, -⟩ | ⟨-, -, -, hsame⟩
      · exact absurd hc (hs.sound.not_made hvalid)
      · exact absurd he (hwrote slot v)
      · exact hsame

/-- What is made is not where somebody is inside. -/
theorem Fit.index_ne_of_made (hs : Fit c s) (hg : g ∈ s.guards) {o : Op} {x : Handle}
    (he : s.event o = some (.made x)) : x.index ≠ g.handle.index := by
  intro hi
  have hdead := ((hs.change_of_event he).of_made hs.sound).1
  rw [hi, liveAt_of_isValid (hs.current g hg)] at hdead
  cases hdead

/-! ## Until the guard is dropped -/

theorem mem_guards_run (hg : g ∈ s.guards) {os : List Op} (hos : .unlock g ∉ os) :
    g ∈ (s.run os).guards := by
  induction os generalizing s with
  | nil => exact hg
  | cons o os ih =>
    have hhead : o ≠ .unlock g := fun e => hos (e ▸ List.mem_cons_self)
    exact ih (mem_guards_act hg hhead) fun hmem => hos (List.mem_cons_of_mem _ hmem)

theorem Fit.slots_run_held (hs : Fit c s) (hg : g ∈ s.guards) {os : List Op} (hos : .unlock g ∉ os) :
    (s.run os).heap.slotsAt g.handle.index = through g (s.heap.slotsAt g.handle.index) os := by
  induction os generalizing s with
  | nil => rfl
  | cons o os ih =>
    have hhead : o ≠ .unlock g := fun e => hos (e ▸ List.mem_cons_self)
    have htail : .unlock g ∉ os := fun hmem => hos (List.mem_cons_of_mem _ hmem)
    rw [through, ← hs.slots_act hg o]
    exact ih (hs.act o) (mem_guards_act hg hhead) htail

/-! ## What the holder can rely on -/

/-- What holds of a guard in use. -/
structure Reliable (g : Guard) (s : Shared) : Prop where
  /-- The handle that the guard was taken for names the object, which is live and has the same generation. -/
  valid : ∃ e, s.heap.entries[g.handle.index.toNat]? = some e ∧ e.live = true ∧ e.generation = g.handle.generation
  /-- Whatever comes next, the slots change only if it is a set through this guard. -/
  slots : ∀ o : Op, (∀ slot v, o ≠ .set g slot v) →
    (s.act o).heap.slotsAt g.handle.index = s.heap.slotsAt g.handle.index
  /-- Whatever comes next, no object is made at the guard's index. -/
  index : ∀ (o : Op) (x : Handle), s.event o = some (.made x) → x.index ≠ g.handle.index
  /-- A collection would find the guard held and free nothing. -/
  collect : ∀ roots, s.heap.collect roots = (0, s.heap)
  within : ∀ slot, slot < s.heap.sizeAt g.handle.index →
    (∃ v, g.read slot s.heap = .ok v s.heap) ∧
      ∀ v, ∃ h, g.write slot v s.heap = .ok () h ∧ g.read slot h = .ok v h
  beyond : ∀ slot, s.heap.sizeAt g.handle.index ≤ slot →
    g.read slot s.heap = .error (.slotOutOfRange slot (s.heap.sizeAt g.handle.index)) s.heap ∧
      ∀ v, g.write slot v s.heap = .error (.slotOutOfRange slot (s.heap.sizeAt g.handle.index)) s.heap

theorem Fit.reliable (hs : Fit c s) (hg : g ∈ s.guards) : Reliable g s where
  valid := isValid_iff.mp (hs.current g hg)
  slots o ho := (hs.slots_act hg o).trans (Op.through_of_ne ho _)
  index _ _ he := hs.index_ne_of_made hg he
  collect roots := by
    have hheld : s.heap.held ≠ [] := List.ne_nil_of_mem (hs.mem_held hg)
    simp [Heap.collect, hheld]
  within slot hslot := by
    have hread : (s.heap.slotsAt g.handle.index)[slot]? = some _ := Array.getElem?_eq_getElem hslot
    refine ⟨⟨_, readAt_of_slot hread⟩, fun v => ⟨s.heap.setSlot g.handle.index slot v, ?_, readAt_of_slot ?_⟩⟩
    · simp [Guard.write, writeAt, hslot]
    · rw [sizeAt] at hslot
      rw [slotsAt_setSlot, if_pos rfl, Array.getElem?_setIfInBounds, if_pos rfl, if_pos hslot]
  beyond slot hslot := by
    have hnone : (s.heap.slotsAt g.handle.index)[slot]? = none := Array.getElem?_eq_none hslot
    refine ⟨?_, fun v => ?_⟩
    · simp [Guard.read, readAt, hnone]
    · simp [Guard.write, writeAt, Nat.not_lt_of_le hslot]

/-- After whatever operations on a new heap, every guard in use is reliable. It stays in use until it is dropped, and
until then the object keeps its number of slots; reading a slot through the guard gives what was last set through it,
or else what was there to begin with. -/
theorem guards_run {h₀ : Heap} (hc : ofConfig c = .ok h₀) (os : List Op) {g : Guard}
    (hg : g ∈ ((start h₀).run os).guards) :
    let s := (start h₀).run os
    Reliable g s ∧ ∀ more : List Op, .unlock g ∉ more →
      let s' := s.run more
      g ∈ s'.guards ∧ Reliable g s' ∧ s'.heap.sizeAt g.handle.index = s.heap.sizeAt g.handle.index ∧
      (∀ k before v after, more = before ++ .set g k v :: after → (∀ w, .set g k w ∉ after) →
        k < s.heap.sizeAt g.handle.index → g.read k s'.heap = .ok v s'.heap) ∧
      ∀ k v, (∀ w, .set g k w ∉ more) → g.read k s.heap = .ok v s.heap → g.read k s'.heap = .ok v s'.heap := by
  intro s
  have hfit : Fit c s := fit_run hc os
  refine ⟨hfit.reliable hg, fun more hmore => ?_⟩
  intro s'
  have hg' : g ∈ s'.guards := mem_guards_run hg hmore
  have hslots : s'.heap.slotsAt g.handle.index = through g (s.heap.slotsAt g.handle.index) more :=
    hfit.slots_run_held hg hmore
  refine ⟨hg', (hfit.run more).reliable hg', ?_, ?_, ?_⟩
  · rw [sizeAt, hslots, size_through, sizeAt]
  · rintro k before v after rfl hafter hk
    refine readAt_of_slot ?_
    rw [hslots]
    exact getElem?_through_set hafter hk
  · intro k v hno hread
    refine readAt_of_slot ?_
    rw [hslots, getElem?_through hno]
    exact slot_of_readAt hread

/-- An object that nothing refers to, with a guard on it: whoever wants to write it or to be rid of it waits, a
collection backs off, and another object is made elsewhere. -/
theorem guards_run_unreferenced :
    let c : Config := ⟨[1], 2⟩
    let g : Guard := ⟨⟨0, 0⟩⟩
    let os : List Op := [.call (.allocate 0), .lock ⟨0, 0⟩]
    let more : List Op := [.set g 0 (.raw 7), .call (.write ⟨0, 0⟩ 0 (.raw 8)), .call (.release ⟨0, 0⟩), .collect [],
      .call (.allocate 0)]
    let s := (start (build c)).run os
    ofConfig c = .ok (build c) ∧ g ∈ s.guards ∧ .unlock g ∉ more ∧ Reliable g s ∧ Reliable g (s.run more) ∧
      g.read 0 (s.run more).heap = .ok (.raw 7) (s.run more).heap ∧ (s.run more).heap.liveObjects = 2 := by
  intro c g os more s
  have hc : ofConfig c = .ok (build c) := by cbv
  have hg : g ∈ s.guards := by decide
  have hmore : .unlock g ∉ more := by simp [more]
  obtain ⟨hnow, hlater⟩ := guards_run hc os hg
  obtain ⟨-, hthen, -, hset, -⟩ := hlater more hmore
  have hread : g.read 0 (s.run more).heap = .ok (.raw 7) (s.run more).heap :=
    hset 0 [] (.raw 7) _ rfl (by simp) (by decide)
  exact ⟨hc, hg, hmore, hnow, hthen, hread, by decide⟩

end Shared

end StackVM
