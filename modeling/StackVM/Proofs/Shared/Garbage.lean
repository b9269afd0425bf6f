/-
  StackVM.Proofs.Shared.Garbage — a collection goes unnoticed.

  A collection from the roots of a machine frees only what the machine cannot come to, so it goes on as if nothing
  had happened. Where it can go, the heaps with and without the garbage are the same; handles that were stale before
  are stale in both. Only an allocation could tell the two apart, since it finds other indices free.

  `Mirrors c K h h'` says that two heaps are the same wherever the handles of `K` lead.

  - `Sound.mirrors_collect`: a heap and what a collection leaves of it are.
  - `Machine.step_of_mirrors`: they stay so while linked machines take one step on each.
  - `collect_unnoticed`: a machine runs the same on both, step by step.
-/

import StackVM.Proofs.Machine.Handles
import StackVM.Proofs.Shared.Collection

namespace StackVM

namespace Heap

/-- Two heaps with nobody inside an object that are the same at all handles of a set, and the set has whatever lies in
the objects that its handles name. -/
structure Mirrors (c : Config) (K : Handle → Prop) (h h' : Heap) : Prop where
  sound : Sound c h
  sound' : Sound c h'
  held : h.held = []
  held' : h'.held = []
  same : ∀ x, K x → SameAt x h h'
  closed : ∀ x y, K x → h.isValid x = true → .ref y ∈ h.slotsAt x.index → K y

variable {c : Config} {h h' : Heap} {K : Handle → Prop}

/-- They stay so after one and the same call, with handles of the set. -/
theorem Mirrors.call (hm : Mirrors c K h h') {a : Call} {z : Handle} (ha : a.handle? = some z) (hz : K z)
    (hwritten : ∀ x slot y, a = .write x slot (.ref y) → K y) : Mirrors c K (a.after h) (a.after h') := by
  have hc : Change h (a.event h) (a.after h) := a.change fun i _ => by simp [hm.held]
  have hc' : Change h' (a.event h') (a.after h') := a.change fun i _ => by simp [hm.held']
  rw [Call.event_congr ha (hm.same z hz)] at hc'
  cases he : a.event h with
  | none =>
    rw [he] at hc hc'
    rw [hc.eq_of_none, hc'.eq_of_none]
    exact hm
  | some ev =>
    rw [he] at hc hc'
    have hev := Call.handle?_of_event ha he
    have hvz : h.isValid z = true := (hc.made_or_valid hev).resolve_left fun hmade =>
      Call.ne_made_of_handle? ha (he.trans (congrArg some hmade))
    refine ⟨hm.sound.change hc, hm.sound'.change hc', hc.held.trans hm.held,
      hc'.held.trans hm.held', fun x hx => ?_, fun x y hx hv hy => ?_⟩
    · exact (hm.same x hx).change hc hc' hev (hm.same z hz) hvz
    · rcases hc.ref_stored hev hv hy with ⟨hv₀, hy₀⟩ | ⟨slot, rfl⟩
      · exact hm.closed x y hx hv₀ hy₀
      · exact hwritten x slot y (Call.write_of_event he)

/-! ## Before and after a collection -/

/-- The handles that roots can lead to, stale ones among them. -/
def Met (h : Heap) (roots : List Value) (x : Handle) : Prop :=
  .ref x ∈ roots ∨ ∃ z, h.isValid z = true ∧ h.Reachable roots z.index ∧ .ref x ∈ h.slotsAt z.index

theorem Met.reachable {roots : List Value} {x : Handle} (hmet : h.Met roots x) (hx : h.isValid x = true) :
    h.Reachable roots x.index := by
  rcases hmet with hroot | ⟨z, hz, hr, hmem⟩
  · exact .root hroot hx
  · obtain ⟨e, he, -⟩ := isValid_iff.mp hz
    rw [slotsAt_of_entry he] at hmem
    exact .slot hr he hmem hx

/-- A collection leaves everything as it is that its roots can lead to. -/
theorem Sound.mirrors_collect (hs : Sound c h) (hheld : h.held = []) (roots : List Value) :
    Mirrors c (h.Met roots) h (h.collect roots).2 := by
  have hcol := hs.collects hheld roots
  refine ⟨hs, hs.collect roots, hheld, (held_collect h roots).trans hheld, fun x hmet => ⟨hcol.tableSize, ?_, fun hx => ?_⟩,
    fun x y hmet hx hy => .inr ⟨x, hx, hmet.reachable hx, hy⟩⟩
  · cases hx : h.isValid x with
    | true => exact (hcol.stays_iff hx).1.mpr (hmet.reachable hx)
    | false =>
      -- what is stale is not brought back
      cases hx' : (h.collect roots).2.isValid x with
      | false => rfl
      | true => rw [← isValid_congr (hs.entry_of_valid_after roots hx'), hx'] at hx; cases hx
  · exact (hcol.stays_iff hx).2 (hmet.reachable hx)

end Heap

namespace Machine

open Heap

variable {c : Config} {h h' : Heap} {K : Handle → Prop} {m m' : Machine}

/-- A step that allocates nothing does the same to machines with the same handles. -/
theorem step_of_mirrors (hl : m.Linked (fun x y => x = y ∧ K x) m') (hm : Mirrors c K h h')
    (hno : ∀ n, m.heapCall? ≠ some (.allocate n)) :
    StepsLinked (fun x y => x = y ∧ K x) (m.step h) (m'.step h') ∧ Mirrors c K (m.step h).2.1 (m'.step h').2.1 := by
  have hsame : ∀ x y : Handle, x = y ∧ K x → x = y := fun _ _ hxy => hxy.1
  rcases hl.heapCall? with ⟨hnone, hnone'⟩ | ⟨a, a', ha, ha', hcall⟩
  · refine ⟨hl.step fun a _ ha _ _ => ?_, ?_⟩
    · rw [hnone] at ha; cases ha
    · rw [heap_step, heap_step, hnone, hnone']
      exact hm
  · obtain ⟨hhandle, hwritten⟩ := within_of_linked hcall
    obtain rfl : a' = a := hcall.eq hsame
    obtain ⟨z, hz⟩ : ∃ z, a'.handle? = some z := by
      cases a' with
      | allocate n => exact absurd ha (hno n)
      | read x | write x | sizeOf x | retain x | release x | refCount x => exact ⟨x, rfl⟩
    have hK := hhandle z hz
    refine ⟨hl.step fun b b' hb hb' _ => ?_, ?_⟩
    · rw [ha] at hb
      rw [ha'] at hb'
      cases hb
      cases hb'
      rw [Call.answer_congr hz (hm.same z hK)]
      refine alike_self (fun x hx => ?_) fun y hy => ⟨rfl, ?_⟩
      · exact absurd (Call.event_of_handle hx) (Call.ne_made_of_handle? hz)
      · obtain ⟨x, slot, rfl, hx, hmem⟩ := Call.read_of_value hy
        exact hm.closed x y (hhandle x rfl) hx hmem
    · rw [heap_step, heap_step, ha, ha']
      exact hm.call hz hK hwritten

theorem run_of_mirrors {n : Nat} {log : Array Log.Line} (hl : m.Linked (fun x y => x = y ∧ K x) m')
    (hm : Mirrors c K h h') (hno : ∀ j < n, ∀ k, (run j m h log).1.heapCall? ≠ some (.allocate k)) :
    (run n m h log).1.Linked (fun x y => x = y ∧ K x) (run n m' h' log).1 ∧
      (run n m' h' log).2.2 = (run n m h log).2.2 := by
  induction n generalizing m m' h h' log with
  | zero => exact ⟨hl, rfl⟩
  | succ n ih =>
    have hrun' := hl.isRunning
    cases hrun : m.isRunning with
    | false =>
      rw [hrun] at hrun'
      simp only [run, hrun, hrun', Bool.false_eq_true, if_false]
      exact ⟨hl, trivial⟩
    | true =>
      rw [hrun] at hrun'
      obtain ⟨hsteps, hmirrors⟩ := step_of_mirrors hl hm (hno 0 (Nat.zero_lt_succ n))
      have hlines := hsteps.lines fun _ _ hxy => hxy.1
      simp only [run, hrun, hrun', if_true, hlines]
      refine ih hsteps.machine hmirrors fun j hj k => ?_
      have hnext := hno (j + 1) (Nat.succ_lt_succ hj) k
      simpa only [run, hrun, if_true] using hnext

end Machine

namespace Shared

open Heap

/-- At any point of a run on a new heap, with no guard taken, a machine with raw inputs does not notice a collection
from its roots: on the heap as it was and on the heap as it is then, it looks the same after every number of steps,
and logs the same, as long as it comes to no allocation. -/
theorem collect_unnoticed {c : Config} {h₀ : Heap} (hc : ofConfig c = .ok h₀) (os : List Op)
    (hg : ((start h₀).run os).guards = []) {m : Machine} (hraw : ∀ x, .ref x ∉ m.inputs) (n : Nat) :
    let h := ((start h₀).run os).heap
    let h' := (h.collect m.roots).2
    (∀ j < n, ∀ i, (m.run j h #[]).1.instruction? = some i → i.op ≠ .alloc) →
    (m.run n h' #[]).1.report = (m.run n h #[]).1.report ∧ (m.run n h' #[]).2.2 = (m.run n h #[]).2.2 := by
  intro h h' hno
  have hfit := fit_run hc os
  have hm := hfit.sound.mirrors_collect (hfit.held_eq_nil_iff.mpr hg) m.roots
  have hwithin : m.Within (h.Met m.roots) := by
    refine ⟨fun x hx => .inl (List.mem_append_left _ hx), fun x hx => .inl (List.mem_append_right _ ?_),
      fun side x hx => absurd ?_ (hraw x)⟩
    · rw [hx]; exact List.mem_singleton_self _
    · cases side with
      | a => exact List.mem_append_left _ hx
      | b => exact List.mem_append_right _ hx
  have hcalls : ∀ j < n, ∀ k, (m.run j h #[]).1.heapCall? ≠ some (.allocate k) := by
    intro j hj k ha
    obtain ⟨i, hi, hcall⟩ := Option.bind_eq_some_iff.mp ha
    exact hno j hj i hi (Exec.op_of_heapCall?_allocate hcall)
  obtain ⟨hl, hlog⟩ := Machine.run_of_mirrors (Machine.within_iff_linked.mp hwithin) hm hcalls
  exact ⟨hl.report fun _ _ hxy => hxy.1, hlog⟩

/-- A machine with a reference to the second object of the table on its stack, about to read that object's slot and
to write back what it has read. -/
def rewriter : Machine :=
  Machine.ready ⟨#[0x15, 0x31, 0x00, 0x32, 0x00], 0, #[], #[]⟩ {} ((Stack.empty 2).push (.ref ⟨1, 0⟩)).2

/-- The first object goes and the machine runs to its end as before. -/
theorem collect_unnoticed_rewriter :
    let os : List Op := [.call (.allocate 0), .call (.allocate 0), .call (.write ⟨1, 0⟩ 0 (.ref ⟨1, 0⟩))]
    let s := (start (build ⟨[1], 2⟩)).run os
    let h' := (s.heap.collect rewriter.roots).2
    ofConfig ⟨[1], 2⟩ = .ok (build ⟨[1], 2⟩) ∧ s.guards = [] ∧ (∀ x, .ref x ∉ rewriter.inputs) ∧
      (∀ j < 4, ∀ i, (rewriter.run j s.heap #[]).1.instruction? = some i → i.op ≠ .alloc) ∧
      s.heap.isValid ⟨0, 0⟩ = true ∧ h'.isValid ⟨0, 0⟩ = false ∧
      (rewriter.run 4 s.heap #[]).1.report.state = .halted ∧
      (rewriter.run 4 h' #[]).1.report = (rewriter.run 4 s.heap #[]).1.report := by
  intro os s h'
  have hc : ofConfig ⟨[1], 2⟩ = .ok (build ⟨[1], 2⟩) := rfl
  have hraw : ∀ x, .ref x ∉ rewriter.inputs := fun x hx => by cases hx
  have hno : ∀ j < 4, ∀ i, (rewriter.run j s.heap #[]).1.instruction? = some i → i.op ≠ .alloc := by
    have hall : ∀ j < 4, ((rewriter.run j s.heap #[]).1.instruction?.all fun i => i.op != .alloc) = true := by decide
    intro j hj i hi
    have hone := hall j hj
    rw [hi] at hone
    simpa using hone
  have hx : s.heap.isValid ⟨0, 0⟩ = true := by decide
  -- the second object refers to nothing but itself
  have honly : ∀ i, s.heap.Reachable rewriter.roots i → i = 1 := by
    intro i hr
    induction hr with
    | @root x hv _ =>
      have hroots : rewriter.roots = [.ref ⟨1, 0⟩, .raw 0] := rfl
      rw [hroots] at hv
      rcases List.mem_cons.mp hv with hv | hv
      · cases hv; rfl
      · cases List.mem_singleton.mp hv
    | @slot i e x _ he hv _ ih =>
      subst ih
      have hentry : s.heap.entries[(1 : UInt32).toNat]? = some ⟨#[.ref ⟨1, 0⟩], 0, 1, 0, true, false⟩ := rfl
      rw [hentry] at he
      cases he
      cases Array.mem_singleton.mp hv
      rfl
  have hgone : h'.isValid ⟨0, 0⟩ = false := by
    have hstays := (((fit_run hc os).collects rfl rewriter.roots).stays_iff hx).1
    exact Bool.eq_false_iff.mpr fun hv => absurd (honly _ (hstays.mp hv)) (by decide)
  exact ⟨hc, rfl, hraw, hno, hx, hgone, by decide, (collect_unnoticed hc os rfl hraw 4 hno).1⟩

end Shared

end StackVM
