/-
  StackVM.Proofs.Shared.Leftovers — what objects leave behind is never seen.

  Two heaps that are the same but for what is left in entries that are not live are told apart by nothing that can be
  done with them: a request is answered alike on both, by whomever it is made, whatever has been done before.

  A request is an operation or a question. Every request gets a reply: the handle, the value or the number that is
  asked for, the guard if there is one, the machine's report with what it has logged, or the error. A request that has
  to wait gets none, and nothing happens. Whoever only attempts an allocation gets the kind of the error, which
  tells no more than the error does.

  - `Guarded.act`: while a guard is taken its object stays.
  - `Twin.act`, `Twin.asked`: twins reply alike, and are twins afterwards.
  - `leftovers_unseen`: so are any number of replies, one after the other.
-/

import Mathlib.Data.List.Nodup
import StackVM.Proofs.Heap.Leftovers
import StackVM.Proofs.Machine.Handles
import StackVM.Proofs.Shared.Basic

namespace StackVM

namespace Machine

theorem linked_eq_self (m : Machine) : m.Linked Eq m :=
  linked_self (fun _ _ => rfl) (fun _ _ => rfl) fun _ _ _ => rfl

/-- A step of one machine on twins. -/
theorem step_of_twins {m m' : Machine} {h h' : Heap} (hm : m.Linked Eq m') (ht : h.Twin h') :
    StepsLinked Eq (m.step h) (m'.step h') ∧ (m.step h).2.1.Twin (m'.step h').2.1 := by
  have hstep : StepsLinked Eq (m.step h) (m'.step h') := hm.step fun a a' _ _ hl => by
    obtain rfl : a' = a := hl.eq fun _ _ hxy => hxy
    rw [(ht.call a').1]
    exact alike_self (fun _ _ => rfl) fun _ _ => rfl
  refine ⟨hstep, ?_⟩
  rw [heap_step, heap_step]
  rcases hm.heapCall? with ⟨hnone, hnone'⟩ | ⟨a, a', ha, ha', hl⟩
  · rw [hnone, hnone']
    exact ht
  · obtain rfl : a' = a := hl.eq fun _ _ hxy => hxy
    rw [ha, ha']
    exact (ht.call a').2

theorem Linked.heapCall?_eq {m m' : Machine} (hm : m.Linked Eq m') : m'.heapCall? = m.heapCall? := by
  rcases hm.heapCall? with ⟨hnone, hnone'⟩ | ⟨a, a', ha, ha', hl⟩
  · rw [hnone, hnone']
  · rw [ha, ha', hl.eq fun _ _ hxy => hxy]

end Machine

namespace Shared

open Heap

/-! ## Requests and replies -/

inductive Request
  | op (o : Op)
  | valid (x : Handle)
  /-- The number of slots of a guarded object. -/
  | size (g : Guard)
  | classCount
  | liveObjects
  | slotsOf (sizeClass : Nat)
  | capacityOf (sizeClass : Nat)
  | liveOf (sizeClass : Nat)

inductive Reply
  | done
  | answer (a : Except HeapError Answer)
  /-- An attempt to take a guard may find somebody inside. -/
  | guarded (g : Except HeapError (Option Guard))
  | collected (objects : Nat)
  | stepped (report : Machine.Report) (said : List Log.Line)
  | valid (yes : Bool)
  | number (n : Except HeapError Nat)
  deriving DecidableEq

/-- What an operation that need not wait gives back. -/
def reply (s : Shared) : Op → Reply
  | .call a => .answer (a.answer s.heap)
  | .lock x => .guarded (outcome (some <$> Heap.lock x) s.heap)
  | .tryLock x => .guarded (outcome (Heap.tryLock x) s.heap)
  | .get g slot => .answer ((outcome (g.read slot) s.heap).map .value)
  | .set g slot v => .answer ((outcome (g.write slot v) s.heap).map fun _ => .done)
  | .collect roots => .collected (s.heap.collect roots).1
  | .step k =>
    match s.machines[k]? with
    | none => .done
    | some m =>
      let (m, _, said) := m.step s.heap
      .stepped m.report said
  | .unlock _ | .join _ | .stop _ => .done

/-- What a request gets back, unless it has to wait. -/
def asked (s : Shared) : Request → Option Reply
  | .op o => if s.ready o then some (s.reply o) else none
  | .valid x => if s.heap.isHeld x.index then none else some (.valid (s.heap.isValid x))
  | .size g => if s.guards.contains g then some (.number (outcome g.size s.heap)) else none
  | .classCount => some (.number (.ok s.heap.classCount))
  | .liveObjects => some (.number (.ok s.heap.liveObjects))
  | .slotsOf n => some (.number (s.heap.slotsOf n))
  | .capacityOf n => some (.number (s.heap.capacityOf n))
  | .liveOf n => some (.number (s.heap.liveOf n))

/-- A question changes nothing. -/
def upon (s : Shared) : Request → Shared
  | .op o => s.act o
  | _ => s

/-- One request after the other. -/
def served (s : Shared) : List Request → Shared
  | [] => s
  | r :: rs => (s.upon r).served rs

/-- What they get back, in order. -/
def replies (s : Shared) : List Request → List (Option Reply)
  | [] => []
  | r :: rs => s.asked r :: (s.upon r).replies rs

/-! ## Guards -/

/-- Every guard is on an object of its own, which is there and held. -/
structure Guarded (s : Shared) : Prop where
  held : ∀ g ∈ s.guards, g.handle.index ∈ s.heap.held
  apart : (s.guards.map (·.handle.index)).Nodup
  current : ∀ g ∈ s.guards, s.heap.isValid g.handle = true

variable {s s' : Shared}

theorem guarded_start (h : Heap) : (start h).Guarded :=
  ⟨fun _ hg => (nomatch hg), List.nodup_nil, fun _ hg => (nomatch hg)⟩

/-- While a guard is taken its object stays, whatever is done. -/
theorem Guarded.act (hs : s.Guarded) (o : Op) : (s.act o).Guarded := by
  have hm := move_of_current hs.current o
  generalize s.act o = s' at hm
  generalize s.event o = e at hm
  cases hm with
  | change ms hc =>
    refine ⟨fun g hg => ?_, hs.apart, fun g hg => hc.isValid_of_held (hs.held g hg) (hs.current g hg)⟩
    rw [hc.held]
    exact hs.held g hg
  | enter hx hfree =>
    refine ⟨fun g hg => ?_, List.nodup_cons.mpr ⟨fun hi => ?_, hs.apart⟩, fun g hg => ?_⟩
    · rcases List.mem_cons.mp hg with rfl | hg
      · exact List.mem_cons_self
      · exact List.mem_cons_of_mem _ (hs.held g hg)
    · obtain ⟨g, hg, hgx⟩ := List.mem_map.mp hi
      have hheld := hs.held g hg
      rw [hgx] at hheld
      exact hfree hheld
    · rcases List.mem_cons.mp hg with rfl | hg
      · exact hx
      · exact hs.current g hg
  | @leave g hg =>
    have hn : s.guards.Nodup := List.Nodup.of_map _ hs.apart
    have hkeep : ∀ b ∈ s.guards.erase g, b ∈ s.guards ∧ b.handle.index ≠ g.handle.index := by
      intro b hb
      obtain ⟨hne, hb⟩ := hn.mem_erase_iff.mp hb
      exact ⟨hb, fun hi => hne (List.inj_on_of_nodup_map hs.apart hb hg hi)⟩
    refine ⟨fun b hb => ?_, ?_, fun b hb => hs.current b (hkeep b hb).1⟩
    · exact (List.mem_erase_of_ne (hkeep b hb).2).mpr (hs.held b (hkeep b hb).1)
    · exact hs.apart.sublist (List.erase_sublist.map _)

theorem Guarded.upon (hs : s.Guarded) (r : Request) : (s.upon r).Guarded := by
  cases r with
  | op o => exact hs.act o
  | _ => exact hs

/-- Guards that have been taken in the course of requests to a heap are of that kind. -/
theorem guarded_served (h : Heap) (rs : List Request) : ((start h).served rs).Guarded := by
  have hserved : ∀ s : Shared, s.Guarded → (s.served rs).Guarded := by
    induction rs with
    | nil => exact fun s hs => hs
    | cons r rs ih => exact fun s hs => ih (s.upon r) (hs.upon r)
  exact hserved (start h) (guarded_start h)

/-! ## Twins -/

/-- Two states that differ in leftovers at most. -/
structure Twin (s s' : Shared) : Prop where
  heap : s.heap.Twin s'.heap
  guards : s'.guards = s.guards
  machines : List.Forall₂ (Machine.Linked Eq) s.machines s'.machines

namespace Twin

theorem index? (ht : s.Twin s') (o : Op) : s'.index? o = s.index? o := by
  cases o with
  | step k =>
    rcases getElem?_of_forall₂ ht.machines k with ⟨hm, hm'⟩ | ⟨m, m', hm, hm', hl⟩
    · simp only [Shared.index?, hm, hm']
    · simp only [Shared.index?, hm, hm', Option.bind_some, hl.heapCall?_eq]
  | _ => rfl

theorem ready (ht : s.Twin s') (o : Op) : s'.ready o = s.ready o := by
  simp only [Shared.ready, ht.index? o, ht.guards, ht.heap.isHeld]

theorem taking (ht : s.Twin s') {act : HeapM (Option Guard)} (hact : outcome act s'.heap = outcome act s.heap ∧
    (after act s.heap).Twin (after act s'.heap)) : (s.taking act).Twin (s'.taking act) := by
  refine ⟨hact.2, ?_, ht.machines⟩
  simp only [Shared.taking, given_eq_toOption, hact.1, ht.guards]

/-- An operation that need not wait. -/
theorem perform (ht : s.Twin s') (hs : s.Guarded) {o : Op} (hr : s.ready o = true) :
    s'.reply o = s.reply o ∧ (s.perform o).Twin (s'.perform o) := by
  have hguard := mem_guards_of_ready hr
  cases o with
  | call a => exact ⟨congrArg Reply.answer (ht.heap.call a).1, (ht.heap.call a).2, ht.guards, ht.machines⟩
  | lock x =>
    have hlock := Heap.Twin.map some (ht.heap.lock x)
    exact ⟨congrArg Reply.guarded hlock.1, ht.taking hlock⟩
  | tryLock x => exact ⟨congrArg Reply.guarded (ht.heap.tryLock x).1, ht.taking (ht.heap.tryLock x)⟩
  | unlock g =>
    refine ⟨rfl, ht.heap.unlock g, ?_, ht.machines⟩
    simp only [Shared.perform, ht.guards]
  | get g slot =>
    refine ⟨?_, ?_, ht.guards, ht.machines⟩
    · have hread := ht.heap.readAt (hs.current g (hguard g rfl)) slot
      exact congrArg (fun r => Reply.answer (Except.map Answer.value r)) hread
    · show (after (Heap.readAt g.handle.index slot) s.heap).Twin (after (Heap.readAt g.handle.index slot) s'.heap)
      rw [after_readAt, after_readAt]
      exact ht.heap
  | set g slot v =>
    have hwrite := ht.heap.writeAt g.handle.index slot v
    exact ⟨congrArg (fun r => Reply.answer (Except.map (fun _ => Answer.done) r)) hwrite.1, hwrite.2, ht.guards,
      ht.machines⟩
  | collect roots =>
    exact ⟨congrArg Reply.collected (ht.heap.collect roots).1, (ht.heap.collect roots).2, ht.guards, ht.machines⟩
  | join m => exact ⟨rfl, ht.heap, ht.guards, .cons m.linked_eq_self ht.machines⟩
  | stop k => exact ⟨rfl, ht.heap, ht.guards, forall₂_modify ht.machines k fun _ _ hl => hl.requestStop⟩
  | step k =>
    rcases getElem?_of_forall₂ ht.machines k with ⟨hm, hm'⟩ | ⟨m, m', hm, hm', hl⟩
    · simp only [Shared.reply, Shared.perform, hm, hm']
      exact ⟨trivial, ht⟩
    · simp only [Shared.reply, Shared.perform, hm, hm']
      obtain ⟨hstep, hheap⟩ := Machine.step_of_twins hl ht.heap
      have hreport := hstep.machine.report fun _ _ hxy => hxy
      have hsaid := hstep.lines fun _ _ hxy => hxy
      refine ⟨?_, hheap, ht.guards, forall₂_set ht.machines k hstep.machine⟩
      rw [hreport, hsaid]

/-- Twins are twins after an operation, whether or not it has to wait. -/
theorem act (ht : s.Twin s') (hs : s.Guarded) (o : Op) : (s.act o).Twin (s'.act o) := by
  unfold Shared.act
  rw [ht.ready]
  by_cases hr : s.ready o = true
  · rw [if_pos hr, if_pos hr]
    exact (ht.perform hs hr).2
  · rw [if_neg hr, if_neg hr]
    exact ht

theorem upon (ht : s.Twin s') (hs : s.Guarded) (r : Request) : (s.upon r).Twin (s'.upon r) := by
  cases r with
  | op o => exact ht.act hs o
  | _ => exact ht

/-- Twins reply alike. -/
theorem asked (ht : s.Twin s') (hs : s.Guarded) (r : Request) : s'.asked r = s.asked r := by
  have hheap := ht.heap
  cases r with
  | op o =>
    simp only [Shared.asked, ht.ready]
    by_cases hr : s.ready o = true
    · rw [if_pos hr, if_pos hr, (ht.perform hs hr).1]
    · rw [if_neg hr, if_neg hr]
  | valid x => simp only [Shared.asked, hheap.isHeld, hheap.isValid]
  | size g =>
    have hsize : outcome g.size s'.heap = outcome g.size s.heap := congrArg Except.ok (hheap.sizeAt g.handle.index)
    simp only [Shared.asked, ht.guards, hsize]
  | classCount => simp only [Shared.asked, Heap.classCount, hheap.classes]
  | liveObjects => simp only [Shared.asked, Heap.liveObjects, hheap.classes]
  | slotsOf n => simp only [Shared.asked, Heap.slotsOf, Heap.sizeClass, hheap.classes]
  | capacityOf n => simp only [Shared.asked, Heap.capacityOf, Heap.sizeClass, hheap.classes, hheap.capacity]
  | liveOf n => simp only [Shared.asked, Heap.liveOf, Heap.sizeClass, hheap.classes]

end Twin

theorem Twin.served (ht : s.Twin s') (hs : s.Guarded) (rs : List Request) :
    s'.replies rs = s.replies rs ∧ (s.served rs).Twin (s'.served rs) := by
  induction rs generalizing s s' with
  | nil => exact ⟨rfl, ht⟩
  | cons r rs ih =>
    obtain ⟨hreplies, htwin⟩ := ih (ht.upon hs r) (hs.upon r)
    exact ⟨congrArg₂ List.cons (ht.asked hs r) hreplies, htwin⟩

/-- What objects leave behind is never seen: of two heaps that are the same without it, in the hands of the same guards
and machines, the one can be put in the place of the other. Whatever is requested, the replies are the same, the guards
and machines come to the same, and the heaps are again the same but for leftovers. -/
theorem leftovers_unseen (hs : s.Guarded) {h' : Heap} (hbare : h'.bare = s.heap.bare) (rs : List Request) :
    let s' : Shared := { s with heap := h' }
    s'.replies rs = s.replies rs ∧ (s'.served rs).heap.bare = (s.served rs).heap.bare ∧
      (s'.served rs).guards = (s.served rs).guards ∧
      (s'.served rs).machines.map Machine.report = (s.served rs).machines.map Machine.report := by
  intro s'
  have hstart : s.Twin s' := ⟨Heap.bare_eq_iff.mp hbare, rfl, List.forall₂_same.mpr fun m _ => m.linked_eq_self⟩
  obtain ⟨hreplies, hend⟩ := hstart.served hs rs
  refine ⟨hreplies, Heap.bare_eq_iff.mpr hend.heap, hend.guards, ?_⟩
  have hreports : List.Forall₂ (fun m m' : Machine => m'.report = m.report) (s.served rs).machines
      (s'.served rs).machines := hend.machines.imp fun m m' hl => hl.report fun _ _ hxy => hxy
  rw [← List.forall₂_eq_eq_eq, List.forall₂_map_left_iff, List.forall₂_map_right_iff]
  exact hreports.flip

/-- One live object with a guard on it, one entry whose object is gone, and a machine that is about to allocate. -/
def allocating (gone : Entry) : Shared :=
  (start ⟨#[⟨1, 0, [0], 1⟩], #[gone, ⟨#[.raw 9], 0, 1, 0, true, false⟩], 2, []⟩).served
    [.op (.lock ⟨1, 0⟩), .op (.join (Machine.ready ⟨#[0x30, 0x00], 0, #[], #[]⟩ {} (Stack.empty 1)))]

/-- The new object has nothing of the one that was there before. -/
theorem leftovers_unseen_reused :
    let s := allocating ⟨#[.ref ⟨1, 0⟩], 1, 3, 0, false, true⟩
    let s' := allocating ⟨#[.raw 7], 1, 0, 0, false, false⟩
    let rs : List Request := [.op (.get ⟨⟨1, 0⟩⟩ 0), .op (.call (.retain ⟨1, 0⟩)), .op (.call (.read ⟨0, 0⟩ 0)),
      .op (.step 0), .op (.call (.read ⟨0, 1⟩ 0)), .op (.call (.refCount ⟨0, 1⟩)), .liveObjects]
    s.Guarded ∧ s'.heap.bare = s.heap.bare ∧ s'.heap ≠ s.heap ∧ s'.replies rs = s.replies rs ∧
      s.replies rs = [some (.answer (.ok (.value (.raw 9)))), none, some (.answer (.error (.stale ⟨0, 0⟩))),
        some (.stepped ⟨.running, .none, "", 0, 1, 2, .raw 0, [.ref ⟨0, 1⟩]⟩ []),
        some (.answer (.ok (.value (.raw 0)))), some (.answer (.ok (.count 1))), some (.number (.ok 2))] := by
  intro s s' rs
  have hs : s.Guarded := guarded_served _ _
  have hbare : s'.heap.bare = s.heap.bare := by decide +kernel
  exact ⟨hs, hbare, by decide, (leftovers_unseen hs hbare rs).1, by decide +kernel⟩

end Shared

end StackVM
