/-
  StackVM.Proofs.Shared.Failures — requests that fail.

  A request fails if it is replied to with an error, or if it is a collection while somebody has a guard. Whether it
  will fail, and with which error, can be told from the state beforehand: `failure?` tells it, by the class, the handle
  or the slot that is named, without carrying anything out. A handle is looked at in three places: by `isValid`, by the
  operations that name it, and by the attempt to take a guard, which looks at the index first.

  - `Heap.Call.after_of_failure`: a call that fails leaves the heap as it was.
  - `Fit.error_reply`: the error in a reply is the one that could be told beforehand.
  - `Fit.upon_of_fails`: a request that fails leaves everything as it was.
  - `failed_requests`: all of it, after any run on a new heap.
-/

import StackVM.Proofs.Machine.Faults
import StackVM.Proofs.Shared.Collection
import StackVM.Proofs.Shared.Leftovers

namespace StackVM

namespace Heap

variable {α β : Type} {c : Config} {h : Heap} {x : Handle} {e : HeapError}

/-! ## Errors told beforehand -/

/-- The error that an operation comes to, if it comes to one. -/
def failureOf : Except HeapError α → Option HeapError
  | .error e => some e
  | .ok _ => none

@[simp] theorem failureOf_map (f : α → β) (r : Except HeapError α) : failureOf (r.map f) = failureOf r := by
  cases r <;> rfl

def handleFailure? (h : Heap) (x : Handle) : Option HeapError :=
  if h.isValid x then none else some (h.refusal x)

def slotFailure? (h : Heap) (i : UInt32) (slot : Nat) : Option HeapError :=
  if slot < h.sizeAt i then none else some (.slotOutOfRange slot (h.sizeAt i))

/-- An allocation fails if there is no such class, or if as many of its objects are live as there may be. -/
def classFailure? (h : Heap) (n : Nat) : Option HeapError :=
  match h.classes[n]? with
  | none => some (.noSuchClass n h.classes.size)
  | some k => if k.live = h.capacity then some (.exhausted n h.capacity) else none

def Call.failure? (h : Heap) : Call → Option HeapError
  | allocate n => h.classFailure? n
  | read x slot | write x slot _ => (h.handleFailure? x).or (h.slotFailure? x.index slot)
  | sizeOf x | retain x | release x | refCount x => h.handleFailure? x

/-- The handle comes first. -/
theorem failure_check (k : Unit → HeapM α) :
    failureOf (outcome (check x >>= k) h) = (h.handleFailure? x).or (failureOf (outcome (k ()) h)) := by
  unfold handleFailure?
  cases hx : h.isValid x with
  | true =>
    rw [outcome_check_of_valid hx]
    rfl
  | false =>
    rw [outcome_check_of_not_valid hx]
    rfl

theorem failure_readAt (i : UInt32) (slot : Nat) : failureOf (outcome (readAt i slot) h) = h.slotFailure? i slot := by
  rw [outcome_readAt, slotFailure?]
  by_cases hslot : slot < h.sizeAt i
  · rw [if_pos hslot, Array.getElem?_eq_getElem (show slot < (h.slotsAt i).size from hslot)]
    rfl
  · rw [if_neg hslot, Array.getElem?_eq_none (show (h.slotsAt i).size ≤ slot from Nat.le_of_not_lt hslot)]
    rfl

theorem failure_writeAt (i : UInt32) (slot : Nat) (v : Value) :
    failureOf (outcome (writeAt i slot v) h) = h.slotFailure? i slot := by
  rw [outcome_writeAt, slotFailure?]
  split <;> rfl

/-- A free list is empty exactly if the counter says that all objects of the class are live. -/
theorem Books.failure_allocate (hb : Books c h) (n : Nat) :
    failureOf (outcome (allocate n) h) = h.classFailure? n := by
  unfold classFailure? outcome
  rcases allocate_cases (h := h) n with ⟨k, i, rest, hk, hf, ha⟩ | ⟨k, hk, hf, ha⟩ | ⟨hk, ha⟩
  · have hcount := hb.counted n k hk
    have hroom : k.live ≠ h.capacity := by
      rw [hf, List.length_cons] at hcount
      rw [hb.capacity]
      omega
    rw [ha, hk]
    exact (if_neg hroom).symm
  · have hcount := hb.counted n k hk
    have hfull : k.live = h.capacity := by
      rw [hf, List.length_nil] at hcount
      rw [hb.capacity]
      omega
    rw [ha, hk]
    exact (if_pos hfull).symm
  · rw [ha, hk]
    rfl

/-- What a call fails with. -/
theorem Books.failure_answer (hb : Books c h) (a : Call) : failureOf (a.answer h) = a.failure? h := by
  cases a with
  | allocate n => exact (failureOf_map _ _).trans (hb.failure_allocate n)
  | read x slot =>
    refine (failureOf_map _ _).trans ((failure_check _).trans ?_)
    rw [failure_readAt]
    rfl
  | write x slot v =>
    refine (failureOf_map _ _).trans ((failure_check _).trans ?_)
    rw [failure_writeAt]
    rfl
  | sizeOf x | retain x | release x | refCount x =>
    refine (failureOf_map _ _).trans ((failure_check _).trans ?_)
    exact Option.or_none

/-! ## What fails changes nothing -/

theorem Restores.after_of_failure {act : HeapM α} (hact : Restores act) (he : failureOf (outcome act h) = some e) :
    after act h = h := by
  unfold outcome at he
  unfold after
  cases hx : act h with
  | ok a h' => rw [hx] at he; cases he
  | error e' h' => exact hact h e' h' hx

theorem restores_refCount (x : Handle) : Restores (refCount x) :=
  Restores.check (restores_of_total fun _ => ⟨_, _, rfl⟩)

/-- A call that fails leaves the heap as it was. -/
theorem Call.after_of_failure {a : Call} (he : failureOf (a.answer h) = some e) : a.after h = h := by
  cases a with
  | allocate n => rw [answer, failureOf_map] at he; exact (restores_allocate n).after_of_failure he
  | read x slot => rw [answer, failureOf_map] at he; exact (restores_readSlot x slot).after_of_failure he
  | write x slot v => rw [answer, failureOf_map] at he; exact (restores_writeSlot x slot v).after_of_failure he
  | sizeOf x => rw [answer, failureOf_map] at he; exact (restores_sizeOf x).after_of_failure he
  | retain x => rw [answer, failureOf_map] at he; exact (restores_retain x).after_of_failure he
  | release x => rw [answer, failureOf_map] at he; exact (restores_release x).after_of_failure he
  | refCount x => rw [answer, failureOf_map] at he; exact (restores_refCount x).after_of_failure he

/-! ## Taking a guard -/

theorem outcome_lock (x : Handle) (h : Heap) : outcome (some <$> lock x) h =
    if h.isValid x then .ok (some ⟨x⟩) else .error (h.refusal x) := by
  rw [outcome, Shared.some_lock]
  cases h.isValid x <;> rfl

/-- Where nobody is inside, the attempt to take a guard comes to the same as taking it: an index past the table is that
of no valid handle. -/
theorem outcome_tryLock {h : Heap} {x : Handle} (hx : x.index ∉ h.held) :
    outcome (tryLock x) h = outcome (some <$> lock x) h := by
  by_cases hsize : h.entries.size ≤ x.index.toNat
  · have hv : h.isValid x = false := by
      rw [isValid, Array.getElem?_eq_none hsize]
      rfl
    have hpast : h.refusal x = .indexOutOfRange x.index := if_neg (Nat.not_lt_of_le hsize)
    rw [outcome_lock, hv, hpast]
    simp [outcome, tryLock, hsize]
  · have hheld : ¬ h.isHeld x.index = true := mt Shared.isHeld_iff.mp hx
    simp only [outcome, tryLock, if_neg hsize, if_neg hheld]

end Heap

namespace Shared

open Heap

/-! ## Requests that fail -/

/-- The error that a reply tells of. -/
def Reply.error? : Reply → Option HeapError
  | answer a => failureOf a
  | guarded g => failureOf g
  | number n => failureOf n
  | _ => none

/-- What was asked for has been given: there is no error, and no guard was withheld. -/
def Reply.granted : Reply → Bool
  | guarded (.ok none) => false
  | r => r.error?.isNone

/-- The error that a request will be replied to with, if it need not wait. -/
def failure? (s : Shared) : Request → Option HeapError
  | .op (.call a) => a.failure? s.heap
  | .op (.lock x) => s.heap.handleFailure? x
  | .op (.tryLock x) => if s.heap.isHeld x.index then none else s.heap.handleFailure? x
  | .op (.get g slot) | .op (.set g slot _) => s.heap.slotFailure? g.handle.index slot
  | .slotsOf n | .capacityOf n | .liveOf n => if n < s.heap.classCount then none else some (.unknownClass n)
  | _ => none

/-- A collection fails, too, while somebody has a guard. It tells so by the number of objects it has freed, zero. -/
def Fails (s : Shared) (r : Request) : Prop :=
  (∃ reply e, s.asked r = some reply ∧ reply.error? = some e) ∨ ∃ roots, r = .op (.collect roots) ∧ s.guards ≠ []

variable {c : Heap.Config} {s : Shared} {r : Request} {reply : Reply} {e : HeapError}

/-- Somebody is inside only of what is in the table. -/
theorem Fit.lt_of_held (hs : Fit c s) {i : UInt32} (hi : i ∈ s.heap.held) : i.toNat < s.heap.entries.size := by
  rw [hs.held] at hi
  obtain ⟨g, hg, rfl⟩ := List.mem_map.mp hi
  exact liveAt_lt (liveAt_of_isValid (hs.current g hg))

theorem failure_lock (x : Handle) (h : Heap) : failureOf (outcome (some <$> lock x) h) = h.handleFailure? x := by
  rw [outcome_lock, handleFailure?]
  split <;> rfl

theorem Fit.failure_tryLock (hs : Fit c s) (x : Handle) :
    failureOf (outcome (tryLock x) s.heap) = if s.heap.isHeld x.index then none else s.heap.handleFailure? x := by
  by_cases hheld : s.heap.isHeld x.index = true
  · have hsize := Nat.not_le_of_lt (hs.lt_of_held (isHeld_iff.mp hheld))
    rw [if_pos hheld]
    simp [outcome, tryLock, hsize, hheld, failureOf]
  · rw [if_neg hheld, outcome_tryLock (mt isHeld_iff.mpr hheld), failure_lock]

theorem asked_op {o : Op} (hr : s.asked (.op o) = some reply) : s.ready o = true ∧ reply = s.reply o := by
  simp only [asked] at hr
  by_cases hready : s.ready o = true
  · rw [if_pos hready] at hr
    exact ⟨hready, (Option.some.inj hr).symm⟩
  · rw [if_neg hready] at hr
    cases hr

theorem error_reply_step (s : Shared) (k : Nat) : (s.reply (.step k)).error? = none := by
  simp only [reply]
  cases s.machines[k]? <;> rfl

theorem failure_sizeClass (h : Heap) (n : Nat) :
    failureOf (h.sizeClass n) = if n < h.classCount then none else some (.unknownClass n) := by
  unfold sizeClass classCount
  by_cases hn : n < h.classes.size
  · rw [if_pos hn, Array.getElem?_eq_getElem hn]
    rfl
  · rw [if_neg hn, Array.getElem?_eq_none (Nat.le_of_not_lt hn)]
    rfl

/-- A reply tells of the error that could be told beforehand, and of no other. -/
theorem Fit.error_reply (hs : Fit c s) (hr : s.asked r = some reply) : reply.error? = s.failure? r := by
  cases r with
  | op o =>
    obtain ⟨-, rfl⟩ := asked_op hr
    cases o with
    | call a => exact hs.sound.books.failure_answer a
    | lock x => exact failure_lock x s.heap
    | tryLock x => exact hs.failure_tryLock x
    | get g slot => exact (failureOf_map _ _).trans (failure_readAt _ _)
    | set g slot v => exact (failureOf_map _ _).trans (failure_writeAt _ _ _)
    | step k => exact s.error_reply_step k
    | unlock g | collect roots | join m | stop k => rfl
  | slotsOf n | capacityOf n | liveOf n =>
    cases hr
    exact (failureOf_map _ _).trans (failure_sizeClass _ n)
  | valid x | size g =>
    simp only [asked] at hr
    split at hr <;> cases hr
    rfl
  | classCount | liveObjects => cases hr; rfl

/-! ## What fails changes nothing -/

theorem taking_lock_of_failure {x : Handle} (he : s.heap.handleFailure? x = some e) :
    s.taking (some <$> lock x) = s := by
  unfold handleFailure? at he
  rw [taking_lock]
  by_cases hx : s.heap.isValid x = true
  · rw [if_pos hx] at he
    cases he
  · rw [if_neg hx]

/-- A request that is replied to with an error has changed nothing. -/
theorem upon_of_error (hr : s.asked r = some reply) (he : reply.error? = some e) : s.upon r = s := by
  cases r with
  | op o =>
    obtain ⟨hready, rfl⟩ := asked_op hr
    show s.act o = s
    rw [act, if_pos hready]
    cases o with
    | call a =>
      show { s with heap := a.after s.heap } = s
      rw [Call.after_of_failure he]
    | lock x => exact taking_lock_of_failure ((failure_lock x s.heap).symm.trans he)
    | tryLock x =>
      show s.taking (tryLock x) = s
      rcases taking_tryLock (s := s) x with hsame | ⟨hx, hsame⟩
      · exact hsame
      · have hfails : failureOf (outcome (tryLock x) s.heap) = some e := he
        rw [outcome_tryLock hx, failure_lock] at hfails
        rw [hsame, taking_lock_of_failure hfails]
    | get g slot =>
      show { s with heap := after (readAt g.handle.index slot) s.heap } = s
      rw [after_readAt]
    | set g slot v =>
      have hw : failureOf (outcome (writeAt g.handle.index slot v) s.heap) = some e :=
        (failureOf_map _ _).symm.trans he
      show { s with heap := after (writeAt g.handle.index slot v) s.heap } = s
      rw [(restores_writeAt _ _ _).after_of_failure hw]
    | step k => rw [error_reply_step] at he; cases he
    | unlock g | collect roots | join m | stop k => cases he
  | _ => rfl

theorem Fit.upon_of_fails (hs : Fit c s) (hf : s.Fails r) : s.upon r = s := by
  rcases hf with ⟨reply, e, hr, he⟩ | ⟨roots, rfl, hg⟩
  · exact upon_of_error hr he
  · show s.act (.collect roots) = s
    have hready : s.ready (.collect roots) = true := rfl
    rw [Shared.act, if_pos hready, perform, hs.collect_of_guards hg]

/-! ## Handles -/

/-- The operations that look at a handle and do nothing else that could fail. -/
inductive Op.Uses (x : Handle) : Op → Prop
  | lock : Uses x (.lock x)
  | tryLock : Uses x (.tryLock x)
  | retain : Uses x (.call (.retain x))
  | release : Uses x (.call (.release x))
  | refCount : Uses x (.call (.refCount x))

theorem granted_lock (x : Handle) (h : Heap) : (Reply.guarded (outcome (some <$> lock x) h)).granted =
    (h.handleFailure? x).isNone := by
  rw [outcome_lock, handleFailure?]
  cases h.isValid x <;> rfl

theorem Fit.granted_use (hs : Fit c s) {x : Handle} (hx : x.index ∉ s.heap.held) {o : Op} (ho : o.Uses x) :
    (s.reply o).granted = (s.heap.handleFailure? x).isNone := by
  cases ho with
  | lock => exact granted_lock x s.heap
  | tryLock =>
    show (Reply.guarded (outcome (tryLock x) s.heap)).granted = _
    rw [outcome_tryLock hx, granted_lock]
  | retain => exact congrArg Option.isNone (hs.sound.books.failure_answer (.retain x))
  | release => exact congrArg Option.isNone (hs.sound.books.failure_answer (.release x))
  | refCount => exact congrArg Option.isNone (hs.sound.books.failure_answer (.refCount x))

/-- Where nobody is inside, each of these operations is a test of the handle. -/
theorem Fit.granted_iff (hs : Fit c s) {x : Handle} (hx : x.index ∉ s.heap.held) {o : Op} (ho : o.Uses x) :
    ∃ reply, s.asked (.op o) = some reply ∧ (s.heap.isValid x = true ↔ reply.granted = true) ∧
      (s.heap.isValid x = false → ∃ e, reply.error? = some e ∧ e.status = .invalidHandle) := by
  have hheld : s.heap.isHeld x.index = false := Bool.eq_false_iff.mpr (mt isHeld_iff.mp hx)
  have hready : s.ready o = true := by
    cases ho <;> simp [ready, index?, Op.guard?, Call.index?, hheld]
  have hasked : s.asked (.op o) = some (s.reply o) := if_pos hready
  refine ⟨s.reply o, hasked, ?_, fun hv => ⟨s.heap.refusal x, ?_, status_refusal _ _⟩⟩
  · rw [hs.granted_use hx ho, handleFailure?]
    cases s.heap.isValid x <;> simp
  · rw [hs.error_reply hasked]
    cases ho <;> simp [failure?, Call.failure?, handleFailure?, hheld, hv]

/-! ## After any run -/

/-- After any run on a new heap: where nobody is inside, a handle is valid if and only if each of the operations that
look at it succeeds, and otherwise each of them says that it is not. A reply tells of an error exactly as the state
has it beforehand, and a collection while somebody has a guard frees nothing. Whatever fails leaves everything as it
was, and later requests are replied to as if it had not been made. -/
theorem failed_requests {h₀ : Heap} (hc : Heap.ofConfig c = .ok h₀) (os : List Op) :
    let s := (start h₀).run os
    (∀ x : Handle, x.index ∉ s.heap.held → ∀ o : Op, o.Uses x → ∃ reply, s.asked (.op o) = some reply ∧
        (s.heap.isValid x = true ↔ reply.granted = true) ∧
        (s.heap.isValid x = false → ∃ e, reply.error? = some e ∧ e.status = .invalidHandle)) ∧
      (∀ r reply, s.asked r = some reply → reply.error? = s.failure? r) ∧
      (s.guards ≠ [] → ∀ roots, s.asked (.op (.collect roots)) = some (.collected 0)) ∧
      ∀ r, s.Fails r → s.upon r = s ∧ ∀ later, s.replies (r :: later) = s.asked r :: s.replies later := by
  intro s
  have hs : Fit c s := fit_run hc os
  refine ⟨fun x hx o ho => hs.granted_iff hx ho, fun r reply hr => hs.error_reply hr, fun hg roots => ?_,
    fun r hf => ?_⟩
  · show some (Reply.collected (s.heap.collect roots).1) = _
    rw [hs.collect_of_guards hg]
  · have hsame := hs.upon_of_fails hf
    refine ⟨hsame, fun later => ?_⟩
    rw [replies, hsame]

/-- No object is left to allocate, somebody has a guard, and one of the handles is that of an object that is gone. -/
theorem failed_requests_exhausted :
    let s := (start (Heap.build ⟨[1], 2⟩)).run [.call (.allocate 0), .call (.allocate 0), .call (.release ⟨1, 0⟩),
      .call (.allocate 0), .lock ⟨0, 0⟩]
    let r : Request := .op (.call (.allocate 0))
    Heap.ofConfig ⟨[1], 2⟩ = .ok (Heap.build ⟨[1], 2⟩) ∧
      s.asked r = some (.answer (.error (.exhausted 0 2))) ∧ s.upon r = s ∧
      s.replies [r, .op (.collect []), .liveObjects] =
        [some (.answer (.error (.exhausted 0 2))), some (.collected 0), some (.number (.ok 2))] ∧
      ∃ reply e, s.asked (.op (.tryLock ⟨1, 0⟩)) = some reply ∧ reply.error? = some e ∧ e.status = .invalidHandle := by
  intro s r
  have hc : Heap.ofConfig ⟨[1], 2⟩ = .ok (Heap.build ⟨[1], 2⟩) := rfl
  obtain ⟨hhandles, -, hcollect, hfails⟩ := failed_requests hc [.call (.allocate 0), .call (.allocate 0),
    .call (.release ⟨1, 0⟩), .call (.allocate 0), .lock ⟨0, 0⟩]
  have hr : s.asked r = some (.answer (.error (.exhausted 0 2))) := rfl
  obtain ⟨hsame, hlater⟩ := hfails r (.inl ⟨_, _, hr, rfl⟩)
  refine ⟨hc, hr, hsame, ?_, ?_⟩
  · rw [hlater, hr, replies, hcollect (by decide)]
    rfl
  · obtain ⟨reply, hreply, -, herror⟩ := hhandles ⟨1, 0⟩ (by decide) _ .tryLock
    obtain ⟨e, he, hstatus⟩ := herror rfl
    exact ⟨reply, e, hreply, he, hstatus⟩

end Shared

end StackVM
