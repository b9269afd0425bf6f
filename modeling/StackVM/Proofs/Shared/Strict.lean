/-
  StackVM.Proofs.Shared.Strict — nothing escapes a machine.

  On a heap where nobody is inside an object, the instructions on the memory that forgives nothing do what the
  machine's own instructions do: every access is in range, no refusal of the heap gets past the instruction that has
  caused it, and no place that is thought to be out of reach is ever come to. `Follows c st act` says so of one action,
  and what is composed of such actions follows, too.

  - `Strict.follows_dispatch`: every instruction.
  - `Strict.step_eq`, `Strict.run_eq`: every step, and every run of steps.
  - `Shared.nothing_escapes`: every machine on whatever the heap has come to.
-/

import StackVM.Proofs.Machine.Strict
import StackVM.Proofs.Shared.Basic

namespace StackVM

/-! ## A heap at rest -/

/-- A sound heap on which nobody is inside an object. -/
structure Heap.Calm (c : Heap.Config) (h : Heap) : Prop where
  sound : h.Sound c
  free : h.held = []

theorem Heap.Calm.call {c : Heap.Config} {h : Heap} (hc : h.Calm c) (a : Heap.Call) : (a.after h).Calm c := by
  have hchange : Heap.Change h (a.event h) (a.after h) := a.change fun i _ => by simp [hc.free]
  exact ⟨hc.sound.change hchange, hchange.held.trans hc.free⟩

/-- A machine's step leaves the heap at rest. -/
theorem Heap.Calm.step {c : Heap.Config} {h : Heap} (hc : h.Calm c) (m : Machine) : (m.step h).2.1.Calm c := by
  rw [Machine.heap_step]
  cases m.heapCall? with
  | none => exact hc
  | some a => exact hc.call a

namespace Strict

variable {σ α β : Type}

theorem bind_of_ok {st : Strict σ α} {k : α → Strict σ β} {s s' : σ} {a : α} (h : st s = .ok a s') :
    (st >>= k) s = k a s' := by
  show EStateM.bind st k s = _
  rw [EStateM.bind, h]

theorem bind_of_error {st : Strict σ α} {k : α → Strict σ β} {s s' : σ} {e : Stop} (h : st s = .error e s') :
    (st >>= k) s = .error e s' := by
  show EStateM.bind st k s = _
  rw [EStateM.bind, h]

/-! ## Operations on the heap -/

/-- A heap operation comes to the same both ways. It is refused for its handle, if at all, or comes to a slot that the
object does not have. -/
inductive Agrees : EStateM.Result Stop Heap α → EStateM.Result HeapError Heap α → Prop
  | ok (a : α) (h : Heap) : Agrees (.ok a h) (.ok a h)
  | refused {e : HeapError} (h : Heap) : e.status = .invalidHandle → Agrees (.error (.escape (.uncaught e)) h) (.error e h)
  | beyond (slot size : Nat) (h : Heap) :
      Agrees (.error (.fault (.slotOutOfRange slot size)) h) (.error (.slotOutOfRange slot size) h)

section

variable {h : Heap} {x : Handle} {e : Entry}

theorem entryAt_of_entry {i : UInt32} (he : h.entries[i.toNat]? = some e) : entryAt i h = .ok e h := by
  simp [entryAt, he]

theorem changeEntry_of_entry {i : UInt32} (he : h.entries[i.toNat]? = some e) (f : Entry → Entry) :
    changeEntry i f h = .ok () (h.updateEntry i f) := by
  simp [changeEntry, Heap.lt_of_entry he]

theorem await_of_free (hfree : h.held = []) (i : UInt32) : await i h = .ok () h := by
  simp [await, Heap.isHeld, hfree]

theorem lockValid_of_valid (hfree : h.held = []) (he : h.entries[x.index.toNat]? = some e) (ha : e.answers x = true) :
    lockValid x h = .ok e h := by
  unfold lockValid
  rw [if_neg (Nat.not_le.mpr (Heap.lt_of_entry he)), bind_of_ok (await_of_free hfree _), bind_of_ok (entryAt_of_entry he),
    if_pos ha]
  rfl

theorem lockValid_of_not_valid (hfree : h.held = []) (hx : h.isValid x = false) :
    lockValid x h = .error (.escape (.uncaught (h.refusal x))) h := by
  unfold lockValid Heap.refusal
  by_cases hsize : h.entries.size ≤ x.index.toNat
  · rw [if_pos hsize, if_neg (Nat.not_lt.mpr hsize)]
  · have hlt : x.index.toNat < h.entries.size := Nat.lt_of_not_le hsize
    have he := Array.getElem?_eq_getElem hlt
    have ha : h.entries[x.index.toNat].answers x ≠ true := by simpa [Heap.isValid, he] using hx
    rw [if_neg hsize, if_pos hlt, bind_of_ok (await_of_free hfree _), bind_of_ok (entryAt_of_entry he), if_neg ha]
    rfl

theorem entry_of_valid (hx : h.isValid x = true) : ∃ e, h.entries[x.index.toNat]? = some e ∧ e.answers x = true := by
  simpa [Heap.isValid, Option.any_eq_true] using hx

/-! ### Under a guard -/

/-- The heap with one object that somebody is inside. -/
def entered (h : Heap) (i : UInt32) : Heap := { h with held := [i] }

variable {work : Guard → Strict Heap α}

theorem inside_of_ok {a : α} {h' : Heap} (hfree : h.held = []) (hx : h.isValid x = true) (hfree' : h'.held = [])
    (hw : work ⟨x⟩ (entered h x.index) = .ok a (entered h' x.index)) : inside x work h = .ok a h' := by
  obtain ⟨e, he, ha⟩ := entry_of_valid hx
  have hin : work ⟨x⟩ { h with held := x.index :: h.held } = .ok a (entered h' x.index) := by rw [hfree]; exact hw
  unfold inside
  simp only [lockValid_of_valid hfree he ha, hin]
  simp [entered, ← hfree']

theorem inside_of_error {s : Stop} (hfree : h.held = []) (hx : h.isValid x = true)
    (hw : work ⟨x⟩ (entered h x.index) = .error s (entered h x.index)) : inside x work h = .error s h := by
  obtain ⟨e, he, ha⟩ := entry_of_valid hx
  have hin : work ⟨x⟩ { h with held := x.index :: h.held } = .error s (entered h x.index) := by rw [hfree]; exact hw
  unfold inside
  simp only [lockValid_of_valid hfree he ha, hin]
  simp [entered, ← hfree]

/-- Without a valid handle there is no guard. -/
theorem inside_of_not_valid (hfree : h.held = []) (hx : h.isValid x = false) (work : Guard → Strict Heap α) :
    inside x work h = .error (.escape (.uncaught (h.refusal x))) h := by
  unfold inside
  simp only [lockValid_of_not_valid hfree hx]

theorem sizeUnder_of_entry {g : Guard} (he : h.entries[g.handle.index.toNat]? = some e) :
    sizeUnder g h = .ok e.slots.size h := by
  unfold sizeUnder
  rw [bind_of_ok (entryAt_of_entry he)]
  rfl

theorem slotUnder_of_lt {g : Guard} {slot : Nat} (he : h.entries[g.handle.index.toNat]? = some e)
    (hslot : slot < e.slots.size) : slotUnder g slot h = .ok e.slots[slot] h := by
  unfold slotUnder
  rw [bind_of_ok (entryAt_of_entry he), Array.getElem?_eq_getElem hslot]
  rfl

theorem putUnder_of_lt {g : Guard} {slot : Nat} (he : h.entries[g.handle.index.toNat]? = some e)
    (hslot : slot < e.slots.size) (v : Value) : putUnder g slot v h = .ok () (h.setSlot g.handle.index slot v) := by
  unfold putUnder
  rw [bind_of_ok (entryAt_of_entry he), if_pos hslot]
  exact changeEntry_of_entry he _

theorem sizeAt_of_entry {i : UInt32} (he : h.entries[i.toNat]? = some e) : h.sizeAt i = e.slots.size := by
  simp [Heap.sizeAt, Heap.slotsAt, he]

theorem agrees_of_not_valid (hx : h.isValid x = false) {st : Strict Heap α} {k : Unit → HeapM α}
    (hst : st h = .error (.escape (.uncaught (h.refusal x))) h) : Agrees (st h) ((Heap.check x >>= k) h) := by
  rw [hst, Heap.bind_check_of_not_valid hx]
  exact .refused h (Heap.status_refusal h x)

theorem agrees_readSlot (hfree : h.held = []) (x : Handle) (slot : Nat) :
    Agrees (readSlot x slot h) (Heap.readSlot x slot h) := by
  cases hx : h.isValid x with
  | false => exact agrees_of_not_valid hx (inside_of_not_valid hfree hx _)
  | true =>
    obtain ⟨e, he, -⟩ := entry_of_valid hx
    rw [Heap.readSlot, Heap.bind_check_of_valid hx, Heap.readAt, sizeAt_of_entry he, Heap.slotsAt, he]
    simp only [Option.map_some, Option.getD_some]
    by_cases hslot : slot < e.slots.size
    · rw [Array.getElem?_eq_getElem hslot]
      have hin : readSlot x slot h = .ok e.slots[slot] h := inside_of_ok hfree hx hfree (by
        rw [bind_of_ok (sizeUnder_of_entry (h := entered h x.index) he), if_neg (Nat.not_le.mpr hslot)]
        exact slotUnder_of_lt (h := entered h x.index) he hslot)
      rw [hin]
      exact .ok _ h
    · rw [Array.getElem?_eq_none (Nat.le_of_not_lt hslot)]
      have hin : readSlot x slot h = .error (.fault (.slotOutOfRange slot e.slots.size)) h := inside_of_error hfree hx (by
        rw [bind_of_ok (sizeUnder_of_entry (h := entered h x.index) he), if_pos (Nat.le_of_not_lt hslot)]
        rfl)
      rw [hin]
      exact .beyond slot e.slots.size h

theorem agrees_writeSlot (hfree : h.held = []) (x : Handle) (slot : Nat) (v : Value) :
    Agrees (writeSlot x slot v h) (Heap.writeSlot x slot v h) := by
  cases hx : h.isValid x with
  | false => exact agrees_of_not_valid hx (inside_of_not_valid hfree hx _)
  | true =>
    obtain ⟨e, he, -⟩ := entry_of_valid hx
    rw [Heap.writeSlot, Heap.bind_check_of_valid hx, Heap.writeAt, sizeAt_of_entry he]
    by_cases hslot : slot < e.slots.size
    · rw [if_pos hslot]
      have hin : writeSlot x slot v h = .ok () (h.setSlot x.index slot v) := inside_of_ok hfree hx hfree (by
        rw [bind_of_ok (sizeUnder_of_entry (h := entered h x.index) he), if_neg (Nat.not_le.mpr hslot)]
        exact putUnder_of_lt (h := entered h x.index) he hslot v)
      rw [hin]
      exact .ok () _
    · rw [if_neg hslot]
      have hin : writeSlot x slot v h = .error (.fault (.slotOutOfRange slot e.slots.size)) h :=
        inside_of_error hfree hx (by
          rw [bind_of_ok (sizeUnder_of_entry (h := entered h x.index) he), if_pos (Nat.le_of_not_lt hslot)]
          rfl)
      rw [hin]
      exact .beyond slot e.slots.size h

theorem agrees_sizeOf (hfree : h.held = []) (x : Handle) : Agrees (sizeOf x h) (Heap.sizeOf x h) := by
  cases hx : h.isValid x with
  | false => exact agrees_of_not_valid hx (inside_of_not_valid hfree hx _)
  | true =>
    obtain ⟨e, he, -⟩ := entry_of_valid hx
    have hin : sizeOf x h = .ok e.slots.size h :=
      inside_of_ok hfree hx hfree (sizeUnder_of_entry (h := entered h x.index) he)
    have hsize : Heap.sizeOf x h = .ok (h.sizeAt x.index) h := Heap.bind_check_of_valid hx _
    rw [hin, hsize, sizeAt_of_entry he]
    exact .ok _ h

/-! ### Counts and allocations -/

theorem agrees_retain (hfree : h.held = []) (x : Handle) : Agrees (retain x h) (Heap.retain x h) := by
  cases hx : h.isValid x with
  | false => exact agrees_of_not_valid hx (bind_of_error (lockValid_of_not_valid hfree hx))
  | true =>
    obtain ⟨e, he, ha⟩ := entry_of_valid hx
    have hst : retain x h = .ok () (h.updateEntry x.index fun e => { e with refCount := e.refCount + 1 }) := by
      rw [retain, bind_of_ok (lockValid_of_valid hfree he ha), changeEntry_of_entry he]
    rw [hst, Heap.retain, Heap.bind_check_of_valid hx]
    exact .ok () _

theorem agrees_release {c : Heap.Config} (hc : h.Calm c) (x : Handle) : Agrees (release x h) (Heap.release x h) := by
  cases hx : h.isValid x with
  | false => exact agrees_of_not_valid hx (bind_of_error (lockValid_of_not_valid hc.free hx))
  | true =>
    obtain ⟨e, he, ha⟩ := entry_of_valid hx
    have hcount : h.refCountAt x.index = e.refCount := by simp [Heap.refCountAt, he]
    have hclass : h.classAt x.index = e.sizeClass.toNat := by simp [Heap.classAt, he]
    have hst : release x h = .ok (h.dropReference x.index).1 (h.dropReference x.index).2 := by
      rw [release, bind_of_ok (lockValid_of_valid hc.free he ha), Heap.dropReference, hcount]
      by_cases hpos : 0 < e.refCount - 1
      · simp only [if_pos hpos]
        rw [bind_of_ok (changeEntry_of_entry he _)]
        rfl
      · simp only [if_neg hpos]
        -- the class that the entry says it belongs to is there
        have hlt := Heap.lt_of_entry he
        obtain ⟨k, hk⟩ := hc.sound.books.class_of_index hlt
        rw [← hc.sound.books.classAt_eq hlt, hclass] at hk
        have hsize : e.sizeClass.toNat < h.classes.size := (Array.getElem?_eq_some_iff.mp hk).1
        have hchange : changeClass e.sizeClass.toNat (·.recycle x.index) (h.updateEntry x.index Entry.kill) =
            .ok () (h.retire x.index) := by
          unfold changeClass
          rw [if_pos (by simpa using hsize), Heap.retire, hclass]
        rw [bind_of_ok (changeEntry_of_entry he _), bind_of_ok hchange]
        rfl
    rw [hst, Heap.release, Heap.bind_check_of_valid hx]
    exact .ok _ _

/-- An allocation answers with a handle or with one of two refusals. -/
theorem tryAllocate_cases {c : Heap.Config} (hc : h.Calm c) (n : Nat) :
    (∃ x h', tryAllocate n h = .ok (.ok x) h' ∧ Heap.allocate n h = .ok x h') ∨
    (tryAllocate n h = .ok (.error .outOfMemory) h ∧ Heap.allocate n h = .error (.exhausted n h.capacity) h) ∨
    (tryAllocate n h = .ok (.error .invalidSizeClass) h ∧
      Heap.allocate n h = .error (.noSuchClass n h.classes.size) h) := by
  unfold tryAllocate
  rcases Heap.allocate_cases (h := h) n with ⟨k, i, rest, hk, hf, ha⟩ | ⟨k, hk, hf, ha⟩ | ⟨hk, ha⟩
  · left
    refine ⟨_, _, ?_, ha⟩
    have hn : n < h.classes.size := (Array.getElem?_eq_some_iff.mp hk).1
    have hclass : classAt n h = .ok k h := by simp [classAt, hk]
    have htake : changeClass n SizeClass.take h = .ok () (h.updateClass n SizeClass.take) := if_pos hn
    have hmem : i ∈ k.free := by rw [hf]; exact List.mem_cons_self
    have hi : i.toNat < h.entries.size := ((hc.sound.books.memFree n k hk i).mp hmem).2.1
    have hawait : await i (h.updateClass n SizeClass.take) = .ok () (h.updateClass n SizeClass.take) :=
      await_of_free (h := h.updateClass n SizeClass.take) hc.free i
    have he : (h.updateClass n SizeClass.take).entries[i.toNat]? = some h.entries[i.toNat] :=
      Array.getElem?_eq_getElem hi
    have hgeneration : h.generationAt i = h.entries[i.toNat].generation := by simp [Heap.generationAt, hi]
    rw [if_neg (Nat.not_le.mpr hn), bind_of_ok hclass]
    simp only [hf]
    rw [bind_of_ok htake, bind_of_ok hawait, bind_of_ok (entryAt_of_entry he),
      bind_of_ok (changeEntry_of_entry he _), hgeneration]
    rfl
  · right; left
    have hn : n < h.classes.size := (Array.getElem?_eq_some_iff.mp hk).1
    have hclass : classAt n h = .ok k h := by simp [classAt, hk]
    refine ⟨?_, ha⟩
    rw [if_neg (Nat.not_le.mpr hn), bind_of_ok hclass]
    simp only [hf]
    rfl
  · right; right
    exact ⟨if_pos (Array.getElem?_eq_none_iff.mp hk), ha⟩

end

/-! ## Actions of a machine -/

/-- What an action comes to, where nothing else can stop it but a fault. -/
def lifted : EStateM.Result Cause σ α → EStateM.Result Stop σ α
  | .ok a s => .ok a s
  | .error c s => .error (.fault c) s

/-- As long as the heap is at rest an action does what its counterpart does, and leaves the heap at rest. -/
structure Follows (c : Heap.Config) (st : Strict Frame α) (act : Exec α) : Prop where
  same : ∀ f, f.heap.Calm c → st f = lifted (act f)
  calm : ∀ f, f.heap.Calm c → (Exec.heapAfter act f).Calm c

section

variable {c : Heap.Config} {st : Strict Frame α} {act : Exec α}

theorem Follows.bind {k' : α → Strict Frame β} {k : α → Exec β} (h : Follows c st act)
    (hk : ∀ a, Follows c (k' a) (k a)) : Follows c (st >>= k') (act >>= k) where
  same f hf := by
    have hsame := h.same f hf
    have hcalm := h.calm f hf
    unfold Exec.heapAfter at hcalm
    cases hx : act f with
    | ok a f' =>
      rw [hx] at hsame hcalm
      rw [bind_of_ok hsame, Exec.bind_of_ok hx, (hk a).same f' hcalm]
    | error e f' =>
      rw [hx] at hsame
      rw [bind_of_error hsame, Exec.bind_of_error hx]
      rfl
  calm f hf := by
    have hcalm := h.calm f hf
    unfold Exec.heapAfter at hcalm
    rw [Exec.heapAfter_bind]
    cases hx : act f with
    | ok a f' => rw [hx] at hcalm; exact (hk a).calm f' hcalm
    | error e f' => rw [hx] at hcalm; exact hcalm

/-- An action that has nothing to do with the heap. -/
theorem follows_of_still (hstill : Exec.Still act) (hsame : ∀ f, st f = lifted (act f)) : Follows c st act where
  same f _ := hsame f
  calm f hf := by rw [hstill f]; exact hf

theorem follows_pure (a : α) : Follows c (pure a) (pure a) := follows_of_still (Exec.still_pure a) fun _ => rfl

theorem follows_fault (e : Cause) : Follows c (fault e : Strict Frame α) (throw e) :=
  follows_of_still (Exec.keeps_throw e).still fun _ => rfl

theorem Follows.andNext {st : Strict Frame Unit} {act : Exec Unit} (h : Follows c st act) :
    Follows c (andNext st) (Exec.andNext act) :=
  h.bind fun _ => follows_pure _

theorem follows_get : Follows c get get := follows_of_still Exec.keeps_get.still fun _ => rfl

/-! ### The stack -/

theorem cellAt_of_lt {f : Frame} {i : Nat} (hi : i < f.stack.cells.size) : cellAt i f = .ok f.stack.cells[i] f := by
  simp [cellAt, hi]

theorem setCell_of_lt {f : Frame} {i : Nat} (hi : i < f.stack.cells.size) (v : Value) :
    setCell i v f = .ok () { f with stack := ⟨f.stack.cells.set i v, f.stack.top, by simpa using f.stack.top_le⟩ } :=
  dif_pos hi

theorem setTop_of_le {f : Frame} {n : Nat} (hn : n ≤ f.stack.cells.size) :
    setTop n f = .ok () { f with stack := ⟨f.stack.cells, n, hn⟩ } :=
  dif_pos hn

theorem get_bind {k : σ → Strict σ β} (s : σ) : (get >>= k) s = k s s := rfl

theorem follows_push (v : Value) : Follows c (push v) (Exec.push v) := by
  refine follows_of_still (Exec.still_push v) ?_
  rintro ⟨⟨cells, n, hn⟩, r, heap⟩
  rw [push, get_bind, Exec.push, Stack.push, Stack.capacity]
  by_cases hlt : n < cells.size
  · rw [if_neg (Nat.not_le.mpr hlt), dif_pos hlt, bind_of_ok (setCell_of_lt hlt v),
      setTop_of_le (by simpa using Nat.succ_le_of_lt hlt)]
    rfl
  · rw [if_pos (Nat.le_of_not_lt hlt), dif_neg hlt]
    rfl

theorem follows_pop : Follows c pop Exec.pop := by
  refine follows_of_still (Exec.keeps_pop Exec.coarse_heap).still ?_
  rintro ⟨⟨cells, n, hn⟩, r, heap⟩
  rw [pop, get_bind, Exec.pop, Stack.pop]
  by_cases hpos : 0 < n
  · have hbelow : n - 1 < cells.size := by omega
    rw [if_neg (Nat.pos_iff_ne_zero.mp hpos), dif_pos hpos, bind_of_ok (cellAt_of_lt hbelow),
      bind_of_ok (setTop_of_le (Nat.le_of_lt hbelow))]
    rfl
  · rw [if_pos (Nat.eq_zero_of_not_pos hpos), dif_neg hpos]
    rfl

theorem follows_top (e : Cause) : Follows c (top e) (Exec.top e) := by
  refine follows_of_still (Exec.keeps_top e).still ?_
  rintro ⟨⟨cells, n, hn⟩, r, heap⟩
  rw [top, get_bind, Exec.top, Stack.peek]
  by_cases hpos : 0 < n
  · have hbelow : n - 1 < cells.size := by omega
    rw [if_neg (Nat.not_le.mpr hpos), dif_pos hpos, cellAt_of_lt hbelow]
    rfl
  · rw [if_pos (Nat.le_of_not_lt hpos), dif_neg hpos]
    rfl

theorem follows_swapTop : Follows c swapTop Exec.swapTop := by
  refine follows_of_still (Exec.keeps_swapTop Exec.coarse_heap).still ?_
  rintro ⟨⟨cells, n, hn⟩, r, heap⟩
  rw [swapTop, get_bind, Exec.swapTop, Stack.swapTop]
  by_cases htwo : 2 ≤ n
  · have hfirst : n - 1 < cells.size := by omega
    have hsecond : n - 2 < cells.size := by omega
    rw [if_neg (Nat.not_lt.mpr htwo), dif_pos htwo, bind_of_ok (cellAt_of_lt hfirst), bind_of_ok (cellAt_of_lt hsecond),
      bind_of_ok (setCell_of_lt hfirst _), setCell_of_lt (by simpa using hsecond)]
    simp only [Array.swap_def, lifted]
  · rw [if_pos (Nat.lt_of_not_le htwo), dif_neg htwo]
    rfl

theorem follows_clear : Follows c (setTop 0) Exec.clear :=
  follows_of_still (Exec.keeps_clear Exec.coarse_heap).still fun _ => setTop_of_le (Nat.zero_le _)

/-- A value that is not of the kind asked for can at least be written out. -/
theorem spell_bind (v : Value) {k : String → Strict σ β} (s : σ) : (spell v >>= k) s = k v.text s := by
  cases v <;> rfl

theorem follows_popRaw : Follows c popRaw Exec.popRaw := by
  refine follows_pop.bind fun v => ?_
  cases v with
  | raw bits => exact follows_pure bits
  | ref x => exact follows_fault (.expectedRaw (.ref x))

theorem follows_popReference : Follows c popReference Exec.popReference := by
  refine follows_pop.bind fun v => ?_
  cases v with
  | raw bits => exact follows_fault (.expectedReference (.raw bits))
  | ref x => exact follows_pure x

theorem follows_twoOperands (op : Opcode) : Follows c (twoOperands op) (Exec.twoOperands op) := by
  refine follows_of_still (Exec.keeps_twoOperands op).still fun f => ?_
  rw [twoOperands, get_bind, Exec.twoOperands, Stack.size]
  by_cases htwo : f.stack.top < 2
  · rw [if_pos htwo, if_pos htwo]; rfl
  · rw [if_neg htwo, if_neg htwo]; rfl

/-! ### Operators, inputs and jumps -/

/-- An operator's result, if it has one. -/
theorem follows_result (o : Option UInt64) :
    Follows c (match o with | some v => push (.raw v) | none => fault .divisionByZero)
      (match o with | some v => Exec.push (.raw v) | none => throw .divisionByZero) := by
  cases o with
  | some v => exact follows_push (.raw v)
  | none => exact follows_fault .divisionByZero

theorem follows_integer (o : IntOp) : Follows c (integer (.int o)) (Exec.operator (.int o) o.apply) :=
  (follows_twoOperands _).bind fun _ => follows_popRaw.bind fun b => follows_popRaw.bind fun a =>
    follows_result (o.apply a b)

theorem follows_float (o : FloatOp) : Follows c (float (.float o)) (Exec.operator (.float o) o.apply) :=
  (follows_twoOperands _).bind fun _ => follows_popRaw.bind fun b => follows_popRaw.bind fun a =>
    follows_result (o.apply a b)

theorem follows_jump (p : Program) (target : UInt64) : Follows c (jump p target) (Exec.jump p target) := by
  unfold jump Exec.jump
  split
  · exact follows_fault _
  · exact follows_pure _

theorem follows_pushInput (p : Program) (side : Side) (i : Nat) :
    Follows c (pushInput p side i) (Exec.pushInput p side i) := by
  unfold pushInput Exec.pushInput
  by_cases hi : (p.inputs side).size ≤ i
  · rw [if_pos hi, Array.getElem?_eq_none hi]
    exact follows_fault _
  · have hv := Array.getElem?_eq_getElem (Nat.lt_of_not_le hi)
    simp only [if_neg hi, inputAt, hv]
    exact follows_push _

/-! ### Objects -/

theorem follows_catching {work : Strict Heap α} {use : HeapM α} (x : Handle)
    (hagrees : ∀ h : Heap, h.Calm c → Agrees (work h) (use h))
    (hcalm : ∀ h : Heap, h.Calm c → (Heap.after use h).Calm c) :
    Follows c (catching x work) (Exec.onHeap (Cause.ofHandleUse x) use) where
  calm f hf := by rw [Exec.heapAfter_onlyHeap]; exact hcalm _ hf
  same := by
    rintro ⟨stack, r, heap⟩ hf
    have ha := hagrees heap hf
    simp only [catching, Exec.onHeap]
    generalize work heap = w at ha
    generalize use heap = u at ha
    cases ha with
    | ok a h | beyond slot size h => rfl
    | @refused e h he =>
      cases e with
      | stale | indexOutOfRange => rfl
      | _ => cases he

theorem room_of_full {f : Frame} (hfull : f.stack.top = f.stack.capacity) :
    Exec.room f = .error (.stackOverflow f.stack.capacity) f :=
  if_pos (beq_iff_eq.mpr hfull)

theorem room_of_not_full {f : Frame} (hfull : f.stack.top ≠ f.stack.capacity) : Exec.room f = .ok () f :=
  if_neg fun h => hfull (beq_iff_eq.mp h)

theorem follows_alloc (n : Nat) : Follows c (alloc n) (Exec.alloc n) where
  calm f hf := by
    rw [Exec.heapAfter_alloc]
    split
    · exact hf
    · exact hf.call (.allocate n)
  same := by
    rintro ⟨stack, r, heap⟩ hf
    rw [alloc, get_bind, Exec.alloc]
    by_cases hfull : stack.top = stack.capacity
    · rw [if_pos hfull, Exec.bind_of_error (room_of_full hfull)]
      rfl
    rw [if_neg hfull, Exec.bind_of_ok (room_of_not_full hfull)]
    rcases tryAllocate_cases hf n with ⟨x, h', htry, ha⟩ | ⟨htry, ha⟩ | ⟨htry, ha⟩
    · have hst : uncaught (tryAllocate n) ⟨stack, r, heap⟩ = .ok (.ok x) ⟨stack, r, h'⟩ := by simp [uncaught, htry]
      have hact : Exec.onHeap Cause.ofAllocation (Heap.allocate n) ⟨stack, r, heap⟩ = .ok x ⟨stack, r, h'⟩ := by
        simp [Exec.onHeap, ha]
      rw [bind_of_ok hst, Exec.bind_of_ok hact]
      have hcalm : h'.Calm c := by simpa [Heap.Call.after, Heap.after, ha] using hf.call (.allocate n)
      exact (follows_push (.ref x)).same _ hcalm
    · have hst : uncaught (tryAllocate n) ⟨stack, r, heap⟩ = .ok (.error .outOfMemory) ⟨stack, r, heap⟩ := by
        simp [uncaught, htry]
      have hact : Exec.onHeap Cause.ofAllocation (Heap.allocate n) ⟨stack, r, heap⟩ =
          .error (.exhausted n) ⟨stack, r, heap⟩ := by
        simp [Exec.onHeap, ha, Cause.ofAllocation]
      rw [bind_of_ok hst, Exec.bind_of_error hact]
      rfl
    · have hst : uncaught (tryAllocate n) ⟨stack, r, heap⟩ = .ok (.error .invalidSizeClass) ⟨stack, r, heap⟩ := by
        simp [uncaught, htry]
      have hact : Exec.onHeap Cause.ofAllocation (Heap.allocate n) ⟨stack, r, heap⟩ =
          .error (.noSuchClass n heap.classCount) ⟨stack, r, heap⟩ := by
        simp [Exec.onHeap, ha, Cause.ofAllocation, Heap.classCount]
      rw [bind_of_ok hst, Exec.bind_of_error hact]
      rfl

theorem follows_prop (slot : Nat) : Follows c (prop slot) (Exec.prop slot) :=
  follows_popReference.bind fun x =>
    (follows_catching x (fun _ h => agrees_readSlot h.free x slot) fun _ h => h.call (.read x slot)).bind follows_push

theorem follows_setProp (slot : Nat) : Follows c (setProp slot) (Exec.setProp slot) :=
  follows_pop.bind fun v => follows_popReference.bind fun x =>
    follows_catching x (fun _ h => agrees_writeSlot h.free x slot v) fun _ h => h.call (.write x slot v)

theorem follows_objectSize : Follows c objectSize Exec.sizeOf :=
  follows_popReference.bind fun x =>
    (follows_catching x (fun _ h => agrees_sizeOf h.free x) fun _ h => h.call (.sizeOf x)).bind fun _ => follows_push _

theorem follows_retain :
    Follows c (popReference >>= fun x => catching x (retain x)) Exec.retain :=
  follows_popReference.bind fun x =>
    follows_catching x (fun _ h => agrees_retain h.free x) fun _ h => h.call (.retain x)

theorem follows_release :
    Follows c (popReference >>= fun x => catching x (release x) >>= fun _ => pure ()) Exec.release :=
  follows_popReference.bind fun x =>
    (follows_catching x (fun _ h => agrees_release h x) fun _ h => h.call (.release x)).bind fun _ => follows_pure ()

/-! ### Every instruction -/

theorem follows_jumpIf (p : Program) (op : Opcode) (taken : UInt64 → Bool) (target : UInt64)
    (htaken : ∀ v, (if op = .jumpIfZero then v == 0 else v != 0) = taken v) :
    Follows c (do
      let condition ← popRaw
      if (if op = .jumpIfZero then condition == 0 else condition != 0) then jump p target else return .next)
      (Exec.jumpIf p taken target) := by
  refine follows_popRaw.bind fun v => ?_
  rw [htaken v]
  cases taken v with
  | true => exact follows_jump p target
  | false => exact follows_pure _

theorem follows_dispatch (p : Program) (i : Instruction) :
    Follows c (dispatch p i.op.byte i.operand) (Exec.instruction p i) := by
  rcases i with ⟨op, operand⟩
  unfold dispatch
  simp only [Opcode.ofByte?_byte]
  cases op with
  | unreachable => exact follows_fault _
  | noop | halt => exact follows_pure _
  | jump => exact follows_jump p operand
  | jumpIfZero => exact follows_jumpIf p .jumpIfZero (· == 0) operand fun _ => rfl
  | jumpIfNotZero => exact follows_jumpIf p .jumpIfNotZero (· != 0) operand fun _ => rfl
  | pushInput side => exact (follows_pushInput p side _).andNext
  | pushR => exact (follows_get.bind fun f => follows_push f.r).andNext
  | pop => exact (follows_pop.bind fun _ => follows_pure ()).andNext
  | popIntoR =>
    exact (follows_pop.bind fun v =>
      follows_of_still (Exec.keeps_setRegister Exec.coarse_heap v).still fun _ => rfl).andNext
  | dup => exact ((follows_top _).bind follows_push).andNext
  | swap => exact follows_swapTop.andNext
  | pushWord => exact (follows_push _).andNext
  | clear => exact follows_clear.andNext
  | int o => exact (follows_integer o).andNext
  | float o => exact (follows_float o).andNext
  | alloc => exact (follows_alloc _).andNext
  | prop => exact (follows_prop _).andNext
  | setProp => exact (follows_setProp _).andNext
  | sizeOf => exact follows_objectSize.andNext
  | retain => exact follows_retain.andNext
  | release => exact follows_release.andNext
  | print => exact (follows_top _).bind fun v => follows_of_still (Exec.still_pure _) fun f => spell_bind v f

end

/-! ## Steps and runs -/

variable {c : Heap.Config} {h : Heap}

theorem perform_eq (hc : h.Calm c) (m : Machine) (i : Instruction) :
    perform m i.op.byte i.operand i.length h = .ok (m.perform i h) := by
  have hsame := (follows_dispatch (c := c) m.program i).same (m.frame h) hc
  unfold perform
  rw [traceLines_eq, hsame]
  cases hx : Exec.instruction m.program i (m.frame h) with
  | ok flow f => rw [Machine.perform_of_ok hx]; rfl
  | error e f => rw [Machine.perform_of_error hx]; rfl

theorem step_eq (hc : h.Calm c) (m : Machine) : step m h = .ok (m.step h) := by
  unfold step Machine.step
  cases m.status with
  | halted | faulted e => rfl
  | running =>
    simp only
    split
    next => rfl
    split
    next => rfl
    split
    next => rfl
    rw [fetch_eq]
    cases hd : Instruction.decode m.program.code m.pc with
    | ok i => exact perform_eq hc m i
    | error e =>
      cases e with
      | endOfCode => rfl
      | illegalOpcode b =>
        simp only [fetched, bind, Except.bind, byteAt_of_illegal hd]
        rfl
      | truncated op =>
        obtain ⟨b, hb, hop⟩ := byteAt_of_truncated hd
        simp only [fetched, bind, Except.bind, hb, hop]
        rfl

theorem run_eq (hc : h.Calm c) (n : Nat) (m : Machine) (log : Array Log.Line) :
    run n m h log = .ok (m.run n h log) := by
  induction n generalizing m h log with
  | zero => rfl
  | succ n ih =>
    unfold run Machine.run
    split
    next => simp only [step_eq hc m, bind, Except.bind]; exact ih (hc.step m) _ _
    next => rfl

theorem execute_eq (hc : h.Calm c) (m : Machine) : execute m h = .ok (m.execute h) := run_eq hc _ m _

end Strict

/-! ## Whatever the heap has come to -/

namespace Shared

variable {c : Heap.Config}

theorem Fit.calm {s : Shared} (hs : Fit c s) (hfree : s.guards = []) : s.heap.Calm c :=
  ⟨hs.sound, hs.held_eq_nil_iff.mpr hfree⟩

/-- Whatever has been done with a new heap, once all guards have been dropped, every machine can be run on it, one step
or any number of them: with every access made as it stands the steps are still those of the machine, and none of them
ends in an escape. -/
theorem nothing_escapes {h₀ : Heap} (hc : Heap.ofConfig c = .ok h₀) (os : List Op)
    (hfree : ((start h₀).run os).guards = []) :
    let h := ((start h₀).run os).heap
    (∀ (p : Program) (s : Settings), s.stackCapacity ≤ Stack.maxCapacity →
      ∃ m lines, Machine.create p s = .ok (m, lines) ∧
        (∀ n, Strict.run n m h #[] = .ok (m.run n h #[])) ∧ Strict.execute m h = .ok (m.execute h)) ∧
    ∀ m : Machine, Strict.step m h = .ok (m.step h) := by
  intro h
  have hcalm : h.Calm c := (fit_run hc os).calm hfree
  refine ⟨fun p s hs => ?_, Strict.step_eq hcalm⟩
  have hcreate : Machine.create p s = .ok (Machine.start p s (Stack.empty s.stackCapacity)) := by
    simp [Machine.create, Stack.create, Nat.not_lt.mpr hs]
  exact ⟨_, _, hcreate, fun n => Strict.run_eq hcalm n _ _, Strict.execute_eq hcalm _⟩

/-- A machine that has been given a reference to nowhere reads through it: it faults, and nothing else goes wrong. -/
theorem nothing_escapes_forged :
    let c : Heap.Config := ⟨[1], 1⟩
    let os : List Op := [.call (.allocate 0), .lock ⟨0, 0⟩, .unlock ⟨⟨0, 0⟩⟩, .call (.release ⟨0, 0⟩)]
    let h := ((start (Heap.build c)).run os).heap
    let p : Program := ⟨#[(Opcode.pushInput .a).byte, 0, Opcode.prop.byte, 255], 0, #[.ref ⟨4294967295, 7⟩], #[]⟩
    Heap.ofConfig c = .ok (Heap.build c) ∧ ((start (Heap.build c)).run os).guards = [] ∧
      ∃ m lines, Machine.create p { stackCapacity := 1 } = .ok (m, lines) ∧
        Strict.execute m h = .ok (m.execute h) ∧ Strict.run 2 m h #[] = .ok (m.run 2 h #[]) ∧
        (m.run 2 h #[]).1.status = .faulted (.invalidReference ⟨4294967295, 7⟩) := by
  intro c os h p
  have hc : Heap.ofConfig c = .ok (Heap.build c) := by cbv
  have hfree : ((start (Heap.build c)).run os).guards = [] := by decide
  have hcapacity : 1 ≤ Stack.maxCapacity := by decide
  obtain ⟨m, lines, hm, hrun, hexecute⟩ := (nothing_escapes hc os hfree).1 p { stackCapacity := 1 } hcapacity
  refine ⟨hc, hfree, m, lines, hm, hexecute, hrun 2, ?_⟩
  cases hm
  decide

/-- With a guard on the object the same machine would have to wait. -/
example :
    let h := ((start (Heap.build ⟨[1], 1⟩)).run [.call (.allocate 0), .lock ⟨0, 0⟩]).heap
    Strict.step (Machine.ready ⟨#[Opcode.sizeOf.byte], 0, #[], #[]⟩ {} ⟨#[.ref ⟨0, 0⟩], 1, by decide⟩) h =
      .error (.waits 0) := by
  rfl

end Shared

end StackVM
