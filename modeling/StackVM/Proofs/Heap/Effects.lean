/-
  StackVM.Proofs.Heap.Effects — what a call is answered, and what it does to the one entry it is about.

  A call that names an object is answered from that object's entry alone, and changes no other. `Call.answer` is
  what a call gives back; what has happened can be told from it. `Event.effect` is what has become of the entry.
  Two heaps that are the `SameAt` a handle cannot be told apart by calls that name it.

  - `Change.entry`: every entry after an event, collections apart.
  - `Change.ref_stored`: a reference found in a slot was there before or has just been written.
  - `Call.answer_congr`: calls with one handle are answered alike by heaps that are the same at it.
-/

import StackVM.Proofs.Heap.Contents

namespace StackVM

namespace Heap

variable {h h' : Heap}

/-! ## The entry that an event is about -/

namespace Event

/-- The handle that an event is about. A collection is about the whole table. -/
def handle? : Event → Option Handle
  | made x | wrote x _ _ | retained x | released x _ => some x
  | collected _ => none

/-- What an event makes of the entry it is about. -/
def effect : Event → Entry → Entry
  | made _, e => e.revive
  | wrote _ slot v, e => { e with slots := e.slots.setIfInBounds slot v }
  | retained _, e => { e with refCount := e.refCount + 1 }
  | released _ false, e => { e with refCount := e.refCount - 1 }
  | released _ true, e => e.kill
  | collected _, e => e

end Event

theorem refCountAt_of_entry {i : UInt32} {e : Entry} (he : h.entries[i.toNat]? = some e) :
    h.refCountAt i = e.refCount := by
  simp [refCountAt, he]

/-- Where nothing happens the heap stays as it is. -/
theorem Change.eq_of_none (hc : Change h Option.none h') : h' = h := by
  cases hc
  rfl

/-- An event changes the entry it is about, and no other. -/
theorem Change.entry {ev : Event} (hc : Change h (some ev) h') {x : Handle} (hx : ev.handle? = some x) (j : Nat) :
    h'.entries[j]? = if x.index.toNat = j then (h.entries[j]?).map ev.effect else h.entries[j]? := by
  cases hc with
  | made hk hf => cases hx; exact entries_handOut _ _ _ _
  | wrote v hv hslot => cases hx; exact entries_updateEntry _ _ _ _
  | retained hv => cases hx; exact entries_updateEntry _ _ _ _
  | freed hv hlast hfree => cases hx; exact entries_retire _ _ _
  | dropped hv hpos =>
    cases hx
    rw [entries_updateEntry]
    split
    next hj =>
      cases he : h.entries[j]? with
      | none => rfl
      | some e =>
        -- the count that is written is the entry's own, less one
        have hcount := refCountAt_of_entry (i := x.index) (hj ▸ he)
        simp [Event.effect, hcount]
    next => rfl
  | collected roots => cases hx

theorem Change.entry_elsewhere {ev : Event} (hc : Change h (some ev) h') {x : Handle} (hx : ev.handle? = some x)
    {j : Nat} (hj : x.index.toNat ≠ j) : h'.entries[j]? = h.entries[j]? := by
  rw [hc.entry hx, if_neg hj]

theorem Change.tableSize {ev : Event} (hc : Change h (some ev) h') {x : Handle} (hx : ev.handle? = some x) :
    h'.entries.size = h.entries.size := by
  cases hc with
  | made | wrote | retained | dropped | freed =>
    simp [handOut, setSlot, retire, updateEntry, updateClass]
  | collected roots => cases hx

/-- What an event is about is there before it, unless it is made only then. -/
theorem Change.made_or_valid {ev : Event} (hc : Change h (some ev) h') {x : Handle} (hx : ev.handle? = some x) :
    ev = .made x ∨ h.isValid x = true := by
  cases hc with
  | made hk hf => cases hx; exact .inl rfl
  | wrote v hv hslot => cases hx; exact .inr hv
  | retained hv => cases hx; exact .inr hv
  | dropped hv hpos => cases hx; exact .inr hv
  | freed hv hlast hfree => cases hx; exact .inr hv
  | collected roots => cases hx

/-! ## References in slots -/

theorem not_ref_mem_replicate (n : Nat) (x : Handle) : .ref x ∉ Array.replicate n (Value.raw 0) := by
  intro hx
  cases (Array.mem_replicate.mp hx).2

theorem mem_of_mem_setIfInBounds {vs : Array Value} {k : Nat} {v w : Value} (hw : w ∈ vs.setIfInBounds k v) :
    w = v ∨ w ∈ vs := by
  obtain ⟨j, hj⟩ := Array.mem_iff_getElem?.mp hw
  rw [Array.getElem?_setIfInBounds] at hj
  split at hj
  next =>
    split at hj
    next => exact .inl (Option.some.inj hj).symm
    next => cases hj
  next => exact .inr (Array.mem_of_getElem? hj)

/-- A reference in a slot of an object was there before, or an event has just written it. -/
theorem Change.ref_stored {ev : Event} (hc : Change h (some ev) h') {z : Handle} (hz : ev.handle? = some z)
    {x y : Handle} (hx : h'.isValid x = true) (hy : .ref y ∈ h'.slotsAt x.index) :
    (h.isValid x = true ∧ .ref y ∈ h.slotsAt x.index) ∨ ∃ slot, ev = .wrote x slot (.ref y) := by
  obtain ⟨e, he, hl, hg⟩ := isValid_iff.mp hx
  rw [slotsAt_of_entry he] at hy
  have hentry := hc.entry hz x.index.toNat
  by_cases hi : z.index.toNat = x.index.toNat
  · rw [if_pos hi, he] at hentry
    obtain ⟨e₀, he₀, rfl⟩ := Option.map_eq_some_iff.mp hentry.symm
    -- an event that leaves the object alive and its slots alone
    have hkept : e₀.live = true → e₀.generation = x.generation → .ref y ∈ e₀.slots →
        (h.isValid x = true ∧ .ref y ∈ h.slotsAt x.index) ∨ ∃ slot, ev = .wrote x slot (.ref y) := by
      intro hl₀ hg₀ hy₀
      left
      rw [slotsAt_of_entry he₀]
      exact ⟨isValid_iff.mpr ⟨e₀, he₀, hl₀, hg₀⟩, hy₀⟩
    cases ev with
    | made w => exact absurd hy (not_ref_mem_replicate _ y)
    | retained w => exact hkept hl hg hy
    | released w gone =>
      cases gone with
      | true => cases hl
      | false => exact hkept hl hg hy
    | collected n => cases hz
    | wrote w slot v =>
      cases hz
      rcases mem_of_mem_setIfInBounds hy with rfl | hy
      · right
        cases hc with
        | wrote _ hv _ =>
          have hx₀ : h.isValid x = true := isValid_iff.mpr ⟨e₀, he₀, hl, hg⟩
          rw [handle_unique hx₀ hv (UInt32.toNat_inj.mp hi)]
          exact ⟨slot, rfl⟩
      · exact hkept hl hg hy
  · rw [if_neg hi, he] at hentry
    left
    rw [slotsAt_of_entry hentry.symm]
    exact ⟨isValid_iff.mpr ⟨e, hentry.symm, hl, hg⟩, hy⟩

/-! ## Answers -/

/-- What a successful call gives. -/
inductive Answer
  | handle (x : Handle)
  | value (v : Value)
  | size (slots : Nat)
  | done
  /-- A release, and whether the object is gone with it. -/
  | gone (yes : Bool)
  | count (references : UInt32)
  deriving DecidableEq, Repr

/-- What an operation comes to, apart from the heap it leaves. -/
def outcome {α : Type} (act : HeapM α) (h : Heap) : Except HeapError α :=
  match act h with
  | .ok a _ => .ok a
  | .error e _ => .error e

theorem given_eq_toOption {α : Type} (act : HeapM α) (h : Heap) : given act h = (outcome act h).toOption := by
  unfold given outcome
  cases act h <;> rfl

namespace Call

/-- The handle that a call names. -/
def handle? : Call → Option Handle
  | allocate _ => none
  | read x _ | write x _ _ | sizeOf x | retain x | release x | refCount x => some x

def answer (h : Heap) : Call → Except HeapError Answer
  | allocate n => (outcome (Heap.allocate n) h).map .handle
  | read x slot => (outcome (Heap.readSlot x slot) h).map .value
  | write x slot v => (outcome (Heap.writeSlot x slot v) h).map fun _ => .done
  | sizeOf x => (outcome (Heap.sizeOf x) h).map .size
  | retain x => (outcome (Heap.retain x) h).map fun _ => .done
  | release x => (outcome (Heap.release x) h).map .gone
  | refCount x => (outcome (Heap.refCount x) h).map .count

/-- What has happened, to be told from a call and its answer. -/
def told : Call → Answer → Option Event
  | allocate _, .handle x => some (.made x)
  | write x slot v, .done => some (.wrote x slot v)
  | retain x, .done => some (.retained x)
  | release x, .gone yes => some (.released x yes)
  | _, _ => none

theorem event_eq (a : Call) (h : Heap) : a.event h = (a.answer h).toOption.bind a.told := by
  cases a with
  | read x slot | sizeOf x | refCount x =>
    simp only [event, answer]
    cases outcome _ h <;> rfl
  | allocate n | write x slot v | retain x | release x =>
    simp only [event, answer, given_eq_toOption]
    cases outcome _ h <;> rfl

/-- An event that a call with a handle brings about is about that handle. -/
theorem handle?_of_event {a : Call} {x : Handle} (hx : a.handle? = some x) {ev : Event} (he : a.event h = some ev) :
    ev.handle? = some x := by
  cases a with
  | allocate n => cases hx
  | read y slot | sizeOf y | refCount y => cases he
  | write y slot v | retain y | release y =>
    obtain ⟨b, -, rfl⟩ := Option.map_eq_some_iff.mp he
    exact hx

/-- An event that a call brings about is an object made, or is about the handle that the call names. -/
theorem event_cases {a : Call} {ev : Event} (he : a.event h = some ev) :
    (∃ x, ev = .made x) ∨ ∃ x, a.handle? = some x ∧ ev.handle? = some x := by
  cases ha : a.handle? with
  | some x => exact .inr ⟨x, rfl, handle?_of_event ha he⟩
  | none =>
    cases a with
    | allocate n =>
      obtain ⟨x, -, rfl⟩ := Option.map_eq_some_iff.mp he
      exact .inl ⟨x, rfl⟩
    | read | write | sizeOf | retain | release | refCount => cases ha

/-- What names an object makes none. -/
theorem ne_made_of_handle? {a : Call} {x z : Handle} (ha : a.handle? = some z) : a.event h ≠ some (.made x) := by
  intro he
  cases a with
  | allocate n => cases ha
  | read y slot | sizeOf y | refCount y => cases he
  | write y slot v | retain y | release y =>
    obtain ⟨_, -, hmade⟩ := Option.map_eq_some_iff.mp he
    cases hmade

/-- Only a write writes. -/
theorem write_of_event {a : Call} {x : Handle} {slot : Nat} {v : Value} (he : a.event h = some (.wrote x slot v)) :
    a = .write x slot v := by
  cases a with
  | read y slot | sizeOf y | refCount y => cases he
  | allocate n | write y slot v | retain y | release y =>
    obtain ⟨_, -, hw⟩ := Option.map_eq_some_iff.mp he
    cases hw <;> rfl

end Call

/-! ## Heaps that are the same at a handle -/

structure SameAt (x : Handle) (h h' : Heap) : Prop where
  tableSize : h'.entries.size = h.entries.size
  valid : h'.isValid x = h.isValid x
  /-- The object that the handle names is the same in both. -/
  entry : h.isValid x = true → h'.entries[x.index.toNat]? = h.entries[x.index.toNat]?

theorem outcome_check_of_valid {α : Type} {x : Handle} (hx : h.isValid x = true) (k : Unit → HeapM α) :
    outcome (check x >>= k) h = outcome (k ()) h := by
  simp only [outcome, bind_check_of_valid hx k]

theorem outcome_check_of_not_valid {α : Type} {x : Handle} (hx : h.isValid x = false) (k : Unit → HeapM α) :
    outcome (check x >>= k) h = .error (h.refusal x) := by
  simp only [outcome, bind_check_of_not_valid hx k]

namespace SameAt

variable {x : Handle}

theorem refusal (hs : SameAt x h h') : h'.refusal x = h.refusal x := by
  simp only [Heap.refusal, hs.tableSize]

theorem slotsAt (hs : SameAt x h h') (hx : h.isValid x = true) : h'.slotsAt x.index = h.slotsAt x.index :=
  slotsAt_congr (hs.entry hx)

theorem sizeAt (hs : SameAt x h h') (hx : h.isValid x = true) : h'.sizeAt x.index = h.sizeAt x.index :=
  congrArg Array.size (hs.slotsAt hx)

theorem refCountAt (hs : SameAt x h h') (hx : h.isValid x = true) : h'.refCountAt x.index = h.refCountAt x.index := by
  simp only [Heap.refCountAt, hs.entry hx]

/-- An operation that checks a handle first comes to the same on both heaps if what follows does. -/
theorem outcome_check {α : Type} (hs : SameAt x h h') {k : Unit → HeapM α}
    (hk : h.isValid x = true → outcome (k ()) h' = outcome (k ()) h) :
    outcome (check x >>= k) h' = outcome (check x >>= k) h := by
  cases hx : h.isValid x with
  | true => rw [outcome_check_of_valid hx, outcome_check_of_valid (hs.valid.trans hx), hk hx]
  | false => rw [outcome_check_of_not_valid hx, outcome_check_of_not_valid (hs.valid.trans hx), hs.refusal]

end SameAt

theorem outcome_readAt (h : Heap) (i : UInt32) (slot : Nat) : outcome (readAt i slot) h =
    ((h.slotsAt i)[slot]?).elim (.error (.slotOutOfRange slot (h.sizeAt i))) .ok := by
  unfold outcome readAt
  cases (h.slotsAt i)[slot]? <;> rfl

theorem outcome_writeAt (h : Heap) (i : UInt32) (slot : Nat) (v : Value) : outcome (writeAt i slot v) h =
    if slot < h.sizeAt i then .ok () else .error (.slotOutOfRange slot (h.sizeAt i)) := by
  unfold outcome writeAt
  by_cases hslot : slot < h.sizeAt i
  · simp [hslot]
  · simp [hslot]

theorem outcome_dropReference (h : Heap) (i : UInt32) :
    outcome (modifyGet (·.dropReference i) : HeapM Bool) h = .ok (decide ¬ 0 < h.refCountAt i - 1) := by
  show Except.ok (h.dropReference i).1 = _
  unfold dropReference
  by_cases hpos : 0 < h.refCountAt i - 1
  · simp [hpos]
  · simp [hpos]

/-- Calls with one handle are answered alike by heaps that are the same at it. -/
theorem Call.answer_congr {a : Call} {x : Handle} (ha : a.handle? = some x) (hs : SameAt x h h') :
    a.answer h' = a.answer h := by
  cases a with
  | allocate n => cases ha
  | read y slot =>
    cases ha
    refine congrArg (Except.map Answer.value) (hs.outcome_check fun hx => ?_)
    rw [outcome_readAt, outcome_readAt, hs.slotsAt hx, hs.sizeAt hx]
  | write y slot v =>
    cases ha
    refine congrArg (Except.map fun _ => Answer.done) (hs.outcome_check fun hx => ?_)
    rw [outcome_writeAt, outcome_writeAt, hs.sizeAt hx]
  | sizeOf y =>
    cases ha
    refine congrArg (Except.map Answer.size) (hs.outcome_check fun hx => ?_)
    exact congrArg Except.ok (hs.sizeAt hx)
  | retain y =>
    cases ha
    exact congrArg (Except.map fun _ => Answer.done) (hs.outcome_check fun _ => rfl)
  | release y =>
    cases ha
    refine congrArg (Except.map Answer.gone) (hs.outcome_check fun hx => ?_)
    simp only [outcome_dropReference, hs.refCountAt hx]
  | refCount y =>
    cases ha
    refine congrArg (Except.map Answer.count) (hs.outcome_check fun hx => ?_)
    exact congrArg Except.ok (hs.refCountAt hx)

/-- And the same has happened. -/
theorem Call.event_congr {a : Call} {x : Handle} (ha : a.handle? = some x) (hs : SameAt x h h') :
    a.event h' = a.event h := by
  rw [event_eq, event_eq, answer_congr ha hs]

/-- One and the same event in two heaps, about an object that is the same in both: any other handle at which they are
the same they then are the same at, too. -/
theorem SameAt.change {ev : Event} {h₁ h₁' : Heap} {x z : Handle} (hs : SameAt x h h') (hc : Change h (some ev) h₁)
    (hc' : Change h' (some ev) h₁') (hz : ev.handle? = some z) (hsz : SameAt z h h') (hvz : h.isValid z = true) :
    SameAt x h₁ h₁' := by
  have hsize : h₁'.entries.size = h₁.entries.size := by rw [hc'.tableSize hz, hc.tableSize hz, hs.tableSize]
  by_cases hi : z.index.toNat = x.index.toNat
  · have he : h₁'.entries[x.index.toNat]? = h₁.entries[x.index.toNat]? := by
      rw [hc.entry hz, hc'.entry hz, ← hi, hsz.entry hvz]
    exact ⟨hsize, isValid_congr he, fun _ => he⟩
  · have he := hc.entry_elsewhere hz hi
    have he' := hc'.entry_elsewhere hz hi
    refine ⟨hsize, ?_, fun hv => ?_⟩
    · rw [isValid_congr he', isValid_congr he, hs.valid]
    · rw [isValid_congr he] at hv
      rw [he', he, hs.entry hv]

theorem exists_of_map_eq_ok {α : Type} {r : Except HeapError α} {wrap : α → Answer} {b : Answer}
    (hr : r.map wrap = .ok b) : ∃ a, r = .ok a ∧ wrap a = b := by
  cases r with
  | error e => cases hr
  | ok a => exact ⟨a, rfl, Except.ok.inj hr⟩

/-- Only an allocation gives a handle, and it tells so. -/
theorem Call.event_of_handle {a : Call} {x : Handle} (ha : a.answer h = .ok (.handle x)) :
    a.event h = some (.made x) := by
  rw [event_eq, ha]
  cases a with
  | allocate n => rfl
  | read y slot | write y slot v | sizeOf y | retain y | release y | refCount y =>
    obtain ⟨_, -, hne⟩ := exists_of_map_eq_ok ha
    cases hne

/-- Only a read gives a value, and it lies in a slot of the object that its handle names. -/
theorem Call.read_of_value {a : Call} {v : Value} (ha : a.answer h = .ok (.value v)) :
    ∃ x slot, a = .read x slot ∧ h.isValid x = true ∧ v ∈ h.slotsAt x.index := by
  obtain ⟨x, slot, rfl⟩ : ∃ x slot, a = .read x slot := by
    cases a with
    | read x slot => exact ⟨x, slot, rfl⟩
    | allocate n | write y slot v | sizeOf y | retain y | release y | refCount y =>
      obtain ⟨_, -, hne⟩ := exists_of_map_eq_ok ha
      cases hne
  obtain ⟨w, hw, hwv⟩ := exists_of_map_eq_ok ha
  cases hwv
  refine ⟨x, slot, rfl, ?_⟩
  simp only [readSlot] at hw
  cases hx : h.isValid x with
  | false => rw [outcome_check_of_not_valid hx] at hw; cases hw
  | true =>
    rw [outcome_check_of_valid hx, outcome_readAt] at hw
    cases hs : (h.slotsAt x.index)[slot]? with
    | none => rw [hs] at hw; cases hw
    | some w => rw [hs] at hw; cases hw; exact ⟨rfl, Array.mem_of_getElem? hs⟩

end Heap

end StackVM
