/-
  StackVM.Proofs.Heap.Change — how one use changes the heap.

  A `Call` is one use of the heap that names a class or a handle. A machine's instruction makes at most one,
  and so does whoever works on the heap directly. What a use did is an `Event`, or nothing.

  `Change h e h'` lists all the ways in which one use can take the heap from `h` to `h'` while `e` happens.
  Whatever holds between two uses is shown once for each of its cases:
  - `Call.change`: a call is a change.
  - `Sound.change`: a sound heap stays sound.
  - `Change.liveObjects`: objects are counted up by allocations, down by releases and collections.
-/

import StackVM.Proofs.Heap.Collection

namespace StackVM

namespace Heap

/-! ## Calls and events -/

inductive Call
  | allocate (sizeClass : Nat)
  | read (x : Handle) (slot : Nat)
  | write (x : Handle) (slot : Nat) (v : Value)
  | sizeOf (x : Handle)
  | retain (x : Handle)
  | release (x : Handle)
  | refCount (x : Handle)
  deriving DecidableEq, Repr

inductive Event
  | made (x : Handle)
  | wrote (x : Handle) (slot : Nat) (v : Value)
  | retained (x : Handle)
  /-- One reference less; the object may be gone with it. -/
  | released (x : Handle) (gone : Bool)
  | collected (objects : Nat)
  deriving DecidableEq, Repr

/-- The heap after an operation, successful or not. -/
def after {α : Type} (act : HeapM α) (h : Heap) : Heap :=
  match act h with
  | .ok _ h => h
  | .error _ h => h

/-- What an operation gives, if it is successful. -/
def given {α : Type} (act : HeapM α) (h : Heap) : Option α :=
  match act h with
  | .ok a _ => some a
  | .error _ _ => none

namespace Call

/-- The index of the object that the call has to have for itself. -/
def index? : Call → Option UInt32
  | allocate _ => none
  | read x _ | write x _ _ | sizeOf x | retain x | release x | refCount x => some x.index

def after (h : Heap) : Call → Heap
  | allocate n => Heap.after (Heap.allocate n) h
  | read x slot => Heap.after (Heap.readSlot x slot) h
  | write x slot v => Heap.after (Heap.writeSlot x slot v) h
  | sizeOf x => Heap.after (Heap.sizeOf x) h
  | retain x => Heap.after (Heap.retain x) h
  | release x => Heap.after (Heap.release x) h
  | refCount x => Heap.after (Heap.refCount x) h

def event (h : Heap) : Call → Option Event
  | allocate n => (given (Heap.allocate n) h).map .made
  | write x slot v => (given (Heap.writeSlot x slot v) h).map fun _ => .wrote x slot v
  | retain x => (given (Heap.retain x) h).map fun _ => .retained x
  | release x => (given (Heap.release x) h).map (.released x)
  | read _ _ | sizeOf _ | refCount _ => none

end Call

/-! ## The ways to change -/

inductive Change (h : Heap) : Option Event → Heap → Prop
  | none : Change h none h
  | made {n : Nat} {k : SizeClass} {i : UInt32} {rest : List UInt32} : h.classes[n]? = some k → k.free = i :: rest →
      Change h (some (.made ⟨i, h.generationAt i⟩)) (h.handOut n i).2
  | wrote {x : Handle} {slot : Nat} (v : Value) : h.isValid x = true → slot < h.sizeAt x.index →
      Change h (some (.wrote x slot v)) (h.setSlot x.index slot v)
  | retained {x : Handle} : h.isValid x = true →
      Change h (some (.retained x)) (h.updateEntry x.index fun e => { e with refCount := e.refCount + 1 })
  | dropped {x : Handle} : h.isValid x = true → 0 < h.refCountAt x.index - 1 →
      Change h (some (.released x false))
        (h.updateEntry x.index fun e => { e with refCount := h.refCountAt x.index - 1 })
  | freed {x : Handle} : h.isValid x = true → ¬ 0 < h.refCountAt x.index - 1 → x.index ∉ h.held →
      Change h (some (.released x true)) (h.retire x.index)
  | collected (roots : List Value) : Change h (some (.collected (h.collect roots).1)) (h.collect roots).2

/-! ## Operations on a handle -/

variable {h : Heap}

theorem bind_check_of_valid {α : Type} {x : Handle} (hx : h.isValid x = true) (k : Unit → HeapM α) :
    (check x >>= k) h = k () h := by
  obtain ⟨e, he, hl, hg⟩ := isValid_iff.mp hx
  have hc : check x h = .ok () h := by simp [check, he, Entry.answers, hl, hg]
  show EStateM.bind (check x) k h = _
  simp [EStateM.bind, hc]

/-- Why a handle that is not valid is refused. -/
def refusal (h : Heap) (x : Handle) : HeapError :=
  if x.index.toNat < h.entries.size then .stale x else .indexOutOfRange x.index

@[simp] theorem status_refusal (h : Heap) (x : Handle) : (h.refusal x).status = .invalidHandle := by
  unfold refusal
  split <;> rfl

theorem bind_check_of_not_valid {α : Type} {x : Handle} (hx : h.isValid x = false) (k : Unit → HeapM α) :
    (check x >>= k) h = .error (h.refusal x) h := by
  have hc : check x h = .error (h.refusal x) h := by
    unfold check refusal
    by_cases hi : x.index.toNat < h.entries.size
    · have he := Array.getElem?_eq_getElem hi
      rw [isValid, he, Option.any_some] at hx
      simp [hx, hi]
    · simp [hi]
  show EStateM.bind (check x) k h = _
  simp [EStateM.bind, hc]

/-- An operation that starts by checking a handle changes and gives nothing unless the handle is valid. -/
theorem after_given_of_not_valid {α : Type} {x : Handle} (hx : h.isValid x = false) (k : Unit → HeapM α) :
    after (check x >>= k) h = h ∧ given (check x >>= k) h = none := by
  simp [after, given, bind_check_of_not_valid hx k]

theorem after_given_of_valid {α : Type} {x : Handle} (hx : h.isValid x = true) (k : Unit → HeapM α) :
    after (check x >>= k) h = after (k ()) h ∧ given (check x >>= k) h = given (k ()) h := by
  simp [after, given, bind_check_of_valid hx k]

/-- Reading leaves the heap as it is. -/
theorem after_readAt (i : UInt32) (slot : Nat) : after (readAt i slot) h = h := by
  unfold after readAt
  cases (h.slotsAt i)[slot]? <;> rfl

theorem writeAt_cases (i : UInt32) (slot : Nat) (v : Value) :
    (slot < h.sizeAt i ∧ after (writeAt i slot v) h = h.setSlot i slot v ∧ given (writeAt i slot v) h = some ()) ∨
      (after (writeAt i slot v) h = h ∧ given (writeAt i slot v) h = none) := by
  unfold after given writeAt
  by_cases hs : slot < h.sizeAt i
  · simp [hs]
  · simp [hs]

theorem generationAt_handOut (n : Nat) (i : UInt32) : (h.handOut n i).1 = ⟨i, h.generationAt i⟩ := by
  simp only [handOut, generationAt, entries_updateEntry, entries_updateClass, if_true, Option.map_map]
  rfl

theorem allocate_cases (n : Nat) :
    (∃ k i rest, h.classes[n]? = some k ∧ k.free = i :: rest ∧
      allocate n h = .ok ⟨i, h.generationAt i⟩ (h.handOut n i).2) ∨
    (∃ k, h.classes[n]? = some k ∧ k.free = [] ∧ allocate n h = .error (.exhausted n h.capacity) h) ∨
    (h.classes[n]? = none ∧ allocate n h = .error (.noSuchClass n h.classes.size) h) := by
  unfold allocate
  cases hk : h.classes[n]? with
  | none => exact .inr (.inr ⟨rfl, rfl⟩)
  | some k =>
    cases hf : k.free with
    | nil => exact .inr (.inl ⟨k, rfl, hf, by simp [hf]⟩)
    | cons i rest => exact .inl ⟨k, i, rest, rfl, hf, by simp [hf, generationAt_handOut]⟩

/-! ## A call is a change -/

theorem Call.change (a : Call) (hfree : ∀ i, a.index? = some i → i ∉ h.held) : Change h (a.event h) (a.after h) := by
  -- a call that changes nothing and tells of nothing
  have hnone : ∀ {e : Option Event} {h' : Heap}, h' = h → e = none → Change h e h' := by
    rintro e h' rfl rfl; exact .none
  cases a with
  | allocate n =>
    simp only [Call.event, Call.after, Heap.after, given]
    rcases allocate_cases (h := h) n with ⟨k, i, rest, hk, hf, ha⟩ | ⟨k, -, -, ha⟩ | ⟨-, ha⟩
    · rw [ha]; exact .made hk hf
    · rw [ha]; exact .none
    · rw [ha]; exact .none
  | read x slot =>
    refine hnone ?_ rfl
    cases hx : h.isValid x with
    | true => exact (after_given_of_valid hx _).1.trans (after_readAt _ _)
    | false => exact (after_given_of_not_valid hx _).1
  | sizeOf x | refCount x =>
    refine hnone ?_ rfl
    cases hx : h.isValid x with
    | true => exact (after_given_of_valid hx _).1
    | false => exact (after_given_of_not_valid hx _).1
  | write x slot v =>
    simp only [Call.event, Call.after, writeSlot]
    cases hx : h.isValid x with
    | true =>
      rw [(after_given_of_valid hx _).1, (after_given_of_valid hx _).2]
      rcases writeAt_cases (h := h) x.index slot v with ⟨hs, h1, h2⟩ | ⟨h1, h2⟩
      · rw [h1, h2]; exact .wrote v hx hs
      · rw [h1, h2]; exact .none
    | false => rw [(after_given_of_not_valid hx _).1, (after_given_of_not_valid hx _).2]; exact .none
  | retain x =>
    simp only [Call.event, Call.after, Heap.retain]
    cases hx : h.isValid x with
    | true => rw [(after_given_of_valid hx _).1, (after_given_of_valid hx _).2]; exact .retained hx
    | false => rw [(after_given_of_not_valid hx _).1, (after_given_of_not_valid hx _).2]; exact .none
  | release x =>
    simp only [Call.event, Call.after, Heap.release]
    cases hx : h.isValid x with
    | true =>
      rw [(after_given_of_valid hx _).1, (after_given_of_valid hx _).2]
      show Change h (some (.released x (h.dropReference x.index).1)) (h.dropReference x.index).2
      unfold dropReference
      by_cases hpos : 0 < h.refCountAt x.index - 1
      · rw [if_pos hpos]; exact .dropped hx hpos
      · rw [if_neg hpos]; exact .freed hx hpos (hfree _ rfl)
    | false => rw [(after_given_of_not_valid hx _).1, (after_given_of_not_valid hx _).2]; exact .none

/-! ## What every change keeps -/

variable {h' : Heap}

theorem slotsAt_congr {i : UInt32} (he : h'.entries[i.toNat]? = h.entries[i.toNat]?) : h'.slotsAt i = h.slotsAt i := by
  simp only [slotsAt, he]

theorem isValid_congr {x : Handle} (he : h'.entries[x.index.toNat]? = h.entries[x.index.toNat]?) :
    h'.isValid x = h.isValid x := by
  simp only [isValid, he]

theorem outline_setSlot (e : Entry) (slot : Nat) (v : Value) :
    ({ e with slots := e.slots.setIfInBounds slot v } : Entry).outline = e.outline := by
  simp [Entry.outline]

theorem Sound.updateEntry {c : Config} (hs : Sound c h) {i : UInt32} {f : Entry → Entry}
    (hf : ∀ e, (f e).outline = e.outline) (hm : ∀ e, (f e).marked = e.marked) : Sound c (h.updateEntry i f) := by
  refine ⟨hs.books.updateEntry hf, fun j e he => ?_⟩
  rw [entries_updateEntry] at he
  split at he
  · obtain ⟨e₀, he₀, rfl⟩ := Option.map_eq_some_iff.mp he
    rw [hm]; exact hs.unmarked j e₀ he₀
  · exact hs.unmarked j e he

/-- Who is inside an object makes no difference. -/
theorem Sound.holding {c : Config} (hs : Sound c h) (l : List UInt32) : Sound c { h with held := l } :=
  ⟨hs.books.holding l, hs.unmarked⟩

theorem Sound.change {c : Config} {e : Option Event} (hs : Sound c h) (hc : Change h e h') :
    Sound c h' := by
  cases hc with
  | none => exact hs
  | made hk hf =>
    refine ⟨hs.books.handOut hk hf, fun j e he => ?_⟩
    rw [entries_handOut] at he
    split at he
    · obtain ⟨e₀, -, rfl⟩ := Option.map_eq_some_iff.mp he; rfl
    · exact hs.unmarked j e he
  | wrote v hx hlt => exact hs.updateEntry (fun e => outline_setSlot e _ _) fun _ => rfl
  | retained hx => exact hs.updateEntry (fun _ => rfl) fun _ => rfl
  | dropped hx hpos => exact hs.updateEntry (fun _ => rfl) fun _ => rfl
  | freed hx hpos hfree =>
    refine ⟨hs.books.retire (liveAt_of_isValid hx), fun j e he => ?_⟩
    rw [entries_retire] at he
    split at he
    · obtain ⟨e₀, he₀, rfl⟩ := Option.map_eq_some_iff.mp he
      exact hs.unmarked j e₀ he₀
    · exact hs.unmarked j e he
  | collected roots => exact hs.collect roots

theorem held_collect (h : Heap) (roots : List Value) : (h.collect roots).2.held = h.held := by
  unfold collect
  split
  · exact (capacity_sweepUpTo _ _).2
  · rfl

theorem Change.held {e : Option Event} (hc : Change h e h') : h'.held = h.held := by
  cases hc with
  | none | made | wrote | retained | dropped | freed => rfl
  | collected roots => exact held_collect h roots

/-- An update that leaves liveness and generation alone does to validity, too. -/
theorem isValid_updateEntry {f : Entry → Entry} (hf : ∀ e, (f e).live = e.live ∧ (f e).generation = e.generation)
    (i : UInt32) (x : Handle) : (h.updateEntry i f).isValid x = h.isValid x := by
  simp only [isValid, entries_updateEntry]
  split
  · cases h.entries[x.index.toNat]? <;> simp [Entry.answers, hf]
  · rfl

theorem isValid_setSlot (i : UInt32) (slot : Nat) (v : Value) (x : Handle) :
    (h.setSlot i slot v).isValid x = h.isValid x := by
  rw [setSlot, isValid_updateEntry]
  exact fun _ => ⟨rfl, rfl⟩

/-- An object somebody is inside stays. -/
theorem Change.isValid_of_held {e : Option Event} (hc : Change h e h') {x : Handle} (hi : x.index ∈ h.held)
    (hx : h.isValid x = true) : h'.isValid x = true := by
  obtain ⟨e₀, he₀, hl, hg⟩ := isValid_iff.mp hx
  cases hc with
  | none => exact hx
  | @made n k i rest hk hf =>
    rw [isValid_iff, entries_handOut, he₀]
    split
    · exact ⟨e₀.revive, rfl, rfl, hg⟩
    · exact ⟨e₀, rfl, hl, hg⟩
  | wrote v _ _ => rw [isValid_setSlot]; exact hx
  | retained _ | dropped _ _ =>
    rw [isValid_updateEntry]
    · exact hx
    · exact fun _ => ⟨rfl, rfl⟩
  | @freed y hy hlast hfree =>
    have hne : y.index.toNat ≠ x.index.toNat := fun e => hfree (UInt32.toNat_inj.mp e ▸ hi)
    rw [isValid_iff]
    exact ⟨e₀, by rw [entries_retire, if_neg hne, he₀], hl, hg⟩
  | collected roots =>
    have hheld : h.held ≠ [] := List.ne_nil_of_mem hi
    simpa [collect, hheld] using hx

/-! ## Counting -/

namespace Event

def allocations : Event → Nat
  | made _ => 1
  | _ => 0

/-- The releases that free. -/
def releases : Event → Nat
  | released _ true => 1
  | _ => 0

/-- The objects freed by a collection. -/
def collections : Event → Nat
  | collected n => n
  | _ => 0

/-- The sum of a count over a history. -/
def total (f : Event → Nat) : List Event → Nat
  | [] => 0
  | e :: es => f e + total f es

theorem total_append (f : Event → Nat) (es es' : List Event) : total f (es ++ es') = total f es + total f es' := by
  induction es with
  | nil => simp [total]
  | cons e es ih => simp only [List.cons_append, total, ih, Nat.add_assoc]

end Event

open Event in
/-- Allocations count objects up; releases and collections count them down. -/
theorem Change.liveObjects {c : Config} {e : Option Event} (hs : Sound c h) (hc : Change h e h') :
    h'.liveObjects + total releases e.toList + total collections e.toList =
      h.liveObjects + total allocations e.toList := by
  cases hc with
  | none | wrote | retained | dropped => rfl
  | made hk hf => simp [total, releases, collections, allocations, liveObjects_handOut hk]
  | freed hx hpos hfree =>
    have := hs.books.liveObjects_retire (liveAt_of_isValid hx)
    simp [total, releases, collections, allocations]
    omega
  | collected roots =>
    have := hs.liveObjects_collect roots
    simp [total, releases, collections, allocations]
    omega

end Heap

end StackVM
