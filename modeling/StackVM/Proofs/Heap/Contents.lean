/-
  StackVM.Proofs.Heap.Contents — what is in an object.

  To whoever has a valid handle an object is a row of slots that were zero when the object was made and have
  since been written by name. That is `lastWritten`, told from the history alone; the table, in which an entry
  serves one object after another, is not in it. `Recalls es h` says that the table agrees with the history.

  - `Change.slots`: what one use makes of the slots of an object that is there afterwards.
  - `Recalls.change`: the table goes on to agree with the history.
  - `Recalls.readSlot`: a read gives what was last written.
-/

import StackVM.Proofs.Heap.Change

namespace StackVM

namespace Heap

/-! ## The history of a slot -/

/-- The value that an event puts into a slot. -/
def Event.written? (x : Handle) (k : Nat) : Event → Option Value
  | wrote y j v => if y = x ∧ j = k then some v else none
  | _ => none

/-- What has happened since an object was last made, the latest first. -/
def eventsSince (es : List Event) (x : Handle) : List Event := es.reverse.takeWhile (· != .made x)

/-- The last value written to a slot since its object was made, or zero if there is none. -/
def lastWritten (es : List Event) (x : Handle) (k : Nat) : Value :=
  ((eventsSince es x).findSome? (Event.written? x k)).getD (.raw 0)

theorem lastWritten_made (es : List Event) (x : Handle) (k : Nat) : lastWritten (es ++ [.made x]) x k = .raw 0 := by
  simp [lastWritten, eventsSince]

theorem lastWritten_wrote (es : List Event) (x : Handle) (j k : Nat) (v : Value) :
    lastWritten (es ++ [.wrote x j v]) x k = if j = k then v else lastWritten es x k := by
  by_cases e : j = k <;> simp [lastWritten, eventsSince, Event.written?, e]

/-- Nothing else changes what is in the slots of an object. -/
theorem lastWritten_other {es : List Event} {e : Option Event} {x : Handle} (hmade : e ≠ some (.made x))
    (hwrote : ∀ j v, e ≠ some (.wrote x j v)) (k : Nat) : lastWritten (es ++ e.toList) x k = lastWritten es x k := by
  cases e with
  | none => simp
  | some e =>
    have hne : e ≠ .made x := fun h => hmade (congrArg some h)
    have hw : e.written? x k = none := by
      cases e with
      | wrote y j v =>
        have : y ≠ x := fun h => hwrote j v (by rw [h])
        simp [Event.written?, this]
      | _ => rfl
    simp [lastWritten, eventsSince, hne, hw]

/-! ## What a change makes of the slots -/

variable {c : Config} {h h' : Heap}

theorem slotsAt_of_entry {i : UInt32} {e : Entry} (he : h.entries[i.toNat]? = some e) : h.slotsAt i = e.slots := by
  simp [slotsAt, he]

theorem slotsAt_updateEntry {f : Entry → Entry} (hf : ∀ e, (f e).slots = e.slots) (i j : UInt32) :
    (h.updateEntry i f).slotsAt j = h.slotsAt j := by
  simp only [slotsAt, entries_updateEntry]
  split
  · cases h.entries[j.toNat]? <;> simp [hf]
  · rfl

theorem slotsAt_setSlot (i j : UInt32) (slot : Nat) (v : Value) :
    (h.setSlot i slot v).slotsAt j = if i = j then (h.slotsAt j).setIfInBounds slot v else h.slotsAt j := by
  simp only [slotsAt, setSlot, entries_updateEntry, UInt32.toNat_inj]
  split
  · cases h.entries[j.toNat]? <;> simp
  · rfl

/-- Two handles of one live object are the same. -/
theorem handle_unique {x y : Handle} (hx : h.isValid x = true) (hy : h.isValid y = true) (hi : y.index = x.index) :
    y = x := by
  obtain ⟨e, he, -, hg⟩ := isValid_iff.mp hx
  obtain ⟨e', he', -, hg'⟩ := isValid_iff.mp hy
  rw [hi, he, Option.some.injEq] at he'
  subst he'
  cases x; cases y
  simp_all

/-- An object that is there after a change has just been made, and is all zero, or was there before. Then one
of its slots has been written, or none. -/
theorem Change.slots {e : Option Event} (hs : Sound c h) (hc : Change h e h') {x : Handle} (hx : h'.isValid x = true) :
    (e = some (.made x) ∧ h'.slotsAt x.index = Array.replicate (h'.sizeAt x.index) (.raw 0)) ∨
    (h.isValid x = true ∧ ∃ j v, e = some (.wrote x j v) ∧
      h'.slotsAt x.index = (h.slotsAt x.index).setIfInBounds j v) ∨
    (h.isValid x = true ∧ e ≠ some (.made x) ∧ (∀ j v, e ≠ some (.wrote x j v)) ∧
      h'.slotsAt x.index = h.slotsAt x.index) := by
  cases hc with
  | none => exact .inr (.inr ⟨hx, by simp, by simp, rfl⟩)
  | @made n k i rest hk hf =>
    by_cases e : i = x.index
    · subst e
      obtain ⟨e', he', -, hg⟩ := isValid_iff.mp hx
      have hent := entries_handOut h n x.index x.index.toNat
      rw [if_pos rfl, he'] at hent
      obtain ⟨e₀, he₀, hrev⟩ := Option.map_eq_some_iff.mp hent.symm
      subst hrev
      have hgen : h.generationAt x.index = x.generation := by
        rw [← hg, generationAt, he₀]; rfl
      left
      refine ⟨by rw [hgen], ?_⟩
      rw [sizeAt, slotsAt_of_entry he']
      simp [Entry.revive]
    · have he : ((h.handOut n i).2).entries[x.index.toNat]? = h.entries[x.index.toNat]? := by
        rw [entries_handOut, if_neg (mt UInt32.toNat_inj.mp e)]
      refine .inr (.inr ⟨(isValid_congr he).symm.trans hx, fun h' => e ?_, by simp, slotsAt_congr he⟩)
      injection h' with h'
      injection h' with h'
      rw [← h']
  | @wrote y slot v hy hslot =>
    rw [isValid_setSlot] at hx
    right
    by_cases hi : y.index = x.index
    · have hyx := handle_unique hx hy hi
      subst hyx
      exact .inl ⟨hx, slot, v, rfl, by rw [slotsAt_setSlot, if_pos rfl]⟩
    · refine .inr ⟨hx, by simp, fun j w he => hi ?_, by rw [slotsAt_setSlot, if_neg hi]⟩
      injection he with he
      injection he with he
      rw [he]
  | retained hy | dropped hy _ =>
    rw [isValid_updateEntry] at hx
    · refine .inr (.inr ⟨hx, by simp, by simp, ?_⟩)
      rw [slotsAt_updateEntry]
      exact fun _ => rfl
    · exact fun _ => ⟨rfl, rfl⟩
  | @freed y hy hlast hfree =>
    have he : (h.retire y.index).entries[x.index.toNat]? = h.entries[x.index.toNat]? := by
      rw [entries_retire, if_neg]
      -- what has just been freed is not there
      intro hi
      have hl := liveAt_of_isValid hx
      obtain ⟨e', he', hl'⟩ := entry_of_liveAt hl
      rw [entries_retire, if_pos hi] at he'
      obtain ⟨e₀, -, rfl⟩ := Option.map_eq_some_iff.mp he'
      cases hl'
    exact .inr (.inr ⟨(isValid_congr he).symm.trans hx, by simp, by simp, slotsAt_congr he⟩)
  | collected roots =>
    have he := hs.entry_of_valid_after roots hx
    exact .inr (.inr ⟨(isValid_congr he).symm.trans hx, by simp, by simp, slotsAt_congr he⟩)

/-- An object that is there is not made once more. -/
theorem Sound.not_made (hs : Sound c h) {x : Handle} (hx : h.isValid x = true) : ¬ Change h (some (.made x)) h' := by
  intro hc
  cases hc with
  | made hk hf =>
    have := hs.books.not_live_of_mem_free hk (by rw [hf]; exact List.mem_cons_self)
    rw [liveAt_of_isValid hx] at this
    cases this

/-! ## The table agrees with the history -/

def Recalls (es : List Event) (h : Heap) : Prop :=
  ∀ x : Handle, h.isValid x = true → ∀ k < h.sizeAt x.index, (h.slotsAt x.index)[k]? = some (lastWritten es x k)

theorem Recalls.change {es : List Event} {e : Option Event} (hr : Recalls es h) (hs : Sound c h)
    (hc : Change h e h') : Recalls (es ++ e.toList) h' := by
  intro x hx k hk
  rw [sizeAt] at hk
  rcases hc.slots hs hx with ⟨rfl, hsl⟩ | ⟨hx₀, j, v, rfl, hsl⟩ | ⟨hx₀, hmade, hwrote, hsl⟩
  · rw [sizeAt] at hsl
    rw [Option.toList_some, lastWritten_made, hsl, Array.getElem?_replicate, if_pos hk]
  · rw [hsl, Array.size_setIfInBounds] at hk
    rw [Option.toList_some, lastWritten_wrote, hsl, Array.getElem?_setIfInBounds]
    split
    next e => rw [e, if_pos hk]
    next => exact hr x hx₀ k hk
  · rw [lastWritten_other hmade hwrote, hsl]
    rw [hsl] at hk
    exact hr x hx₀ k hk

theorem readAt_of_slot {i : UInt32} {k : Nat} {v : Value} (hv : (h.slotsAt i)[k]? = some v) :
    readAt i k h = .ok v h := by
  simp [readAt, hv]

theorem Recalls.readSlot {es : List Event} (hr : Recalls es h) {x : Handle} (hx : h.isValid x = true) {k : Nat}
    (hk : k < h.sizeAt x.index) : Heap.readSlot x k h = .ok (lastWritten es x k) h := by
  rw [Heap.readSlot, bind_check_of_valid hx]
  exact readAt_of_slot (hr x hx k hk)

end Heap

end StackVM
