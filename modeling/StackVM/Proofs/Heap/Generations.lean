/-
  StackVM.Proofs.Heap.Generations — generations count how often an entry has been freed.

  An entry's generation is a word of 32 bits. It moves on by one whenever an object is freed there, by a release
  or by a collection, and at no other time, so a handle goes stale when its object is freed and comes back to
  life, if at all, after 2^32 frees at its index. `freed h h' i` counts what one use has freed at an index.

  - `Change.generation`: the generation goes up by that count.
  - `dead_of_not_valid`: all operations refuse a handle that is not valid.
  - `Change.of_made`: what is made was not live and has the generation that the index has then.
-/

import StackVM.Proofs.Heap.Contents

namespace StackVM

namespace Heap

variable {c : Config} {h h' : Heap}

/-! ## What one use frees -/

/-- How many objects at an index live in `h` and no longer do in `h'`: one or none. -/
def freed (h h' : Heap) (i : UInt32) : Nat := if h.liveAt i.toNat && !h'.liveAt i.toNat then 1 else 0

theorem freed_le_one (h h' : Heap) (i : UInt32) : freed h h' i ≤ 1 := by
  unfold freed
  split <;> decide

theorem freed_of_live_after {i : UInt32} (hl : h'.liveAt i.toNat = true) : freed h h' i = 0 := by
  simp [freed, hl]

theorem freed_of_not_live {i : UInt32} (hl : h.liveAt i.toNat = false) : freed h h' i = 0 := by
  simp [freed, hl]

/-- Nothing is freed by taking or dropping a guard. -/
@[simp] theorem freed_holding (h : Heap) (l : List UInt32) (i : UInt32) : freed h { h with held := l } i = 0 := by
  cases hl : h.liveAt i.toNat with
  | true => exact freed_of_live_after hl
  | false => exact freed_of_not_live hl

/-- What lives and is not freed goes on to live. -/
theorem live_of_freed_eq_zero {i : UInt32} (hl : h.liveAt i.toNat = true) (hf : freed h h' i = 0) :
    h'.liveAt i.toNat = true := by
  simpa [freed, hl] using hf

/-! ## The generation moves on -/

theorem generationAt_of_entry {i : UInt32} {e : Entry} (he : h.entries[i.toNat]? = some e) :
    h.generationAt i = e.generation := by
  simp [generationAt, he]

/-- The generation of an entry moves on by one exactly when the entry is taken out of life. -/
def Aged (e e' : Entry) : Prop := e'.generation = e.generation + if e.live && !e'.live then 1 else 0

theorem aged_of_eq {e e' : Entry} (hl : e'.live = e.live) (hg : e'.generation = e.generation) : Aged e e' := by
  simp [Aged, hl, hg]

theorem aged_kill {e : Entry} (hl : e.live = true) : Aged e e.kill := by
  simp [Aged, Entry.kill, hl]

theorem aged_updateEntry {f : Entry → Entry} (hf : ∀ e, Aged e (f e)) (i : UInt32) {j : Nat} {e : Entry}
    (he : h.entries[j]? = some e) : ∃ e', (h.updateEntry i f).entries[j]? = some e' ∧ Aged e e' := by
  rw [entries_updateEntry, he]
  split
  · exact ⟨f e, rfl, hf e⟩
  · exact ⟨e, rfl, aged_of_eq rfl rfl⟩

theorem Sound.aged_collect (hs : Sound c h) (roots : List Value) {i : UInt32} {e : Entry}
    (he : h.entries[i.toNat]? = some e) :
    ∃ e', (h.collect roots).2.entries[i.toNat]? = some e' ∧ Aged e e' := by
  by_cases hheld : h.held = []
  · have hcol := hs.collects hheld roots
    cases hl : e.live with
    | false => exact ⟨e, hcol.passes i e he hl, aged_of_eq rfl rfl⟩
    | true =>
      by_cases hr : h.Reachable roots i
      · exact ⟨e, hcol.keeps i e he hl hr, aged_of_eq rfl rfl⟩
      · exact ⟨_, hcol.frees i e he hl hr, by simp [Aged, hl]⟩
  · have hsame : (h.collect roots).2 = h := by simp [Heap.collect, hheld]
    exact ⟨e, by rw [hsame, he], aged_of_eq rfl rfl⟩

/-- An entry before and after one use of the heap. -/
theorem Change.aged {ev : Option Event} (hs : Sound c h) (hc : Change h ev h') {i : UInt32} {e : Entry}
    (he : h.entries[i.toNat]? = some e) : ∃ e', h'.entries[i.toNat]? = some e' ∧ Aged e e' := by
  cases hc with
  | none => exact ⟨e, he, aged_of_eq rfl rfl⟩
  | @made n k j rest hk hf =>
    rw [entries_handOut, he]
    split
    · exact ⟨e.revive, rfl, by simp [Aged, Entry.revive]⟩
    · exact ⟨e, rfl, aged_of_eq rfl rfl⟩
  | wrote v _ _ => exact aged_updateEntry (by exact fun _ => aged_of_eq rfl rfl) _ he
  | retained _ | dropped _ _ => exact aged_updateEntry (by exact fun _ => aged_of_eq rfl rfl) _ he
  | @freed x hx _ _ =>
    rw [entries_retire, he]
    split
    next hi =>
      have hl := liveAt_of_isValid hx
      rw [hi, liveAt_of_entry he] at hl
      exact ⟨e.kill, rfl, aged_kill hl⟩
    next => exact ⟨e, rfl, aged_of_eq rfl rfl⟩
  | collected roots => exact hs.aged_collect roots he

/-- The generation at an index goes up by what is freed there. -/
theorem Change.generation {ev : Option Event} (hs : Sound c h) (hc : Change h ev h') (i : UInt32) :
    h'.generationAt i = h.generationAt i + UInt32.ofNat (Heap.freed h h' i) := by
  cases he : h.entries[i.toNat]? with
  | none =>
    have hsize : h'.entries.size = h.entries.size := by
      rw [(hs.change hc).books.tableSize, hs.books.tableSize]
    have he' : h'.entries[i.toNat]? = Option.none := by
      rw [Array.getElem?_eq_none_iff] at he ⊢
      rwa [hsize]
    simp [generationAt, Heap.freed, liveAt, he, he']
  | some e =>
    obtain ⟨e', he', haged⟩ := hc.aged hs he
    rw [generationAt_of_entry he, generationAt_of_entry he', haged, Heap.freed, liveAt_of_entry he,
      liveAt_of_entry he']
    cases e.live <;> cases e'.live <;> rfl

/-! ## Handles that name nothing -/

/-- The operation fails because of its handle, and leaves the heap as it is. -/
def Refuses {α : Type} (act : HeapM α) (h : Heap) : Prop := ∃ e, act h = .error e h ∧ e.status = .invalidHandle

structure Dead (x : Handle) (h : Heap) : Prop where
  invalid : h.isValid x = false
  lock : Refuses (Heap.lock x) h
  /-- Somebody inside the object that lives at the index now comes first. -/
  tryLock : h.isHeld x.index = false → Refuses (Heap.tryLock x) h
  retain : Refuses (Heap.retain x) h
  release : Refuses (Heap.release x) h
  refCount : Refuses (Heap.refCount x) h

theorem refuses_check {α : Type} {x : Handle} (hx : h.isValid x = false) (k : Unit → HeapM α) :
    Refuses (check x >>= k) h :=
  ⟨h.refusal x, bind_check_of_not_valid hx k, status_refusal h x⟩

theorem refuses_tryLock {x : Handle} (hx : h.isValid x = false) (hfree : h.isHeld x.index = false) :
    Refuses (Heap.tryLock x) h := by
  unfold Refuses tryLock
  by_cases hsize : h.entries.size ≤ x.index.toNat
  · exact ⟨.indexOutOfRange x.index, by rw [if_pos hsize], rfl⟩
  · refine ⟨h.refusal x, ?_, status_refusal h x⟩
    rw [if_neg hsize, if_neg (by simp [hfree])]
    show EStateM.map some (Heap.lock x) h = _
    rw [EStateM.map, Heap.lock, bind_check_of_not_valid hx]

/-- All operations refuse a handle that is not valid. -/
theorem dead_of_not_valid {x : Handle} (hx : h.isValid x = false) : Dead x h where
  invalid := hx
  lock := refuses_check hx _
  tryLock := refuses_tryLock hx
  retain := refuses_check hx _
  release := refuses_check hx _
  refCount := refuses_check hx _

theorem generationAt_of_isValid {x : Handle} (hx : h.isValid x = true) : h.generationAt x.index = x.generation := by
  obtain ⟨e, he, -, hg⟩ := isValid_iff.mp hx
  rw [generationAt_of_entry he, hg]

theorem isValid_of_live {x : Handle} (hl : h.liveAt x.index.toNat = true) (hg : h.generationAt x.index = x.generation) :
    h.isValid x = true := by
  obtain ⟨e, he, hlive⟩ := entry_of_liveAt hl
  exact isValid_iff.mpr ⟨e, he, hlive, by rw [← generationAt_of_entry he, hg]⟩

/-- A handle stops being valid when its object is freed, and only then. -/
theorem Change.freed_of_gone {ev : Option Event} (hs : Sound c h) (hc : Change h ev h') {x : Handle}
    (hx : h.isValid x = true) (hx' : h'.isValid x = false) : Heap.freed h h' x.index = 1 := by
  have hl := liveAt_of_isValid hx
  have hle := freed_le_one h h' x.index
  suffices hne : Heap.freed h h' x.index ≠ 0 by omega
  intro h0
  -- an object that is not freed keeps its generation, so its handle stays valid
  have hg := hc.generation hs x.index
  rw [h0, generationAt_of_isValid hx, show UInt32.ofNat 0 = 0 from rfl, UInt32.add_zero] at hg
  rw [isValid_of_live (live_of_freed_eq_zero hl h0) hg] at hx'
  cases hx'

/-- Only a release of the object itself and a collection free it. -/
theorem Change.event_of_gone {ev : Option Event} (hs : Sound c h) (hc : Change h ev h') {x : Handle}
    (hx : h.isValid x = true) (hx' : h'.isValid x = false) :
    ev = some (.released x true) ∨ ∃ n, ev = some (.collected n) := by
  cases hc with
  | none => rw [hx] at hx'; cases hx'
  | @made n k i rest hk hf =>
    have hfree := hs.books.not_live_of_mem_free hk (by rw [hf]; exact List.mem_cons_self)
    have hne : i.toNat ≠ x.index.toNat := fun e => by
      rw [e, liveAt_of_isValid hx] at hfree
      cases hfree
    have he : (h.handOut n i).2.entries[x.index.toNat]? = h.entries[x.index.toNat]? := by
      rw [entries_handOut, if_neg hne]
    rw [isValid_congr he, hx] at hx'
    cases hx'
  | wrote v _ _ => rw [isValid_setSlot, hx] at hx'; cases hx'
  | retained _ | dropped _ _ =>
    rw [isValid_updateEntry, hx] at hx'
    · cases hx'
    · exact fun _ => ⟨rfl, rfl⟩
  | @freed y hy _ _ =>
    by_cases hi : y.index = x.index
    · left
      rw [handle_unique hx hy hi]
    · have he : (h.retire y.index).entries[x.index.toNat]? = h.entries[x.index.toNat]? := by
        rw [entries_retire, if_neg fun e => hi (UInt32.toNat_inj.mp e)]
      rw [isValid_congr he, hx] at hx'
      cases hx'
  | collected roots => exact .inr ⟨_, rfl⟩

/-! ## Handles that have been made -/

def Event.made? : Event → Option Handle
  | made x => some x
  | _ => none

/-- The handles that allocations have given, in order. -/
def handles (es : List Event) : List Handle := es.filterMap Event.made?

theorem handles_append (es es' : List Event) : handles (es ++ es') = handles es ++ handles es' :=
  List.filterMap_append

/-- What is made was not live, and its generation is the one that it finds. -/
theorem Change.of_made {x : Handle} (hs : Sound c h) (hc : Change h (some (.made x)) h') :
    h.liveAt x.index.toNat = false ∧ h.generationAt x.index = x.generation ∧ h'.liveAt x.index.toNat = true := by
  cases hc with
  | @made n k i rest hk hf =>
    have hfree := hs.books.not_live_of_mem_free hk (by rw [hf]; exact List.mem_cons_self)
    have hi := ((hs.books.memFree n k hk i).mp (by rw [hf]; exact List.mem_cons_self)).2.1
    refine ⟨hfree, rfl, ?_⟩
    simp [liveAt, entries_handOut, Array.getElem?_eq_getElem hi, Entry.revive]

/-- A handle is valid when it is made. -/
theorem Change.isValid_of_made {x : Handle} (hs : Sound c h) (hc : Change h (some (.made x)) h') :
    h'.isValid x = true := by
  obtain ⟨-, hg, hl'⟩ := hc.of_made hs
  have hsame := hc.generation hs x.index
  rw [freed_of_live_after hl', hg] at hsame
  exact isValid_of_live hl' (hsame.trans (UInt32.add_zero _))

/-- A release that comes to zero takes a valid handle and leaves it stale. -/
theorem Change.gone_of_released {x : Handle} (hc : Change h (some (.released x true)) h') :
    h.isValid x = true ∧ h'.isValid x = false := by
  cases hc with
  | freed hx _ _ =>
    refine ⟨hx, Bool.eq_false_iff.mpr fun hv => ?_⟩
    have hl := liveAt_of_isValid hv
    obtain ⟨e, he, -⟩ := isValid_iff.mp hx
    rw [liveAt_of_entry (by rw [entries_retire, if_pos rfl, he]; rfl)] at hl
    cases hl

/-- Words of 32 bits that count to less than 2^32 count right. -/
theorem ofNat_inj {a b : Nat} (ha : a < UInt32.size) (hb : b < UInt32.size) (he : UInt32.ofNat a = UInt32.ofNat b) :
    a = b := by
  have := congrArg UInt32.toNat he
  rwa [UInt32.toNat_ofNat_of_lt' ha, UInt32.toNat_ofNat_of_lt' hb] at this

end Heap

end StackVM
