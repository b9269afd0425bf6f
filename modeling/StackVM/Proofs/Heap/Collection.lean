/-
  StackVM.Proofs.Heap.Collection — what a collection does.

  `Sound c h` is what holds of a heap between two operations: its books agree and nothing is marked.
  `Collects h roots n h'` says in full what a collection from the roots makes of `h`: what can be reached
  stays as it is, what cannot is freed and its index put on the free list of its class, and `n` objects are
  freed.

  - `Sound.collects`: on a sound heap nobody is inside, that is what `collect` does.
  - `Sound.collect`: and the heap is sound again.
-/

import StackVM.Proofs.Heap.Sweep

namespace StackVM

namespace Heap

/-! ## Sound heaps -/

structure Sound (c : Config) (h : Heap) : Prop where
  books : Books c h
  unmarked : ∀ (i : Nat) (e : Entry), h.entries[i]? = some e → e.marked = false

theorem sound_build {c : Config} (hc : c.check = .ok ()) : Sound c (build c) := by
  refine ⟨books_build hc, fun i e he => ?_⟩
  rw [entries_build (Config.bounds_of_check hc).2.1] at he
  obtain ⟨n, -, rfl⟩ := Option.map_eq_some_iff.mp he
  rfl

theorem check_of_ofConfig {c : Config} {h : Heap} (hc : ofConfig c = .ok h) : c.check = .ok () ∧ h = build c := by
  unfold ofConfig at hc
  split at hc
  · cases hc
  next hcheck => cases hc; exact ⟨hcheck, rfl⟩

/-! ## What a collection should do -/

/-- The indices, in ascending order, of the objects that live in `h` and no longer do in `h'`. -/
def lost (h h' : Heap) : List UInt32 :=
  ((List.range h.entries.size).map UInt32.ofNat).filter fun i => h.liveAt i.toNat && !h'.liveAt i.toNat

/-- Of these, the ones that belong to class `m`. -/
def lostOf (h h' : Heap) (m : Nat) : List UInt32 := (lost h h').filter (h.classAt · == m)

structure Collects (h : Heap) (roots : List Value) (n : Nat) (h' : Heap) : Prop where
  tableSize : h'.entries.size = h.entries.size
  /-- An object that can be reached keeps its slots, its count and its generation. -/
  keeps : ∀ (i : UInt32) (e : Entry), h.entries[i.toNat]? = some e → e.live = true → h.Reachable roots i →
    h'.entries[i.toNat]? = some e
  /-- Any other object is gone, and its generation moves on by one, modulo 2^32. -/
  frees : ∀ (i : UInt32) (e : Entry), h.entries[i.toNat]? = some e → e.live = true → ¬ h.Reachable roots i →
    h'.entries[i.toNat]? = some { e with live := false, refCount := 0, generation := e.generation + 1 }
  passes : ∀ (i : UInt32) (e : Entry), h.entries[i.toNat]? = some e → e.live = false →
    h'.entries[i.toNat]? = some e
  unmarked : ∀ (i : Nat) (e : Entry), h'.entries[i]? = some e → e.marked = false
  counts : n = (lost h h').length
  /-- What is freed goes on the free list of its own class, so that the highest index is handed out first. -/
  returns : ∀ (m : Nat) (k : SizeClass), h.classes[m]? = some k → h'.classes[m]? = some
    { k with free := (lostOf h h' m).reverse ++ k.free, live := k.live - (lostOf h h' m).length }
  /-- Once. -/
  once : ∀ i ∈ lost h h', ∀ (m : Nat) (k' : SizeClass), h'.classes[m]? = some k' →
    k'.free.count i = if m = h.classAt i then 1 else 0

/-! ## What it does -/

variable {c : Config} {h : Heap}

/-- An entry after the marking: as it was, and marked if its object can be reached. -/
theorem Sound.entry_mark (hs : Sound c h) (roots : List Value) {i : UInt32} {e : Entry}
    (he : h.entries[i.toNat]? = some e) :
    ∃ e', (h.mark roots).entries[i.toNat]? = some e' ∧ e'.unmark = e ∧ (e'.marked = true ↔ h.Reachable roots i) := by
  have hm : ((h.mark roots).entries[i.toNat]?).map Entry.unmark = some e := by
    have := congrArg (·[i.toNat]?) (unmark_mark hs.unmarked roots)
    simp only [Array.getElem?_map, he, Option.map_some] at this
    rw [this, Entry.unmark_of_unmarked (hs.unmarked _ e he)]
  obtain ⟨e', he', rfl⟩ := Option.map_eq_some_iff.mp hm
  exact ⟨e', he', rfl, marked_iff_reachable hs.unmarked he'⟩

theorem Sound.books_mark (hs : Sound c h) (roots : List Value) : Books c (h.mark roots) := by
  refine hs.books.congr rfl rfl ?_
  have := congrArg (Array.map Entry.outline) (unmark_mark hs.unmarked roots)
  simpa [Function.comp_def] using this

theorem Sound.size_mark (hs : Sound c h) (roots : List Value) : (h.mark roots).entries.size = h.entries.size := by
  simpa using congrArg Array.size (unmark_mark hs.unmarked roots)

theorem foldl_recycle (l : List UInt32) (k : SizeClass) : l.foldl SizeClass.recycle k =
    { k with free := l.reverse ++ k.free, live := k.live - l.length } := by
  induction l generalizing k with
  | nil => rfl
  | cons i l ih =>
    rw [List.foldl_cons, ih]
    simp [SizeClass.recycle, Nat.sub_sub, Nat.add_comm]

theorem Sound.entries_sweep (hs : Sound c h) (roots : List Value) (i : Nat) :
    ((h.mark roots).sweep).2.entries[i]? = (h.mark roots).entries[i]?.map Entry.swept := by
  rw [sweep, entries_sweepUpTo (hs.books_mark roots).size_le_word]
  split
  · rfl
  next hi => rw [Array.getElem?_eq_none (by omega)]; rfl

/-- An entry after the whole collection. -/
theorem Sound.entry_collected (hs : Sound c h) (roots : List Value) {i : UInt32} {e : Entry}
    (he : h.entries[i.toNat]? = some e) :
    (h.Reachable roots i ∨ e.live = false → ((h.mark roots).sweep).2.entries[i.toNat]? = some e) ∧
      (¬ h.Reachable roots i → e.live = true → ((h.mark roots).sweep).2.entries[i.toNat]? = some e.kill) := by
  obtain ⟨e', he', rfl, hmark⟩ := hs.entry_mark roots he
  rw [hs.entries_sweep, he', Option.map_some]
  constructor
  · intro hk
    have hno : (e'.live && !e'.marked) = false := by
      rcases hk with hr | hl
      · simp [hmark.mpr hr]
      · simp [show e'.live = false from hl]
    simp [Entry.swept, hno]
  · intro hr hl
    have hm : e'.marked = false := by simpa using mt hmark.mp hr
    have hyes : (e'.live && !e'.marked) = true := by simp [show e'.live = true from hl, hm]
    rw [Entry.unmark_of_unmarked hm, Entry.swept, if_pos hyes]

/-- What the sweep retires is what lived before and does not after. -/
theorem Sound.doomedUpTo_eq_lost (hs : Sound c h) (roots : List Value) :
    (h.mark roots).doomedUpTo (h.mark roots).entries.size = lost h ((h.mark roots).sweep).2 := by
  rw [doomedUpTo, lost, hs.size_mark]
  refine List.filter_congr fun i _ => ?_
  cases he : h.entries[i.toNat]? with
  | none =>
    have hm : (h.mark roots).entries[i.toNat]? = none := by
      rw [Array.getElem?_eq_none_iff] at he ⊢
      rwa [hs.size_mark]
    simp [doomedAt, liveAt, he, hm]
  | some e =>
    obtain ⟨e', he', rfl, -⟩ := hs.entry_mark roots he
    rw [liveAt_of_entry he, liveAt, hs.entries_sweep, doomedAt, he', Option.map_some, Option.any_some, Option.any_some,
      Entry.swept]
    cases hl : e'.live <;> cases hm : e'.marked <;> simp [Entry.unmark, Entry.kill, hl]

theorem Sound.classAt_mark (hs : Sound c h) (roots : List Value) (i : UInt32) :
    (h.mark roots).classAt i = h.classAt i := by
  cases he : h.entries[i.toNat]? with
  | none =>
    have hm : (h.mark roots).entries[i.toNat]? = none := by
      rw [Array.getElem?_eq_none_iff] at he ⊢
      rwa [hs.size_mark]
    simp [classAt, he, hm]
  | some e =>
    obtain ⟨e', he', rfl, -⟩ := hs.entry_mark roots he
    simp [classAt, he, he', Entry.unmark]

/-- The sweep after a marking leaves a sound heap. -/
theorem Sound.sound_sweep (hs : Sound c h) (roots : List Value) : Sound c ((h.mark roots).sweep).2 := by
  refine ⟨((hs.books_mark roots).sweeping (Nat.le_refl _)).1, fun i e he => ?_⟩
  rw [hs.entries_sweep] at he
  obtain ⟨e', -, rfl⟩ := Option.map_eq_some_iff.mp he
  cases hl : e'.live <;> cases hm : e'.marked <;> simp [Entry.swept, Entry.unmark, Entry.kill, hl, hm]

/-- A collection keeps what can be reached and frees the rest. -/
theorem Sound.collects (hs : Sound c h) (hheld : h.held = []) (roots : List Value) :
    Collects h roots (h.collect roots).1 (h.collect roots).2 := by
  have hc : h.collect roots = (h.mark roots).sweep := by simp [collect, hheld]
  have hsw := hs.sound_sweep roots
  have hword := (hs.books_mark roots).size_le_word
  have hret : ∀ (m : Nat) (k : SizeClass), h.classes[m]? = some k → ((h.mark roots).sweep).2.classes[m]? = some
      { k with free := (lostOf h ((h.mark roots).sweep).2 m).reverse ++ k.free,
               live := k.live - (lostOf h ((h.mark roots).sweep).2 m).length } := by
    intro m k hk
    rw [sweep, classes_sweepUpTo hword, classes_mark, hk, Option.map_some, foldl_recycle,
      hs.doomedUpTo_eq_lost, funext (hs.classAt_mark roots)]
    rfl
  have hsize : ((h.mark roots).sweep).2.entries.size = h.entries.size := by
    rw [hsw.books.tableSize, hs.books.tableSize]
  rw [hc]
  refine ⟨hsize, fun i e he _ hr => ((hs.entry_collected roots he).1 (.inl hr)),
    fun i e he hl hr => (hs.entry_collected roots he).2 hr hl,
    fun i e he hl => (hs.entry_collected roots he).1 (.inr hl), hsw.unmarked, ?_, hret, ?_⟩
  · rw [sweep, fst_sweepUpTo hword, hs.doomedUpTo_eq_lost, sweep]
  · intro i hi m k' hk'
    obtain ⟨hmem, hl⟩ := List.mem_filter.mp hi
    rw [Bool.and_eq_true, Bool.not_eq_true'] at hl
    have hlt := liveAt_lt hl.1
    have hiff := hsw.books.memFree m k' hk' i
    rw [hs.books.classAt_eq hlt, (hsw.books.freeNodup m k' hk').count]
    have hown : i ∈ k'.free ↔ m = i.toNat / c.capacity :=
      ⟨fun hm => (hiff.mp hm).1.symm, fun e => hiff.mpr ⟨e.symm, by rwa [hsize], hl.2⟩⟩
    simp only [hown]

/-- Of the objects that are there, the ones that can be reached stay, with all they have; no other does. -/
theorem Collects.stays_iff {roots : List Value} {n : Nat} {h' : Heap} (hcol : Collects h roots n h') {x : Handle}
    (hx : h.isValid x = true) : (h'.isValid x = true ↔ h.Reachable roots x.index) ∧
      (h.Reachable roots x.index → h'.entries[x.index.toNat]? = h.entries[x.index.toNat]?) := by
  obtain ⟨e, he, hl, hg⟩ := isValid_iff.mp hx
  have hkeep : h.Reachable roots x.index → h'.entries[x.index.toNat]? = h.entries[x.index.toNat]? :=
    fun hr => (hcol.keeps x.index e he hl hr).trans he.symm
  refine ⟨⟨fun hx' => Classical.byContradiction fun hr => ?_, fun hr => ?_⟩, hkeep⟩
  · obtain ⟨e', he', hl', -⟩ := isValid_iff.mp hx'
    rw [hcol.frees x.index e he hl hr, Option.some.injEq] at he'
    rw [← he'] at hl'
    cases hl'
  · exact isValid_iff.mpr ⟨e, (hkeep hr).trans he, hl, hg⟩

/-- What is there after a collection is as it was before. -/
theorem Sound.entry_of_valid_after (hs : Sound c h) (roots : List Value) {x : Handle}
    (hx : (h.collect roots).2.isValid x = true) :
    (h.collect roots).2.entries[x.index.toNat]? = h.entries[x.index.toNat]? := by
  by_cases hheld : h.held = []
  · have hcol := hs.collects hheld roots
    have hi := liveAt_lt (liveAt_of_isValid hx)
    rw [hcol.tableSize] at hi
    have he := Array.getElem?_eq_getElem hi
    rw [he]
    obtain ⟨e', he', hl', -⟩ := isValid_iff.mp hx
    cases hl : (h.entries[x.index.toNat]).live with
    | false => exact hcol.passes x.index _ he hl
    | true =>
      by_cases hr : h.Reachable roots x.index
      · exact hcol.keeps x.index _ he hl hr
      · rw [hcol.frees x.index _ he hl hr, Option.some.injEq] at he'
        rw [← he'] at hl'
        cases hl'
  · simp [Heap.collect, hheld]

/-- A collection leaves a sound heap, whether or not somebody is inside an object. -/
theorem Sound.collect (hs : Sound c h) (roots : List Value) : Sound c (h.collect roots).2 := by
  unfold Heap.collect
  split
  · exact hs.sound_sweep roots
  · exact hs

theorem Sound.liveObjects_collect (hs : Sound c h) (roots : List Value) :
    (h.collect roots).2.liveObjects + (h.collect roots).1 = h.liveObjects := by
  unfold Heap.collect
  split
  · exact ((hs.books_mark roots).sweeping (Nat.le_refl _)).2
  · rfl

end Heap

end StackVM
