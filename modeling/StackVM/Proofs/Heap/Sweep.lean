/-
  StackVM.Proofs.Heap.Sweep — what a sweep does to the table, the free lists and the counters.

  `doomedUpTo n h` are the indices below `n` of the live entries without a mark, in ascending order. A sweep
  takes these out of life, one after the other, puts each on the free list of its class and counts them; of
  every other entry it takes the mark away.

  - `entries_sweepUpTo`, `classes_sweepUpTo`: what becomes of each entry and of each class.
  - `fst_sweepUpTo`: how many are counted.
  - `Books.sweeping`: the books agree all the while.
-/

import StackVM.Proofs.Heap.Reachability

namespace StackVM

/-- What a sweep makes of an entry. -/
def Entry.swept (e : Entry) : Entry := if e.live && !e.marked then e.kill else e.unmark

@[simp] theorem Entry.sizeClass_swept (e : Entry) : e.swept.sizeClass = e.sizeClass := by
  unfold Entry.swept; split <;> rfl

namespace Heap

/-- A sweep will retire the entry at an index. -/
def doomedAt (h : Heap) (i : UInt32) : Bool := h.entries[i.toNat]?.any fun e => e.live && !e.marked

def doomedUpTo (n : Nat) (h : Heap) : List UInt32 := ((List.range n).map UInt32.ofNat).filter h.doomedAt

variable {c : Config} {h : Heap}

theorem doomedUpTo_succ (n : Nat) : h.doomedUpTo (n + 1) =
    if h.doomedAt (UInt32.ofNat n) then h.doomedUpTo n ++ [UInt32.ofNat n] else h.doomedUpTo n := by
  simp only [doomedUpTo, List.range_succ, List.map_append, List.filter_append, List.map_cons, List.map_nil,
    List.filter_cons, List.filter_nil]
  split <;> simp

/-! ## One entry -/

theorem sweepEntry_of_doomed {i : Nat} (hi : i < UInt32.size) (hd : h.doomedAt (UInt32.ofNat i) = true) (n : Nat) :
    sweepEntry i n h = (n + 1, h.retire (UInt32.ofNat i)) := by
  simp only [doomedAt, UInt32.toNat_ofNat_of_lt' hi, Option.any_eq_true] at hd
  obtain ⟨e, he, hd⟩ := hd
  simp [sweepEntry, he, fateOf, hd]

theorem sweepEntry_of_not_doomed {i : Nat} (hi : i < UInt32.size) (hd : h.doomedAt (UInt32.ofNat i) = false) (n : Nat) :
    (sweepEntry i n h).1 = n ∧ (sweepEntry i n h).2.classes = h.classes ∧
      ∀ j : Nat, (sweepEntry i n h).2.entries[j]? =
        if i = j then h.entries[j]?.map Entry.unmark else h.entries[j]? := by
  simp only [doomedAt, UInt32.toNat_ofNat_of_lt' hi] at hd
  cases he : h.entries[i]? with
  | none =>
    rw [show sweepEntry i n h = (n, h) by simp [sweepEntry, he]]
    refine ⟨rfl, rfl, fun j => ?_⟩
    split
    next e' => rw [← e', he]; rfl
    next => rfl
  | some e =>
    rw [he, Option.any_some] at hd
    by_cases hm : e.marked = true
    · rw [show sweepEntry i n h = (n, h.updateEntry (UInt32.ofNat i) Entry.unmark) by
        simp [sweepEntry, he, fateOf, hm]; rfl]
      refine ⟨rfl, rfl, fun j => ?_⟩
      rw [entries_updateEntry, UInt32.toNat_ofNat_of_lt' hi]
    · rw [show sweepEntry i n h = (n, h) by simp_all [sweepEntry, fateOf]]
      refine ⟨rfl, rfl, fun j => ?_⟩
      split
      next e' =>
        rw [← e', he, Option.map_some, Entry.unmark_of_unmarked]
        simpa using hm
      next => rfl

theorem entries_sweepEntry {i : Nat} (hi : i < UInt32.size) (n j : Nat) :
    (sweepEntry i n h).2.entries[j]? = if i = j then h.entries[j]?.map Entry.swept else h.entries[j]? := by
  cases hd : h.doomedAt (UInt32.ofNat i) with
  | true =>
    rw [sweepEntry_of_doomed hi hd, retire, entries_updateClass, entries_updateEntry, UInt32.toNat_ofNat_of_lt' hi]
    split
    next e =>
      subst e
      simp only [doomedAt, UInt32.toNat_ofNat_of_lt' hi, Option.any_eq_true] at hd
      obtain ⟨e, he, hd⟩ := hd
      simp [he, Entry.swept, hd]
    next => rfl
  | false =>
    rw [(sweepEntry_of_not_doomed hi hd n).2.2]
    split
    next e =>
      subst e
      simp only [doomedAt, UInt32.toNat_ofNat_of_lt' hi] at hd
      cases he : h.entries[i]? with
      | none => rfl
      | some e =>
        rw [he, Option.any_some] at hd
        simp [Entry.swept, hd]
    next => rfl

/-! ## The whole table -/

@[simp] theorem sweepUpTo_zero (h : Heap) : sweepUpTo 0 h = (0, h) := rfl

theorem sweepUpTo_succ (n : Nat) (h : Heap) :
    sweepUpTo (n + 1) h = sweepEntry n (sweepUpTo n h).1 (sweepUpTo n h).2 := by
  simp [sweepUpTo, Nat.fold_succ]

theorem entries_sweepUpTo {n : Nat} (hn : n ≤ UInt32.size) (j : Nat) :
    (sweepUpTo n h).2.entries[j]? = if j < n then h.entries[j]?.map Entry.swept else h.entries[j]? := by
  induction n with
  | zero => simp
  | succ n ih =>
    rw [sweepUpTo_succ, entries_sweepEntry (by omega), ih (by omega)]
    by_cases e : n = j
    · subst e; simp
    · rw [if_neg e]
      by_cases hj : j < n
      · rw [if_pos hj, if_pos (by omega)]
      · rw [if_neg hj, if_neg (by omega)]

/-- The entry that comes next has not been touched yet. -/
theorem doomedAt_sweepUpTo {n : Nat} (hn : n < UInt32.size) :
    (sweepUpTo n h).2.doomedAt (UInt32.ofNat n) = h.doomedAt (UInt32.ofNat n) := by
  simp [doomedAt, UInt32.toNat_ofNat_of_lt' hn, entries_sweepUpTo (Nat.le_of_lt hn)]

/-- A sweep moves no entry into another class. -/
theorem classAt_sweepUpTo {n : Nat} (hn : n ≤ UInt32.size) (i : UInt32) : (sweepUpTo n h).2.classAt i = h.classAt i := by
  rw [classAt, entries_sweepUpTo hn, classAt]
  split
  · cases h.entries[i.toNat]? <;> simp
  · rfl

theorem capacity_sweepEntry (i n : Nat) (h : Heap) :
    (sweepEntry i n h).2.capacity = h.capacity ∧ (sweepEntry i n h).2.held = h.held := by
  unfold sweepEntry
  split <;> exact ⟨rfl, rfl⟩

theorem capacity_sweepUpTo (n : Nat) (h : Heap) :
    (sweepUpTo n h).2.capacity = h.capacity ∧ (sweepUpTo n h).2.held = h.held := by
  induction n with
  | zero => exact ⟨rfl, rfl⟩
  | succ n ih =>
    rw [sweepUpTo_succ]
    obtain ⟨hcap, hheld⟩ := capacity_sweepEntry n (sweepUpTo n h).1 (sweepUpTo n h).2
    exact ⟨hcap.trans ih.1, hheld.trans ih.2⟩

theorem fst_sweepUpTo {n : Nat} (hn : n ≤ UInt32.size) : (sweepUpTo n h).1 = (h.doomedUpTo n).length := by
  induction n with
  | zero => rfl
  | succ n ih =>
    rw [sweepUpTo_succ, doomedUpTo_succ, ← doomedAt_sweepUpTo (by omega)]
    cases hd : (sweepUpTo n h).2.doomedAt (UInt32.ofNat n) with
    | true => rw [sweepEntry_of_doomed (by omega) hd, if_pos rfl, List.length_append, ih (by omega)]; rfl
    | false =>
      rw [(sweepEntry_of_not_doomed (by omega) hd _).1, ih (by omega)]
      rfl

/-- Each class takes back its own doomed indices in ascending order. -/
theorem classes_sweepUpTo {n : Nat} (hn : n ≤ UInt32.size) (m : Nat) :
    (sweepUpTo n h).2.classes[m]? =
      h.classes[m]?.map fun k => ((h.doomedUpTo n).filter (h.classAt · == m)).foldl SizeClass.recycle k := by
  induction n with
  | zero => simp [doomedUpTo]
  | succ n ih =>
    rw [sweepUpTo_succ, doomedUpTo_succ, ← doomedAt_sweepUpTo (by omega)]
    cases hd : (sweepUpTo n h).2.doomedAt (UInt32.ofNat n) with
    | true =>
      rw [sweepEntry_of_doomed (by omega) hd, if_pos rfl, retire, classes_updateClass, classes_updateEntry,
        classAt_sweepUpTo (by omega), ih (by omega), List.filter_append]
      by_cases e : h.classAt (UInt32.ofNat n) = m
      · rw [if_pos e, Option.map_map]
        simp [e, Function.comp_def]
      · rw [if_neg e]
        simp [e]
    | false =>
      rw [(sweepEntry_of_not_doomed (by omega) hd _).2.1, ih (by omega)]
      rfl

theorem liveAt_of_doomedAt {i : UInt32} (hd : h.doomedAt i = true) : h.liveAt i.toNat = true := by
  simp only [doomedAt, Option.any_eq_true, Bool.and_eq_true] at hd
  obtain ⟨e, he, hl, -⟩ := hd
  rw [liveAt_of_entry he, hl]

/-- The books stay in agreement all through a sweep, and what is counted is what is no longer live. -/
theorem Books.sweeping (hb : Books c h) {n : Nat} (hn : n ≤ h.entries.size) :
    Books c (sweepUpTo n h).2 ∧ (sweepUpTo n h).2.liveObjects + (sweepUpTo n h).1 = h.liveObjects := by
  induction n with
  | zero => exact ⟨hb, rfl⟩
  | succ n ih =>
    obtain ⟨hb', hlive⟩ := ih (by omega)
    have hword := hb.lt_of_lt_size (i := n) (by omega)
    rw [sweepUpTo_succ]
    cases hd : (sweepUpTo n h).2.doomedAt (UInt32.ofNat n) with
    | true =>
      have hl := liveAt_of_doomedAt hd
      have := hb'.liveObjects_retire hl
      rw [sweepEntry_of_doomed hword hd]
      refine ⟨hb'.retire hl, ?_⟩
      show ((sweepUpTo n h).2.retire _).liveObjects + ((sweepUpTo n h).1 + 1) = h.liveObjects
      omega
    | false =>
      obtain ⟨hfst, hcls, hent⟩ := sweepEntry_of_not_doomed hword hd (sweepUpTo n h).1
      have hcap := (capacity_sweepEntry n (sweepUpTo n h).1 (sweepUpTo n h).2).1
      refine ⟨hb'.congr hcap hcls (Array.ext_getElem? fun j => ?_), ?_⟩
      · rw [Array.getElem?_map, Array.getElem?_map, hent]
        split
        · cases (sweepUpTo n h).2.entries[j]? <;> rfl
        · rfl
      · rw [hfst, liveObjects, hcls]
        exact hlive

end Heap

end StackVM
