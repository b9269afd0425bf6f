/-
  StackVM.Proofs.Shared.Stock — free lists and counters over whole runs.

  An index is taken by an allocation and given back by a release or a collection, and each of them writes it
  down in three places. `Heap.Stock c h₀ h` says that in `h` the three agree and that every entry is as it was
  set up in `h₀`.

  - `Sound.stock`: that is so in every sound heap.
  - `Fit.liveObjects_run`: over a run, the number of live objects goes up by the allocations and down by what
    releases and collections free.
  - `stock_run`: both, for every run on a new heap.
-/

import StackVM.Proofs.Shared.Basic

namespace StackVM

namespace Heap

/-! ## Free lists, counters and entries -/

structure Stock (c : Config) (h₀ h : Heap) : Prop where
  classCount : h.classes.size = h₀.classes.size
  tableSize : h.entries.size = h₀.entries.size
  freeNodup : ∀ (n : Nat) (k : SizeClass), h.classes[n]? = some k → k.free.Nodup
  /-- The free list has exactly the indices of the class's window whose entries are not live. -/
  memFree : ∀ (n : Nat) (k : SizeClass), h.classes[n]? = some k → ∀ i : UInt32,
    i ∈ k.free ↔ (n * c.capacity ≤ i.toNat ∧ i.toNat < (n + 1) * c.capacity) ∧ h.liveAt i.toNat = false
  /-- The counter is the number of live entries in the window. -/
  census : ∀ (n : Nat) (k : SizeClass), h.classes[n]? = some k →
    k.live = (List.range' (n * c.capacity) c.capacity).countP h.liveAt
  counted : ∀ (n : Nat) (k : SizeClass), h.classes[n]? = some k → k.live + k.free.length = c.capacity
  shape : ∀ (i : Nat) (e : Entry), h.entries[i]? = some e →
    ∃ e₀, h₀.entries[i]? = some e₀ ∧ e.sizeClass = e₀.sizeClass ∧ e.slots.size = e₀.slots.size
  unmarked : ∀ (i : Nat) (e : Entry), h.entries[i]? = some e → e.marked = false
  /-- An allocation finds nothing exactly when as many objects of the class are live as there may be. -/
  exhausted : ∀ n : Nat, (∃ e, allocate n h = .error e h ∧ e.status = .outOfMemory) ↔
    n < h.classes.size ∧ (List.range' (n * c.capacity) c.capacity).countP h.liveAt = c.capacity

variable {c : Config} {h h₀ : Heap}

theorem Books.mem_window_iff (hb : Books c h) (n i : Nat) :
    i / c.capacity = n ↔ n * c.capacity ≤ i ∧ i < (n + 1) * c.capacity := by
  rw [Nat.div_eq_iff hb.capacityPos, Nat.add_mul, Nat.one_mul]
  have := hb.capacityPos
  omega

theorem Books.census_eq (hb : Books c h) (n : Nat) :
    (List.range' (n * c.capacity) c.capacity).countP h.liveAt = h.census n := by
  rw [Heap.census, window, hb.capacity]

/-- Two tables set up from one configuration have the same shape. -/
theorem Books.shape_eq (hb : Books c h) (hb₀ : Books c h₀) {i : Nat} {e : Entry} (he : h.entries[i]? = some e) :
    ∃ e₀, h₀.entries[i]? = some e₀ ∧ e.sizeClass = e₀.sizeClass ∧ e.slots.size = e₀.slots.size := by
  have hi : i < h₀.entries.size := by
    rw [hb₀.tableSize, ← hb.tableSize]; exact lt_of_entry he
  have he₀ := Array.getElem?_eq_getElem hi
  obtain ⟨hclass, hslots⟩ := hb.shape i e he
  obtain ⟨hclass₀, hslots₀⟩ := hb₀.shape i _ he₀
  refine ⟨_, he₀, UInt32.toNat_inj.mp (hclass.trans hclass₀.symm), ?_⟩
  exact Option.some.inj (hslots.symm.trans hslots₀)

/-- An allocation finds nothing exactly when the whole window is live. -/
theorem Books.exhausted_iff (hb : Books c h) (n : Nat) :
    (∃ e, allocate n h = .error e h ∧ e.status = .outOfMemory) ↔ n < h.classes.size ∧ h.census n = c.capacity := by
  rcases allocate_cases (h := h) n with ⟨k, i, rest, hk, hf, ha⟩ | ⟨k, hk, hf, ha⟩ | ⟨hk, ha⟩
  · have hcount := hb.counted n k hk
    rw [hb.live_eq_census hk, hf, List.length_cons] at hcount
    refine ⟨fun ⟨e, he, _⟩ => ?_, fun ⟨_, hfull⟩ => absurd hfull (by omega)⟩
    rw [ha] at he; cases he
  · have hcount := hb.counted n k hk
    rw [hb.live_eq_census hk, hf, List.length_nil] at hcount
    exact ⟨fun _ => ⟨(Array.getElem?_eq_some_iff.mp hk).1, hcount⟩, fun _ => ⟨_, ha, rfl⟩⟩
  · refine ⟨fun ⟨e, he, hs⟩ => ?_, fun ⟨hn, _⟩ => ?_⟩
    · rw [ha] at he; cases he; cases hs
    · exact absurd hn (Nat.not_lt.mpr (Array.getElem?_eq_none_iff.mp hk))

theorem Sound.stock (hs : Sound c h) (hs₀ : Sound c h₀) : Stock c h₀ h := by
  have hb := hs.books
  refine ⟨hb.classCount.trans hs₀.books.classCount.symm, hb.tableSize.trans hs₀.books.tableSize.symm, hb.freeNodup,
    fun n k hk i => ?_, fun n k hk => ?_, hb.counted, fun i e he => hb.shape_eq hs₀.books he, hs.unmarked, fun n => ?_⟩
  · rw [hb.memFree n k hk i, ← hb.mem_window_iff]
    constructor
    · rintro ⟨hw, -, hl⟩; exact ⟨hw, hl⟩
    · rintro ⟨hw, hl⟩
      -- the window of a class lies in the table
      have hn := (Array.getElem?_eq_some_iff.mp hk).1
      exact ⟨hw, hb.lt_of_mem_window hn (hb.mem_window.mpr hw), hl⟩
  · rw [hb.census_eq, hb.live_eq_census hk]
  · rw [hb.census_eq, hb.exhausted_iff]

end Heap

namespace Shared

/-! ## The number of live objects -/

open Heap.Event

variable {c : Heap.Config} {s : Shared}

theorem Fit.liveObjects_act (hs : Fit c s) (o : Op) :
    (s.act o).heap.liveObjects + total releases (s.event o).toList + total collections (s.event o).toList =
      s.heap.liveObjects + total allocations (s.event o).toList := by
  have hm := hs.move o
  generalize s.act o = s' at hm
  generalize s.event o = e at hm
  cases hm with
  | change ms hc => exact hc.liveObjects hs.sound
  | enter | leave => rfl

theorem Fit.liveObjects_run (hs : Fit c s) (os : List Op) :
    (s.run os).heap.liveObjects + total releases (s.history os) + total collections (s.history os) =
      s.heap.liveObjects + total allocations (s.history os) := by
  induction os generalizing s with
  | nil => rfl
  | cons o os ih =>
    have h1 := hs.liveObjects_act o
    have h2 := ih (hs.act o)
    simp only [Shared.run, history, total_append]
    omega

/-- Free lists, counters, entries and the number of live objects, after every run on a new heap. -/
theorem stock_run {h₀ : Heap} (hc : Heap.ofConfig c = .ok h₀) (os : List Op) :
    Heap.Stock c h₀ ((start h₀).run os).heap ∧
      ((start h₀).run os).heap.liveObjects + total releases ((start h₀).history os) +
        total collections ((start h₀).history os) = total allocations ((start h₀).history os) := by
  obtain ⟨hcheck, rfl⟩ := Heap.check_of_ofConfig hc
  have hs := Heap.sound_build hcheck
  refine ⟨(fit_run hc os).sound.stock hs, ?_⟩
  have hlive := (fit_start hs rfl).liveObjects_run os
  rwa [show (start (Heap.build c)).heap.liveObjects = 0 from Heap.liveObjects_build c, Nat.zero_add] at hlive

/-- A class of one object is exhausted by one allocation. -/
theorem stock_run_full :
    let s := (start (Heap.build ⟨[1], 1⟩)).run [.call (.allocate 0), .call (.allocate 0)]
    Heap.ofConfig ⟨[1], 1⟩ = .ok (Heap.build ⟨[1], 1⟩) ∧ Heap.Stock ⟨[1], 1⟩ (Heap.build ⟨[1], 1⟩) s.heap ∧
      s.heap.liveObjects = 1 ∧
      (start (Heap.build ⟨[1], 1⟩)).history [.call (.allocate 0), .call (.allocate 0)] = [.made ⟨0, 0⟩] := by
  have hc : Heap.ofConfig ⟨[1], 1⟩ = .ok (Heap.build ⟨[1], 1⟩) := rfl
  obtain ⟨hstock, hlive⟩ := stock_run hc [.call (.allocate 0), .call (.allocate 0)]
  exact ⟨hc, hstock, hlive, by decide⟩

end Shared

end StackVM
