/-
  StackVM.Proofs.Shared.Reuse — which indices are used, over whole runs.

  Whoever makes objects and lets them go, and in whatever order, a class uses as many of its indices, from the first one
  on, as objects of it live at one time at most, and an allocation takes the index that came back last.

  - `peak`: the largest number of objects of a class that live at one time of a run.
  - `Fit.reuses_run`: free lists stay in order all through a run.
  - `reuse_run`: which indices are used, and which one an allocation takes, on a new heap.
-/

import StackVM.Proofs.Heap.Reuse
import StackVM.Proofs.Shared.Generations

namespace StackVM

namespace Shared

open Heap

variable {c : Heap.Config} {s : Shared}

/-- What happens to the indices in a run, in order. -/
def uses (s : Shared) : List Op → List Use
  | [] => []
  | o :: os => Heap.uses s.heap (s.act o).heap (s.event o) ++ (s.act o).uses os

/-- The largest number of objects of class `n` that live at one time of a run. -/
def peak (s : Shared) (n : Nat) : List Op → Nat
  | [] => s.heap.census n
  | o :: os => max (s.heap.census n) ((s.act o).peak n os)

theorem census_le_peak (n : Nat) (os : List Op) : s.heap.census n ≤ s.peak n os := by
  cases os with
  | nil => exact Nat.le_refl _
  | cons o os => exact Nat.le_max_left _ _

theorem Fit.reuses_act (hs : Fit c s) {us : List Use} {most : Nat → Nat} (hr : Reuses c us most s.heap)
    (hmost : ∀ n, s.heap.census n ≤ most n) (o : Op) :
    Reuses c (us ++ Heap.uses s.heap (s.act o).heap (s.event o)) (fun n => max (most n) ((s.act o).heap.census n))
      (s.act o).heap := by
  have hm := hs.move o
  generalize s.act o = s' at hm
  generalize s.event o = e at hm
  cases hm with
  | change ms hc => exact hr.change hs.sound hc
  | enter | leave =>
    intro n k hk
    show Ordered c n (us ++ []) (max (most n) (s.heap.census n)) k
    rw [Nat.max_eq_left (hmost n)]
    exact hr.same rfl hk

theorem Fit.reuses_run (hs : Fit c s) {us : List Use} {most : Nat → Nat} (hr : Reuses c us most s.heap)
    (hmost : ∀ n, s.heap.census n ≤ most n) (os : List Op) :
    Reuses c (us ++ s.uses os) (fun n => max (most n) (s.peak n os)) (s.run os).heap := by
  induction os generalizing s us most with
  | nil =>
    intro n k hk
    show Ordered c n (us ++ []) (max (most n) (s.heap.census n)) k
    rw [Nat.max_eq_left (hmost n)]
    exact hr.same rfl hk
  | cons o os ih =>
    have hrun := ih (hs.act o) (hs.reuses_act hr hmost o) fun n => Nat.le_max_right _ _
    have hpeak : (fun n => max (most n) (s.peak n (o :: os))) =
        fun n => max (max (most n) ((s.act o).heap.census n)) ((s.act o).peak n os) := by
      funext n
      have hnow := hmost n
      have hlater := census_le_peak (s := s.act o) n os
      rw [peak]
      omega
    rw [hpeak, Shared.run, uses, ← List.append_assoc]
    exact hrun

/-- On a new heap no index has been used. -/
theorem reuses_build {c : Heap.Config} (hc : c.check = .ok ()) : Reuses c [] (fun _ => 0) (build c) := by
  obtain ⟨-, hpos, -, -⟩ := Config.bounds_of_check hc
  intro n k hk
  rw [classes_build] at hk
  obtain ⟨m, -, rfl⟩ := Option.map_eq_some_iff.mp hk
  refine ⟨rfl, fun i hi => ?_, Nat.zero_le _⟩
  rw [Nat.div_eq_iff hpos] at hi
  simp only [List.not_mem_nil, false_iff]
  omega

theorem census_build {c : Heap.Config} (hc : c.check = .ok ()) (n : Nat) : (build c).census n = 0 := by
  rw [census, List.countP_eq_zero]
  intro i _
  rw [liveAt_build (Config.bounds_of_check hc).2.1]
  exact Bool.false_ne_true

/-- Where not all entries of a class are live, an allocation is given one. -/
theorem Fit.made_of_room (hs : Fit c s) {n : Nat} (hn : n < s.heap.classes.size)
    (hroom : s.heap.census n < c.capacity) :
    ∃ x, s.event (.call (.allocate n)) = some (.made x) ∧ x.index.toNat / c.capacity = n := by
  have hb := hs.sound.books
  have hready : s.ready (.call (.allocate n)) = true := rfl
  have hevent : s.event (.call (.allocate n)) = (given (allocate n) s.heap).map .made := if_pos hready
  have hk := Array.getElem?_eq_getElem hn
  rcases allocate_cases (h := s.heap) n with ⟨k, i, rest, hk', hf, ha⟩ | ⟨k, hk', hf, ha⟩ | ⟨hno, -⟩
  · refine ⟨⟨i, s.heap.generationAt i⟩, ?_, ?_⟩
    · rw [hevent, given, ha]
      rfl
    · exact hb.class_of_top hk' hf
  · have hcount := hb.counted n k hk'
    rw [hb.live_eq_census hk', hf, List.length_nil] at hcount
    omega
  · rw [hk] at hno
    cases hno

/-- Whoever is given an index, it is the one that is due. -/
theorem Fit.due_of_made (hs : Fit c s) {us : List Use} {most : Nat → Nat} (hr : Reuses c us most s.heap) {o : Op}
    {x : Handle} (he : s.event o = some (.made x)) : Due c us s.heap (x.index.toNat / c.capacity) x.index := by
  have hc := hs.change_of_event he
  generalize (s.act o).heap = h' at hc
  cases hc with
  | @made n k i rest hk hf =>
    have hclass : i.toNat / c.capacity = n := hs.sound.books.class_of_top hk hf
    show Due c us s.heap (i.toNat / c.capacity) i
    rw [hclass]
    exact hr.due hs.sound.books hk hf

/-- After every run on a new heap: of the indices of a class, from its first one on, as many have been used as objects
of it have lived at one time at most, and no others; as long as not all entries of the class are live an allocation is
given an index of it; and whoever is given one, it is the one that is due. -/
theorem reuse_run {h₀ : Heap} (hc : Heap.ofConfig c = .ok h₀) (os : List Op) {n : Nat} {k : SizeClass}
    (hk : h₀.classes[n]? = some k) :
    let s := (start h₀).run os
    let us := (start h₀).uses os
    (∀ i : UInt32, .taken i ∈ us ∧ i.toNat / c.capacity = n ↔
      k.first ≤ i.toNat ∧ i.toNat < k.first + (start h₀).peak n os) ∧
    (s.heap.census n < c.capacity → ∃ x, s.event (.call (.allocate n)) = some (.made x) ∧
      x.index.toNat / c.capacity = n) ∧
    ∀ (o : Op) (x : Handle), s.event o = some (.made x) → x.index.toNat / c.capacity = n →
      Due c us s.heap n x.index := by
  intro s us
  have hs : Fit c s := fit_run hc os
  obtain ⟨hcheck, rfl⟩ := check_of_ofConfig hc
  have hpeak : (fun n => max 0 ((start (build c)).peak n os)) = fun n => (start (build c)).peak n os :=
    funext fun n => Nat.zero_max _
  have hr : Reuses c us (fun n => (start (build c)).peak n os) s.heap := by
    rw [← hpeak]
    exact (fit_start (sound_build hcheck) rfl).reuses_run (reuses_build hcheck)
      (fun n => Nat.le_of_eq (census_build hcheck n)) os
  have hfirst := ((books_build hcheck).classShape n k hk).2
  have hn : n < s.heap.classes.size := by
    rw [hs.sound.books.classCount, ← (books_build hcheck).classCount]
    exact (Array.getElem?_eq_some_iff.mp hk).1
  have hk' := Array.getElem?_eq_getElem hn
  have ho : Ordered c n us ((start (build c)).peak n os) _ := hr n _ hk'
  refine ⟨fun i => ?_, fun hroom => ?_, fun o x he hclass => ?_⟩
  · rw [hfirst]
    constructor
    · rintro ⟨hused, hclass⟩
      exact ⟨(hs.sound.books.bounds hclass).1, (ho.used i hclass).mp hused⟩
    · rintro ⟨hle, hlt⟩
      have hmost := ho.le
      have hclass : i.toNat / c.capacity = n := by
        rw [Nat.div_eq_iff hs.sound.books.capacityPos]
        omega
      exact ⟨(ho.used i hclass).mpr hlt, hclass⟩
  · exact hs.made_of_room hn hroom
  · have hdue := hs.due_of_made hr he
    rwa [hclass] at hdue

/-- Two objects come and go: the index that came back last is taken first, and the third has never been used. -/
theorem reuse_run_latest :
    let os : List Op :=
      [.call (.allocate 0), .call (.allocate 0), .call (.release ⟨0, 0⟩), .call (.release ⟨1, 0⟩)]
    let s := (start (build ⟨[1], 3⟩)).run os
    let us := (start (build ⟨[1], 3⟩)).uses os
    Heap.ofConfig ⟨[1], 3⟩ = .ok (build ⟨[1], 3⟩) ∧ us = [.taken 0, .taken 1, .returned 0, .returned 1] ∧
      (∀ i : UInt32, .taken i ∈ us ∧ i.toNat / 3 = 0 ↔ i.toNat < 2) ∧
      s.event (.call (.allocate 0)) = some (.made ⟨1, 1⟩) ∧ Due ⟨[1], 3⟩ us s.heap 0 1 := by
  intro os s us
  have hc : Heap.ofConfig ⟨[1], 3⟩ = .ok (build ⟨[1], 3⟩) := rfl
  have hk : (build ⟨[1], 3⟩).classes[0]? = some (newClass 3 0 1) := by decide
  obtain ⟨hused, -, hdue⟩ := reuse_run hc os hk
  have hmade : s.event (.call (.allocate 0)) = some (.made ⟨1, 1⟩) := by decide
  refine ⟨hc, by decide, fun i => ?_, hmade, hdue _ _ hmade rfl⟩
  have hpeak : (start (build ⟨[1], 3⟩)).peak 0 os = 2 := by decide
  simpa [hpeak, newClass] using hused i

end Shared

end StackVM
