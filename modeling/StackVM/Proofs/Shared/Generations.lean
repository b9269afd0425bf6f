/-
  StackVM.Proofs.Shared.Generations — stale handles, over whole runs.

  A handle names one object for as long as that lives. Afterwards its index may serve other objects, and the
  handle must not be taken for one of theirs. What tells them apart is a generation of 32 bits, so the promise
  holds as long as no index is freed 2^32 times; up to there it is exact.

  - `Fit.generation_run`: the generation of an index is the number of times it has been freed.
  - `Fit.nodup_handles`: from any point of a run on, no handle is made twice.
  - `stale_run`: both promises, for every run on a new heap.
-/

import StackVM.Proofs.Heap.Generations
import StackVM.Proofs.Shared.Basic

namespace StackVM

namespace Shared

open Heap

variable {c : Heap.Config} {s : Shared}

/-- How many times an object is freed at an index in a run. -/
def frees (s : Shared) (i : UInt32) : List Op → Nat
  | [] => 0
  | o :: os => freed s.heap (s.act o).heap i + (s.act o).frees i os

theorem frees_le_length (i : UInt32) (os : List Op) : s.frees i os ≤ os.length := by
  induction os generalizing s with
  | nil => exact Nat.le_refl 0
  | cons o os ih =>
    have hone := freed_le_one s.heap (s.act o).heap i
    have hrest := ih (s := s.act o)
    rw [frees, List.length_cons]
    omega

/-! ## The generation of an index -/

theorem Fit.generation_act (hs : Fit c s) (o : Op) (i : UInt32) :
    (s.act o).heap.generationAt i = s.heap.generationAt i + UInt32.ofNat (freed s.heap (s.act o).heap i) := by
  have hm := hs.move o
  generalize s.act o = s' at hm
  generalize s.event o = e at hm
  cases hm with
  | change ms hc => exact hc.generation hs.sound i
  | enter | leave => simp only [freed_holding]; exact (UInt32.add_zero _).symm

theorem Fit.generation_run (hs : Fit c s) (os : List Op) (i : UInt32) :
    (s.run os).heap.generationAt i = s.heap.generationAt i + UInt32.ofNat (s.frees i os) := by
  induction os generalizing s with
  | nil => exact (UInt32.add_zero _).symm
  | cons o os ih => rw [Shared.run, ih (hs.act o), hs.generation_act o i, frees, UInt32.ofNat_add, UInt32.add_assoc]

/-- What happens in an operation is what it does to the heap. -/
theorem Fit.change_of_event (hs : Fit c s) {o : Op} {e : Event} (he : s.event o = some e) :
    Change s.heap (some e) (s.act o).heap := by
  have hm := hs.move o
  generalize s.act o = s' at hm
  rw [he] at hm
  cases hm with
  | change ms hc => exact hc

/-- An object goes by a release or a collection, and its index counts one more. -/
theorem Fit.gone_act (hs : Fit c s) (o : Op) {x : Handle} (hx : s.heap.isValid x = true)
    (hx' : (s.act o).heap.isValid x = false) :
    freed s.heap (s.act o).heap x.index = 1 ∧
      (s.event o = some (.released x true) ∨ ∃ n, s.event o = some (.collected n)) := by
  have hm := hs.move o
  generalize s.act o = s' at hm hx'
  generalize s.event o = e at hm
  cases hm with
  | change ms hc => exact ⟨hc.freed_of_gone hs.sound hx hx', hc.event_of_gone hs.sound hx hx'⟩
  | enter | leave => exact absurd (hx.symm.trans hx') (by simp)

/-- Adding less than the size of a word, but something, makes another word. -/
theorem add_ofNat_ne {g : UInt32} {k : Nat} (hpos : 0 < k) (hk : k < UInt32.size) : g + UInt32.ofNat k ≠ g := by
  intro he
  have h0 : UInt32.ofNat k = UInt32.ofNat 0 := by
    have := congrArg (fun w => w - g) he
    simpa [UInt32.add_comm g, UInt32.add_sub_cancel] using this
  exact Nat.ne_of_gt hpos (ofNat_inj hk (by decide) h0)

/-- From the state in which an object has been freed on, its handle stays stale as long as its index is freed less
than 2^32 - 1 times more. -/
theorem Fit.stale_run_of_gone (hs : Fit c s) {o : Op} {x : Handle} (hx : s.heap.isValid x = true)
    (hx' : (s.act o).heap.isValid x = false) {os : List Op}
    (hfew : (s.act o).frees x.index os < UInt32.size - 1) : ((s.act o).run os).heap.isValid x = false := by
  have hgen := (hs.act o).generation_run os x.index
  rw [hs.generation_act o x.index, (hs.gone_act o hx hx').1, generationAt_of_isValid hx, UInt32.add_assoc,
    ← UInt32.ofNat_add] at hgen
  cases hv : ((s.act o).run os).heap.isValid x with
  | false => rfl
  | true =>
    rw [generationAt_of_isValid hv] at hgen
    exact absurd hgen.symm (add_ofNat_ne (by omega) (by omega))

/-! ## No handle is made twice -/

/-- An object that is not freed in a run goes on to live. -/
theorem live_run_of_frees_eq_zero {i : UInt32} (hl : s.heap.liveAt i.toNat = true) {os : List Op}
    (h0 : s.frees i os = 0) : (s.run os).heap.liveAt i.toNat = true := by
  induction os generalizing s with
  | nil => exact hl
  | cons o os ih =>
    rw [frees] at h0
    exact ih (live_of_freed_eq_zero hl (by omega)) (by omega)

/-- An object that is there is not made again, unless its index has been freed 2^32 times by then. -/
theorem Fit.not_made_again (hs : Fit c s) {x : Handle} (hx : s.heap.isValid x = true) {os : List Op}
    (hfew : s.frees x.index os < UInt32.size) (o : Op) : (s.run os).event o ≠ some (.made x) := by
  intro hmade
  have hs' := hs.run os
  obtain ⟨hdead, hgen, -⟩ := (hs'.change_of_event hmade).of_made hs'.sound
  rw [hs.generation_run os, generationAt_of_isValid hx] at hgen
  by_cases h0 : s.frees x.index os = 0
  · rw [live_run_of_frees_eq_zero (liveAt_of_isValid hx) h0] at hdead
    cases hdead
  · exact add_ofNat_ne (Nat.pos_of_ne_zero h0) hfew hgen

theorem frees_append (i : UInt32) (os os' : List Op) :
    s.frees i (os ++ os') = s.frees i os + (s.run os).frees i os' := by
  induction os generalizing s with
  | nil => exact (Nat.zero_add _).symm
  | cons o os ih =>
    rw [List.cons_append, frees, frees, ih, Nat.add_assoc]
    rfl

/-- What is told in a history has happened at some point of the run. -/
theorem exists_of_mem_history {e : Event} {os : List Op} (he : e ∈ s.history os) :
    ∃ before o after, os = before ++ o :: after ∧ (s.run before).event o = some e := by
  induction os generalizing s with
  | nil => cases he
  | cons o os ih =>
    rcases List.mem_append.mp he with he | he
    · exact ⟨[], o, os, rfl, Option.mem_toList.mp he⟩
    · obtain ⟨before, o', after, rfl, hthen⟩ := ih he
      exact ⟨o :: before, o', after, rfl, hthen⟩

/-- From any point on, the handles that allocations give are different, as long as no index is freed 2^32 times. -/
theorem Fit.nodup_handles (hs : Fit c s) {os : List Op} (hfew : ∀ i, s.frees i os < UInt32.size) :
    (handles (s.history os)).Nodup := by
  induction os generalizing s with
  | nil => exact List.nodup_nil
  | cons o os ih =>
    have hrest : (handles ((s.act o).history os)).Nodup := ih (hs.act o) fun i => by
      have := hfew i
      rw [frees] at this
      omega
    rw [history, handles_append]
    cases he : s.event o with
    | none => exact hrest
    | some e =>
      cases e with
      | wrote | retained | released | collected => exact hrest
      | made x =>
        refine List.nodup_cons.mpr ⟨fun hmem => ?_, hrest⟩
        obtain ⟨e, hmem, he'⟩ := List.mem_filterMap.mp hmem
        have hmade : e = .made x := by
          cases e with
          | made y => cases he'; rfl
          | wrote | retained | released | collected => cases he'
        subst hmade
        obtain ⟨before, o', after, rfl, hagain⟩ := exists_of_mem_history hmem
        have hvalid := (hs.change_of_event he).isValid_of_made hs.sound
        refine (hs.act o).not_made_again hvalid ?_ o' hagain
        have hsum := hfew x.index
        rw [frees, frees_append] at hsum
        omega

/-- In every run on a new heap: a handle is valid when an allocation gives it; it stops being valid by a release that
comes to zero or by a collection; and from then on, as long as its index is freed less than 2^32 - 1 times more,
nothing can be done with it, whatever lives at the index. If no index is freed 2^32 times, all handles that
allocations give are different. -/
theorem stale_run {h₀ : Heap} (hc : Heap.ofConfig c = .ok h₀) (os : List Op) :
    (∀ (before after : List Op) (o : Op) (x : Handle), os = before ++ o :: after →
      let s := (start h₀).run before
      (s.event o = some (.made x) → (s.act o).heap.isValid x = true) ∧
      (s.event o = some (.released x true) → s.heap.isValid x = true ∧ (s.act o).heap.isValid x = false) ∧
      (s.heap.isValid x = true → (s.act o).heap.isValid x = false →
        (s.event o = some (.released x true) ∨ ∃ n, s.event o = some (.collected n)) ∧
        ((s.act o).frees x.index after < UInt32.size - 1 → Dead x ((start h₀).run os).heap))) ∧
    ((∀ i, (start h₀).frees i os < UInt32.size) → (handles ((start h₀).history os)).Nodup) := by
  constructor
  · rintro before after o x rfl s
    have hs := fit_run hc before
    refine ⟨fun he => (hs.change_of_event he).isValid_of_made hs.sound,
      fun he => (hs.change_of_event he).gone_of_released, fun hx hx' => ⟨(hs.gone_act o hx hx').2, fun hfew => ?_⟩⟩
    rw [run_append]
    exact dead_of_not_valid (hs.stale_run_of_gone hx hx' hfew)
  · intro hfew
    obtain ⟨hcheck, rfl⟩ := check_of_ofConfig hc
    exact (fit_start (sound_build hcheck) rfl).nodup_handles hfew

/-- A second object at one index does not answer to the handle of the first. -/
theorem stale_run_reused :
    let os : List Op := [.call (.allocate 0), .call (.release ⟨0, 0⟩), .call (.allocate 0)]
    let s := (start (build ⟨[1], 1⟩)).run os
    Heap.ofConfig ⟨[1], 1⟩ = .ok (build ⟨[1], 1⟩) ∧ s.heap.isValid ⟨0, 1⟩ = true ∧ Dead ⟨0, 0⟩ s.heap ∧
      (handles ((start (build ⟨[1], 1⟩)).history os)).Nodup ∧
      handles ((start (build ⟨[1], 1⟩)).history os) = [⟨0, 0⟩, ⟨0, 1⟩] := by
  intro os s
  have hc : Heap.ofConfig ⟨[1], 1⟩ = .ok (build ⟨[1], 1⟩) := rfl
  obtain ⟨hstale, hdistinct⟩ := stale_run hc os
  obtain ⟨-, hgone, hdead⟩ :=
    hstale [.call (.allocate 0)] [.call (.allocate 0)] (.call (.release ⟨0, 0⟩)) ⟨0, 0⟩ rfl
  obtain ⟨hx, hx'⟩ := hgone (by decide)
  obtain ⟨-, hdead⟩ := hdead hx hx'
  refine ⟨hc, by decide, hdead (by decide), hdistinct fun i => ?_, by decide⟩
  exact Nat.lt_of_le_of_lt (frees_le_length i os) (by decide)

end Shared

end StackVM
