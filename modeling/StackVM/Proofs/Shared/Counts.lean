/-
  StackVM.Proofs.Shared.Counts — how many references there are, over whole runs.

  Whoever takes and drops references to an object, and in whatever order, the object's count is the number of
  references that the history of the run tells of, modulo 2^32, and a release frees the object when that number is one
  modulo 2^32. As long as there are fewer than 2^32 references both are exact.

  - `Fit.counts_run`: the counts agree with the history all through a run.
  - `run_retains`, `run_releases`: what becomes of one object when references to it are taken, or dropped, in a row.
  - `refCount_run`: every count and every release on a new heap.
  - `refCount_run_wraps`: an object with 2^32 references has a count of zero.
-/

import StackVM.Proofs.Heap.Counts
import StackVM.Proofs.Shared.Generations

namespace StackVM

namespace Shared

open Heap

variable {c : Heap.Config} {s : Shared}

/-! ## The counts agree with the history -/

theorem Fit.counts_act (hs : Fit c s) {es : List Event} (hn : Counts es s.heap) (o : Op) :
    Counts (es ++ (s.event o).toList) (s.act o).heap := by
  have hm := hs.move o
  generalize s.act o = s' at hm
  generalize s.event o = e at hm
  cases hm with
  | change ms hc => exact hn.change hs.sound hc
  | enter | leave => rw [Option.toList_none, List.append_nil]; exact hn

theorem Fit.counts_run (hs : Fit c s) {es : List Event} (hn : Counts es s.heap) (os : List Op) :
    Counts (es ++ s.history os) (s.run os).heap := by
  induction os generalizing s es with
  | nil => rw [history, List.append_nil]; exact hn
  | cons o os ih =>
    rw [history, ← List.append_assoc]
    exact ih (hs.act o) (hs.counts_act hn o)

/-- On a new heap there is nothing to count. -/
theorem counts_build {c : Heap.Config} (hc : c.check = .ok ()) : Counts [] (build c) := by
  intro x hx
  have hl := liveAt_of_isValid hx
  rw [liveAt_build (Config.bounds_of_check hc).2.1] at hl
  cases hl

theorem counts_run_build {h₀ : Heap} (hc : Heap.ofConfig c = .ok h₀) (os : List Op) :
    Counts ((start h₀).history os) ((start h₀).run os).heap := by
  obtain ⟨hcheck, rfl⟩ := check_of_ofConfig hc
  exact (fit_start (sound_build hcheck) rfl).counts_run (counts_build hcheck) os

theorem refCount_of_valid {h : Heap} {x : Handle} (hx : h.isValid x = true) :
    refCount x h = .ok (h.refCountAt x.index) h :=
  bind_check_of_valid hx _

/-! ## References taken and dropped in a row -/

/-- The object is there and nobody is inside. -/
structure Open (s : Shared) (x : Handle) : Prop where
  valid : s.heap.isValid x = true
  free : x.index ∉ s.heap.held

variable {x : Handle}

/-- A call that finds nobody inside goes ahead. -/
theorem Open.act_call (hx : s.Open x) {a : Call} (ha : a.index? = some x.index) :
    s.act (.call a) = { s with heap := a.after s.heap } ∧ s.event (.call a) = a.event s.heap := by
  have hready : s.ready (.call a) = true := by
    simp [ready, index?, ha, Op.guard?, isHeld, hx.free]
  exact ⟨if_pos hready, if_pos hready⟩

theorem Open.act_retain (hx : s.Open x) :
    let s' := s.act (.call (.retain x))
    s'.Open x ∧ s'.heap.refCountAt x.index = s.heap.refCountAt x.index + 1 ∧
      s.event (.call (.retain x)) = some (.retained x) := by
  intro s'
  obtain ⟨hact, hevent⟩ := hx.act_call (a := .retain x) rfl
  obtain ⟨e, he, -⟩ := isValid_iff.mp hx.valid
  have hafter : s'.heap = s.heap.updateEntry x.index fun e => { e with refCount := e.refCount + 1 } := by
    show (s.act (.call (.retain x))).heap = _
    rw [hact]
    exact (after_given_of_valid hx.valid _).1
  refine ⟨⟨?_, ?_⟩, ?_, ?_⟩
  · rw [hafter, isValid_recount]; exact hx.valid
  · rw [hafter]; exact hx.free
  · rw [hafter, refCountAt_updateEntry he, refCountAt_of_entry he]
  · rw [hevent, Call.event, retain, (after_given_of_valid hx.valid _).2]
    rfl

theorem Open.run_retains (hx : s.Open x) (k : Nat) :
    let os := List.replicate k (.call (.retain x))
    (s.run os).Open x ∧ (s.run os).heap.refCountAt x.index = s.heap.refCountAt x.index + UInt32.ofNat k ∧
      s.history os = List.replicate k (.retained x) := by
  induction k generalizing s with
  | zero => exact ⟨hx, (UInt32.add_zero _).symm, rfl⟩
  | succ k ih =>
    obtain ⟨hopen, hcount, hevent⟩ := hx.act_retain
    obtain ⟨hopen', hcount', hhistory⟩ := ih hopen
    refine ⟨hopen', ?_, ?_⟩
    · rw [List.replicate_succ, Shared.run, hcount', hcount, UInt32.ofNat_add, UInt32.add_assoc, UInt32.add_comm 1]
      rfl
    · rw [List.replicate_succ, history, hhistory, hevent]
      rfl

/-- A release that does not find the count at one drops a reference, and the object stays. -/
theorem Open.act_release (hx : s.Open x) (hmany : 1 < s.heap.refCountAt x.index) :
    let s' := s.act (.call (.release x))
    s'.Open x ∧ s'.heap.refCountAt x.index = s.heap.refCountAt x.index - 1 := by
  intro s'
  obtain ⟨hact, -⟩ := hx.act_call (a := .release x) rfl
  obtain ⟨e, he, -⟩ := isValid_iff.mp hx.valid
  have hpos : 0 < s.heap.refCountAt x.index - 1 := by grind
  have hafter : s'.heap =
      s.heap.updateEntry x.index fun e => { e with refCount := s.heap.refCountAt x.index - 1 } := by
    have hdrop : s'.heap = (s.heap.dropReference x.index).2 := by
      show (s.act (.call (.release x))).heap = _
      rw [hact]
      exact (after_given_of_valid hx.valid _).1
    rw [hdrop, dropReference, if_pos hpos]
  refine ⟨⟨?_, ?_⟩, ?_⟩
  · rw [hafter, isValid_recount]; exact hx.valid
  · rw [hafter]; exact hx.free
  · rw [hafter, refCountAt_updateEntry he]

/-- As long as it is not the last one, references can be dropped. -/
theorem Open.run_releases (hx : s.Open x) {k : Nat} (hk : k < (s.heap.refCountAt x.index).toNat) :
    let os := List.replicate k (.call (.release x))
    (s.run os).Open x ∧ ((s.run os).heap.refCountAt x.index).toNat = (s.heap.refCountAt x.index).toNat - k := by
  induction k generalizing s with
  | zero => exact ⟨hx, rfl⟩
  | succ k ih =>
    have hmany : 1 < s.heap.refCountAt x.index := UInt32.lt_iff_toNat_lt.mpr (Nat.lt_of_le_of_lt (Nat.le_add_left 1 k) hk)
    obtain ⟨hopen, hcount⟩ := hx.act_release hmany
    have hless := UInt32.toNat_sub_of_le _ _ (UInt32.le_of_lt hmany)
    rw [← hcount, show (1 : UInt32).toNat = 1 from rfl] at hless
    obtain ⟨hopen', hcount'⟩ := ih hopen (by omega)
    refine ⟨hopen', ?_⟩
    rw [List.replicate_succ, Shared.run, hcount', hless]
    omega

/-- A release that finds the count at one frees the object. -/
theorem Open.free_release (hx : s.Open x) (hone : s.heap.refCountAt x.index = 1) :
    s.event (.call (.release x)) = some (.released x true) := by
  rw [(hx.act_call (a := .release x) rfl).2, Call.event, release, (after_given_of_valid hx.valid _).2]
  show some (Event.released x (s.heap.dropReference x.index).1) = _
  rw [dropReference, hone]
  rfl

/-! ## Every count and every release -/

theorem ofNat_eq_one_iff (n : Nat) : UInt32.ofNat n = 1 ↔ n % UInt32.size = 1 := by
  rw [← UInt32.toNat_inj, UInt32.toNat_ofNat']
  rfl

/-- After whatever operations on a new heap, an object that is there has a reference at least. Its count is the number
of references modulo 2^32, and a release of it frees it exactly if that comes to one. With fewer than 2^32 references
there is nothing to be cut off: the count is their number, the object goes with the last of them, and if `k` more are
taken it outlives all but the last of the releases that drop them. -/
theorem refCount_run {h₀ : Heap} (hc : Heap.ofConfig c = .ok h₀) (os : List Op) {x : Handle}
    (hx : ((start h₀).run os).heap.isValid x = true) :
    let s := (start h₀).run os
    let n := references ((start h₀).history os) x
    0 < n ∧ refCount x s.heap = .ok (UInt32.ofNat n) s.heap ∧
    (∀ o gone, s.event o = some (.released x gone) → (gone = true ↔ n % UInt32.size = 1)) ∧
    (n < UInt32.size → (UInt32.ofNat n).toNat = n ∧
      ∀ o gone, s.event o = some (.released x gone) → (gone = true ↔ n = 1)) ∧
    ∀ k, n + k < UInt32.size → x.index ∉ s.heap.held →
      let s' := (s.run (List.replicate k (.call (.retain x)))).run (List.replicate (n + k - 1) (.call (.release x)))
      s'.heap.isValid x = true ∧ s'.event (.call (.release x)) = some (.released x true) := by
  intro s n
  have hfit : Fit c s := fit_run hc os
  obtain ⟨hle, hcount⟩ := counts_run_build hc os x hx
  have hgone {o : Op} {gone : Bool} (he : s.event o = some (.released x gone)) :
      gone = true ↔ n % UInt32.size = 1 := by
    rw [(hfit.change_of_event he).gone_iff, hcount, ofNat_eq_one_iff]
  refine ⟨references_pos hle, (refCount_of_valid hx).trans (by rw [hcount]), fun o gone => hgone, fun hfew => ?_,
    fun k hfew hfree => ?_⟩
  · refine ⟨UInt32.toNat_ofNat_of_lt' hfew, fun o gone he => ?_⟩
    rw [hgone he, Nat.mod_eq_of_lt hfew]
  · intro s'
    obtain ⟨hopen, hmore, -⟩ := Open.run_retains ⟨hx, hfree⟩ k
    rw [hcount, ← UInt32.ofNat_add] at hmore
    have hnumber := congrArg UInt32.toNat hmore
    rw [UInt32.toNat_ofNat_of_lt' hfew] at hnumber
    have hpos := references_pos hle
    obtain ⟨hopen', hone⟩ := hopen.run_releases (k := n + k - 1) (by rw [hnumber]; omega)
    refine ⟨hopen'.valid, hopen'.free_release (UInt32.toNat_inj.mp ?_)⟩
    rw [hone, hnumber]
    show n + k - (n + k - 1) = 1
    omega

/-- An object that a machine and others retain three times in all survives three releases and goes with the fourth. -/
theorem refCount_run_shared :
    let x : Handle := ⟨0, 0⟩
    let retainer := Machine.ready ⟨#[Opcode.retain.byte], 0, #[], #[]⟩ {} ⟨#[.ref x], 1, by decide⟩
    let os : List Op := [.call (.allocate 0), .join retainer, .step 0, .call (.retain x), .lock x, .unlock ⟨x⟩]
    let s := (start (build ⟨[1], 1⟩)).run os
    let s' := (s.run (List.replicate 1 (.call (.retain x)))).run (List.replicate 3 (.call (.release x)))
    ofConfig ⟨[1], 1⟩ = .ok (build ⟨[1], 1⟩) ∧ s.heap.isValid x = true ∧ refCount x s.heap = .ok 3 s.heap ∧
      s'.heap.isValid x = true ∧ s'.event (.call (.release x)) = some (.released x true) := by
  intro x retainer os s s'
  have hc : ofConfig ⟨[1], 1⟩ = .ok (build ⟨[1], 1⟩) := by cbv
  have hx : s.heap.isValid x = true := by decide
  have hn : references ((start (build ⟨[1], 1⟩)).history os) x = 3 := by decide
  obtain ⟨-, hcount, -, -, hlast⟩ := refCount_run hc os hx
  rw [hn] at hcount hlast
  exact ⟨hc, hx, hcount, hlast 1 (by decide) (by decide)⟩

theorem references_replicate (es : List Event) {x : Handle} (hle : releases es x ≤ retains es x) (k : Nat) :
    references (es ++ List.replicate k (.retained x)) x = references es x + k ∧
      releases (es ++ List.replicate k (.retained x)) x ≤ retains (es ++ List.replicate k (.retained x)) x := by
  induction k with
  | zero => simpa using hle
  | succ k ih =>
    obtain ⟨hn, hle'⟩ := ih
    rw [List.replicate_succ', ← List.append_assoc, references_retained hle', hn, retains_retained, releases_retained]
    exact ⟨rfl, Nat.le_succ_of_le hle'⟩

/-- An object that has been retained `k` times and never released. -/
theorem retained_run (k : Nat) :
    let x : Handle := ⟨0, 0⟩
    let os : List Op := .call (.allocate 0) :: List.replicate k (.call (.retain x))
    let s := (start (build ⟨[1], 1⟩)).run os
    s.Open x ∧ s.heap.refCountAt x.index = UInt32.ofNat (k + 1) ∧
      references ((start (build ⟨[1], 1⟩)).history os) x = k + 1 := by
  intro x os s
  have hopen : ((start (build ⟨[1], 1⟩)).act (.call (.allocate 0))).Open x := ⟨by decide, by decide⟩
  have hcount : ((start (build ⟨[1], 1⟩)).act (.call (.allocate 0))).heap.refCountAt x.index = 1 := by decide
  have hevent : (start (build ⟨[1], 1⟩)).event (.call (.allocate 0)) = some (.made x) := by decide
  obtain ⟨hopen', hcount', hhistory⟩ := hopen.run_retains k
  refine ⟨hopen', ?_, ?_⟩
  · rw [UInt32.ofNat_add, UInt32.add_comm, show UInt32.ofNat 1 = 1 from rfl, ← hcount]
    exact hcount'
  · rw [history, hevent, hhistory, Nat.add_comm]
    exact (references_replicate [.made x] (by decide) k).1

/-- With 2^32 references the count has come round to zero, and with one more the next release frees the object. -/
theorem refCount_run_wraps :
    let x : Handle := ⟨0, 0⟩
    let os : List Op := .call (.allocate 0) :: List.replicate (UInt32.size - 1) (.call (.retain x))
    let s := (start (build ⟨[1], 1⟩)).run os
    ofConfig ⟨[1], 1⟩ = .ok (build ⟨[1], 1⟩) ∧ s.heap.isValid x = true ∧
      references ((start (build ⟨[1], 1⟩)).history os) x = UInt32.size ∧ refCount x s.heap = .ok 0 s.heap ∧
      (s.act (.call (.retain x))).event (.call (.release x)) = some (.released x true) := by
  have hc : ofConfig ⟨[1], 1⟩ = .ok (build ⟨[1], 1⟩) := by cbv
  have hsize : UInt32.size - 1 + 1 = UInt32.size := rfl
  have hwrap : UInt32.ofNat UInt32.size = 0 := rfl
  obtain ⟨hopen, hcount, hn⟩ := retained_run (UInt32.size - 1)
  rw [hsize] at hcount hn
  rw [hwrap] at hcount
  have hmore := hopen.act_retain
  have hone : _ = (1 : UInt32) := hmore.2.1.trans (congrArg (· + 1) hcount)
  have hzero := refCount_of_valid hopen.valid
  rw [hcount] at hzero
  exact ⟨hc, hopen.valid, hn, hzero, hmore.1.free_release hone⟩

end Shared

end StackVM
