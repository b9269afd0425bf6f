/-
  StackVM.Proofs.Shared.Basic — a heap in use by many: guards on its objects and machines at work on it.

  Whoever works on the heap does it one operation at a time, in any order: a call of the heap, an attempt to
  take a guard, a look or a write through one, a collection, a step of a machine. An operation that has to
  have an object for itself waits while somebody is inside, and nothing happens. `run` is what a list of
  operations comes to and `history` is what happened meanwhile.

  `Fit c s` is what holds between two operations: the heap is sound, the indices held are those of the guards,
  no two of which are on the same object, and every guard is on the object it was taken for.

  - `Fit.move`: what an operation can do, in three cases.
  - `Fit.run`: a state that is fit stays so.
-/

import StackVM.Proofs.Machine.HeapUse

namespace StackVM

structure Shared where
  heap : Heap
  /-- The guards that have been taken and not been dropped. -/
  guards : List Guard
  machines : List Machine

namespace Shared

def start (h : Heap) : Shared := ⟨h, [], []⟩

/-! ## Operations -/

inductive Op
  | call (a : Heap.Call)
  | lock (x : Handle)
  | tryLock (x : Handle)
  | unlock (g : Guard)
  | get (g : Guard) (slot : Nat)
  | set (g : Guard) (slot : Nat) (v : Value)
  | collect (roots : List Value)
  /-- One more machine, in whatever state. -/
  | join (m : Machine)
  | stop (k : Nat)
  | step (k : Nat)

/-- The guard that an operation goes through. -/
def Op.guard? : Op → Option Guard
  | unlock g | get g _ | set g _ _ => some g
  | _ => none

/-- The index of the object that an operation has to have for itself. -/
def index? (s : Shared) : Op → Option UInt32
  | .call a => a.index?
  | .lock x => some x.index
  | .step k => s.machines[k]?.bind fun m => m.heapCall?.bind Heap.Call.index?
  | _ => none

/-- Nobody is inside the object, and the guard is there. -/
def ready (s : Shared) (o : Op) : Bool :=
  (s.index? o).all (fun i => !s.heap.isHeld i) && o.guard?.all (s.guards.contains ·)

/-- Takes a guard, if the heap gives one. -/
def taking (s : Shared) (act : HeapM (Option Guard)) : Shared :=
  ⟨Heap.after act s.heap, ((Heap.given act s.heap).join).toList ++ s.guards, s.machines⟩

/-- What becomes of an operation that need not wait. -/
def perform (s : Shared) : Op → Shared
  | .call a => { s with heap := a.after s.heap }
  | .lock x => s.taking (some <$> Heap.lock x)
  | .tryLock x => s.taking (Heap.tryLock x)
  | .unlock g => { s with heap := Heap.after (Heap.unlock g) s.heap, guards := s.guards.erase g }
  | .get g slot => { s with heap := Heap.after (g.read slot) s.heap }
  | .set g slot v => { s with heap := Heap.after (g.write slot v) s.heap }
  | .collect roots => { s with heap := (s.heap.collect roots).2 }
  | .join m => { s with machines := m :: s.machines }
  | .stop k => { s with machines := s.machines.modify k Machine.requestStop }
  | .step k =>
    match s.machines[k]? with
    | none => s
    | some m =>
      let (m, h, _) := m.step s.heap
      { s with heap := h, machines := s.machines.set k m }

def act (s : Shared) (o : Op) : Shared := if s.ready o then s.perform o else s

/-- What happens in an operation that need not wait. -/
def performed (s : Shared) : Op → Option Heap.Event
  | .call a => a.event s.heap
  | .set g slot v => (Heap.given (g.write slot v) s.heap).map fun _ => .wrote g.handle slot v
  | .collect roots => some (.collected (s.heap.collect roots).1)
  | .step k => s.machines[k]?.bind fun m => m.heapCall?.bind (·.event s.heap)
  | _ => none

def event (s : Shared) (o : Op) : Option Heap.Event := if s.ready o then s.performed o else none

/-- One operation after the other. -/
def run (s : Shared) : List Op → Shared
  | [] => s
  | o :: os => (s.act o).run os

/-- What happens in a run, in order. -/
def history (s : Shared) : List Op → List Heap.Event
  | [] => []
  | o :: os => (s.event o).toList ++ (s.act o).history os

/-! ## What an operation can do -/

inductive Move (s : Shared) : Option Heap.Event → Shared → Prop
  | change {e : Option Heap.Event} {h' : Heap} (ms : List Machine) :
      Heap.Change s.heap e h' → Move s e ⟨h', s.guards, ms⟩
  | enter {x : Handle} : s.heap.isValid x = true → x.index ∉ s.heap.held →
      Move s none ⟨{ s.heap with held := x.index :: s.heap.held }, ⟨x⟩ :: s.guards, s.machines⟩
  | leave {g : Guard} : g ∈ s.guards →
      Move s none ⟨{ s.heap with held := s.heap.held.erase g.handle.index }, s.guards.erase g, s.machines⟩

structure Fit (c : Heap.Config) (s : Shared) : Prop where
  sound : s.heap.Sound c
  held : s.heap.held = s.guards.map (·.handle.index)
  /-- No two guards are on the same object. -/
  apart : s.heap.held.Nodup
  current : ∀ g ∈ s.guards, s.heap.isValid g.handle = true

variable {c : Heap.Config} {s : Shared}

theorem isHeld_iff {h : Heap} {i : UInt32} : h.isHeld i = true ↔ i ∈ h.held := by
  simp [Heap.isHeld]

/-- An operation on an object may go ahead when nobody is inside. -/
theorem not_held_of_ready {o : Op} (hr : s.ready o = true) (i : UInt32) (hi : s.index? o = some i) :
    i ∉ s.heap.held := by
  simp only [ready, hi, Option.all_some, Bool.and_eq_true, Bool.not_eq_true'] at hr
  rw [← isHeld_iff, hr.1]
  exact Bool.false_ne_true

theorem mem_guards_of_ready {o : Op} (hr : s.ready o = true) (g : Guard) (hg : o.guard? = some g) : g ∈ s.guards := by
  simp only [ready, hg, Option.all_some, Bool.and_eq_true] at hr
  exact List.contains_iff_mem.mp hr.2

theorem lock_of_valid {h : Heap} {x : Handle} (hx : h.isValid x = true) :
    Heap.lock x h = .ok ⟨x⟩ { h with held := x.index :: h.held } := by
  rw [Heap.lock, Heap.bind_check_of_valid hx]
  rfl

theorem some_lock (x : Handle) (h : Heap) : (some <$> Heap.lock x) h =
    if h.isValid x then .ok (some ⟨x⟩) { h with held := x.index :: h.held } else .error (h.refusal x) h := by
  show EStateM.map some (Heap.lock x) h = _
  cases hx : h.isValid x with
  | true =>
    rw [EStateM.map, lock_of_valid hx]
    rfl
  | false =>
    rw [EStateM.map, Heap.lock, Heap.bind_check_of_not_valid hx]
    rfl

/-- Taking a guard succeeds on a valid handle and changes nothing on any other. -/
theorem taking_lock (x : Handle) : s.taking (some <$> Heap.lock x) =
    if s.heap.isValid x then
      ⟨{ s.heap with held := x.index :: s.heap.held }, ⟨x⟩ :: s.guards, s.machines⟩
    else s := by
  rw [taking, Heap.after, Heap.given, some_lock]
  cases s.heap.isValid x <;> rfl

/-- An attempt to take a guard comes to nothing or to taking it. -/
theorem taking_tryLock (x : Handle) : s.taking (Heap.tryLock x) = s ∨
    x.index ∉ s.heap.held ∧ s.taking (Heap.tryLock x) = s.taking (some <$> Heap.lock x) := by
  by_cases hsize : s.heap.entries.size ≤ x.index.toNat
  · left; simp [taking, Heap.after, Heap.given, Heap.tryLock, hsize]
  · by_cases hheld : s.heap.isHeld x.index = true
    · left; simp [taking, Heap.after, Heap.given, Heap.tryLock, hsize, hheld]
    · right
      refine ⟨mt isHeld_iff.mpr hheld, ?_⟩
      simp only [taking, Heap.after, Heap.given, Heap.tryLock, hsize, hheld, if_false]
      rfl

theorem move_taking {x : Handle} (hx : x.index ∉ s.heap.held) : Move s none (s.taking (some <$> Heap.lock x)) := by
  rw [taking_lock]
  split
  next hv => exact .enter hv hx
  next => exact .change s.machines .none

/-- The heap after a machine's step. -/
theorem change_step (m : Machine) (hfree : ∀ i, m.heapCall?.bind Heap.Call.index? = some i → i ∉ s.heap.held) :
    Heap.Change s.heap (m.heapCall?.bind (·.event s.heap)) (m.step s.heap).2.1 := by
  rw [Machine.heap_step]
  cases hm : m.heapCall? with
  | none => exact .none
  | some a => exact a.change fun i hi => hfree i (by rw [hm]; exact hi)

/-- A machine's turn comes to nothing, or to one step of the machine. -/
theorem step_cases (s : Shared) (k : Nat) : (s.act (.step k) = s ∧ s.event (.step k) = none) ∨
    ∃ m, s.machines[k]? = some m ∧
      s.act (.step k) = ⟨(m.step s.heap).2.1, s.guards, s.machines.set k (m.step s.heap).1⟩ ∧
      s.event (.step k) = m.heapCall?.bind (·.event s.heap) ∧
      Heap.Change s.heap (m.heapCall?.bind (·.event s.heap)) (m.step s.heap).2.1 := by
  by_cases hr : s.ready (.step k) = true
  · have hact : s.act (.step k) = s.perform (.step k) := if_pos hr
    have hevent : s.event (.step k) = s.performed (.step k) := if_pos hr
    cases hk : s.machines[k]? with
    | none =>
      left
      rw [hact, hevent]
      simp [perform, performed, hk]
    | some m =>
      right
      refine ⟨m, rfl, ?_, ?_, change_step m fun i hi => not_held_of_ready hr i ?_⟩
      · rw [hact]
        simp only [perform, hk]
      · rw [hevent]
        simp only [performed, hk, Option.bind_some]
      · simpa [index?, hk] using hi
  · exact .inl ⟨if_neg hr, if_neg hr⟩

/-- What a turn does to the heap. -/
theorem change_turn (s : Shared) (k : Nat) : Heap.Change s.heap (s.event (.step k)) (s.act (.step k)).heap := by
  rcases step_cases s k with ⟨hact, hevent⟩ | ⟨m, -, hact, hevent, hc⟩
  · rw [hact, hevent]; exact .none
  · rw [hact, hevent]; exact hc

theorem perform_move (hcurrent : ∀ g ∈ s.guards, s.heap.isValid g.handle = true) {o : Op} (hr : s.ready o = true) :
    Move s (s.performed o) (s.perform o) := by
  have hfree := not_held_of_ready hr
  have hguard := mem_guards_of_ready hr
  cases o with
  | call a => exact .change s.machines (a.change hfree)
  | lock x => exact move_taking (hfree x.index rfl)
  | tryLock x =>
    show Move s none (s.taking (Heap.tryLock x))
    rcases taking_tryLock (s := s) x with he | ⟨hx, he⟩
    · rw [he]; exact .change s.machines .none
    · rw [he]; exact move_taking hx
  | unlock g => exact .leave (hguard g rfl)
  | get g slot =>
    show Move s none ⟨Heap.after (Heap.readAt g.handle.index slot) s.heap, s.guards, s.machines⟩
    rw [Heap.after_readAt]
    exact .change s.machines .none
  | set g slot v =>
    refine .change s.machines ?_
    show Heap.Change s.heap ((Heap.given (Heap.writeAt g.handle.index slot v) s.heap).map fun _ => .wrote g.handle slot v)
      (Heap.after (Heap.writeAt g.handle.index slot v) s.heap)
    rcases Heap.writeAt_cases (h := s.heap) g.handle.index slot v with ⟨hslot, h1, h2⟩ | ⟨h1, h2⟩
    · rw [h1, h2]; exact .wrote v (hcurrent g (hguard g rfl)) hslot
    · rw [h1, h2]; exact .none
  | collect roots => exact .change s.machines (.collected roots)
  | join m => exact .change (m :: s.machines) .none
  | stop k => exact .change (s.machines.modify k Machine.requestStop) .none
  | step k =>
    have hact : s.act (.step k) = s.perform (.step k) := if_pos hr
    have hevent : s.event (.step k) = s.performed (.step k) := if_pos hr
    rw [← hact, ← hevent]
    rcases step_cases s k with ⟨h1, h2⟩ | ⟨m, -, h1, h2, hc⟩
    · rw [h1, h2]; exact .change s.machines .none
    · rw [h1, h2]; exact .change _ hc

/-- What an operation can do, whether or not it has to wait, as long as every guard is on an object that is there. -/
theorem move_of_current (hcurrent : ∀ g ∈ s.guards, s.heap.isValid g.handle = true) (o : Op) :
    Move s (s.event o) (s.act o) := by
  unfold event act
  split
  next hr => exact perform_move hcurrent hr
  next => exact .change s.machines .none

theorem Fit.move (hs : Fit c s) (o : Op) : Move s (s.event o) (s.act o) := move_of_current hs.current o

/-! ## What every operation keeps -/

theorem map_erase_of_nodup {l : List Guard} {g : Guard} (hn : (l.map (·.handle.index)).Nodup) (hg : g ∈ l) :
    (l.map (·.handle.index)).erase g.handle.index = (l.erase g).map (·.handle.index) := by
  induction l with
  | nil => cases hg
  | cons b l ih =>
    rw [List.map_cons, List.nodup_cons] at hn
    by_cases e : b = g
    · subst e
      simp
    · have hg' : g ∈ l := (List.mem_cons.mp hg).resolve_left fun e' => e e'.symm
      -- another guard is on another object
      have hne : b.handle.index ≠ g.handle.index := fun e' => hn.1 (e' ▸ List.mem_map_of_mem hg')
      rw [List.map_cons, List.erase_cons_tail (by simpa using hne), List.erase_cons_tail (by simpa using e),
        List.map_cons, ih hn.2 hg']

theorem Fit.act (hs : Fit c s) (o : Op) : Fit c (s.act o) := by
  have hm := hs.move o
  generalize s.act o = s' at hm
  generalize s.event o = e at hm
  cases hm with
  | change ms hc =>
    have hheld := hc.held
    refine ⟨hs.sound.change hc, hheld.trans hs.held, hheld ▸ hs.apart, fun g hg => ?_⟩
    have hi : g.handle.index ∈ s.heap.held := by
      rw [hs.held]; exact List.mem_map_of_mem hg
    exact hc.isValid_of_held hi (hs.current g hg)
  | enter hx hfree =>
    refine ⟨hs.sound.holding _, ?_, List.nodup_cons.mpr ⟨hfree, hs.apart⟩, fun g hg => ?_⟩
    · simp [hs.held]
    · rcases List.mem_cons.mp hg with rfl | hg
      · exact hx
      · exact hs.current g hg
  | leave hg =>
    refine ⟨hs.sound.holding _, ?_, hs.apart.erase _, fun g' hg' => hs.current g' (List.mem_of_mem_erase hg')⟩
    have hn := hs.apart
    rw [hs.held] at hn
    simp only [hs.held]
    exact map_erase_of_nodup hn hg

theorem fit_start {h : Heap} (hs : h.Sound c) (hh : h.held = []) : Fit c (start h) :=
  ⟨hs, hh, by rw [start, hh]; exact List.nodup_nil, fun _ hg => nomatch hg⟩

theorem Fit.run (hs : Fit c s) (os : List Op) : Fit c (s.run os) := by
  induction os generalizing s with
  | nil => exact hs
  | cons o os ih => exact ih (hs.act o)

theorem run_append (os os' : List Op) : s.run (os ++ os') = (s.run os).run os' := by
  induction os generalizing s with
  | nil => rfl
  | cons o os ih => exact ih

/-- Every state that a run on a new heap comes to is fit. -/
theorem fit_run {h : Heap} (hc : Heap.ofConfig c = .ok h) (os : List Op) : Fit c ((start h).run os) := by
  obtain ⟨hcheck, rfl⟩ := Heap.check_of_ofConfig hc
  exact (fit_start (Heap.sound_build hcheck) rfl).run os

theorem Fit.held_eq_nil_iff (hs : Fit c s) : s.heap.held = [] ↔ s.guards = [] := by
  rw [hs.held, List.map_eq_nil_iff]

end Shared

end StackVM
