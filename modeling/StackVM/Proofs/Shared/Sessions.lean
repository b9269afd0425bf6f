/-
  StackVM.Proofs.Shared.Sessions — sessions and launches as runs on a shared heap.

  A session takes one request after the other and knows its guards and machines by name. A shared heap knows no
  names and takes one operation after the other. Every request comes to a list of operations, and what is true of
  all runs on a shared heap is true of all sessions. The names of the machines are kept beside, the last one to
  join first; a machine stands where its name does first, since a name may be given to another machine later.

  A machine of a session does not wait for anybody, so nobody may be inside an object while one is at work.

  - `ops`, `question?`: the operations that a request comes to, and what it asks where it hands on the reply.
  - `Shows`: the session and the shared heap are in the same state.
  - `Shows.answer`: a request and its operations keep them so.
  - `Shows.reply`, `Shows.report`: the replies are those of the shared heap, and the reports are on its machines.
  - `session_run`, `session_heap`, `session_replies`: whole sessions on a new heap.
  - `Launch.shared_of_run`: a launch is one machine that joins a new heap and takes steps.
-/

import StackVM.Session
import StackVM.Proofs.Machine.Budget
import StackVM.Proofs.Shared.Leftovers
import Mathlib.Data.List.Basic

namespace StackVM

/-! ## Steps of one machine -/

namespace Shared

variable {t : Shared} {k : Nat} {m : Machine}

/-- Nobody is inside an object, so a machine need not wait. -/
theorem act_step (hm : t.machines[k]? = some m) (hfree : t.heap.held = []) :
    t.act (.step k) = ⟨(m.step t.heap).2.1, t.guards, t.machines.set k (m.step t.heap).1⟩ := by
  have hready : t.ready (.step k) = true := by
    simp [ready, index?, Op.guard?, Heap.isHeld, hfree]
  rw [act, if_pos hready]
  simp only [perform, hm]

theorem held_step (m : Machine) {h : Heap} (hfree : h.held = []) : (m.step h).2.1.held = [] := by
  have hc := change_step (s := ⟨h, [], []⟩) m fun i _ => by rw [hfree]; exact List.not_mem_nil
  exact hc.held.trans hfree

theorem held_run (n : Nat) (m : Machine) {h : Heap} (hfree : h.held = []) (log : Array Log.Line) :
    (m.run n h log).2.1.held = [] := by
  induction n generalizing m h log with
  | zero => exact hfree
  | succ n ih =>
    rw [Machine.run]
    split
    · exact ih _ (held_step m hfree) _
    · exact hfree

/-- So many steps of one machine are its run, whatever it has said before. -/
theorem run_replicate_step (n : Nat) (hm : t.machines[k]? = some m) (hfree : t.heap.held = []) (log : Array Log.Line) :
    t.run (List.replicate n (.step k)) =
      ⟨(m.run n t.heap log).2.1, t.guards, t.machines.set k (m.run n t.heap log).1⟩ := by
  induction n generalizing t m log with
  | zero =>
    show t = ⟨t.heap, t.guards, t.machines.set k m⟩
    obtain ⟨hlt, rfl⟩ := List.getElem?_eq_some_iff.mp hm
    rw [List.set_getElem_self]
  | succ n ih =>
    have hlt : k < t.machines.length := (List.getElem?_eq_some_iff.mp hm).1
    have hset : (t.machines.set k (m.step t.heap).1)[k]? = some (m.step t.heap).1 := by
      rw [List.getElem?_set_self hlt]
    rw [List.replicate_succ, Shared.run, act_step hm hfree]
    by_cases hrun : m.status = .running
    · rw [ih hset (held_step m hfree) (log ++ (m.step t.heap).2.2), Machine.run_succ hrun, List.set_set]
    · rw [ih hset (held_step m hfree) log, Machine.step_of_ended hrun, Machine.run_of_ended hrun,
        Machine.run_of_ended hrun, List.set_set]

/-- A machine alone on a heap runs for a while and then goes on. -/
theorem run_alone {h : Heap} (hfree : h.held = []) (i j : Nat) (m : Machine) (log : Array Log.Line) :
    let first := m.run i h log
    (⟨h, [], [m]⟩ : Shared).run (List.replicate (i + j) (.step 0)) =
      ⟨(first.1.run j first.2.1 #[]).2.1, [], [(first.1.run j first.2.1 #[]).1]⟩ := by
  intro first
  have hfirst : (⟨h, [], [m]⟩ : Shared).run (List.replicate i (.step 0)) = ⟨first.2.1, [], [first.1]⟩ :=
    run_replicate_step i rfl hfree log
  rw [List.replicate_add, run_append, hfirst]
  exact run_replicate_step j rfl (held_run i m hfree log) #[]

end Shared

namespace Session

open Shared (Op Fit)

/-! ## Requests as operations -/

/-- The machine that a job comes to, if there is nothing wrong with its source and its stack. -/
def newMachine? (j : Job) (settings : Settings) : Option Machine :=
  match j.program with
  | .error _ => none
  | .ok p => (Machine.create p settings).toOption.map (·.1)

/-- The operations that a request comes to. One that is refused for a name comes to none, and so does one that only
asks. -/
def ops (names : List String) (s : Session) : Request → List Op
  | .alloc n | .tryAlloc n => [.call (.allocate n)]
  | .lock x name => if (s.guard? name).isSome then [] else [.lock x]
  | .tryLock x => if s.holds x then [] else [.tryLock x, .unlock ⟨x⟩]
  | .unlock name => (s.guard? name).toList.map .unlock
  | .move name newName =>
    if (s.guard? name).isSome then ((without name s.guards).lookup newName).toList.map .unlock else []
  | .get name slot => (s.guard? name).toList.map (.get · slot)
  | .set name slot v => (s.guard? name).toList.map (.set · slot v)
  | .put x slot v => [.call (.write x slot v)]
  | .retain x => [.call (.retain x)]
  | .release x => [.call (.release x)]
  | .refs x => [.call (.refCount x)]
  | .collect roots machines => (s.rootsOf machines).toList.map fun more => .collect (roots ++ more)
  | .machine _ job settings => (newMachine? job settings).toList.map .join
  | .step name n => (s.machine? name).toList.flatMap fun _ => List.replicate n (.step (names.idxOf name))
  | .execute name =>
    (s.machine? name).toList.flatMap fun m => List.replicate m.stepLimit (.step (names.idxOf name))
  | .stop name => (s.machine? name).toList.map fun _ => .stop (names.idxOf name)
  | .slots _ | .valid _ | .classes | .slotsOf _ | .capacity _ | .live _ | .roots _ => []

/-- The names of the machines after a request. -/
def joined (names : List String) : Request → List String
  | .machine name job settings => if (newMachine? job settings).isSome then name :: names else names
  | _ => names

def Request.runs : Request → Bool
  | step _ _ | execute _ => true
  | _ => false

/-- A session and a shared heap in the same state. A machine that has lost its name is still among those of the
shared heap, but nobody asks for it. -/
structure Shows (names : List String) (s : Session) (t : Shared) : Prop where
  heap : t.heap = s.heap
  guards : t.guards.Perm (s.guards.map (·.2))
  /-- No two guards have one name. -/
  apart : (s.guards.map (·.1)).Nodup
  machines : ∀ name, s.machine? name = t.machines[names.idxOf name]?
  named : names.length = t.machines.length

/-! ## Names -/

section

variable {α : Type} {name : String} {a : α} {l : List (String × α)}

theorem without_cons_self (name : String) (a : α) (l : List (String × α)) :
    without name ((name, a) :: l) = without name l := by
  simp [without]

theorem without_cons_of_ne {n : String} (hn : n ≠ name) (a : α) (l : List (String × α)) :
    without name ((n, a) :: l) = (n, a) :: without name l := by
  simp [without, hn]

theorem lookup_without (name name' : String) (l : List (String × α)) :
    (without name l).lookup name' = if name' = name then none else l.lookup name' := by
  induction l with
  | nil => simp [without]
  | cons e l ih =>
    obtain ⟨n, a⟩ := e
    by_cases hn : n = name
    · subst hn
      rw [without_cons_self, ih]
      by_cases hn' : name' = n
      · rw [if_pos hn', if_pos hn']
      · rw [if_neg hn', if_neg hn', List.lookup_cons, beq_false_of_ne hn']
    · rw [without_cons_of_ne hn, List.lookup_cons, List.lookup_cons, ih]
      by_cases hn' : name' = n
      · subst hn'
        simp [hn]
      · rw [beq_false_of_ne hn']

theorem lookup_insert (name name' : String) (a : α) (l : List (String × α)) :
    (insert name a l).lookup name' = if name' = name then some a else l.lookup name' := by
  rw [insert, List.lookup_cons, lookup_without]
  by_cases hn : name' = name
  · simp [hn]
  · simp [hn, beq_false_of_ne hn]

theorem without_of_lookup_eq_none (h : l.lookup name = none) : without name l = l := by
  refine List.filter_eq_self.mpr fun e he => ?_
  rw [bne_comm]
  exact List.lookup_eq_none_iff.mp h e he

theorem without_comm (name name' : String) (l : List (String × α)) :
    without name (without name' l) = without name' (without name l) := by
  simp only [without, List.filter_filter, Bool.and_comm]

theorem nodup_without (name : String) (hn : (l.map (·.1)).Nodup) : ((without name l).map (·.1)).Nodup :=
  hn.sublist (List.filter_sublist.map _)

theorem nodup_insert (name : String) (a : α) (hn : (l.map (·.1)).Nodup) : ((insert name a l).map (·.1)).Nodup := by
  refine List.nodup_cons.mpr ⟨fun hmem => ?_, nodup_without name hn⟩
  obtain ⟨e, he, hname⟩ := List.mem_map.mp hmem
  simp [without, hname] at he

/-- An item is in the list under its name, and once. -/
theorem perm_without (h : l.lookup name = some a) (hn : (l.map (·.1)).Nodup) :
    (l.map (·.2)).Perm (a :: (without name l).map (·.2)) := by
  induction l with
  | nil => cases h
  | cons e l ih =>
    obtain ⟨n, b⟩ := e
    rw [List.map_cons, List.nodup_cons] at hn
    by_cases he : name = n
    · subst he
      have hb : b = a := by simpa using h
      have hnone : l.lookup name = none := by
        refine List.lookup_eq_none_iff.mpr fun e he => ?_
        exact bne_iff_ne.mpr fun hname => hn.1 (List.mem_map.mpr ⟨e, he, hname.symm⟩)
      rw [without_cons_self, without_of_lookup_eq_none hnone, ← hb]
      exact .refl _
    · rw [List.lookup_cons, beq_false_of_ne he] at h
      rw [without_cons_of_ne (Ne.symm he)]
      exact ((ih h hn.2).cons b).trans (.swap _ _ _)

end

variable {c : Heap.Config} {names : List String} {s : Session} {t : Shared} {name : String} {g : Guard} {m : Machine}

theorem onHeap_snd {α : Type} (s : Session) (act : HeapM α) (answer : α → Answer) :
    (s.onHeap act answer).2 = ⟨Heap.after act s.heap, s.guards, s.machines⟩ := by
  obtain ⟨heap, guards, machines⟩ := s
  simp only [Session.onHeap, Heap.after]
  cases act heap <;> rfl

namespace Shows

/-! ## Guards -/

theorem mem_guards (hs : Shows names s t) (hg : s.guard? name = some g) : g ∈ t.guards :=
  hs.guards.mem_iff.mpr ((perm_without hg hs.apart).mem_iff.mpr List.mem_cons_self)

/-- Whoever goes through a guard that has a name need not wait. -/
theorem ready_through (hs : Shows names s t) (hg : s.guard? name = some g) {o : Op} (hindex : t.index? o = none)
    (hguard : o.guard? = some g) : t.ready o = true := by
  simpa [Shared.ready, hindex, hguard] using hs.mem_guards hg

theorem holds_eq (hs : Shows names s t) (ht : Fit c t) (x : Handle) : s.holds x = t.heap.isHeld x.index := by
  have hany : s.holds x = t.guards.any fun g => g.handle.index == x.index := by
    rw [hs.guards.any_eq, List.any_map]
    rfl
  rw [hany, Bool.eq_iff_iff, Shared.isHeld_iff, ht.held, List.any_eq_true, List.mem_map]
  simp only [beq_iff_eq]

/-- Whoever wants an object for itself has to wait where a session says that the object is held. -/
theorem ready_on (hs : Shows names s t) (ht : Fit c t) {o : Op} {x : Handle} (hindex : t.index? o = some x.index)
    (hguard : o.guard? = none) : t.ready o = !s.holds x := by
  simp [Shared.ready, hindex, hguard, hs.holds_eq ht]

theorem held_eq_nil (hs : Shows names s t) (ht : Fit c t) (hnobody : s.guards = []) : t.heap.held = [] := by
  have hperm := hs.guards
  rw [hnobody, List.map_nil] at hperm
  exact ht.held_eq_nil_iff.mpr hperm.eq_nil

/-- The guard goes by its name here and by itself there. -/
theorem unlock (hs : Shows names s t) (hg : s.guard? name = some g) :
    Shows names (s.unlock name g).2 (t.act (.unlock g)) := by
  have hready : t.ready (.unlock g) = true := hs.ready_through hg rfl rfl
  have hperm := (hs.guards.trans (perm_without hg hs.apart)).erase g
  rw [List.erase_cons_head] at hperm
  rw [Shared.act, if_pos hready]
  refine ⟨?_, hperm, nodup_without name hs.apart, hs.machines, hs.named⟩
  show Heap.after (Heap.unlock g) t.heap = Heap.after (Heap.unlock g) s.heap
  rw [hs.heap]

/-- A request that goes through a guard is refused, or it is an operation through the guard. -/
theorem withGuard (hs : Shows names s t) {act : Guard → Reply × Session} {f : Guard → Op}
    (hact : ∀ g, s.guard? name = some g → Shows names (act g).2 (t.act (f g))) :
    Shows names (s.withGuard name act).2 (t.run ((s.guard? name).toList.map f)) := by
  unfold Session.withGuard
  cases hg : s.guard? name with
  | none => exact hs
  | some g => exact hact g hg

/-- A guard may go by another name that is not in use. -/
theorem rename (hs : Shows names s t) (hg : s.guard? name = some g) {newName : String}
    (hfree : (without name s.guards).lookup newName = none) :
    Shows names ⟨s.heap, insert newName g (without name s.guards), s.machines⟩ t where
  heap := hs.heap
  guards := by
    rw [insert, without_of_lookup_eq_none hfree]
    exact hs.guards.trans (perm_without hg hs.apart)
  apart := nodup_insert newName g (nodup_without name hs.apart)
  machines := hs.machines
  named := hs.named

/-- A guard gets another name. If that name was in use, its guard is dropped. -/
theorem move (hs : Shows names s t) (hg : s.guard? name = some g) (newName : String) :
    Shows names (s.move name newName g).2
      (t.run (((without name s.guards).lookup newName).toList.map .unlock)) := by
  unfold Session.move
  dsimp only
  cases hold : (without name s.guards).lookup newName with
  | none =>
    have hnone : (Session.mk s.heap (without name s.guards) s.machines).guard? newName = none := hold
    rw [hnone]
    exact hs.rename hg hold
  | some old =>
    have hsome : (Session.mk s.heap (without name s.guards) s.machines).guard? newName = some old := hold
    rw [hsome]
    rw [lookup_without] at hold
    split at hold
    · cases hold
    · next hne =>
      have hg' : (s.unlock newName old).2.guard? name = some g := by
        show (without newName s.guards).lookup name = some g
        rw [lookup_without, if_neg (Ne.symm hne)]
        exact hg
      have hfree : (without name (without newName s.guards)).lookup newName = none := by
        rw [lookup_without, lookup_without, if_pos rfl, ite_self]
      have hmoved := (hs.unlock hold).rename hg' hfree
      have hguards : (s.unlock newName old).2.guards = without newName s.guards := rfl
      rw [hguards, without_comm] at hmoved
      exact hmoved

/-! ## Operations on objects -/

theorem withHeap (hs : Shows names s t) (h : Heap) :
    Shows names ⟨h, s.guards, s.machines⟩ ⟨h, t.guards, t.machines⟩ :=
  ⟨rfl, hs.guards, hs.apart, hs.machines, hs.named⟩

/-- The request and the operation do the same to the heap. -/
theorem onHeap {α : Type} (hs : Shows names s t) {o : Op} {act : HeapM α}
    (hact : t.act o = { t with heap := Heap.after act t.heap }) (answer : α → Answer) :
    Shows names (s.onHeap act answer).2 (t.act o) := by
  rw [onHeap_snd, hact, hs.heap]
  exact hs.withHeap _

/-- A call that has to wait there is refused here. -/
theorem onFree {α : Type} (hs : Shows names s t) (ht : Fit c t) {a : Heap.Call} {x : Handle}
    (hindex : a.index? = some x.index) {act : HeapM α} (hact : a.after t.heap = Heap.after act t.heap)
    (answer : α → Answer) : Shows names (s.onFree x act answer).2 (t.act (.call a)) := by
  have hready : t.ready (.call a) = !s.holds x := hs.ready_on ht hindex rfl
  unfold Session.onFree
  cases hx : s.holds x with
  | true =>
    rw [Shared.act, hready, hx]
    exact hs
  | false =>
    refine hs.onHeap ?_ answer
    rw [Shared.act, hready, hx, ← hact]
    rfl

theorem lock (hs : Shows names s t) (ht : Fit c t) (x : Handle) (hname : s.guard? name = none) :
    Shows names (s.lock x name).2 (t.act (.lock x)) := by
  have hready : t.ready (.lock x) = !s.holds x := hs.ready_on ht rfl rfl
  unfold Session.lock Shared.act
  rw [hready, hname]
  cases s.holds x with
  | true => exact hs
  | false =>
    show Shows names _ (t.taking (some <$> Heap.lock x))
    rw [Shared.taking_lock, hs.heap]
    obtain ⟨heap, guards, machines⟩ := s
    cases hx : heap.isValid x with
    | true =>
      simp only [Option.isSome_none, Bool.false_eq_true, if_false, Shared.lock_of_valid hx, if_true]
      refine ⟨rfl, ?_, nodup_insert name _ hs.apart, hs.machines, hs.named⟩
      rw [insert, without_of_lookup_eq_none hname]
      exact hs.guards.cons _
    | false =>
      have hstale : Heap.lock x heap = .error (heap.refusal x) heap := Heap.bind_check_of_not_valid hx _
      simp only [Option.isSome_none, Bool.false_eq_true, if_false, hstale]
      exact hs

end Shows

/-- An attempt to lock leaves everything as it was. -/
theorem looks_attemptLock (x : Handle) : Heap.Looks (attemptLock x) := by
  intro h
  show Heap.after (EStateM.bind (Heap.tryLock x) _) h = h
  unfold Heap.after EStateM.bind Heap.tryLock
  by_cases hsize : h.entries.size ≤ x.index.toNat
  · simp only [if_pos hsize]
  by_cases hheld : h.isHeld x.index = true
  · simp only [if_neg hsize, if_pos hheld]
    rfl
  simp only [if_neg hsize, if_neg hheld, Shared.some_lock]
  cases h.isValid x with
  | true =>
    show { h with held := (x.index :: h.held).erase x.index } = h
    rw [List.erase_cons_head]
  | false => rfl

theorem looks_contents (x : Handle) : Heap.Looks (Heap.contents x) := by
  intro h
  cases hx : h.isValid x with
  | true => exact (Heap.after_given_of_valid hx _).1
  | false => exact (Heap.after_given_of_not_valid hx _).1

theorem onFree_snd_of_looks {α : Type} {act : HeapM α} (hlook : Heap.Looks act) (s : Session) (x : Handle)
    (answer : α → Answer) : (s.onFree x act answer).2 = s := by
  unfold onFree
  split
  · rfl
  · rw [onHeap_snd, hlook]

theorem ask_snd (s : Session) (answer : Except HeapError Answer) : (s.ask answer).2 = s := by
  cases answer <;> rfl

theorem roots_snd (s : Session) (name : String) : (s.answer (.roots name)).2 = s := by
  rw [answer]
  cases s.machine? name <;> rfl

theorem tryAlloc_snd (s : Session) (n : Nat) : (s.tryAlloc n).2 = (s.onHeap (Heap.allocate n) .handle).2 := by
  obtain ⟨heap, guards, machines⟩ := s
  simp only [tryAlloc, onHeap]
  cases Heap.allocate n heap <;> rfl

theorem run_tryLock (ht : Fit c t) {x : Handle} (hfree : x.index ∉ t.heap.held) :
    t.run [.tryLock x, .unlock ⟨x⟩] = t := by
  have hfirst : t.act (.tryLock x) = t.taking (Heap.tryLock x) := rfl
  have hnone : ⟨x⟩ ∉ t.guards := by
    intro hg
    rw [ht.held] at hfree
    exact hfree (List.mem_map_of_mem hg)
  have hlast : t.act (.unlock ⟨x⟩) = t := by
    refine if_neg ?_
    simpa [Shared.ready, Shared.index?, Op.guard?] using hnone
  show (t.act (.tryLock x)).act (.unlock ⟨x⟩) = t
  rw [hfirst]
  rcases Shared.taking_tryLock (s := t) x with he | ⟨-, he⟩
  · rw [he, hlast]
  rw [he, Shared.taking_lock]
  split
  · have hready : (Shared.mk { t.heap with held := x.index :: t.heap.held } (⟨x⟩ :: t.guards) t.machines).ready
        (.unlock ⟨x⟩) = true := by
      simp [Shared.ready, Shared.index?, Op.guard?]
    rw [Shared.act, if_pos hready]
    show Shared.mk { t.heap with held := (x.index :: t.heap.held).erase x.index } (List.erase (⟨x⟩ :: t.guards) ⟨x⟩)
      t.machines = t
    rw [List.erase_cons_head, List.erase_cons_head]
  · exact hlast

/-! ## Machines -/

namespace Shows

theorem machine (hs : Shows names s t) (hm : s.machine? name = some m) :
    t.machines[names.idxOf name]? = some m := (hs.machines name).symm.trans hm

theorem mem_names (hs : Shows names s t) (hm : s.machine? name = some m) : name ∈ names := by
  have hlt := (List.getElem?_eq_some_iff.mp (hs.machine hm)).1
  rw [← hs.named] at hlt
  exact List.idxOf_lt_length_iff.mp hlt

/-- What becomes of a machine becomes of the one at its place. -/
theorem setMachine (hs : Shows names s t) (hm : s.machine? name = some m) (h : Heap) (m' : Machine) :
    Shows names ⟨h, s.guards, (name, m') :: without name s.machines⟩
      ⟨h, t.guards, t.machines.set (names.idxOf name) m'⟩ where
  heap := rfl
  guards := hs.guards
  apart := hs.apart
  machines := by
    intro n
    show (insert name m' s.machines).lookup n = _
    rw [lookup_insert, List.getElem?_set]
    by_cases hn : n = name
    · subst hn
      rw [if_pos rfl, if_pos rfl, if_pos (List.getElem?_eq_some_iff.mp (hs.machine hm)).1]
    · have hplace : names.idxOf name ≠ names.idxOf n :=
        fun he => hn ((List.idxOf_inj (hs.mem_names hm)).mp he).symm
      rw [if_neg hn, if_neg hplace]
      exact hs.machines n
  named := by rw [List.length_set, hs.named]

theorem join (hs : Shows names s t) (name : String) (m : Machine) :
    Shows (name :: names) { s with machines := insert name m s.machines } { t with machines := m :: t.machines } where
  heap := hs.heap
  guards := hs.guards
  apart := hs.apart
  machines := by
    intro n
    show (insert name m s.machines).lookup n = _
    rw [lookup_insert]
    by_cases hn : n = name
    · subst hn
      rw [if_pos rfl, List.idxOf_cons_self]
      rfl
    · rw [if_neg hn, List.idxOf_cons_ne _ (Ne.symm hn)]
      exact hs.machines n
  named := by rw [List.length_cons, List.length_cons, hs.named]

/-- A machine takes steps while nobody is inside an object. -/
theorem run (hs : Shows names s t) (ht : Fit c t) (hnobody : s.guards = []) (name : String) {n : Machine → Nat}
    {act : Machine → Heap → Machine × Heap × Array Log.Line} (hact : ∀ m h, act m h = m.run (n m) h #[]) :
    Shows names (s.withMachine name act).2
      (t.run ((s.machine? name).toList.flatMap fun m => List.replicate (n m) (.step (names.idxOf name)))) := by
  unfold withMachine
  cases hm : s.machine? name with
  | none => exact hs
  | some m =>
    have hrun := Shared.run_replicate_step (n m) (hs.machine hm) (hs.held_eq_nil ht hnobody) #[]
    rw [Option.toList_some, List.flatMap_singleton, hrun, hs.heap, ← hact]
    exact hs.setMachine hm _ _

theorem stop (hs : Shows names s t) (name : String) :
    Shows names (s.withMachine name fun m h => (m.requestStop, h, #[])).2
      (t.run ((s.machine? name).toList.map fun _ => .stop (names.idxOf name))) := by
  unfold withMachine
  cases hm : s.machine? name with
  | none => exact hs
  | some m =>
    show Shows names ⟨s.heap, s.guards, (name, m.requestStop) :: without name s.machines⟩
      ⟨t.heap, t.guards, t.machines.modify (names.idxOf name) Machine.requestStop⟩
    rw [List.modify_eq_set_getElem?, hs.machine hm, hs.heap]
    exact hs.setMachine hm s.heap m.requestStop

end Shows

theorem addMachine_snd (s : Session) (name : String) (j : Job) (settings : Settings) :
    (s.addMachine name j settings).2 =
      (newMachine? j settings).elim s fun m => { s with machines := insert name m s.machines } := by
  unfold addMachine newMachine?
  cases j.program with
  | error a => rfl
  | ok p =>
    dsimp only
    cases Machine.create p settings with
    | error e => rfl
    | ok made => rfl

/-- A request and its operations lead from one state to one state. -/
theorem Shows.answer (hs : Shows names s t) (ht : Fit c t) {r : Request} (hquiet : r.runs = true → s.guards = []) :
    Shows (joined names r) (s.answer r).2 (t.run (s.ops names r)) := by
  cases r with
  | alloc n => exact hs.onHeap (o := .call (.allocate n)) rfl _
  | tryAlloc n =>
    show Shows names (s.tryAlloc n).2 (t.act (.call (.allocate n)))
    rw [tryAlloc_snd]
    exact hs.onHeap rfl _
  | lock x name =>
    show Shows names (s.lock x name).2 (t.run (if (s.guard? name).isSome then [] else [.lock x]))
    cases hname : s.guard? name with
    | none => exact hs.lock ht x hname
    | some g =>
      unfold Session.lock
      rw [hname]
      exact hs
  | tryLock x =>
    show Shows names (s.onHeap (attemptLock x) .locked).2 (t.run (if s.holds x then [] else [.tryLock x, .unlock ⟨x⟩]))
    rw [onHeap_snd, looks_attemptLock]
    cases hx : s.holds x with
    | true => exact hs
    | false =>
      rw [hs.holds_eq ht] at hx
      have hfree : x.index ∉ t.heap.held := fun hheld => by simp [Shared.isHeld_iff.mpr hheld] at hx
      rw [if_neg Bool.false_ne_true, run_tryLock ht hfree]
      exact hs
  | unlock name => exact hs.withGuard fun g hg => hs.unlock hg
  | move name newName =>
    show Shows names (s.withGuard name (s.move name newName)).2 (t.run (if (s.guard? name).isSome then _ else []))
    unfold Session.withGuard
    cases hg : s.guard? name with
    | none => exact hs
    | some g => exact hs.move hg newName
  | get name slot =>
    refine hs.withGuard fun g hg => ?_
    have hready : t.ready (.get g slot) = true := hs.ready_through hg rfl rfl
    exact hs.onHeap (if_pos hready) _
  | set name slot v =>
    refine hs.withGuard fun g hg => ?_
    have hready : t.ready (.set g slot v) = true := hs.ready_through hg rfl rfl
    exact hs.onHeap (if_pos hready) _
  | slots x =>
    show Shows names (s.onFree x (Heap.contents x) _).2 t
    rw [onFree_snd_of_looks (looks_contents x)]
    exact hs
  | put x slot v => exact hs.onFree ht rfl rfl _
  | retain x => exact hs.onFree ht rfl rfl _
  | release x => exact hs.onFree ht rfl rfl _
  | refs x => exact hs.onFree ht rfl rfl _
  | valid x =>
    show Shows names (if s.holds x then _ else _ : Reply × Session).2 t
    split <;> exact hs
  | collect roots machines =>
    show Shows names (s.collect roots machines).2 (t.run ((s.rootsOf machines).toList.map _))
    unfold collect
    cases s.rootsOf machines with
    | none => exact hs
    | some more =>
      show Shows names ⟨(s.heap.collect (roots ++ more)).2, s.guards, s.machines⟩
        ⟨(t.heap.collect (roots ++ more)).2, t.guards, t.machines⟩
      rw [hs.heap]
      exact hs.withHeap _
  | classes => exact hs
  | slotsOf n | capacity n | live n =>
    show Shows names (s.ask _).2 t
    rw [ask_snd]
    exact hs
  | machine name job settings =>
    show Shows (if (newMachine? job settings).isSome then name :: names else names) (s.addMachine name job settings).2
      (t.run ((newMachine? job settings).toList.map .join))
    rw [addMachine_snd]
    cases newMachine? job settings with
    | none => exact hs
    | some m => exact hs.join name m
  | step name n => exact hs.run ht (hquiet rfl) name fun _ _ => rfl
  | execute name => exact hs.run ht (hquiet rfl) name fun _ _ => rfl
  | stop name => exact hs.stop name
  | roots name =>
    show Shows names (s.answer (.roots name)).2 t
    rw [roots_snd]
    exact hs

/-! ## Replies -/

/-- What is asked of the shared heap by a request that hands on the reply. -/
def question? (s : Session) : Request → Option Shared.Request
  | .alloc n => some (.op (.call (.allocate n)))
  | .unlock name => (s.guard? name).map fun g => .op (.unlock g)
  | .get name slot => (s.guard? name).map fun g => .op (.get g slot)
  | .set name slot v => (s.guard? name).map fun g => .op (.set g slot v)
  | .put x slot v => some (.op (.call (.write x slot v)))
  | .retain x => some (.op (.call (.retain x)))
  | .release x => some (.op (.call (.release x)))
  | .valid x => some (.valid x)
  | .refs x => some (.op (.call (.refCount x)))
  | .collect roots machines => (s.rootsOf machines).map fun more => .op (.collect (roots ++ more))
  | _ => none

/-- A reply of the shared heap in the words of a session; what is not handed on says no more than that it is done. -/
def Reply.ofShared : Shared.Reply → Reply
  | .answer (.ok (.handle x)) => .ok (.handle x)
  | .answer (.ok (.value v)) => .ok (.value v)
  | .answer (.ok (.size n)) => .ok (.size n)
  | .answer (.ok (.gone yes)) => .ok (.freed yes)
  | .answer (.ok (.count n)) => .ok (.refs n)
  | .answer (.error e) => ⟨.error (.heap e), []⟩
  | .collected n => .ok (.collected n)
  | .valid yes => .ok (.valid yes)
  | _ => .ok .done

theorem onHeap_fst {α : Type} (s : Session) (act : HeapM α) {answer : α → Answer} {told : α → Heap.Answer}
    (hsame : ∀ a, Reply.ofShared (.answer (.ok (told a))) = .ok (answer a)) :
    (s.onHeap act answer).1 = Reply.ofShared (.answer ((Heap.outcome act s.heap).map told)) := by
  obtain ⟨heap, guards, machines⟩ := s
  simp only [onHeap, Heap.outcome]
  cases act heap with
  | ok a h => exact (hsame a).symm
  | error e h => rfl

theorem Shows.onFree_fst {α : Type} (hs : Shows names s t) (ht : Fit c t) {a : Heap.Call} {x : Handle}
    (hindex : a.index? = some x.index) {act : HeapM α} {answer : α → Answer} {told : α → Heap.Answer}
    (hanswer : a.answer t.heap = (Heap.outcome act t.heap).map told)
    (hsame : ∀ a, Reply.ofShared (.answer (.ok (told a))) = .ok (answer a)) :
    (s.onFree x act answer).1 = (t.asked (.op (.call a))).elim (.refused .objectHeld) .ofShared := by
  have hasked : t.asked (.op (.call a)) = if t.ready (.call a) then some (.answer (a.answer t.heap)) else none := rfl
  have hready : t.ready (.call a) = !s.holds x := hs.ready_on ht hindex rfl
  rw [hasked, hready]
  unfold Session.onFree
  cases s.holds x with
  | true => rfl
  | false =>
    show (s.onHeap act answer).1 = Reply.ofShared (.answer (a.answer t.heap))
    rw [onHeap_fst s act hsame, hanswer, hs.heap]

/-- The reply that is handed on, or a refusal where the shared heap would make wait. -/
theorem Shows.reply (hs : Shows names s t) (ht : Fit c t) {r : Request} {q : Shared.Request}
    (hq : s.question? r = some q) : (s.answer r).1 = (t.asked q).elim (.refused .objectHeld) .ofShared := by
  cases r with
  | alloc n =>
    cases hq
    show (s.onHeap (Heap.allocate n) .handle).1 = Reply.ofShared (.answer ((Heap.outcome _ t.heap).map .handle))
    rw [hs.heap]
    exact onHeap_fst s _ fun _ => rfl
  | unlock name =>
    obtain ⟨g, hg, rfl⟩ := Option.map_eq_some_iff.mp hq
    have hasked : t.asked (.op (.unlock g)) = some .done := if_pos (hs.ready_through hg rfl rfl)
    show (s.withGuard name _).1 = _
    rw [hasked, Session.withGuard, hg]
    rfl
  | get name slot =>
    obtain ⟨g, hg, rfl⟩ := Option.map_eq_some_iff.mp hq
    have hasked : t.asked (.op (.get g slot)) = some (.answer ((Heap.outcome (g.read slot) t.heap).map .value)) :=
      if_pos (hs.ready_through hg rfl rfl)
    show (s.withGuard name _).1 = _
    rw [hasked, Session.withGuard, hg, hs.heap]
    exact onHeap_fst s _ fun _ => rfl
  | set name slot v =>
    obtain ⟨g, hg, rfl⟩ := Option.map_eq_some_iff.mp hq
    have hasked : t.asked (.op (.set g slot v)) =
        some (.answer ((Heap.outcome (g.write slot v) t.heap).map fun _ => .done)) :=
      if_pos (hs.ready_through hg rfl rfl)
    show (s.withGuard name _).1 = _
    rw [hasked, Session.withGuard, hg, hs.heap]
    exact onHeap_fst s _ fun _ => rfl
  | put x slot v =>
    cases hq
    exact hs.onFree_fst ht rfl rfl fun _ => rfl
  | retain x =>
    cases hq
    exact hs.onFree_fst ht rfl rfl fun _ => rfl
  | release x =>
    cases hq
    exact hs.onFree_fst ht rfl rfl fun _ => rfl
  | refs x =>
    cases hq
    exact hs.onFree_fst ht rfl rfl fun _ => rfl
  | valid x =>
    cases hq
    show (if s.holds x then _ else _ : Reply × Session).1 =
      (if t.heap.isHeld x.index then none else some (Shared.Reply.valid (t.heap.isValid x))).elim _ _
    rw [← hs.holds_eq ht, hs.heap]
    cases s.holds x <;> rfl
  | collect roots machines =>
    obtain ⟨more, hmore, rfl⟩ := Option.map_eq_some_iff.mp hq
    show (s.collect roots machines).1 = Reply.ofShared (.collected (t.heap.collect (roots ++ more)).1)
    rw [collect, hmore, hs.heap]
    rfl
  | _ => cases hq

/-- The machine that a request has do something. -/
def Request.machine? : Request → Option String
  | step name _ | execute name | stop name => some name
  | _ => none

theorem report_withMachine (hm : s.machine? name = some m) (act : Machine → Heap → Machine × Heap × Array Log.Line) :
    ∃ m', (s.withMachine name act).2.machine? name = some m' ∧
      (s.withMachine name act).1.answer = .ok (.report m'.report) := by
  unfold withMachine
  rw [hm]
  exact ⟨_, by simp [machine?], rfl⟩

/-- What is reported is the machine as it stands on the shared heap afterwards. -/
theorem Shows.report (hs : Shows names s t) (ht : Fit c t) {r : Request} (hquiet : r.runs = true → s.guards = [])
    (hr : r.machine? = some name) (hm : s.machine? name = some m) :
    ∃ m', (t.run (s.ops names r)).machines[names.idxOf name]? = some m' ∧
      (s.answer r).1.answer = .ok (.report m'.report) := by
  have hs' := hs.answer ht hquiet
  cases r with
  | step | execute | stop =>
    cases hr
    obtain ⟨m', hm', hreport⟩ := report_withMachine hm _
    exact ⟨m', (hs'.machines name).symm.trans hm', hreport⟩
  | _ => cases hr

/-! ## Whole sessions -/

/-- The session after a list of requests. -/
def after (s : Session) : List Request → Session
  | [] => s
  | r :: rs => (s.answer r).2.after rs

/-- The operations that a list of requests comes to. -/
def allOps (names : List String) (s : Session) : List Request → List Op
  | [] => []
  | r :: rs => s.ops names r ++ allOps (joined names r) (s.answer r).2 rs

/-- No machine takes a step while somebody is inside an object. -/
def Quiet (s : Session) : List Request → Prop
  | [] => True
  | r :: rs => (r.runs = true → s.guards = []) ∧ (s.answer r).2.Quiet rs

theorem Shows.after (hs : Shows names s t) (ht : Fit c t) {rs : List Request} (hquiet : s.Quiet rs) :
    Shows (rs.foldl joined names) (s.after rs) (t.run (s.allOps names rs)) := by
  induction rs generalizing names s t with
  | nil => exact hs
  | cons r rs ih =>
    rw [allOps, Shared.run_append]
    exact ih (hs.answer ht hquiet.1) (ht.run _) hquiet.2

theorem quiet_append {rs rs' : List Request} : s.Quiet (rs ++ rs') ↔ s.Quiet rs ∧ (s.after rs).Quiet rs' := by
  induction rs generalizing s with
  | nil => exact (and_iff_right trivial).symm
  | cons r rs ih =>
    rw [List.cons_append, Quiet, Quiet, ih, and_assoc]
    rfl

theorem shows_start (h : Heap) : Shows [] (start h) (Shared.start h) :=
  ⟨rfl, .nil, List.nodup_nil, fun _ => rfl, rfl⟩

/-- Every session on a new heap is a run on it: guards, machines and the heap are in the same state. -/
theorem session_run {h₀ : Heap} (hc : Heap.ofConfig c = .ok h₀) {rs : List Request} (hquiet : (start h₀).Quiet rs) :
    Shows (rs.foldl joined []) ((start h₀).after rs) ((Shared.start h₀).run ((start h₀).allOps [] rs)) :=
  (shows_start h₀).after (Shared.fit_run hc []) hquiet

/-- Both guards are dropped, the one of the name and the one that has been given another. -/
example : (start (Heap.build ⟨[1], 2⟩)).allOps []
    [.alloc 0, .alloc 0, .lock ⟨0, 0⟩ "g", .lock ⟨1, 0⟩ "k", .move "g" "k", .unlock "k", .unlock "g"] =
    [.call (.allocate 0), .call (.allocate 0), .lock ⟨0, 0⟩, .lock ⟨1, 0⟩, .unlock ⟨⟨1, 0⟩⟩, .unlock ⟨⟨0, 0⟩⟩] := rfl

/-- So what holds of the heap after all runs holds of it after all sessions. -/
theorem session_heap {h₀ : Heap} (hc : Heap.ofConfig c = .ok h₀) {P : Heap → Prop}
    (hP : ∀ os, P ((Shared.start h₀).run os).heap) {rs : List Request} (hquiet : (start h₀).Quiet rs) :
    P ((start h₀).after rs).heap := by
  rw [← (session_run hc hquiet).heap]
  exact hP _

theorem getElem?_answerAll (s : Session) (before : List Request) (r : Request) (after : List Request) :
    (s.answerAll (before ++ r :: after))[before.length]? =
      some (((s.after before).answer r).1, ((s.after before).answer r).2.heap.liveObjects) := by
  induction before generalizing s with
  | nil => rfl
  | cons r' before ih => exact ih _

/-- What is replied in the middle of a session: what the shared heap replies where that is handed on, a report on the
machine where one has done something, and how many objects live on the shared heap by then. -/
theorem session_replies {h₀ : Heap} (hc : Heap.ofConfig c = .ok h₀) {before after : List Request} {r : Request}
    (hquiet : (start h₀).Quiet (before ++ r :: after)) :
    let names := before.foldl joined []
    let s := (start h₀).after before
    let t := (Shared.start h₀).run ((start h₀).allOps [] before)
    let t' := t.run (s.ops names r)
    ∃ reply, ((start h₀).answerAll (before ++ r :: after))[before.length]? = some (reply, t'.heap.liveObjects) ∧
      (∀ q, s.question? r = some q → reply = (t.asked q).elim (.refused .objectHeld) .ofShared) ∧
      ∀ name m, r.machine? = some name → s.machine? name = some m →
        ∃ m', t'.machines[names.idxOf name]? = some m' ∧ reply.answer = .ok (.report m'.report) := by
  intro names s t t'
  obtain ⟨hbefore, hafter⟩ := quiet_append.mp hquiet
  have hs : Shows names s t := session_run hc hbefore
  have ht : Fit c t := Shared.fit_run hc _
  refine ⟨(s.answer r).1, ?_, fun q hq => hs.reply ht hq, fun name m hr hm => hs.report ht hafter.1 hr hm⟩
  rw [getElem?_answerAll, (hs.answer ht hafter.1).heap]

end Session

/-! ## Launches -/

namespace Launch

variable {l : Launch} {o : Outcome}

/-- Where there is an outcome, nothing was wrong with the heap, the job or the stack. -/
theorem of_run (hl : l.run = .ok o) :
    ∃ h₀ m log, Heap.ofConfig l.heap = .ok h₀ ∧ Session.newMachine? l.job l.settings = some m ∧
      let first := (m.watch l.watch h₀ log).2
      o.report = (first.1.execute first.2.1).1.report ∧ o.live = (first.1.execute first.2.1).2.1.liveObjects := by
  unfold run at hl
  unfold Session.newMachine?
  cases hheap : Heap.ofConfig l.heap with
  | error e =>
    rw [hheap] at hl
    cases hl
  | ok h₀ =>
    rw [hheap] at hl
    cases hjob : l.job.program with
    | error a =>
      rw [hjob] at hl
      cases hl
    | ok p =>
      rw [hjob] at hl
      cases hmade : Machine.create p l.settings with
      | error e =>
        simp only [hmade] at hl
        cases hl
      | ok made =>
        simp only [hmade, Except.ok.injEq] at hl
        subst hl
        refine ⟨h₀, made.1, made.2.toArray, rfl, ?_, rfl, rfl⟩
        simp only [hmade]
        rfl

/-- A launch is one machine on a new heap that takes the steps that are watched and then those to its end. -/
theorem shared_of_run (hl : l.run = .ok o) :
    ∃ h₀ m, Heap.ofConfig l.heap = .ok h₀ ∧ Session.newMachine? l.job l.settings = some m ∧
      let t := (Shared.start h₀).run (.join m :: List.replicate (l.watch + m.stepLimit) (.step 0))
      t.machines.map Machine.report = [o.report] ∧ t.heap.liveObjects = o.live := by
  obtain ⟨h₀, m, log, hheap, hnew, hreport, hlive⟩ := of_run hl
  have hfree : h₀.held = [] := (Shared.fit_run hheap []).held_eq_nil_iff.mpr rfl
  have hrun := Shared.run_alone hfree l.watch m.stepLimit m log
  rw [Machine.watch_snd, Machine.execute, Machine.stepLimit_run] at hreport hlive
  refine ⟨h₀, m, hheap, hnew, ?_⟩
  show ((⟨h₀, [], [m]⟩ : Shared).run _).machines.map Machine.report = _ ∧
    ((⟨h₀, [], [m]⟩ : Shared).run _).heap.liveObjects = _
  rw [hrun, hreport, hlive]
  exact ⟨rfl, rfl⟩

end Launch

/-- What an opcode makes of two values is reported by a launch. -/
theorem Opcode.applied_eq_launch (op : Opcode) (a b : Value) :
    (Launch.mk ⟨[1], 1⟩ ⟨.inl (Program.applying op a b).code, none, #[a], #[b]⟩ {} 0).run.map (·.report) =
      .ok (op.applied a b) := by
  have hheap : Heap.ofConfig ⟨[1], 1⟩ = .ok (Heap.build ⟨[1], 1⟩) := rfl
  have hjob : Job.program ⟨.inl (Program.applying op a b).code, none, #[a], #[b]⟩ = .ok (Program.applying op a b) :=
    rfl
  have hmade : Machine.create (Program.applying op a b) {} =
      .ok (Machine.start (Program.applying op a b) {} (.empty Stack.defaultCapacity)) :=
    Machine.create_eq_ok.mpr ⟨by decide, rfl⟩
  simp only [Launch.run, hheap, hjob, hmade]
  rfl

end StackVM
