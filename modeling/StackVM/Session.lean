/-
  StackVM.Session — a heap in use.

  A session is one heap, the guards somebody has kept on its objects and the machines that share it,
  guards and machines going by names. It takes one request after the other and answers each. A request
  that would wait for a guard to be dropped is refused: taking a guard under a name already in use, and
  any use of a handle whose index is held, apart from the attempt to lock, which never waits. Machines
  are not to be run while guards are kept.
-/

import StackVM.Heap.Collect
import StackVM.Launch

namespace StackVM

structure Session where
  heap : Heap
  guards : List (String × Guard)
  machines : List (String × Machine)

namespace Session

def start (h : Heap) : Session := ⟨h, [], []⟩

/-! ## Requests and answers -/

inductive Request
  | alloc (sizeClass : Nat)
  | tryAlloc (sizeClass : Nat)
  | lock (x : Handle) (guard : String)
  | tryLock (x : Handle)
  | unlock (guard : String)
  | move (guard newName : String)
  | get (guard : String) (slot : Nat)
  | set (guard : String) (slot : Nat) (v : Value)
  | slots (x : Handle)
  | put (x : Handle) (slot : Nat) (v : Value)
  | retain (x : Handle)
  | release (x : Handle)
  | valid (x : Handle)
  | refs (x : Handle)
  /-- The roots are the values given and those of the machines named. -/
  | collect (roots : List Value) (machines : List String)
  | classes
  | slotsOf (sizeClass : Nat)
  | capacity (sizeClass : Nat)
  | live (sizeClass : Nat)
  | machine (name : String) (job : Job) (settings : Settings)
  | step (machine : String) (times : Nat)
  | execute (machine : String)
  | stop (machine : String)
  | roots (machine : String)

inductive Answer
  | done
  | handle (x : Handle)
  /-- An attempt to allocate, which reports its failure by name. -/
  | attempt (status : HeapError.Status) (x : Option Handle)
  | size (n : Nat)
  /-- An attempt to lock, with the object's size if it was successful. -/
  | locked (size : Option Nat)
  | value (v : Value)
  | slots (vs : List Value)
  | freed (gone : Bool)
  | valid (yes : Bool)
  | refs (count : UInt32)
  | collected (objects : Nat)
  | classes (count : Nat)
  | slotCount (n : Nat)
  | capacity (n : Nat)
  | live (n : Nat)
  | report (r : Machine.Report)
  | assembly (a : Assembly)
  | roots (vs : List Value)

inductive Refusal
  | guardExists
  | objectHeld
  | noSuchGuard
  | noSuchMachine
  deriving DecidableEq, Repr

def Refusal.message : Refusal → String
  | guardExists => "guard exists"
  | objectHeld => "object is held"
  | noSuchGuard => "no such guard"
  | noSuchMachine => "no such machine"

inductive Failure
  | refused (r : Refusal)
  | heap (e : HeapError)
  | stack (e : Stack.CapacityError)

/-- What a request comes to: an answer or a failure, and what was logged meanwhile. -/
structure Reply where
  answer : Except Failure Answer
  log : List Log.Line

namespace Reply

def ok (a : Answer) : Reply := ⟨.ok a, []⟩

def refused (r : Refusal) : Reply := ⟨.error (.refused r), []⟩

end Reply

/-! ## Names -/

def guard? (s : Session) (name : String) : Option Guard := s.guards.lookup name

def machine? (s : Session) (name : String) : Option Machine := s.machines.lookup name

/-- The list without the name. -/
def without {α : Type} (name : String) (l : List (String × α)) : List (String × α) :=
  l.filter fun e => e.1 != name

/-- The list with the name standing for the item, and for nothing else. -/
def insert {α : Type} (name : String) (a : α) (l : List (String × α)) : List (String × α) :=
  (name, a) :: without name l

/-- Somebody has kept a guard on the object at the handle's index. -/
def holds (s : Session) (x : Handle) : Bool := s.guards.any fun e => e.2.handle.index == x.index

/-! ## Answering -/

/-- Runs a heap operation and answers with what it gives. -/
def onHeap {α : Type} (s : Session) (act : HeapM α) (answer : α → Answer) : Reply × Session :=
  let ⟨heap, guards, machines⟩ := s
  match act heap with
  | .ok a heap => (.ok (answer a), ⟨heap, guards, machines⟩)
  | .error e heap => (⟨.error (.heap e), []⟩, ⟨heap, guards, machines⟩)

/-- The same on an object that nobody may be inside. -/
def onFree {α : Type} (s : Session) (x : Handle) (act : HeapM α) (answer : α → Answer) :
    Reply × Session :=
  if s.holds x then (.refused .objectHeld, s) else s.onHeap act answer

def ask (s : Session) (answer : Except HeapError Answer) : Reply × Session :=
  match answer with
  | .ok a => (.ok a, s)
  | .error e => (⟨.error (.heap e), []⟩, s)

def lock (s : Session) (x : Handle) (name : String) : Reply × Session :=
  if (s.guard? name).isSome then (.refused .guardExists, s)
  else if s.holds x then (.refused .objectHeld, s)
  else
    let ⟨heap, guards, machines⟩ := s
    match Heap.lock x heap with
    | .ok g heap => (.ok (.size (heap.sizeAt x.index)), ⟨heap, insert name g guards, machines⟩)
    | .error e heap => (⟨.error (.heap e), []⟩, ⟨heap, guards, machines⟩)

/-- Locks, looks at the size and unlocks again. -/
def attemptLock (x : Handle) : HeapM (Option Nat) := do
  match ← Heap.tryLock x with
  | none => return none
  | some g =>
    let n ← g.size
    Heap.unlock g
    return some n

def tryAlloc (s : Session) (n : Nat) : Reply × Session :=
  let ⟨heap, guards, machines⟩ := s
  match Heap.allocate n heap with
  | .ok x heap => (.ok (.attempt .ok (some x)), ⟨heap, guards, machines⟩)
  | .error e heap => (.ok (.attempt e.status none), ⟨heap, guards, machines⟩)

def withGuard (s : Session) (name : String) (act : Guard → Reply × Session) : Reply × Session :=
  match s.guard? name with
  | some g => act g
  | none => (.refused .noSuchGuard, s)

def unlock (s : Session) (name : String) (g : Guard) : Reply × Session :=
  ({ s with guards := without name s.guards }).onHeap (Heap.unlock g) fun _ => .done

/-- Renames a guard. A guard that had the new name is dropped. -/
def move (s : Session) (name newName : String) (g : Guard) : Reply × Session :=
  let s := { s with guards := without name s.guards }
  let s := match s.guard? newName with
    | some old => (s.unlock newName old).2
    | none => s
  (.ok (.handle g.handle), { s with guards := insert newName g s.guards })

/-- The roots of the machines named, or nothing if one is missing. -/
def rootsOf (s : Session) (names : List String) : Option (List Value) :=
  (names.mapM s.machine?).map fun ms => ms.flatMap Machine.roots

def collect (s : Session) (roots : List Value) (names : List String) : Reply × Session :=
  match s.rootsOf names with
  | none => (.refused .noSuchMachine, s)
  | some more =>
    let ⟨heap, guards, machines⟩ := s
    let (n, heap) := heap.collect (roots ++ more)
    (.ok (.collected n), ⟨heap, guards, machines⟩)

def addMachine (s : Session) (name : String) (j : Job) (settings : Settings) : Reply × Session :=
  match j.program with
  | .error a => (.ok (.assembly a), s)
  | .ok p =>
    match Machine.create p settings with
    | .error e => (⟨.error (.stack e), []⟩, s)
    | .ok (m, log) => (⟨.ok (.report m.report), log⟩, { s with machines := insert name m s.machines })

/-- Lets a machine act on the heap and answers with its report. -/
def withMachine (s : Session) (name : String)
    (act : Machine → Heap → Machine × Heap × Array Log.Line) : Reply × Session :=
  match s.machine? name with
  | none => (.refused .noSuchMachine, s)
  | some m =>
    let ⟨heap, guards, machines⟩ := s
    let machines := without name machines
    let (m, heap, log) := act m heap
    let report := m.report
    (⟨.ok (.report report), log.toList⟩, ⟨heap, guards, (name, m) :: machines⟩)

def answer (s : Session) : Request → Reply × Session
  | .alloc n => s.onHeap (Heap.allocate n) .handle
  | .tryAlloc n => s.tryAlloc n
  | .lock x g => s.lock x g
  | .tryLock x => s.onHeap (attemptLock x) .locked
  | .unlock g => s.withGuard g (s.unlock g)
  | .move g newName => s.withGuard g (s.move g newName)
  | .get g n => s.withGuard g fun g => s.onHeap (g.read n) .value
  | .set g n v => s.withGuard g fun g => s.onHeap (g.write n v) fun _ => .done
  | .slots x => s.onFree x (Heap.contents x) fun vs => .slots vs.toList
  | .put x n v => s.onFree x (Heap.writeSlot x n v) fun _ => .done
  | .retain x => s.onFree x (Heap.retain x) fun _ => .done
  | .release x => s.onFree x (Heap.release x) .freed
  | .valid x => if s.holds x then (.refused .objectHeld, s) else (.ok (.valid (s.heap.isValid x)), s)
  | .refs x => s.onFree x (Heap.refCount x) .refs
  | .collect roots machines => s.collect roots machines
  | .classes => (.ok (.classes s.heap.classCount), s)
  | .slotsOf n => s.ask ((s.heap.slotsOf n).map .slotCount)
  | .capacity n => s.ask ((s.heap.capacityOf n).map .capacity)
  | .live n => s.ask ((s.heap.liveOf n).map .live)
  | .machine name job settings => s.addMachine name job settings
  | .step name n => s.withMachine name fun m h => m.run n h #[]
  | .execute name => s.withMachine name fun m h => m.execute h
  | .stop name => s.withMachine name fun m h => (m.requestStop, h, #[])
  | .roots name =>
    match s.machine? name with
    | some m => (.ok (.roots m.roots), s)
    | none => (.refused .noSuchMachine, s)

/-- The replies to a list of requests, each with the number of objects live after it. -/
def answerAll (s : Session) : List Request → List (Reply × Nat)
  | [] => []
  | r :: rs =>
    let (reply, s) := s.answer r
    let live := s.heap.liveObjects
    (reply, live) :: answerAll s rs

end Session

end StackVM
