/-
  StackVM.Heap.Object — what is done with single objects.

  An object is made by an allocation and lives until its reference count comes down to zero or a
  collection finds that nobody can reach it. A handle is checked on every use: its index has to lie in
  the table and its generation has to be the current one of a live entry.

  Whoever wants to work on an object for a while takes a guard, and the object's index is held until the
  guard is dropped. A guard reads and writes slots without looking at the handle again.

  An operation that fails leaves the heap as it was.
-/

import StackVM.Heap.Basic

namespace StackVM

/-- A heap operation. An operation that fails hands the heap back, too. -/
abbrev HeapM := EStateM HeapError Heap

/-- Exclusive access to one object. -/
structure Guard where
  handle : Handle
  deriving DecidableEq, Repr

namespace Heap

/-! ## Allocation -/

/-- The head of class `n`'s free list becomes a new object. -/
def handOut (h : Heap) (n : Nat) (i : UInt32) : Handle × Heap :=
  let h := (h.updateClass n SizeClass.take).updateEntry i Entry.revive
  let generation := h.generationAt i
  (⟨i, generation⟩, h)

/-- A new object of class `n`. -/
def allocate (n : Nat) : HeapM Handle := fun h =>
  match h.classes[n]? with
  | none => .error (.noSuchClass n h.classes.size) h
  | some c =>
    match c.free with
    | [] => .error (.exhausted n h.capacity) h
    | i :: _ =>
      let (x, h) := h.handOut n i
      .ok x h

/-! ## Handles -/

/-- Fails unless the handle names a live object. -/
def check (x : Handle) : HeapM Unit := fun h =>
  match h.entries[x.index.toNat]? with
  | none => .error (.indexOutOfRange x.index) h
  | some e => if e.answers x then .ok () h else .error (.stale x) h

/-- One more reference; the count is a word of 32 bits. -/
def retain (x : Handle) : HeapM Unit := do
  check x
  modify (·.updateEntry x.index fun e => { e with refCount := e.refCount + 1 })

/-- Counts one reference less. The object goes when none is left; tells whether it did. -/
def dropReference (h : Heap) (i : UInt32) : Bool × Heap :=
  let count := h.refCountAt i - 1
  if 0 < count then (false, h.updateEntry i fun e => { e with refCount := count })
  else (true, h.retire i)

/-- One reference less; tells whether the object is gone. -/
def release (x : Handle) : HeapM Bool := do
  check x
  modifyGet (·.dropReference x.index)

def refCount (x : Handle) : HeapM UInt32 := do
  check x
  return (← get).refCountAt x.index

/-! ## Slots -/

/-- The number of slots of the object at an index. -/
def sizeAt (h : Heap) (i : UInt32) : Nat := (h.slotsAt i).size

/-- Reads a slot of the object at an index. -/
def readAt (i : UInt32) (slot : Nat) : HeapM Value := fun h =>
  match (h.slotsAt i)[slot]? with
  | some v => .ok v h
  | none => .error (.slotOutOfRange slot (h.sizeAt i)) h

def setSlot (h : Heap) (i : UInt32) (slot : Nat) (v : Value) : Heap :=
  h.updateEntry i fun e => { e with slots := e.slots.setIfInBounds slot v }

/-- Writes a slot of the object at an index. -/
def writeAt (i : UInt32) (slot : Nat) (v : Value) : HeapM Unit := fun h =>
  if slot < h.sizeAt i then .ok () (h.setSlot i slot v)
  else .error (.slotOutOfRange slot (h.sizeAt i)) h

/-- Reads a slot of the object the handle names. -/
def readSlot (x : Handle) (slot : Nat) : HeapM Value := do
  check x
  readAt x.index slot

/-- Writes a slot of the object the handle names. -/
def writeSlot (x : Handle) (slot : Nat) (v : Value) : HeapM Unit := do
  check x
  writeAt x.index slot v

/-- The number of slots of the object the handle names. -/
def sizeOf (x : Handle) : HeapM Nat := do
  check x
  return (← get).sizeAt x.index

/-- All slots of the object the handle names. -/
def contents (x : Handle) : HeapM (Array Value) := do
  check x
  return (← get).slotsAt x.index

/-! ## Guards -/

def isHeld (h : Heap) (i : UInt32) : Bool := h.held.contains i

/-- Takes a guard on an object nobody is inside. -/
def lock (x : Handle) : HeapM Guard := do
  check x
  modify fun h => { h with held := x.index :: h.held }
  return ⟨x⟩

/-- Takes a guard if nobody is inside the object. Whether somebody is comes before whether the handle
is the current one. -/
def tryLock (x : Handle) : HeapM (Option Guard) := fun h =>
  if h.entries.size ≤ x.index.toNat then .error (.indexOutOfRange x.index) h
  else if h.isHeld x.index then .ok none h
  else (some <$> lock x) h

/-- Drops a guard. -/
def unlock (g : Guard) : HeapM Unit :=
  modify fun h => { h with held := h.held.erase g.handle.index }

end Heap

namespace Guard

def size (g : Guard) : HeapM Nat := do return (← get).sizeAt g.handle.index

/-- Reads a slot. -/
def read (g : Guard) (slot : Nat) : HeapM Value := Heap.readAt g.handle.index slot

/-- Writes a slot. -/
def write (g : Guard) (slot : Nat) (v : Value) : HeapM Unit := Heap.writeAt g.handle.index slot v

end Guard

end StackVM
