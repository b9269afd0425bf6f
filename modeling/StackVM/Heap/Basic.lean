/-
  StackVM.Heap.Basic — the object heap: what it holds and how it is set up.

  Objects come in size classes, each with a fixed number of slots. The object table is set up once, with
  as many entries for every class as the configuration says, and never grows: class `c` owns the window
  of indices from `c * capacity` up to, not including, `(c + 1) * capacity`. An entry that is not live
  waits on the free list of its class; the list starts in ascending order, so that the lowest index is
  handed out first.

  `Config.check` says which configurations are refused and why; `build` sets up the table of any other.
-/

import StackVM.Value

namespace StackVM

/-! ## What can go wrong -/

inductive HeapError
  | noClasses
  | noCapacity
  | badLength (index length : Nat)
  | tooLarge (classes capacity : Nat)
  /-- An allocation named a class that does not exist. -/
  | noSuchClass (index classes : Nat)
  | exhausted (index capacity : Nat)
  /-- A question about a class that does not exist. -/
  | unknownClass (index : Nat)
  | indexOutOfRange (index : UInt32)
  | stale (handle : Handle)
  | slotOutOfRange (slot size : Nat)
  deriving DecidableEq, Repr

namespace HeapError

/-- The kinds of heap errors, and success, by name. -/
inductive Status
  | ok
  | invalidConfiguration
  | invalidSizeClass
  | outOfMemory
  | invalidHandle
  | outOfBounds
  deriving DecidableEq, Repr

namespace Status

def all : List Status :=
  [ok, invalidConfiguration, invalidSizeClass, outOfMemory, invalidHandle, outOfBounds]

def name : Status → String
  | ok => "ok"
  | invalidConfiguration => "invalid configuration"
  | invalidSizeClass => "invalid size class"
  | outOfMemory => "out of memory"
  | invalidHandle => "invalid handle"
  | outOfBounds => "out of bounds"

end Status

def status : HeapError → Status
  | noClasses | noCapacity | badLength _ _ | tooLarge _ _ => .invalidConfiguration
  | noSuchClass _ _ | unknownClass _ => .invalidSizeClass
  | exhausted _ _ => .outOfMemory
  | indexOutOfRange _ | stale _ => .invalidHandle
  | slotOutOfRange _ _ => .outOfBounds

end HeapError

namespace Heap

/-- The largest number of entries an object table may have. -/
def maxObjects : Nat := 1 <<< 24

/-- The largest number of slots of one object. -/
def maxSlots : Nat := 255

def defaultCapacity : Nat := 1024

end Heap

def HeapError.message : HeapError → String
  | noClasses => "heap needs at least one size class"
  | noCapacity => "heap capacity per size class must be positive"
  | badLength i n => s!"size class {i} has invalid length {n}"
  | tooLarge k n =>
    s!"heap object table too large ({k} classes x {n} objects, limit {Heap.maxObjects})"
  | noSuchClass i k => s!"size class {i} out of range (have {k})"
  | exhausted i n => s!"size class {i} exhausted ({n} objects)"
  | unknownClass i => s!"size class {i} out of range"
  | indexOutOfRange i => s!"handle index {i} out of range"
  | stale x => s!"stale handle {x.text}"
  | slotOutOfRange i n => s!"slot {i} out of bounds (size={n})"

/-! ## The heap -/

/-- One entry of the object table. -/
structure Entry where
  slots : Array Value
  generation : UInt32
  refCount : UInt32
  sizeClass : UInt32
  live : Bool
  /-- Set during a collection on what has been found reachable, and on nothing between collections. -/
  marked : Bool
  deriving DecidableEq, Repr

namespace Entry

/-- An entry that has never been handed out. -/
def fresh (sizeClass slots : Nat) : Entry where
  slots := Array.replicate slots (.raw 0)
  generation := 0
  refCount := 0
  sizeClass := UInt32.ofNat sizeClass
  live := false
  marked := false

instance : Inhabited Entry := ⟨fresh 0 0⟩

/-- The handle names the object that lives here now. -/
def answers (e : Entry) (x : Handle) : Bool := e.live && e.generation == x.generation

/-- A new object: every slot is zero and one reference is counted. -/
def revive (e : Entry) : Entry :=
  { e with slots := Array.replicate e.slots.size (.raw 0), refCount := 1, live := true, marked := false }

/-- The object is gone, and its handles with it: the generation moves on. -/
def kill (e : Entry) : Entry :=
  { e with generation := e.generation + 1, refCount := 0, live := false }

end Entry

structure SizeClass where
  slots : Nat
  /-- The first index of the class's window. -/
  first : Nat
  /-- The indices of the entries that are not live; the head is handed out next. -/
  free : List UInt32
  /-- How many objects of the class are live. -/
  live : Nat
  deriving DecidableEq, Repr

namespace SizeClass

/-- The next index is handed out. -/
def take (c : SizeClass) : SizeClass := { c with free := c.free.tail, live := c.live + 1 }

/-- An index comes back. -/
def recycle (c : SizeClass) (i : UInt32) : SizeClass :=
  { c with free := i :: c.free, live := c.live - 1 }

end SizeClass

structure Heap where
  classes : Array SizeClass
  entries : Array Entry
  /-- The number of entries of every class. -/
  capacity : Nat
  /-- The indices of the objects somebody is inside. -/
  held : List UInt32
  deriving DecidableEq, Repr

namespace Heap

/-! ## Setting up -/

structure Config where
  /-- The number of slots of each class. -/
  sizeClasses : List Nat
  capacity : Nat := defaultCapacity
  deriving Repr

namespace Config

/-- The first length in the list that is not between 1 and `maxSlots`; the list starts at class `i`. -/
def badLength? (i : Nat) : List Nat → Option HeapError
  | [] => none
  | n :: rest => if n == 0 || maxSlots < n then some (.badLength i n) else badLength? (i + 1) rest

def check (c : Config) : Except HeapError Unit :=
  if c.sizeClasses.isEmpty then .error .noClasses
  else if c.capacity == 0 then .error .noCapacity
  else match badLength? 0 c.sizeClasses with
    | some e => .error e
    | none =>
      if maxObjects / c.sizeClasses.length < c.capacity then
        .error (.tooLarge c.sizeClasses.length c.capacity)
      else .ok ()

end Config

/-- The class at position `i`, with its whole window on the free list. -/
def newClass (capacity i slots : Nat) : SizeClass where
  slots := slots
  first := i * capacity
  free := (List.range' (i * capacity) capacity).map UInt32.ofNat
  live := 0

def build (c : Config) : Heap where
  classes := c.sizeClasses.toArray.mapIdx fun i n => newClass c.capacity i n
  entries := (c.sizeClasses.toArray.mapIdx fun i n =>
    Array.replicate c.capacity (Entry.fresh i n)).flatten
  capacity := c.capacity
  held := []

def ofConfig (c : Config) : Except HeapError Heap :=
  match c.check with
  | .error e => .error e
  | .ok () => .ok (build c)

/-! ## Views -/

def slotsAt (h : Heap) (i : UInt32) : Array Value :=
  ((h.entries[i.toNat]?).map (·.slots)).getD #[]

def generationAt (h : Heap) (i : UInt32) : UInt32 :=
  ((h.entries[i.toNat]?).map (·.generation)).getD 0

def refCountAt (h : Heap) (i : UInt32) : UInt32 :=
  ((h.entries[i.toNat]?).map (·.refCount)).getD 0

/-- The position of the class an index belongs to. -/
def classAt (h : Heap) (i : UInt32) : Nat :=
  ((h.entries[i.toNat]?).map (·.sizeClass.toNat)).getD 0

/-- The handle names a live object. -/
def isValid (h : Heap) (x : Handle) : Bool := h.entries[x.index.toNat]?.any (·.answers x)

def classCount (h : Heap) : Nat := h.classes.size

/-- How many objects are live. -/
def liveObjects (h : Heap) : Nat := h.classes.foldl (fun n c => n + c.live) 0

/-- A class by its position. -/
def sizeClass (h : Heap) (n : Nat) : Except HeapError SizeClass :=
  match h.classes[n]? with
  | some c => .ok c
  | none => .error (.unknownClass n)

def slotsOf (h : Heap) (n : Nat) : Except HeapError Nat := (h.sizeClass n).map (·.slots)

def capacityOf (h : Heap) (n : Nat) : Except HeapError Nat := (h.sizeClass n).map fun _ => h.capacity

def liveOf (h : Heap) (n : Nat) : Except HeapError Nat := (h.sizeClass n).map (·.live)

/-! ## Updates -/

def updateEntry (h : Heap) (i : UInt32) (f : Entry → Entry) : Heap :=
  { h with entries := h.entries.modify i.toNat f }

def updateClass (h : Heap) (n : Nat) (f : SizeClass → SizeClass) : Heap :=
  { h with classes := h.classes.modify n f }

/-- Takes the object at an index out of life and puts the index on its class's free list. -/
def retire (h : Heap) (i : UInt32) : Heap :=
  let n := h.classAt i
  (h.updateEntry i Entry.kill).updateClass n (·.recycle i)

end Heap

end StackVM
