/-
  StackVM.Stack — the operand stack.

  A stack has a fixed capacity. Its cells are all there from the start and an index marks the top; what
  lies above the top is left over from earlier pops and never shows. `toList` is what is on the stack,
  bottom first. A push on a full stack and a pop, peek or swap that finds too little fail and change
  nothing.
-/

import StackVM.Value

namespace StackVM

structure Stack where
  cells : Array Value
  top : Nat
  top_le : top ≤ cells.size

namespace Stack

/-- The largest capacity a stack may be given. -/
def maxCapacity : Nat := 1 <<< 24

def defaultCapacity : Nat := 1024

structure CapacityError where
  capacity : Nat
  deriving DecidableEq, Repr

def CapacityError.message (e : CapacityError) : String :=
  s!"stack capacity {e.capacity} exceeds {maxCapacity}"

/-- An empty stack. -/
def empty (capacity : Nat) : Stack := ⟨Array.replicate capacity (.raw 0), 0, Nat.zero_le _⟩

def create (capacity : Nat) : Except CapacityError Stack :=
  if maxCapacity < capacity then .error ⟨capacity⟩ else .ok (empty capacity)

/-! ## Views -/

def size (s : Stack) : Nat := s.top

def capacity (s : Stack) : Nat := s.cells.size

def isEmpty (s : Stack) : Bool := s.top == 0

def isFull (s : Stack) : Bool := s.top == s.cells.size

/-- The values on the stack, bottom first. -/
def toList (s : Stack) : List Value := (s.cells.extract 0 s.top).toList

/-! ## Operations -/

/-- Puts a value on top, unless the stack is full; tells which. -/
def push (s : Stack) (v : Value) : Bool × Stack :=
  if h : s.top < s.cells.size then
    (true, ⟨s.cells.set s.top v, s.top + 1, by simp only [Array.size_set]; exact h⟩)
  else (false, s)

/-- Takes the topmost value, if there is one. -/
def pop (s : Stack) : Option Value × Stack :=
  if h : 0 < s.top then
    have below : s.top - 1 < s.cells.size := by have := s.top_le; omega
    (some s.cells[s.top - 1], ⟨s.cells, s.top - 1, Nat.le_of_lt below⟩)
  else (none, s)

/-- The value at a distance from the top, which is at distance zero. -/
def peek (s : Stack) (distance : Nat) : Option Value :=
  if h : distance < s.top then
    have below : s.top - 1 - distance < s.cells.size := by have := s.top_le; omega
    some s.cells[s.top - 1 - distance]
  else none

/-- Exchanges the two topmost values, unless there are fewer; tells which. -/
def swapTop (s : Stack) : Bool × Stack :=
  if h : 2 ≤ s.top then
    (true, ⟨s.cells.swap (s.top - 1) (s.top - 2) (by have := s.top_le; omega)
        (by have := s.top_le; omega), s.top, by simpa using s.top_le⟩)
  else (false, s)

def clear (s : Stack) : Stack := ⟨s.cells, 0, Nat.zero_le _⟩

/-! ## Operations seen on the list -/

theorem toList_eq_take (s : Stack) : s.toList = s.cells.toList.take s.top := by
  simp [toList]

@[simp] theorem length_toList (s : Stack) : s.toList.length = s.top := by
  simp [toList_eq_take, s.top_le]

@[simp] theorem toList_empty (n : Nat) : (empty n).toList = [] := by
  simp [toList_eq_take, empty]

@[simp] theorem toList_clear (s : Stack) : s.clear.toList = [] := by
  simp [toList_eq_take, clear]

theorem push_of_lt {s : Stack} {v : Value} (h : s.top < s.capacity) :
    (s.push v).1 = true ∧ (s.push v).2.toList = s.toList ++ [v] := by
  have below : s.top < s.cells.size := h
  refine ⟨by simp [push, below], ?_⟩
  simp only [push, below, dif_pos, toList_eq_take, Array.toList_set]
  rw [List.take_add_one, List.take_set_of_le (Nat.le_refl _), List.getElem?_set_self (by simpa using below)]
  rfl

theorem push_of_full {s : Stack} {v : Value} (h : s.top = s.capacity) : s.push v = (false, s) := by
  have : ¬ s.top < s.cells.size := by rw [h]; exact Nat.lt_irrefl _
  simp [push, this]

theorem pop_of_toList {s : Stack} {l : List Value} {v : Value} (h : s.toList = l ++ [v]) :
    s.pop.1 = some v ∧ s.pop.2.toList = l := by
  have size : s.top = l.length + 1 := by rw [← length_toList, h]; simp
  have below : l.length < s.cells.size := by have := s.top_le; omega
  rw [toList_eq_take, size, List.take_add_one] at h
  simp only [Array.getElem?_toList, Array.getElem?_eq_getElem below, Option.toList_some] at h
  have both := List.append_inj' h rfl
  constructor
  · simpa [pop, size] using both.2
  · simpa [pop, size, toList_eq_take] using both.1

theorem pop_of_empty {s : Stack} (h : s.top = 0) : s.pop = (none, s) := by
  simp [pop, h]

theorem peek_eq (s : Stack) (d : Nat) : s.peek d = s.toList.reverse[d]? := by
  unfold peek
  split
  next h =>
    have below : s.top - 1 - d < s.cells.size := by have := s.top_le; omega
    rw [List.getElem?_reverse (by simpa using h), length_toList, toList_eq_take,
      List.getElem?_take_of_lt (by omega), Array.getElem?_toList, Array.getElem?_eq_getElem below]
  next h => rw [List.getElem?_eq_none (by simpa using h)]

end Stack

end StackVM
