/-
  StackVM.Proofs.Machine.HeapUse — what a machine does to the heap.

  A step makes at most one call of the heap, and which one can be told from the machine alone: from the
  instruction it is about to carry out and the topmost two values of its stack. `heapCall?` tells it, and
  `heap_step` says that the heap after the step is the heap after that call, whether or not the step ends in
  a fault.

  Most actions change the values on the stack or the register and nothing else. `Exec.keeps_instruction` says so once
  for whatever can be seen of a frame without looking at these: the heap, or the room there is on the stack.
-/

import StackVM.Machine.Step
import StackVM.Proofs.Heap.Change

namespace StackVM

namespace Stack

/-! ## References on the stack -/

/-- The reference at a distance from the top, if it is one. -/
def reference? (s : Stack) (distance : Nat) : Option Handle :=
  match s.peek distance with
  | some (.ref x) => some x
  | _ => none

theorem reference?_eq_some {s : Stack} {d : Nat} {x : Handle} :
    s.reference? d = some x ↔ s.peek d = some (.ref x) := by
  unfold reference?
  split
  next y h => rw [h]; simp
  next h => exact ⟨fun h' => absurd h' (Option.some_ne_none x).symm, fun h' => absurd h' (h x)⟩

theorem fst_pop (s : Stack) : s.pop.1 = s.peek 0 := by
  unfold pop peek
  split <;> rfl

theorem exists_toList_of_peek {s : Stack} {v : Value} (hv : s.peek 0 = some v) : ∃ l, s.toList = l ++ [v] := by
  rw [peek_eq, ← List.head?_eq_getElem?, List.head?_reverse] at hv
  exact List.getLast?_eq_some_iff.mp hv

theorem peek_of_toList {s : Stack} {l : List Value} {v : Value} (hl : s.toList = l ++ [v]) : s.peek 0 = some v := by
  rw [peek_eq, hl]; simp

theorem peek_pop {s : Stack} {v : Value} (hv : s.peek 0 = some v) (d : Nat) : s.pop.2.peek d = s.peek (d + 1) := by
  obtain ⟨l, hl⟩ := exists_toList_of_peek hv
  rw [peek_eq, peek_eq, (pop_of_toList hl).2, hl]
  simp

/-- What has been taken off leaves room for something else. -/
theorem room_pop {s : Stack} {l : List Value} {v : Value} (hl : s.toList = l ++ [v]) :
    s.pop.2.top < s.pop.2.capacity := by
  have htop : 0 < s.top := by rw [← length_toList, hl]; simp
  have hle := s.top_le
  simp only [pop, htop, dif_pos, capacity]
  omega

/-- Where there is a reference further down there is a value on top. -/
theorem exists_peek_of_reference? {s : Stack} {d : Nat} {x : Handle} (hx : s.reference? d = some x) :
    ∃ v, s.peek 0 = some v := by
  rw [reference?_eq_some, peek_eq] at hx
  have hd := (List.getElem?_eq_some_iff.mp hx).1
  rw [peek_eq]
  exact ⟨_, List.getElem?_eq_getElem (Nat.lt_of_le_of_lt (Nat.zero_le d) hd)⟩

/-! ## Room on the stack -/

theorem isFull_iff {s : Stack} : s.isFull = true ↔ s.top = s.capacity := beq_iff_eq

theorem lt_of_not_isFull {s : Stack} (hroom : s.isFull = false) : s.top < s.capacity :=
  Nat.lt_of_le_of_ne s.top_le fun htop => Bool.eq_false_iff.mp hroom (isFull_iff.mpr htop)

@[simp] theorem capacity_push (s : Stack) (v : Value) : (s.push v).2.capacity = s.capacity := by
  unfold push capacity
  split
  · simp
  · rfl

@[simp] theorem capacity_pop (s : Stack) : s.pop.2.capacity = s.capacity := by
  unfold pop
  split <;> rfl

@[simp] theorem capacity_swapTop (s : Stack) : s.swapTop.2.capacity = s.capacity := by
  unfold swapTop capacity
  split
  · simp
  · rfl

end Stack

/-- The instructions that work on objects. -/
def Opcode.onObjects : Opcode → Bool
  | alloc | prop | setProp | sizeOf | retain | release => true
  | _ => false

namespace Exec

/-! ## One action after another -/

theorem bind_of_ok {α β : Type} {act : Exec α} {k : α → Exec β} {f f' : Frame} {a : α} (h : act f = .ok a f') :
    (act >>= k) f = k a f' := by
  show EStateM.bind act k f = _
  rw [EStateM.bind, h]

theorem bind_of_error {α β : Type} {act : Exec α} {k : α → Exec β} {f f' : Frame} {c : Cause}
    (h : act f = .error c f') : (act >>= k) f = .error c f' := by
  show EStateM.bind act k f = _
  rw [EStateM.bind, h]

/-! ## What an action leaves alone -/

section

variable {α β γ : Type} {act : Exec α} {view : Frame → γ}

/-- The frame that an action leaves, whether it fails or not. -/
def frameAfter (act : Exec α) (f : Frame) : Frame :=
  match act f with
  | .ok _ f' => f'
  | .error _ f' => f'

/-- What is seen of the frame afterwards is what was seen before. -/
def Keeps (view : Frame → γ) (act : Exec α) : Prop := ∀ f, view (frameAfter act f) = view f

/-- What is seen has to do neither with the values on the stack nor with the register. -/
structure Coarse (view : Frame → γ) : Prop where
  stack : ∀ (f : Frame) (s : Stack), s.capacity = f.stack.capacity → view { f with stack := s } = view f
  r : ∀ (f : Frame) (v : Value), view { f with r := v } = view f

theorem frameAfter_of_ok {f f' : Frame} {a : α} (hx : act f = .ok a f') : frameAfter act f = f' := by
  rw [frameAfter, hx]

theorem frameAfter_of_error {f f' : Frame} {c : Cause} (hx : act f = .error c f') : frameAfter act f = f' := by
  rw [frameAfter, hx]

theorem Keeps.bind {k : α → Exec β} (hact : Keeps view act) (hk : ∀ a, Keeps view (k a)) :
    Keeps view (act >>= k) := by
  intro f
  have hfirst := hact f
  cases hx : act f with
  | ok a f' =>
    rw [frameAfter_of_ok hx] at hfirst
    rw [frameAfter, bind_of_ok hx]
    exact (hk a f').trans hfirst
  | error c f' =>
    rw [frameAfter_of_error hx] at hfirst
    rw [frameAfter_of_error (bind_of_error hx), hfirst]

theorem keeps_pure (a : α) : Keeps view (pure a : Exec α) := fun _ => rfl
theorem keeps_throw (c : Cause) : Keeps view (throw c : Exec α) := fun _ => rfl
theorem keeps_get : Keeps view (get : Exec Frame) := fun _ => rfl

theorem Keeps.andNext {act : Exec Unit} (hact : Keeps view act) : Keeps view (andNext act) :=
  hact.bind fun _ => keeps_pure _

theorem keeps_top (c : Cause) : Keeps view (top c) := by
  intro f
  unfold frameAfter top
  cases f.stack.peek 0 <;> rfl

theorem keeps_twoOperands (op : Opcode) : Keeps view (twoOperands op) := by
  intro f
  unfold frameAfter twoOperands
  by_cases htwo : f.stack.size < 2 <;> simp [htwo]

theorem keeps_room : Keeps view room := by
  intro f
  unfold frameAfter room
  by_cases hfull : f.stack.isFull <;> simp [hfull]

theorem keeps_jump (p : Program) (target : UInt64) : Keeps view (jump p target) := by
  unfold jump
  split
  · exact keeps_throw _
  · exact keeps_pure _

theorem keeps_onHeap (hheap : ∀ (f : Frame) h, view { f with heap := h } = view f) (cause : HeapError → Cause)
    (use : HeapM α) : Keeps view (onHeap cause use) := by
  intro f
  unfold frameAfter onHeap
  cases hx : use f.heap with
  | ok a h => simpa [hx] using hheap f h
  | error e h => simpa [hx] using hheap f h

section

variable (hview : Coarse view)
include hview

theorem keeps_setRegister (v : Value) : Keeps view (setRegister v) := fun f => hview.r f v

theorem keeps_clear : Keeps view clear := fun f => hview.stack f f.stack.clear rfl

theorem keeps_push (v : Value) : Keeps view (push v) := by
  intro f
  have hcap := Stack.capacity_push f.stack v
  unfold frameAfter push
  rcases hx : f.stack.push v with ⟨b, s⟩
  rw [hx] at hcap
  cases b <;> simpa [hx] using hview.stack f s hcap

theorem keeps_pop : Keeps view pop := by
  intro f
  have hcap := Stack.capacity_pop f.stack
  unfold frameAfter pop
  rcases hx : f.stack.pop with ⟨o, s⟩
  rw [hx] at hcap
  cases o <;> simpa [hx] using hview.stack f s hcap

theorem keeps_swapTop : Keeps view swapTop := by
  intro f
  have hcap := Stack.capacity_swapTop f.stack
  unfold frameAfter swapTop
  rcases hx : f.stack.swapTop with ⟨b, s⟩
  rw [hx] at hcap
  cases b <;> simpa [hx] using hview.stack f s hcap

theorem keeps_popRaw : Keeps view popRaw :=
  (keeps_pop hview).bind fun v => by
    cases v with
    | raw n => exact keeps_pure n
    | ref x => exact keeps_throw _

theorem keeps_popReference : Keeps view popReference :=
  (keeps_pop hview).bind fun v => by
    cases v with
    | raw n => exact keeps_throw _
    | ref x => exact keeps_pure x

theorem keeps_operator (op : Opcode) (apply : UInt64 → UInt64 → Option UInt64) : Keeps view (operator op apply) := by
  refine (keeps_twoOperands op).bind fun _ => (keeps_popRaw hview).bind fun b => (keeps_popRaw hview).bind fun a => ?_
  cases apply a b with
  | none => exact keeps_throw _
  | some v => exact keeps_push hview _

theorem keeps_pushInput (p : Program) (side : Side) (i : Nat) : Keeps view (pushInput p side i) := by
  unfold pushInput
  split
  · exact keeps_push hview _
  · exact keeps_throw _

theorem keeps_jumpIf (p : Program) (taken : UInt64 → Bool) (target : UInt64) : Keeps view (jumpIf p taken target) :=
  (keeps_popRaw hview).bind fun c => by
    cases taken c with
    | true => exact keeps_jump p target
    | false => exact keeps_pure _

/-- An operation on the object whose reference is on top. -/
theorem keeps_onTop (hheap : ∀ (f : Frame) h, view { f with heap := h } = view f) {cause : Handle → HeapError → Cause}
    {use : Handle → HeapM α} {k : α → Exec β} (hk : ∀ a, Keeps view (k a)) :
    Keeps view (popReference >>= fun x => onHeap (cause x) (use x) >>= k) :=
  (keeps_popReference hview).bind fun x => (keeps_onHeap hheap (cause x) (use x)).bind hk

/-- An instruction keeps what is seen if it does not work on objects or the heap is not seen either. -/
theorem keeps_instruction (p : Program) (i : Instruction)
    (hheap : i.op.onObjects = true → ∀ (f : Frame) h, view { f with heap := h } = view f) :
    Keeps view (instruction p i) := by
  rcases i with ⟨op, operand⟩
  cases op with
  | unreachable => exact keeps_throw _
  | noop | halt => exact keeps_pure _
  | jump => exact keeps_jump p _
  | jumpIfZero | jumpIfNotZero => exact keeps_jumpIf hview p _ _
  | pushInput side => exact (keeps_pushInput hview p side _).andNext
  | pushR => exact (keeps_get.bind fun f => keeps_push hview f.r).andNext
  | pop => exact ((keeps_pop hview).bind fun _ => keeps_pure _).andNext
  | popIntoR => exact ((keeps_pop hview).bind (keeps_setRegister hview)).andNext
  | dup => exact ((keeps_top _).bind (keeps_push hview)).andNext
  | swap => exact (keeps_swapTop hview).andNext
  | pushWord => exact (keeps_push hview _).andNext
  | clear => exact (keeps_clear hview).andNext
  | int op => exact (keeps_operator hview _ op.apply).andNext
  | float op => exact (keeps_operator hview _ op.apply).andNext
  | print => exact (keeps_top _).bind fun v => keeps_pure _
  | alloc =>
    exact (keeps_room.bind fun _ => (keeps_onHeap (hheap rfl) _ _).bind fun x => keeps_push hview _).andNext
  | prop => exact (keeps_onTop hview (hheap rfl) (keeps_push hview)).andNext
  | setProp =>
    exact ((keeps_pop hview).bind fun v => (keeps_popReference hview).bind fun x => keeps_onHeap (hheap rfl) _ _).andNext
  | sizeOf => exact (keeps_onTop hview (hheap rfl) fun n => keeps_push hview _).andNext
  | retain => exact ((keeps_popReference hview).bind fun x => keeps_onHeap (hheap rfl) _ _).andNext
  | release => exact (keeps_onTop hview (hheap rfl) fun _ => keeps_pure _).andNext

end

end

/-! ## The heap after an action -/

def heapAfter {α : Type} (act : Exec α) (f : Frame) : Heap :=
  match act f with
  | .ok _ f => f.heap
  | .error _ f => f.heap

/-- The action never touches the heap. -/
def Still {α : Type} (act : Exec α) : Prop := ∀ f, heapAfter act f = f.heap

theorem coarse_heap : Coarse Frame.heap := ⟨fun _ _ _ => rfl, fun _ _ => rfl⟩

theorem Keeps.still {α : Type} {act : Exec α} (hact : Keeps Frame.heap act) : Still act := by
  intro f
  have hf := hact f
  unfold frameAfter at hf
  unfold heapAfter
  cases hx : act f <;> simpa [hx] using hf

theorem still_push (v : Value) : Still (push v) := (keeps_push coarse_heap v).still

theorem still_pure {α : Type} (a : α) : Still (pure a : Exec α) := (keeps_pure a).still

theorem heapAfter_bind {α β : Type} (act : Exec α) (k : α → Exec β) (f : Frame) : heapAfter (act >>= k) f =
    match act f with
    | .ok a f' => heapAfter (k a) f'
    | .error _ f' => f'.heap := by
  unfold heapAfter
  cases h : act f with
  | ok a f' => rw [bind_of_ok h]
  | error c f' => rw [bind_of_error h]

/-! ## The instructions on objects -/

/-- What comes after a heap operation leaves the heap alone. -/
theorem heapAfter_onHeap {α β : Type} (cause : HeapError → Cause) (act : HeapM α) {k : α → Exec β}
    (hk : ∀ a, Still (k a)) (f : Frame) : heapAfter (onHeap cause act >>= k) f = Heap.after act f.heap := by
  rw [heapAfter_bind]
  unfold onHeap Heap.after
  rcases h : act f.heap with ⟨a, h'⟩ | ⟨e, h'⟩
  · simp only [h]; exact hk a _
  · simp only [h]

theorem pop_of_peek {f : Frame} {v : Value} (hv : f.stack.peek 0 = some v) :
    pop f = .ok v ⟨f.stack.pop.2, f.r, f.heap⟩ := by
  rw [← Stack.fst_pop] at hv
  unfold pop
  rcases h : f.stack.pop with ⟨o, s⟩
  rw [h] at hv
  simp only at hv
  subst hv
  simp [h]

/-- Taking a value off an empty stack fails. -/
theorem pop_of_peek_none {f : Frame} (hv : f.stack.peek 0 = none) :
    pop f = .error .stackUnderflow ⟨f.stack.pop.2, f.r, f.heap⟩ := by
  rw [← Stack.fst_pop] at hv
  unfold pop
  rcases h : f.stack.pop with ⟨o, s⟩
  rw [h] at hv
  simp only at hv
  subst hv
  simp [h]

/-- With room on the stack a push succeeds. -/
theorem push_of_room {f : Frame} (hroom : f.stack.top < f.stack.capacity) (v : Value) :
    push v f = .ok () ⟨(f.stack.push v).2, f.r, f.heap⟩ := by
  have hpush := (Stack.push_of_lt (v := v) hroom).1
  unfold push
  rcases hs : f.stack.push v with ⟨b, s⟩
  rw [hs] at hpush
  simp only at hpush
  subst hpush
  simp [hs]

theorem push_of_isFull {f : Frame} (hfull : f.stack.isFull = true) (v : Value) :
    push v f = .error (.stackOverflow f.stack.capacity) f := by
  rcases f with ⟨stack, r, heap⟩
  simp only [push, Stack.push_of_full (Stack.isFull_iff.mp hfull)]

theorem popReference_of_reference? {f : Frame} {x : Handle} (hx : f.stack.reference? 0 = some x) :
    popReference f = .ok x ⟨f.stack.pop.2, f.r, f.heap⟩ := by
  unfold popReference
  rw [bind_of_ok (pop_of_peek (Stack.reference?_eq_some.mp hx))]
  rfl

/-- Where no reference is on top, taking one fails. -/
theorem popReference_of_none {f : Frame} (hx : f.stack.reference? 0 = none) :
    ∃ c f', popReference f = .error c f' ∧ f'.heap = f.heap := by
  cases hv : f.stack.peek 0 with
  | none =>
    exact ⟨.stackUnderflow, ⟨f.stack.pop.2, f.r, f.heap⟩, bind_of_error (pop_of_peek_none hv), rfl⟩
  | some v =>
    cases v with
    | raw n =>
      exact ⟨.expectedReference (.raw n), ⟨f.stack.pop.2, f.r, f.heap⟩, bind_of_ok (pop_of_peek hv), rfl⟩
    | ref x => rw [Stack.reference?_eq_some.mpr hv] at hx; cases hx

/-- An action that takes a reference off the stack and uses it. -/
theorem heapAfter_popReference {α : Type} {k : Handle → Exec α} {use : Handle → Heap → Heap}
    (hk : ∀ x f, heapAfter (k x) f = use x f.heap) (f : Frame) :
    heapAfter (popReference >>= k) f = (f.stack.reference? 0).elim f.heap (use · f.heap) := by
  rw [heapAfter_bind]
  cases hx : f.stack.reference? 0 with
  | none =>
    obtain ⟨c, f', he, hf⟩ := popReference_of_none hx
    rw [he]; exact hf
  | some x => rw [popReference_of_reference? hx]; exact hk x _

theorem room_of_full {f : Frame} (hfull : f.stack.isFull = true) :
    room f = .error (.stackOverflow f.stack.capacity) f := if_pos hfull

theorem room_of_not_full {f : Frame} (hroom : f.stack.isFull = false) : room f = .ok () f :=
  if_neg (Bool.eq_false_iff.mp hroom)

theorem heapAfter_alloc (n : Nat) (f : Frame) :
    heapAfter (alloc n) f = if f.stack.isFull then f.heap else Heap.after (Heap.allocate n) f.heap := by
  rw [alloc, heapAfter_bind]
  cases hfull : f.stack.isFull with
  | true => rw [room_of_full hfull]; rfl
  | false => rw [room_of_not_full hfull]; exact heapAfter_onHeap _ _ (fun x => still_push _) f

theorem heapAfter_prop (slot : Nat) (f : Frame) : heapAfter (prop slot) f =
    (f.stack.reference? 0).elim f.heap fun x => Heap.after (Heap.readSlot x slot) f.heap :=
  heapAfter_popReference (fun _ f => heapAfter_onHeap _ _ (fun v => still_push v) f) f

theorem heapAfter_sizeOf (f : Frame) : heapAfter sizeOf f =
    (f.stack.reference? 0).elim f.heap fun x => Heap.after (Heap.sizeOf x) f.heap :=
  heapAfter_popReference (fun _ f => heapAfter_onHeap _ _ (fun _ => still_push _) f) f

theorem heapAfter_onlyHeap {α : Type} (cause : HeapError → Cause) (act : HeapM α) (f : Frame) :
    heapAfter (onHeap cause act) f = Heap.after act f.heap := by
  unfold heapAfter onHeap Heap.after
  rcases h : act f.heap with ⟨a, h'⟩ | ⟨e, h'⟩ <;> simp [h]

theorem heapAfter_retain (f : Frame) : heapAfter retain f =
    (f.stack.reference? 0).elim f.heap fun x => Heap.after (Heap.retain x) f.heap :=
  heapAfter_popReference (fun _ f => heapAfter_onlyHeap _ _ f) f

theorem heapAfter_release (f : Frame) : heapAfter release f =
    (f.stack.reference? 0).elim f.heap fun x => Heap.after (Heap.release x) f.heap :=
  heapAfter_popReference (fun _ f => heapAfter_onHeap _ _ (fun _ => still_pure _) f) f

theorem heapAfter_setProp (slot : Nat) (f : Frame) : heapAfter (setProp slot) f =
    (f.stack.reference? 1).elim f.heap fun x =>
      (f.stack.peek 0).elim f.heap fun v => Heap.after (Heap.writeSlot x slot v) f.heap := by
  rw [setProp, heapAfter_bind]
  cases hv : f.stack.peek 0 with
  | none =>
    have hx : f.stack.reference? 1 = none := by
      cases hx : f.stack.reference? 1 with
      | none => rfl
      | some x =>
        obtain ⟨v, hv'⟩ := Stack.exists_peek_of_reference? hx
        rw [hv] at hv'; cases hv'
    rw [hx, pop_of_peek_none hv]
    rfl
  | some v =>
    have hr : f.stack.pop.2.reference? 0 = f.stack.reference? 1 := by
      simp only [Stack.reference?, Stack.peek_pop hv]
    rw [pop_of_peek hv]
    show heapAfter (popReference >>= _) _ = _
    rw [heapAfter_popReference (fun x f => heapAfter_onlyHeap _ (Heap.writeSlot x slot v) f), hr]
    rfl

/-! ## Every instruction -/

/-- The call that an instruction makes on a stack. -/
def heapCall? (i : Instruction) (s : Stack) : Option Heap.Call :=
  match i.op with
  | .alloc => if s.isFull then none else some (.allocate i.operand.toNat)
  | .prop => (s.reference? 0).map (.read · i.operand.toNat)
  | .setProp => (s.reference? 1).bind fun x => (s.peek 0).map (.write x i.operand.toNat)
  | .sizeOf => (s.reference? 0).map .sizeOf
  | .retain => (s.reference? 0).map .retain
  | .release => (s.reference? 0).map .release
  | _ => none

/-- Only one instruction allocates. -/
theorem op_of_heapCall?_allocate {i : Instruction} {s : Stack} {n : Nat} (ha : heapCall? i s = some (.allocate n)) :
    i.op = .alloc := by
  rcases i with ⟨op, operand⟩
  cases op with
  | alloc => rfl
  | prop | sizeOf | retain | release =>
    obtain ⟨x, -, he⟩ := Option.map_eq_some_iff.mp ha
    cases he
  | setProp =>
    obtain ⟨x, -, hv⟩ := Option.bind_eq_some_iff.mp ha
    obtain ⟨v, -, he⟩ := Option.map_eq_some_iff.mp hv
    cases he
  | _ => cases ha

theorem heapAfter_andNext (act : Exec Unit) (f : Frame) : heapAfter (andNext act) f = heapAfter act f := by
  rw [andNext, heapAfter_bind]
  unfold heapAfter
  cases act f <;> rfl

theorem heapAfter_instruction (p : Program) (i : Instruction) (f : Frame) :
    heapAfter (instruction p i) f = (heapCall? i f.stack).elim f.heap (·.after f.heap) := by
  rcases i with ⟨op, operand⟩
  cases op with
  | alloc =>
    refine (heapAfter_andNext _ f).trans ((heapAfter_alloc _ f).trans ?_)
    simp only [heapCall?]
    cases f.stack.isFull <;> rfl
  | prop =>
    refine (heapAfter_andNext _ f).trans ((heapAfter_prop _ f).trans ?_)
    simp only [heapCall?]
    cases f.stack.reference? 0 <;> rfl
  | setProp =>
    refine (heapAfter_andNext _ f).trans ((heapAfter_setProp _ f).trans ?_)
    simp only [heapCall?]
    cases f.stack.reference? 1 with
    | none => rfl
    | some x => cases f.stack.peek 0 <;> rfl
  | sizeOf =>
    refine (heapAfter_andNext _ f).trans ((heapAfter_sizeOf f).trans ?_)
    simp only [heapCall?]
    cases f.stack.reference? 0 <;> rfl
  | retain =>
    refine (heapAfter_andNext _ f).trans ((heapAfter_retain f).trans ?_)
    simp only [heapCall?]
    cases f.stack.reference? 0 <;> rfl
  | release =>
    refine (heapAfter_andNext _ f).trans ((heapAfter_release f).trans ?_)
    simp only [heapCall?]
    cases f.stack.reference? 0 <;> rfl
  | _ => exact (keeps_instruction coarse_heap p _ fun hobject => by cases hobject).still f

end Exec

namespace Machine

/-! ## Every step -/

/-- The instruction that the next step carries out, if it comes to that. -/
def instruction? (m : Machine) : Option Instruction :=
  match m.status with
  | .running =>
    if m.stopRequested ∨ m.pc = m.program.code.size ∨ m.outOfBudget then none
    else (Instruction.decode m.program.code m.pc).toOption
  | _ => none

/-- The call that the next step makes. -/
def heapCall? (m : Machine) : Option Heap.Call := m.instruction?.bind (Exec.heapCall? · m.stack)

theorem step_of_instruction? {m : Machine} {i : Instruction} (hi : m.instruction? = some i) (h : Heap) :
    m.step h = m.perform i h := by
  unfold instruction? at hi
  unfold step
  cases hst : m.status with
  | running =>
    simp only [hst] at hi ⊢
    by_cases hends : m.stopRequested ∨ m.pc = m.program.code.size ∨ m.outOfBudget
    · rw [if_pos hends] at hi; cases hi
    · rw [if_neg hends] at hi
      rw [not_or, not_or] at hends
      rw [if_neg hends.1, if_neg hends.2.1, if_neg hends.2.2]
      cases hd : Instruction.decode m.program.code m.pc with
      | error e => rw [hd] at hi; cases hi
      | ok j => rw [hd] at hi; cases hi; rfl
  | halted | faulted c => simp only [hst] at hi; cases hi

/-- A step that carries out no instruction does nothing, halts or faults. -/
theorem step_of_no_instruction {m : Machine} (hi : m.instruction? = none) (h : Heap) :
    m.step h = (m, h, []) ∨ m.step h = (m.halt, h, []) ∨ ∃ c, m.step h = m.failing c h := by
  unfold instruction? at hi
  unfold step
  cases hst : m.status with
  | halted | faulted c => exact .inl rfl
  | running =>
    simp only [hst] at hi ⊢
    by_cases hstop : m.stopRequested = true
    · rw [if_pos hstop]
      exact .inr (.inr ⟨_, rfl⟩)
    by_cases hend : m.pc = m.program.code.size
    · rw [if_neg hstop, if_pos hend]
      exact .inr (.inl rfl)
    by_cases hbudget : m.outOfBudget = true
    · rw [if_neg hstop, if_neg hend, if_pos hbudget]
      exact .inr (.inr ⟨_, rfl⟩)
    rw [if_neg (by simp [hstop, hend, hbudget])] at hi
    rw [if_neg hstop, if_neg hend, if_neg hbudget]
    cases hd : Instruction.decode m.program.code m.pc with
    | ok i => rw [hd] at hi; cases hi
    | error e =>
      cases e with
      | endOfCode => exact .inr (.inl rfl)
      | illegalOpcode b | truncated op => exact .inr (.inr ⟨_, rfl⟩)

theorem heap_step_of_none {m : Machine} (hi : m.instruction? = none) (h : Heap) : (m.step h).2.1 = h := by
  rcases step_of_no_instruction hi h with hs | hs | ⟨c, hs⟩ <;> rw [hs]
  rfl

theorem heap_perform (m : Machine) (i : Instruction) (h : Heap) :
    (m.perform i h).2.1 = Exec.heapAfter (Exec.instruction m.program i) ⟨m.stack, m.r, h⟩ := by
  rcases m with ⟨program, settings, stack, r, pc, steps, status, offset, stopRequested⟩
  simp only [perform, Exec.heapAfter]
  rcases hx : Exec.instruction program i ⟨stack, r, h⟩ with ⟨flow, f⟩ | ⟨c, f⟩
  · rfl
  · rfl

/-- The heap after a step is the heap after the call that the step makes. -/
theorem heap_step (m : Machine) (h : Heap) : (m.step h).2.1 = m.heapCall?.elim h (·.after h) := by
  cases hi : m.instruction? with
  | none => rw [heap_step_of_none hi, heapCall?, hi]; rfl
  | some i =>
    rw [step_of_instruction? hi, heap_perform, Exec.heapAfter_instruction, heapCall?, hi]
    rfl

end Machine

end StackVM
