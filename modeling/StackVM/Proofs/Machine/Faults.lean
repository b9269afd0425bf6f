/-
  StackVM.Proofs.Machine.Faults — what a fault leaves behind.

  An instruction takes its operands off the stack and only then finds out whether it can go on, and it may have
  to ask the heap. `Less n f f'` says that of a frame nothing is gone but at most `n` values from the top of the
  stack. An action `Takes blame n` if that is all it ever does, and `Fails blame n` if that is so whenever it fails;
  what has changed the heap comes last, or is followed by what cannot fail. `blame` is what has to hold for the code
  to be to blame for the failure: a jump past its end, for one.

  - `Exec.fails_instruction`: an instruction that fails has taken at most the operands it reads.
  - `Machine.faulting_step`: a step that ends in a fault leaves the world intact.
-/

import StackVM.Proofs.Machine.Step

namespace StackVM

/-- A fault that the code is to blame for: no instruction to decode, or a place past the end. -/
def Fault.ofCode : Fault → Bool
  | illegalInstruction | unexpectedEndOfCode | invalidJump => true
  | _ => false

/-- A use of a handle that is refused fails as the heap's error says. -/
theorem Cause.fault_ofHandleUse (x : Handle) (e : HeapError) : (ofHandleUse x e).fault = e.fault := by
  cases e <;> rfl

/-- An allocation that is refused fails because of its class, or it counts as one for which there is no memory. -/
theorem Cause.fault_ofAllocation (e : HeapError) :
    (ofAllocation e).fault = if e.status = .invalidSizeClass then .invalidSizeClass else .outOfMemory := by
  cases e <;> rfl

/-! ## Heap operations that fail -/

namespace Heap

/-- An operation that fails leaves the heap as it was. -/
def Restores {α : Type} (act : HeapM α) : Prop := ∀ h e h', act h = .error e h' → h' = h

theorem restores_of_total {α : Type} {act : HeapM α} (hact : ∀ h, ∃ a h', act h = .ok a h') : Restores act := by
  intro h e h' he
  obtain ⟨a, h₁, ha⟩ := hact h
  rw [ha] at he
  cases he

theorem restores_readAt (i : UInt32) (slot : Nat) : Restores (readAt i slot) := by
  intro h e h' he
  unfold readAt at he
  split at he
  · cases he
  · cases he; rfl

theorem restores_writeAt (i : UInt32) (slot : Nat) (v : Value) : Restores (writeAt i slot v) := by
  intro h e h' he
  unfold writeAt at he
  split at he
  · cases he
  · cases he; rfl

theorem restores_allocate (n : Nat) : Restores (allocate n) := by
  intro h e h' he
  rcases allocate_cases (h := h) n with ⟨k, i, rest, -, -, ha⟩ | ⟨k, -, -, ha⟩ | ⟨-, ha⟩
  all_goals rw [ha] at he; cases he
  · rfl
  · rfl

/-- A failed check changes nothing. -/
theorem Restores.check {α : Type} {x : Handle} {k : Unit → HeapM α} (hk : Restores (k ())) :
    Restores (check x >>= k) := by
  intro h e h' he
  cases hx : h.isValid x with
  | true => rw [bind_check_of_valid hx] at he; exact hk h e h' he
  | false =>
    rw [bind_check_of_not_valid hx] at he
    cases he
    rfl

theorem restores_readSlot (x : Handle) (slot : Nat) : Restores (readSlot x slot) :=
  (restores_readAt x.index slot).check

theorem restores_writeSlot (x : Handle) (slot : Nat) (v : Value) : Restores (writeSlot x slot v) :=
  (restores_writeAt x.index slot v).check

theorem restores_sizeOf (x : Handle) : Restores (sizeOf x) :=
  Restores.check (restores_of_total fun _ => ⟨_, _, rfl⟩)

theorem restores_retain (x : Handle) : Restores (retain x) :=
  Restores.check (restores_of_total fun _ => ⟨_, _, rfl⟩)

theorem restores_release (x : Handle) : Restores (release x) :=
  Restores.check (restores_of_total fun _ => ⟨_, _, rfl⟩)

/-- An operation that only looks. -/
def Looks {α : Type} (act : HeapM α) : Prop := ∀ h, after act h = h

theorem looks_readSlot (x : Handle) (slot : Nat) : Looks (readSlot x slot) := by
  intro h
  cases hx : h.isValid x with
  | true => exact (after_given_of_valid hx _).1.trans (after_readAt _ _)
  | false => exact (after_given_of_not_valid hx _).1

theorem looks_sizeOf (x : Handle) : Looks (sizeOf x) := by
  intro h
  cases hx : h.isValid x with
  | true => exact (after_given_of_valid hx _).1
  | false => exact (after_given_of_not_valid hx _).1

end Heap

/-! ## Frames with less on the stack -/

/-- How many values from the top of the stack an instruction works with. -/
def Opcode.reads : Opcode → Nat
  | int _ | float _ | setProp | swap => 2
  | jumpIfZero | jumpIfNotZero | pop | popIntoR | dup | prop | sizeOf | retain | release | print => 1
  | _ => 0

theorem Opcode.reads_le_two (op : Opcode) : op.reads ≤ 2 := by
  unfold reads
  split <;> decide

namespace Frame

/-- Nothing is gone but at most `n` values from the top of the stack. -/
structure Less (n : Nat) (f f' : Frame) : Prop where
  heap : f'.heap = f.heap
  r : f'.r = f.r
  stack : ∃ taken, f.stack.toList = f'.stack.toList ++ taken ∧ taken.length ≤ n

variable {f f' f'' : Frame} {n k : Nat}

theorem Less.refl (f : Frame) : Less 0 f f := ⟨rfl, rfl, [], by simp⟩

theorem Less.mono (h : Less n f f') (hn : n ≤ k) : Less k f f' := by
  obtain ⟨taken, hlist, hlen⟩ := h.stack
  exact ⟨h.heap, h.r, taken, hlist, Nat.le_trans hlen hn⟩

theorem Less.trans (h : Less n f f') (h' : Less k f' f'') : Less (n + k) f f'' := by
  obtain ⟨taken, hlist, hlen⟩ := h.stack
  obtain ⟨taken', hlist', hlen'⟩ := h'.stack
  refine ⟨h'.heap.trans h.heap, h'.r.trans h.r, taken' ++ taken, ?_, ?_⟩
  · rw [hlist, hlist', List.append_assoc]
  · rw [List.length_append]; omega

end Frame

namespace Exec

open StackVM.Frame

variable {α β : Type} {act : Exec α} {k : α → Exec β} {n j : Nat} {blame : Prop}

/-! ## Actions that take and actions that fail -/

/-- When the action fails, at most `n` values are gone from the stack, and nothing else, and the code is to blame only
if `blame` holds. -/
def Fails (blame : Prop) (n : Nat) (act : Exec α) : Prop :=
  ∀ f c f', act f = .error c f' → Less n f f' ∧ (c.fault.ofCode = true → blame)

/-- The action takes at most `n` values off the stack and does nothing else, whether or not it fails. -/
structure Takes (blame : Prop) (n : Nat) (act : Exec α) : Prop where
  ok : ∀ f a f', act f = .ok a f' → Less n f f'
  fails : Fails blame n act

/-- The action does not fail. -/
def Sure (act : Exec α) : Prop := ∀ f, ∃ a f', act f = .ok a f'

/-- The code is not to blame for most causes. -/
theorem blameless {c : Cause} (hc : c.fault.ofCode = false) : c.fault.ofCode = true → blame :=
  fun h => absurd (hc.symm.trans h) Bool.false_ne_true

theorem Fails.mono (h : Fails blame n act) (hn : n ≤ j) : Fails blame j act :=
  fun f c f' he => ⟨(h f c f' he).1.mono hn, (h f c f' he).2⟩

theorem Fails.imp {blame' : Prop} (h : Fails blame n act) (hb : blame → blame') : Fails blame' n act :=
  fun f c f' he => ⟨(h f c f' he).1, fun hc => hb ((h f c f' he).2 hc)⟩

theorem Sure.fails (h : Sure act) : Fails blame n act := by
  intro f c f' he
  obtain ⟨a, g, ha⟩ := h f
  rw [ha] at he
  cases he

theorem Takes.bind_fails (h : Takes blame n act) (hk : ∀ a, Fails blame j (k a)) : Fails blame (n + j) (act >>= k) := by
  intro f c f' he
  cases hx : act f with
  | ok a g =>
    rw [bind_of_ok hx] at he
    obtain ⟨hless, hblame⟩ := hk a g c f' he
    exact ⟨(h.ok f a g hx).trans hless, hblame⟩
  | error c' g => rw [bind_of_error hx] at he; cases he; exact h.fails.mono (Nat.le_add_right n j) _ _ _ hx

theorem Takes.bind (h : Takes blame n act) (hk : ∀ a, Takes blame j (k a)) : Takes blame (n + j) (act >>= k) where
  ok := by
    intro f a f' he
    cases hx : act f with
    | ok b g => rw [bind_of_ok hx] at he; exact (h.ok f b g hx).trans ((hk b).ok g a f' he)
    | error c g => rw [bind_of_error hx] at he; cases he
  fails := h.bind_fails fun a => (hk a).fails

/-- What cannot fail may follow what has changed the heap. -/
theorem Fails.bind_sure (h : Fails blame n act) (hk : ∀ a, Sure (k a)) : Fails blame n (act >>= k) := by
  intro f c f' he
  cases hx : act f with
  | ok a g =>
    obtain ⟨b, g', hb⟩ := hk a g
    rw [bind_of_ok hx, hb] at he
    cases he
  | error c' g => rw [bind_of_error hx] at he; cases he; exact h _ _ _ hx

theorem Fails.andNext {act : Exec Unit} (h : Fails blame n act) : Fails blame n (andNext act) :=
  h.bind_sure fun _ f => ⟨.next, f, rfl⟩

theorem sure_setRegister (v : Value) : Sure (setRegister v) := fun _ => ⟨_, _, rfl⟩

theorem takes_pure (a : α) : Takes blame 0 (pure a : Exec α) where
  ok := by intro f b f' he; cases he; exact Less.refl f
  fails := by intro f c f' he; cases he

theorem takes_throw {c : Cause} (hc : c.fault.ofCode = false) : Takes blame 0 (throw c : Exec α) where
  ok := by intro f a f' he; cases he
  fails := by intro f c' f' he; cases he; exact ⟨Less.refl f, blameless hc⟩

/-! ## The stack -/

theorem takes_pop : Takes blame 1 pop := by
  have hless : ∀ f : Frame, Less 1 f ⟨f.stack.pop.2, f.r, f.heap⟩ := by
    intro f
    refine ⟨rfl, rfl, ?_⟩
    cases hv : f.stack.peek 0 with
    | none =>
      have htop : f.stack.top = 0 := by
        unfold Stack.peek at hv
        split at hv
        · cases hv
        · omega
      exact ⟨[], by simp [Stack.pop_of_empty htop]⟩
    | some v =>
      obtain ⟨l, hl⟩ := Stack.exists_toList_of_peek hv
      exact ⟨[v], by rw [(Stack.pop_of_toList hl).2, hl], Nat.le_refl 1⟩
  constructor
  · intro f v f' he
    cases hv : f.stack.peek 0 with
    | none => rw [pop_of_peek_none hv] at he; cases he
    | some w => rw [pop_of_peek hv] at he; cases he; exact hless f
  · intro f c f' he
    cases hv : f.stack.peek 0 with
    | none => rw [pop_of_peek_none hv] at he; cases he; exact ⟨hless f, blameless rfl⟩
    | some w => rw [pop_of_peek hv] at he; cases he

theorem takes_popRaw : Takes blame 1 popRaw :=
  takes_pop.bind (j := 0) fun v => by cases v with
    | raw bits => exact takes_pure bits
    | ref x => exact takes_throw rfl

theorem takes_popReference : Takes blame 1 popReference :=
  takes_pop.bind (j := 0) fun v => by cases v with
    | raw bits => exact takes_throw rfl
    | ref x => exact takes_pure x

theorem takes_top {c : Cause} (hc : c.fault.ofCode = false) : Takes blame 0 (top c) := by
  constructor
  · intro f v f' he
    unfold top at he
    split at he
    · cases he; exact Less.refl f
    · cases he
  · intro f c' f' he
    unfold top at he
    split at he
    · cases he
    · cases he; exact ⟨Less.refl f, blameless hc⟩

theorem takes_twoOperands (op : Opcode) : Takes blame 0 (twoOperands op) := by
  constructor
  · intro f v f' he
    unfold twoOperands at he
    split at he
    · cases he
    · cases he; exact Less.refl f
  · intro f c f' he
    unfold twoOperands at he
    split at he
    · cases he; exact ⟨Less.refl f, blameless rfl⟩
    · cases he

/-- A push that fails has found the stack full. -/
theorem push_of_error {v : Value} {f f' : Frame} {c : Cause} (he : push v f = .error c f') :
    f.stack.isFull = true ∧ f' = f ∧ c = .stackOverflow f.stack.capacity := by
  cases hfull : f.stack.isFull with
  | true =>
    rw [push_of_isFull hfull] at he
    cases he
    exact ⟨rfl, rfl, rfl⟩
  | false =>
    rw [push_of_room (Stack.lt_of_not_isFull hfull)] at he
    cases he

theorem fails_push (v : Value) : Fails blame 0 (push v) := by
  intro f c f' he
  obtain ⟨-, rfl, rfl⟩ := push_of_error he
  exact ⟨Less.refl _, blameless rfl⟩

theorem fails_swapTop : Fails blame 0 swapTop := by
  intro f c f' he
  rcases f with ⟨stack, r, heap⟩
  unfold swapTop Stack.swapTop at he
  by_cases htwo : 2 ≤ stack.top
  · simp [htwo] at he
  · simp only [htwo, dif_neg, not_false_iff] at he
    cases he
    exact ⟨Less.refl _, blameless rfl⟩

/-! ## Operators, inputs, jumps -/

theorem fails_operator (op : Opcode) (apply : UInt64 → UInt64 → Option UInt64) : Fails blame 2 (operator op apply) := by
  refine (takes_twoOperands op).bind_fails (j := 2) fun _ => takes_popRaw.bind_fails (j := 1) fun b =>
    takes_popRaw.bind_fails (j := 0) fun a => ?_
  cases apply a b with
  | none => exact (takes_throw rfl).fails
  | some v => exact fails_push _

theorem fails_pushInput (p : Program) (side : Side) (i : Nat) : Fails blame 0 (pushInput p side i) := by
  unfold pushInput
  split
  · exact fails_push _
  · exact (takes_throw rfl).fails

/-- Only here can the code be to blame. -/
theorem fails_jump (p : Program) (target : UInt64) : Fails (p.code.size < target.toNat) 0 (jump p target) := by
  intro f c f' he
  unfold jump at he
  split at he
  next hpast => cases he; exact ⟨Less.refl f, fun _ => hpast⟩
  next => cases he

theorem fails_jumpIf (p : Program) (taken : UInt64 → Bool) (target : UInt64) :
    Fails (p.code.size < target.toNat) 1 (jumpIf p taken target) :=
  takes_popRaw.bind_fails (j := 0) fun c => by
    cases taken c with
    | true => exact fails_jump p target
    | false => exact (takes_pure _).fails

/-! ## Objects -/

theorem onHeap_of_error {cause : HeapError → Cause} {act : HeapM α} {f f' : Frame} {c : Cause}
    (he : onHeap cause act f = .error c f') :
    ∃ e h', act f.heap = .error e h' ∧ c = cause e ∧ f' = ⟨f.stack, f.r, h'⟩ := by
  unfold onHeap at he
  rcases hx : act f.heap with ⟨a, h'⟩ | ⟨e, h'⟩
  · simp only [hx] at he; cases he
  · simp only [hx] at he; cases he; exact ⟨e, h', rfl, rfl, rfl⟩

theorem onHeap_of_ok {cause : HeapError → Cause} {act : HeapM α} {f f' : Frame} {a : α}
    (he : onHeap cause act f = .ok a f') : f' = ⟨f.stack, f.r, Heap.after act f.heap⟩ := by
  unfold onHeap at he
  unfold Heap.after
  rcases hx : act f.heap with ⟨b, h'⟩ | ⟨e, h'⟩
  · simp only [hx] at he; cases he; rfl
  · simp only [hx] at he; cases he

theorem fails_onHeap {cause : HeapError → Cause} (hc : ∀ e, (cause e).fault.ofCode = false) {act : HeapM α}
    (hact : Heap.Restores act) : Fails blame 0 (onHeap cause act) := by
  intro f c f' he
  obtain ⟨e, h', hx, rfl, rfl⟩ := onHeap_of_error he
  rw [hact f.heap e h' hx]
  exact ⟨Less.refl f, blameless (hc e)⟩

theorem ofCode_ofHandleUse (x : Handle) (e : HeapError) : (Cause.ofHandleUse x e).fault.ofCode = false := by
  rw [Cause.fault_ofHandleUse]
  cases e <;> rfl

theorem ofCode_ofAllocation (e : HeapError) : (Cause.ofAllocation e).fault.ofCode = false := by
  rw [Cause.fault_ofAllocation]
  split <;> rfl

/-- The use of a handle. -/
theorem fails_onHandle (x : Handle) {act : HeapM α} (hact : Heap.Restores act) :
    Fails blame 0 (onHeap (Cause.ofHandleUse x) act) := fails_onHeap (ofCode_ofHandleUse x) hact

/-- An operation that only looks may be followed by what fails. -/
theorem takes_onHandle (x : Handle) {act : HeapM α} (hact : Heap.Restores act) (hlook : Heap.Looks act) :
    Takes blame 0 (onHeap (Cause.ofHandleUse x) act) where
  ok := by
    intro f a f' he
    rw [onHeap_of_ok he, hlook]
    exact Less.refl f
  fails := fails_onHandle x hact

/-- There is room for what has been allocated. -/
theorem fails_alloc (n : Nat) : Fails blame 0 (alloc n) := by
  intro f c f' he
  unfold alloc at he
  cases hfull : f.stack.isFull with
  | true =>
    rw [bind_of_error (room_of_full hfull)] at he
    cases he
    exact ⟨Less.refl f, blameless rfl⟩
  | false =>
    rw [bind_of_ok (room_of_not_full hfull)] at he
    cases hx : onHeap Cause.ofAllocation (Heap.allocate n) f with
    | error c' g =>
      rw [bind_of_error hx] at he
      cases he
      exact fails_onHeap ofCode_ofAllocation (Heap.restores_allocate n) f _ _ hx
    | ok x g =>
      rw [bind_of_ok hx] at he
      have hg := (push_of_error he).1
      rw [onHeap_of_ok hx, hfull] at hg
      cases hg

theorem fails_prop (slot : Nat) : Fails blame 1 (prop slot) :=
  takes_popReference.bind_fails (j := 0) fun x =>
    (takes_onHandle x (Heap.restores_readSlot x slot) (Heap.looks_readSlot x slot)).bind_fails (j := 0) fun v => fails_push v

theorem fails_setProp (slot : Nat) : Fails blame 2 (setProp slot) :=
  takes_pop.bind_fails (j := 1) fun v => takes_popReference.bind_fails (j := 0) fun x =>
    fails_onHandle x (Heap.restores_writeSlot x slot v)

theorem fails_sizeOf : Fails blame 1 sizeOf :=
  takes_popReference.bind_fails (j := 0) fun x =>
    (takes_onHandle x (Heap.restores_sizeOf x) (Heap.looks_sizeOf x)).bind_fails (j := 0) fun _ => fails_push _

theorem fails_retain : Fails blame 1 retain :=
  takes_popReference.bind_fails (j := 0) fun x => fails_onHandle x (Heap.restores_retain x)

theorem fails_release : Fails blame 1 release :=
  takes_popReference.bind_fails (j := 0) fun x =>
    (fails_onHandle x (Heap.restores_release x)).bind_sure fun _ f => ⟨(), f, rfl⟩

/-! ## Every instruction -/

/-- A failing instruction has taken at most the operands it reads, and the code is to blame only for a jump past its
end. -/
theorem fails_instruction (p : Program) (i : Instruction) :
    Fails (i.op.operandWidth = 4 ∧ p.code.size < i.operand.toNat) i.op.reads (instruction p i) := by
  rcases i with ⟨op, operand⟩
  cases op with
  | unreachable => exact (takes_throw rfl).fails
  | noop | halt => exact (takes_pure _).fails
  | jump => exact (fails_jump p operand).imp fun h => ⟨rfl, h⟩
  | jumpIfZero | jumpIfNotZero => exact (fails_jumpIf p _ operand).imp fun h => ⟨rfl, h⟩
  | pushInput side => exact (fails_pushInput p side _).andNext
  | pushR => exact Fails.andNext fun f => fails_push f.r f
  | pop => exact (takes_pop.fails.bind_sure fun _ f => ⟨(), f, rfl⟩).andNext
  | popIntoR => exact (takes_pop.fails.bind_sure fun v => sure_setRegister v).andNext
  | dup => exact (((takes_top rfl).bind_fails (j := 0) fun v => fails_push v).mono (Nat.zero_le 1)).andNext
  | swap => exact (fails_swapTop.mono (Nat.zero_le 2)).andNext
  | pushWord => exact (fails_push _).andNext
  | clear => exact Fails.andNext (Sure.fails fun _ => ⟨_, _, rfl⟩)
  | int op | float op => exact (fails_operator _ _).andNext
  | alloc => exact (fails_alloc _).andNext
  | prop => exact (fails_prop _).andNext
  | setProp => exact (fails_setProp _).andNext
  | sizeOf => exact fails_sizeOf.andNext
  | retain => exact fails_retain.andNext
  | release => exact fails_release.andNext
  | print => exact ((takes_top rfl).bind_fails (j := 0) fun v => (takes_pure _).fails).mono (Nat.zero_le 1)

end Exec

namespace Machine

/-- How many values the next instruction works with. -/
def reads (m : Machine) : Nat := m.instruction?.elim 0 (·.op.reads)

/-- Of a machine and its heap nothing is gone but operands of the instruction at which it stands. -/
structure Intact (m : Machine) (h : Heap) (m' : Machine) (h' : Heap) : Prop where
  heap : h' = h
  r : m'.r = m.r
  pc : m'.pc = m.pc
  offset : m'.offset = m.pc
  /-- Bottom first, the stack is a prefix of what it was. -/
  stack : ∃ taken, m.stack.toList = m'.stack.toList ++ taken ∧ taken.length ≤ m.reads

theorem intact_fail (m : Machine) (h : Heap) (c : Cause) : Intact m h (m.fail c) h :=
  ⟨rfl, rfl, rfl, rfl, [], by simp [fail]⟩

theorem Stepped.intact {m m' : Machine} {h h' : Heap} (hs : Stepped m h m' h') (hrun : m.status = .running) {c : Cause}
    (hf : m'.status = .faulted c) : Intact m h m' h' := by
  cases hs with
  | finished hdone => exact absurd hrun hdone
  | ended => cases hf
  | cancelled | exhausted => exact intact_fail m h _
  | @stumbled e =>
    cases e with
    | endOfCode => cases hf
    | illegalOpcode b => exact intact_fail m h _
    | truncated op => exact intact_fail m h _
  | @performed i flow f hi hx =>
    rw [status_follow, counting, hrun] at hf
    split at hf <;> cases hf
  | @faulted i c' f hi hx =>
    obtain ⟨hless, -⟩ := Exec.fails_instruction m.program i _ _ _ hx
    obtain ⟨taken, hlist, hlen⟩ := hless.stack
    exact ⟨hless.heap, hless.r, rfl, rfl, taken, hlist, by simpa [reads, hi] using hlen⟩

/-- An allocation that finds the stack full comes to a fault before the heap is asked. -/
theorem step_alloc_of_full {m : Machine} {i : Instruction} (hi : m.instruction? = some i) (hop : i.op = .alloc)
    (hfull : m.stack.isFull = true) (h : Heap) :
    (m.step h).1.status = .faulted (.stackOverflow m.stack.capacity) ∧ (m.step h).2.1 = h := by
  have hx : Exec.instruction m.program i (m.frame h) = .error (.stackOverflow m.stack.capacity) (m.frame h) := by
    simp only [Exec.instruction, hop]
    exact Exec.bind_of_error (Exec.bind_of_error (Exec.room_of_full hfull))
  rw [step_of_instruction? hi, perform_of_error hx]
  exact ⟨rfl, rfl⟩

/-- A step that ends in a fault leaves heap, register and program counter as they were, tells where it happened, and
takes nothing off the stack but operands, of which there are two at most. An allocation on a full stack is such a
step. -/
theorem faulting_step {m : Machine} (hrun : m.status = .running) (h : Heap) :
    (∀ c, (m.step h).1.status = .faulted c → Intact m h (m.step h).1 (m.step h).2.1) ∧ m.reads ≤ 2 ∧
      ∀ i, m.instruction? = some i → i.op = .alloc → m.stack.isFull = true →
        (m.step h).1.status = .faulted (.stackOverflow m.stack.capacity) ∧ (m.step h).2.1 = h := by
  refine ⟨fun c hf => (stepped m h).intact hrun hf, ?_, fun i hi hop hfull => step_alloc_of_full hi hop hfull h⟩
  unfold reads
  cases m.instruction? with
  | none => exact Nat.zero_le 2
  | some i => exact i.op.reads_le_two

/-- A machine about to allocate an object, with no room for a reference to it. -/
def allocator : Machine := ready ⟨#[0x30, 0x00], 0, #[], #[]⟩ {} (Stack.empty 0)

/-- It faults, and there is no object. -/
theorem faulting_step_alloc :
    let h := Heap.build ⟨[1], 1⟩
    allocator.status = .running ∧ (allocator.step h).1.status = .faulted (.stackOverflow 0) ∧
      (allocator.step h).2.1 = h ∧ Intact allocator h (allocator.step h).1 (allocator.step h).2.1 := by
  intro h
  obtain ⟨hintact, -, halloc⟩ := faulting_step (m := allocator) rfl h
  obtain ⟨hf, hheap⟩ := halloc ⟨.alloc, 0⟩ rfl rfl rfl
  exact ⟨rfl, hf, hheap, hintact _ hf⟩

end Machine

end StackVM
