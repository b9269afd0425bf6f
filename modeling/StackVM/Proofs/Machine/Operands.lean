/-
  StackVM.Proofs.Machine.Operands — what each instruction takes off the stack and what it leaves there.

  An instruction works with a fixed number of values from the top of the stack, `Opcode.reads`, and leaves a fixed
  number in their place, `Opcode.leaves`; whatever lies below stays as it is. `Stack.Replaced n k` says this of two
  stacks. Of an action, `Needs n` says that it fails for want of values wherever there are fewer than `n`, and
  `Trades n k` that, where there are so many, it puts `k` values in the place of `n`, or else fails for something
  other than want of values, and for want of room only if there is no room for what it leaves. Trades made one after
  another are a trade, and one that works with fewer values than there are leaves the others alone.

  - `Exec.needs_instruction`, `Exec.trades_instruction`: every instruction but `clear`, which takes all there is.
  - `Exec.instruction_of_full`: the instructions that push, on a full stack.
  - `Machine.step_operands`: when a step underflows, when it overflows, and what it leaves otherwise.
-/

import StackVM.Proofs.Machine.LifeCycle

namespace StackVM

namespace Opcode

/-- How many values an instruction leaves in the place of those it works with. -/
def leaves : Opcode → Nat
  | dup | swap => 2
  | pushInput _ | pushR | pushWord | int _ | float _ | alloc | prop | sizeOf | print => 1
  | _ => 0

/-- The instructions after which there is one value more on the stack. -/
def pushes : Opcode → Bool
  | pushInput _ | pushR | pushWord | dup | alloc => true
  | _ => false

theorem leaves_eq (op : Opcode) (hop : op.pushes = true) : op.leaves = op.reads + 1 := by
  cases op <;> first | rfl | cases hop

theorem leaves_le_reads (op : Opcode) (hop : op.pushes = false) : op.leaves ≤ op.reads := by
  cases op with
  | pushInput | pushR | pushWord | dup | alloc => cases hop
  | _ => simp [leaves, reads]

end Opcode

/-! ## Stacks -/

namespace Stack

variable {s s' s'' : Stack} {n m k : Nat}

theorem size_le (s : Stack) : s.size ≤ s.capacity := s.top_le

/-- The topmost `n` values have made way for `k` others. -/
structure Replaced (n k : Nat) (s s' : Stack) : Prop where
  capacity : s'.capacity = s.capacity
  size : s'.size = s.size - n + k
  below : s'.toList.take (s.size - n) = s.toList.take (s.size - n)

theorem replaced_self (hn : n ≤ s.size) : Replaced n n s s := ⟨rfl, (Nat.sub_add_cancel hn).symm, rfl⟩

theorem Replaced.trans (h : Replaced n m s s') (h' : Replaced m k s' s'') : Replaced n k s s'' := by
  have hbelow : s'.size - m = s.size - n := by rw [h.size, Nat.add_sub_cancel]
  refine ⟨h'.capacity.trans h.capacity, ?_, ?_⟩
  · rw [h'.size, hbelow]
  · rw [← h.below, ← hbelow, h'.below]

/-- Of what is below, some may be counted to what is replaced. -/
theorem Replaced.above (h : Replaced n k s s') {j : Nat} (hj : n + j ≤ s.size) :
    Replaced (n + j) (k + j) s s' := by
  refine ⟨h.capacity, ?_, ?_⟩
  · rw [h.size]
    omega
  · have hbelow := congrArg (List.take (s.size - (n + j))) h.below
    rwa [List.take_take, List.take_take, Nat.min_eq_left (by omega)] at hbelow

theorem peek_eq_none (hs : s.size < 1) : s.peek 0 = none := by
  have htop : ¬ 0 < s.top := Nat.not_lt_of_le (Nat.le_of_lt_succ hs)
  rw [peek, dif_neg htop]

theorem exists_peek (hs : 1 ≤ s.size) : ∃ v, s.peek 0 = some v := by
  unfold peek
  rw [dif_pos (show 0 < s.top from hs)]
  exact ⟨_, rfl⟩

theorem replaced_pop {v : Value} (hv : s.peek 0 = some v) : Replaced 1 0 s s.pop.2 := by
  obtain ⟨l, hl⟩ := exists_toList_of_peek hv
  have hsize : s.size = l.length + 1 := by
    rw [size, ← length_toList, hl, List.length_append]
    rfl
  have hpop := (pop_of_toList hl).2
  refine ⟨capacity_pop s, ?_, ?_⟩
  · rw [hsize, size, ← length_toList, hpop]
    rfl
  · rw [hsize, hpop, hl, Nat.add_sub_cancel, List.take_left, List.take_length]

theorem replaced_push (v : Value) (hroom : s.size < s.capacity) : Replaced 0 1 s (s.push v).2 := by
  have hpush := (push_of_lt (v := v) hroom).2
  have hsize : s.toList.length = s.size := length_toList s
  refine ⟨capacity_push s v, ?_, ?_⟩
  · rw [size, ← length_toList, hpush, List.length_append, hsize]
    rfl
  · rw [hpush, Nat.sub_zero, ← hsize, List.take_left, List.take_length]

theorem replaced_swapTop (htwo : 2 ≤ s.size) : Replaced 2 2 s s.swapTop.2 := by
  have hswap : s.swapTop.2.toList.take (s.top - 2) = s.toList.take (s.top - 2) := by
    rw [toList_eq_take, toList_eq_take]
    unfold swapTop
    rw [dif_pos (show 2 ≤ s.top from htwo)]
    simp only [List.take_take, Array.toList_swap]
    rw [List.take_set_of_le (by omega), List.take_set_of_le (by omega)]
  refine ⟨capacity_swapTop s, ?_, hswap⟩
  unfold swapTop
  rw [dif_pos (show 2 ≤ s.top from htwo)]
  exact (Nat.sub_add_cancel htwo).symm

end Stack

/-- The faults that have to do with how many values there are on the stack. -/
def Fault.ofStack : Fault → Bool
  | stackOverflow | stackUnderflow => true
  | _ => false

theorem Cause.ofStack_ofHandleUse (x : Handle) (e : HeapError) : (ofHandleUse x e).fault.ofStack = false := by
  rw [fault_ofHandleUse]
  cases e <;> rfl

theorem Cause.ofStack_ofAllocation (e : HeapError) : (ofAllocation e).fault.ofStack = false := by
  rw [fault_ofAllocation]
  split <;> rfl

namespace Exec

variable {α β : Type} {act : Exec α} {next : α → Exec β} {n m k : Nat} {f f' : Frame}

/-! ## Actions that need values -/

/-- Where there are fewer than `n` values the action fails for want of them. -/
def Needs (n : Nat) (act : Exec α) : Prop :=
  ∀ f, f.stack.size < n → ∃ c f', act f = .error c f' ∧ c.fault = .stackUnderflow

theorem needs_zero (act : Exec α) : Needs 0 act := fun _ hlt => absurd hlt (Nat.not_lt_zero _)

/-- What finds too few values is not gone on from. -/
theorem Needs.bind (h : Needs n act) (next : α → Exec β) : Needs n (act >>= next) := by
  intro f hlt
  obtain ⟨c, f', he, hc⟩ := h f hlt
  exact ⟨c, f', bind_of_error he, hc⟩

theorem Needs.andNext {act : Exec Unit} (h : Needs n act) : Needs n (andNext act) := h.bind _

theorem needs_pop : Needs 1 pop :=
  fun _ hlt => ⟨_, _, pop_of_peek_none (Stack.peek_eq_none hlt), rfl⟩

theorem needs_popRaw : Needs 1 popRaw := needs_pop.bind _

theorem needs_popReference : Needs 1 popReference := needs_pop.bind _

/-- Taking one value off cannot fail where there is one. -/
theorem Needs.after_pop {next : Value → Exec β} (h : ∀ v, Needs n (next v)) : Needs (n + 1) (pop >>= next) := by
  intro f hlt
  cases hv : f.stack.peek 0 with
  | none => exact ⟨_, _, bind_of_error (pop_of_peek_none hv), rfl⟩
  | some v =>
    have hsize : f.stack.pop.2.size < n := by
      have hone : 1 ≤ f.stack.size := by
        refine Nat.le_of_not_lt fun hnone => ?_
        rw [Stack.peek_eq_none hnone] at hv
        cases hv
      rw [(Stack.replaced_pop hv).size]
      omega
    rw [bind_of_ok (pop_of_peek hv)]
    exact h v _ hsize

theorem needs_top {c : Cause} (hc : c.fault = .stackUnderflow) : Needs 1 (top c) := by
  intro f hlt
  refine ⟨c, f, ?_, hc⟩
  rw [top, Stack.peek_eq_none hlt]

theorem needs_swapTop : Needs 2 swapTop := by
  intro ⟨stack, r, heap⟩ hlt
  have htop : ¬ 2 ≤ stack.top := Nat.not_le_of_lt hlt
  refine ⟨.needsTwo .swap, ⟨stack, r, heap⟩, ?_, rfl⟩
  simp only [swapTop, Stack.swapTop, dif_neg htop]

theorem needs_twoOperands (op : Opcode) : Needs 2 (twoOperands op) := by
  intro f hlt
  exact ⟨.needsTwo op, f, if_pos hlt, rfl⟩

theorem needs_operator (op : Opcode) (apply : UInt64 → UInt64 → Option UInt64) : Needs 2 (operator op apply) :=
  (needs_twoOperands op).bind _

theorem needs_jumpIf (p : Program) (taken : UInt64 → Bool) (target : UInt64) : Needs 1 (jumpIf p taken target) :=
  needs_popRaw.bind _

/-- Every instruction needs the values it works with. -/
theorem needs_instruction (p : Program) (i : Instruction) : Needs i.op.reads (instruction p i) := by
  rcases i with ⟨op, operand⟩
  cases op with
  | unreachable | noop | halt | jump | pushInput | pushR | pushWord | clear | alloc => exact needs_zero _
  | jumpIfZero | jumpIfNotZero => exact needs_jumpIf p _ operand
  | pop | popIntoR => exact (needs_pop.bind _).andNext
  | dup => exact ((needs_top rfl).bind _).andNext
  | swap => exact needs_swapTop.andNext
  | int op | float op => exact (needs_operator _ _).andNext
  | setProp => exact (Needs.after_pop fun v => needs_popReference.bind _).andNext
  | prop | sizeOf | retain | release => exact (needs_popReference.bind _).andNext
  | print => exact (needs_top rfl).bind _

/-! ## Actions that trade values -/

/-- Where there are `n` values on top, the action puts `k` in their place, or else it does not fail for want of
values, and for want of room only if there is none for what it leaves. -/
structure Trades (n k : Nat) (act : Exec α) : Prop where
  ok : ∀ f a f', n ≤ f.stack.size → act f = .ok a f' → f.stack.Replaced n k f'.stack
  fails : ∀ f c f', n ≤ f.stack.size → act f = .error c f' →
    c.fault ≠ .stackUnderflow ∧ (c.fault = .stackOverflow → f.stack.capacity + n < f.stack.size + k)

theorem not_ofStack {c : Cause} (hc : c.fault.ofStack = false) {P : Prop} :
    c.fault ≠ .stackUnderflow ∧ (c.fault = .stackOverflow → P) := by
  constructor
  all_goals
    intro heq
    rw [heq] at hc
    cases hc

/-- One trade after another. What is there in between may not be more than there is at either end. -/
theorem Trades.bind (h : Trades n m act) (hm : m ≤ n ∨ m ≤ k) (hnext : ∀ a, Trades m k (next a)) :
    Trades n k (act >>= next) := by
  constructor
  · intro f b f' hn hx
    cases ha : act f with
    | ok a g =>
      have hfirst := h.ok f a g hn ha
      rw [bind_of_ok ha] at hx
      exact hfirst.trans ((hnext a).ok g b f' (by rw [hfirst.size]; omega) hx)
    | error c g => rw [bind_of_error ha] at hx; cases hx
  · intro f c f' hn hx
    cases ha : act f with
    | ok a g =>
      have hfirst := h.ok f a g hn ha
      rw [bind_of_ok ha] at hx
      obtain ⟨hunder, hover⟩ := (hnext a).fails g c f' (by rw [hfirst.size]; omega) hx
      rw [hfirst.capacity, hfirst.size] at hover
      refine ⟨hunder, fun hc => ?_⟩
      have := hover hc
      omega
    | error c' g =>
      rw [bind_of_error ha] at hx
      cases hx
      obtain ⟨hunder, hover⟩ := h.fails f c _ hn ha
      refine ⟨hunder, fun hc => ?_⟩
      have hless := hover hc
      have hle := f.stack.size_le
      omega

/-- The values below may be counted in. -/
theorem Trades.above (h : Trades n k act) (j : Nat) : Trades (n + j) (k + j) act where
  ok f a f' hn hx := (h.ok f a f' (Nat.le_of_add_right_le hn) hx).above hn
  fails f c f' hn hx := by
    obtain ⟨hunder, hover⟩ := h.fails f c f' (Nat.le_of_add_right_le hn) hx
    refine ⟨hunder, fun hc => ?_⟩
    have := hover hc
    omega

/-- An action that succeeds wherever there are values enough. -/
theorem trades_of_ok (h : ∀ f, n ≤ f.stack.size → ∃ a f', act f = .ok a f' ∧ f.stack.Replaced n k f'.stack) :
    Trades n k act := by
  constructor
  · intro f a f' hn hx
    obtain ⟨b, g, hok, hreplaced⟩ := h f hn
    rw [hok] at hx
    cases hx
    exact hreplaced
  · intro f c f' hn hx
    obtain ⟨b, g, hok, -⟩ := h f hn
    rw [hok] at hx
    cases hx

theorem trades_pure (a : α) (n : Nat) : Trades n n (pure a : Exec α) :=
  trades_of_ok fun f hn => ⟨a, f, rfl, Stack.replaced_self hn⟩

theorem trades_throw {c : Cause} (hc : c.fault.ofStack = false) : Trades n k (throw c : Exec α) where
  ok f b f' hn hx := by cases hx
  fails f c f' hn hx := by cases hx; exact not_ofStack hc

theorem Trades.andNext {act : Exec Unit} (h : Trades n k act) : Trades n k (andNext act) :=
  h.bind (.inr (Nat.le_refl k)) fun _ => trades_pure Flow.next k

theorem trades_setRegister (v : Value) : Trades 0 0 (setRegister v) :=
  trades_of_ok fun _ hn => ⟨_, _, rfl, Stack.replaced_self hn⟩

theorem trades_pop : Trades 1 0 pop := by
  refine trades_of_ok fun f hn => ?_
  obtain ⟨v, hv⟩ := Stack.exists_peek hn
  exact ⟨v, _, pop_of_peek hv, Stack.replaced_pop hv⟩

theorem trades_popRaw : Trades 1 0 popRaw :=
  trades_pop.bind (m := 0) (.inl (Nat.zero_le 1)) fun v => by
    cases v with
    | raw bits => exact trades_pure bits 0
    | ref x => exact trades_throw rfl

theorem trades_popReference : Trades 1 0 popReference :=
  trades_pop.bind (m := 0) (.inl (Nat.zero_le 1)) fun v => by
    cases v with
    | raw bits => exact trades_throw rfl
    | ref x => exact trades_pure x 0

theorem trades_top {c : Cause} : Trades 1 1 (top c) := by
  refine trades_of_ok fun f hn => ?_
  obtain ⟨v, hv⟩ := Stack.exists_peek hn
  have htop : top c f = .ok v f := by rw [top, hv]
  exact ⟨v, f, htop, Stack.replaced_self hn⟩

theorem trades_push (v : Value) : Trades 0 1 (push v) where
  ok f a f' hn hx := by
    cases hfull : f.stack.isFull with
    | true => rw [push_of_isFull hfull] at hx; cases hx
    | false =>
      have hroom := Stack.lt_of_not_isFull hfull
      rw [push_of_room hroom] at hx
      cases hx
      exact Stack.replaced_push v hroom
  fails f c f' hn hx := by
    obtain ⟨hfull, -, rfl⟩ := push_of_error hx
    have hsize : f.stack.size = f.stack.capacity := Stack.isFull_iff.mp hfull
    exact ⟨Fault.noConfusion, fun _ => by omega⟩

theorem trades_pushRegister : Trades 0 1 pushRegister where
  ok f a f' hn hx := (trades_push f.r).ok f a f' hn hx
  fails f c f' hn hx := (trades_push f.r).fails f c f' hn hx

theorem trades_swapTop : Trades 2 2 swapTop := by
  refine trades_of_ok fun f hn => ⟨(), ⟨f.stack.swapTop.2, f.r, f.heap⟩, ?_, Stack.replaced_swapTop hn⟩
  have htwo : 2 ≤ f.stack.top := hn
  simp only [swapTop, Stack.swapTop, dif_pos htwo]

theorem trades_twoOperands (op : Opcode) : Trades 2 2 (twoOperands op) :=
  trades_of_ok fun f hn => ⟨(), f, if_neg (Nat.not_lt_of_le hn), Stack.replaced_self hn⟩

theorem trades_onHeap {cause : HeapError → Cause} (hcause : ∀ e, (cause e).fault.ofStack = false) (use : HeapM α) :
    Trades 0 0 (onHeap cause use) where
  ok f a f' hn hx := by
    rw [onHeap_of_ok hx]
    exact Stack.replaced_self hn
  fails f c f' hn hx := by
    obtain ⟨e, h', -, rfl, -⟩ := onHeap_of_error hx
    exact not_ofStack (hcause e)

/-! ## Trades put together -/

theorem trades_operator (op : Opcode) (apply : UInt64 → UInt64 → Option UInt64) : Trades 2 1 (operator op apply) :=
  (trades_twoOperands op).bind (.inl (Nat.le_refl 2)) fun _ =>
    (trades_popRaw.above 1).bind (.inr (Nat.le_refl 1)) fun b =>
      trades_popRaw.bind (.inl (Nat.zero_le 1)) fun a => by
        cases apply a b with
        | none => exact trades_throw rfl
        | some v => exact trades_push _

theorem trades_jump (p : Program) (target : UInt64) : Trades 0 0 (jump p target) := by
  unfold jump
  split
  · exact trades_throw rfl
  · exact trades_pure _ 0

theorem trades_jumpIf (p : Program) (taken : UInt64 → Bool) (target : UInt64) : Trades 1 0 (jumpIf p taken target) :=
  trades_popRaw.bind (.inl (Nat.zero_le 1)) fun c => by
    cases taken c with
    | true => exact trades_jump p target
    | false => exact trades_pure _ 0

theorem trades_pushInput (p : Program) (side : Side) (i : Nat) : Trades 0 1 (pushInput p side i) := by
  unfold pushInput
  split
  · exact trades_push _
  · exact trades_throw rfl

/-- What asks for room first has it when it pushes. -/
theorem trades_alloc (n : Nat) : Trades 0 1 (alloc n) := by
  have hgo : Trades 0 1 (onHeap Cause.ofAllocation (Heap.allocate n) >>= fun x => push (.ref x)) :=
    (trades_onHeap Cause.ofStack_ofAllocation _).bind (.inl (Nat.le_refl 0)) fun x => trades_push _
  constructor
  · intro f a f' hn hx
    cases hfull : f.stack.isFull with
    | true => rw [alloc, bind_of_error (room_of_full hfull)] at hx; cases hx
    | false => rw [alloc, bind_of_ok (room_of_not_full hfull)] at hx; exact hgo.ok f a f' hn hx
  · intro f c f' hn hx
    cases hfull : f.stack.isFull with
    | true =>
      rw [alloc, bind_of_error (room_of_full hfull)] at hx
      cases hx
      have hsize : f.stack.size = f.stack.capacity := Stack.isFull_iff.mp hfull
      exact ⟨Fault.noConfusion, fun _ => by omega⟩
    | false => rw [alloc, bind_of_ok (room_of_not_full hfull)] at hx; exact hgo.fails f c f' hn hx

/-- The use of the object whose reference is on top. -/
theorem trades_onTop {use : Handle → HeapM α} {next : α → Exec β} (hnext : ∀ a, Trades 0 k (next a)) :
    Trades 1 k (popReference >>= fun x => onHeap (Cause.ofHandleUse x) (use x) >>= next) :=
  trades_popReference.bind (.inl (Nat.zero_le 1)) fun x =>
    (trades_onHeap (Cause.ofStack_ofHandleUse x) (use x)).bind (.inl (Nat.le_refl 0)) hnext

/-- Every instruction but `clear` trades the values it works with for those it leaves. -/
theorem trades_instruction (p : Program) (i : Instruction) (hop : i.op ≠ .clear) :
    Trades i.op.reads i.op.leaves (instruction p i) := by
  rcases i with ⟨op, operand⟩
  cases op with
  | unreachable => exact trades_throw rfl
  | noop | halt => exact trades_pure _ 0
  | jump => exact trades_jump p operand
  | jumpIfZero | jumpIfNotZero => exact trades_jumpIf p _ operand
  | pushInput side => exact (trades_pushInput p side _).andNext
  | pushR => exact trades_pushRegister.andNext
  | pop => exact (trades_pop.bind (.inl (Nat.zero_le 1)) fun _ => trades_pure _ 0).andNext
  | popIntoR => exact (trades_pop.bind (.inl (Nat.zero_le 1)) trades_setRegister).andNext
  | dup => exact (trades_top.bind (.inl (Nat.le_refl 1)) fun v => (trades_push v).above 1).andNext
  | swap => exact trades_swapTop.andNext
  | pushWord => exact (trades_push _).andNext
  | clear => exact absurd rfl hop
  | int op | float op => exact (trades_operator _ _).andNext
  | alloc => exact (trades_alloc _).andNext
  | prop => exact (trades_onTop trades_push).andNext
  | setProp =>
    exact ((trades_pop.above 1).bind (.inl (Nat.le_succ 1)) fun v =>
      trades_popReference.bind (.inl (Nat.zero_le 1)) fun x => trades_onHeap (Cause.ofStack_ofHandleUse x) _).andNext
  | sizeOf => exact (trades_onTop fun n => trades_push _).andNext
  | retain =>
    exact (trades_popReference.bind (.inl (Nat.zero_le 1)) fun x => trades_onHeap (Cause.ofStack_ofHandleUse x) _).andNext
  | release => exact (trades_onTop fun _ => trades_pure _ 0).andNext
  | print => exact trades_top.bind (.inl (Nat.le_refl 1)) fun v => trades_pure _ 1

/-- Which instructions fail for want of values, and when. -/
theorem underflows_iff {p : Program} {i : Instruction} (hop : i.op ≠ .clear) :
    (∃ c f', instruction p i f = .error c f' ∧ c.fault = .stackUnderflow) ↔ f.stack.size < i.op.reads := by
  constructor
  · intro ⟨c, f', hx, hc⟩
    exact Nat.lt_of_not_le fun hle => ((trades_instruction p i hop).fails f c f' hle hx).1 hc
  · exact needs_instruction p i f

/-! ## A full stack -/

/-- On a full stack an instruction that pushes does not get further than that, unless it is wrong in itself. -/
theorem instruction_of_full {p : Program} {i : Instruction} (hop : i.op.pushes = true)
    (hfull : f.stack.isFull = true) (hsize : i.op.reads ≤ f.stack.size)
    (hinput : ∀ side, i.op = .pushInput side → i.operand.toNat < (p.inputs side).size) :
    instruction p i f = .error (.stackOverflow f.stack.capacity) f := by
  rcases i with ⟨op, operand⟩
  cases op with
  | pushInput side =>
    have hpush : pushInput p side operand.toNat f = .error (.stackOverflow f.stack.capacity) f := by
      rw [pushInput, Array.getElem?_eq_getElem (hinput side rfl)]
      exact push_of_isFull hfull _
    exact bind_of_error hpush
  | pushR => exact bind_of_error (push_of_isFull hfull f.r)
  | pushWord => exact bind_of_error (push_of_isFull hfull _)
  | dup =>
    obtain ⟨v, hv⟩ := Stack.exists_peek hsize
    have htop : top .stackUnderflow f = .ok v f := by rw [top, hv]
    exact bind_of_error ((bind_of_ok htop).trans (push_of_isFull hfull v))
  | alloc => exact bind_of_error (bind_of_error (room_of_full hfull))
  | _ => cases hop

/-- An input that is not there is noticed before there is anything to push. -/
theorem instruction_of_no_input {p : Program} {i : Instruction} {side : Side} (hop : i.op = .pushInput side)
    (hpast : (p.inputs side).size ≤ i.operand.toNat) : instruction p i f =
      .error (.inputOutOfRange side i.operand.toNat (p.inputs side).size) f := by
  have hthrow : pushInput p side i.operand.toNat f =
      .error (.inputOutOfRange side i.operand.toNat (p.inputs side).size) f := by
    rw [pushInput, Array.getElem?_eq_none hpast]
    rfl
  simp only [instruction, hop]
  exact bind_of_error hthrow

/-- Which instructions fail for want of room, and when. -/
theorem overflows_iff {p : Program} {i : Instruction} :
    (∃ c f', instruction p i f = .error c f' ∧ c.fault = .stackOverflow) ↔
      i.op.pushes = true ∧ f.stack.isFull = true ∧ i.op.reads ≤ f.stack.size ∧
        ∀ side, i.op = .pushInput side → i.operand.toNat < (p.inputs side).size := by
  constructor
  · rintro ⟨c, f', hx, hc⟩
    have hop : i.op ≠ .clear := by
      intro hop
      simp only [instruction, hop] at hx
      cases hx
    have hsize : i.op.reads ≤ f.stack.size := by
      refine Nat.le_of_not_lt fun hlt => ?_
      obtain ⟨c', f'', hx', hc'⟩ := needs_instruction p i f hlt
      rw [hx] at hx'
      cases hx'
      rw [hc] at hc'
      cases hc'
    have hless := ((trades_instruction p i hop).fails f c f' hsize hx).2 hc
    have hle := f.stack.size_le
    have hpushes : i.op.pushes = true := by
      cases hnot : i.op.pushes with
      | true => rfl
      | false =>
        have := i.op.leaves_le_reads hnot
        omega
    have hfull : f.stack.size = f.stack.capacity := by
      rw [i.op.leaves_eq hpushes] at hless
      omega
    refine ⟨hpushes, Stack.isFull_iff.mpr hfull, hsize, fun side hside => Nat.lt_of_not_le fun hpast => ?_⟩
    rw [instruction_of_no_input hside hpast] at hx
    cases hx
    cases hc
  · rintro ⟨hpushes, hfull, hsize, hinput⟩
    exact ⟨_, f, instruction_of_full hpushes hfull hsize hinput, rfl⟩

end Exec

namespace Machine

variable {m : Machine} {i : Instruction} {h : Heap}

/-- A step has the fault of its instruction. -/
theorem fault_step_iff (hi : m.instruction? = some i) {x : Fault} (hx : x ≠ .none) :
    (m.step h).1.status.fault = x ↔
      ∃ c f, Exec.instruction m.program i (m.frame h) = .error c f ∧ c.fault = x := by
  rw [step_of_instruction? hi]
  cases he : Exec.instruction m.program i (m.frame h) with
  | ok flow f =>
    have hnone : (m.perform i h).1.status.fault = .none := by
      rw [perform_of_ok he, status_follow, counting, (instruction?_eq_some.mp hi).1]
      split <;> rfl
    rw [hnone]
    constructor
    · intro heq
      exact absurd heq.symm hx
    · rintro ⟨c, f', herr, _⟩
      cases herr
  | error c f =>
    rw [perform_of_error he]
    constructor
    · intro hc
      exact ⟨c, f, rfl, hc⟩
    · rintro ⟨c', f', herr, hc⟩
      cases herr
      exact hc

/-- A step without a fault leaves the stack as its instruction does. -/
theorem stack_step (hi : m.instruction? = some i) (hnone : (m.step h).1.status.fault = .none) :
    ∃ flow f, Exec.instruction m.program i (m.frame h) = .ok flow f ∧ (m.step h).1.stack = f.stack := by
  rw [step_of_instruction? hi] at hnone ⊢
  cases he : Exec.instruction m.program i (m.frame h) with
  | ok flow f =>
    refine ⟨flow, f, rfl, ?_⟩
    rw [perform_of_ok he]
    cases flow <;> rfl
  | error c f =>
    rw [perform_of_error he] at hnone
    exact absurd hnone c.fault_ne_none

/-- A machine that gets as far as an instruction other than `clear` comes to a stack underflow if and only if there
are fewer values than the instruction works with; if it comes to no fault, these values have made way for as many as the
instruction leaves. It comes to a stack overflow if and only if the instruction is one that pushes, the stack is
full and there is nothing else wrong. -/
theorem step_operands (hrun : m.status = .running) (hstop : m.stopRequested = false)
    (hbudget : m.outOfBudget = false) (hd : Instruction.decode m.program.code m.pc = .ok i) (h : Heap) :
    let m' := (m.step h).1
    (i.op ≠ .clear →
      (m'.status.fault = .stackUnderflow ↔ m.stack.size < i.op.reads) ∧
        (m'.status.fault = .none → m.stack.Replaced i.op.reads i.op.leaves m'.stack)) ∧
      (m'.status.fault = .stackOverflow ↔
        i.op.pushes = true ∧ m.stack.isFull = true ∧ i.op.reads ≤ m.stack.size ∧
          ∀ side, i.op = .pushInput side → i.operand.toNat < (m.program.inputs side).size) := by
  intro m'
  have hlt : m.pc < m.program.code.size := (Array.getElem?_eq_some_iff.mp (Instruction.decode_eq_ok hd).1).1
  have hgo : ¬ m.endsHere := by
    unfold endsHere
    rw [hstop, hbudget]
    have := Nat.ne_of_lt hlt
    simp [this]
  have hi := instruction?_eq_some.mpr ⟨hrun, hgo, hd⟩
  refine ⟨fun hop => ⟨?_, fun hnone => ?_⟩, ?_⟩
  · exact (fault_step_iff hi (by decide)).trans (Exec.underflows_iff hop)
  · have hunder : ¬ m.stack.size < i.op.reads := by
      intro hless
      have hfault := (fault_step_iff (h := h) hi (by decide)).mpr ((Exec.underflows_iff (f := m.frame h) hop).mpr hless)
      exact absurd (hnone.symm.trans hfault) (by decide)
    obtain ⟨flow, f, hx, hstack⟩ := stack_step hi hnone
    rw [hstack]
    exact (Exec.trades_instruction m.program i hop).ok (m.frame h) flow f (Nat.le_of_not_lt hunder) hx
  · exact (fault_step_iff hi (by decide)).trans Exec.overflows_iff

/-- A machine about to repeat its topmost value, with no room for one more. -/
def repeater : Machine :=
  { ready ⟨#[0x15], 0, #[], #[]⟩ { stackCapacity := 1 } (Stack.empty 1) with
    stack := ((Stack.empty 1).push (.raw 7)).2 }

/-- It has the value that `dup` works with, and it overflows. -/
theorem step_operands_dup :
    let h := Heap.build ⟨[1], 1⟩
    repeater.status = .running ∧ repeater.stopRequested = false ∧ repeater.outOfBudget = false ∧
      Instruction.decode repeater.program.code repeater.pc = .ok ⟨.dup, 0⟩ ∧
      (repeater.step h).1.status.fault = .stackOverflow := by
  intro h
  have hd : Instruction.decode repeater.program.code repeater.pc = .ok ⟨.dup, 0⟩ := rfl
  obtain ⟨_, hover⟩ := step_operands (m := repeater) rfl rfl rfl hd h
  exact ⟨rfl, rfl, rfl, hd, hover.mpr ⟨rfl, rfl, by decide, fun side hside => by cases hside⟩⟩

end Machine

end StackVM
