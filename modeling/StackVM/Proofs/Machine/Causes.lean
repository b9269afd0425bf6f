/-
  StackVM.Proofs.Machine.Causes — what an instruction can fail for.

  An action `Raises P` if every cause it can fail with satisfies `P`. What is composed of such actions raises nothing
  else, so the causes of an instruction are those of the actions it is made of.

  - `Exec.raises_instruction`: no instruction fails for the budget, for a request to stop, or for what is noticed
    before there is an instruction at all.
-/

import StackVM.Proofs.Machine.Faults

namespace StackVM

/-- A cause that lies with an instruction: not with the budget, a request to stop, the entry or the bytes from which no
instruction can be decoded. -/
def Cause.OfInstruction : Cause → Prop
  | illegalOpcode _ | missingOperand _ | entryPastEnd _ _ | budgetExhausted _ | cancelled => False
  | _ => True

theorem Cause.ofInstruction_ofHandleUse (x : Handle) (e : HeapError) : (ofHandleUse x e).OfInstruction := by
  cases e <;> trivial

theorem Cause.ofInstruction_ofAllocation (e : HeapError) : (ofAllocation e).OfInstruction := by
  cases e <;> trivial

namespace Exec

variable {α β : Type} {P : Cause → Prop} {act : Exec α} {k : α → Exec β}

/-- Every cause of a failure satisfies `P`. -/
def Raises (P : Cause → Prop) (act : Exec α) : Prop := ∀ f c f', act f = .error c f' → P c

theorem Sure.raises (h : Sure act) : Raises P act := by
  intro f c f' he
  obtain ⟨a, g, ha⟩ := h f
  rw [ha] at he
  cases he

theorem raises_pure (a : α) : Raises P (pure a : Exec α) := Sure.raises fun f => ⟨a, f, rfl⟩

theorem raises_throw {c : Cause} (hc : P c) : Raises P (throw c : Exec α) := by
  intro f c' f' he
  cases he
  exact hc

theorem Raises.bind (h : Raises P act) (hk : ∀ a, Raises P (k a)) : Raises P (act >>= k) := by
  intro f c f' he
  cases hx : act f with
  | ok a g => rw [bind_of_ok hx] at he; exact hk a g c f' he
  | error c' g => rw [bind_of_error hx] at he; cases he; exact h f c _ hx

theorem Raises.andNext {act : Exec Unit} (h : Raises P act) : Raises P (andNext act) :=
  h.bind fun _ => raises_pure _

/-! ## The actions -/

theorem raises_push (hfull : ∀ n, P (.stackOverflow n)) (v : Value) : Raises P (push v) := by
  intro f c f' he
  obtain ⟨-, -, rfl⟩ := push_of_error he
  exact hfull _

theorem raises_pop (hempty : P .stackUnderflow) : Raises P pop := by
  intro f c f' he
  cases hv : f.stack.peek 0 with
  | none => rw [pop_of_peek_none hv] at he; cases he; exact hempty
  | some v => rw [pop_of_peek hv] at he; cases he

theorem raises_top {c : Cause} (hc : P c) : Raises P (top c) := by
  intro f c' f' he
  unfold top at he
  split at he
  · cases he
  · cases he; exact hc

theorem raises_swapTop (htwo : P (.needsTwo .swap)) : Raises P swapTop := by
  rintro ⟨stack, r, heap⟩ c f' he
  unfold swapTop at he
  rcases hx : stack.swapTop with ⟨b, s⟩
  simp only [hx] at he
  cases b with
  | true => cases he
  | false => cases he; exact htwo

theorem raises_twoOperands {op : Opcode} (htwo : P (.needsTwo op)) : Raises P (twoOperands op) := by
  intro f c f' he
  unfold twoOperands at he
  split at he
  · cases he; exact htwo
  · cases he

theorem raises_room (hfull : ∀ n, P (.stackOverflow n)) : Raises P room := by
  intro f c f' he
  unfold room at he
  split at he
  · cases he; exact hfull _
  · cases he

theorem raises_popRaw (hempty : P .stackUnderflow) (hraw : ∀ v, P (.expectedRaw v)) : Raises P popRaw :=
  (raises_pop hempty).bind fun v => by
    cases v with
    | raw bits => exact raises_pure bits
    | ref x => exact raises_throw (hraw _)

theorem raises_popReference (hempty : P .stackUnderflow) (href : ∀ v, P (.expectedReference v)) :
    Raises P popReference :=
  (raises_pop hempty).bind fun v => by
    cases v with
    | raw bits => exact raises_throw (href _)
    | ref x => exact raises_pure x

theorem raises_onHeap {cause : HeapError → Cause} (hcause : ∀ e, P (cause e)) (act : HeapM α) :
    Raises P (onHeap cause act) := by
  intro f c f' he
  obtain ⟨e, -, -, rfl, -⟩ := onHeap_of_error he
  exact hcause e

/-! ## Every instruction -/

/-- What an instruction fails for lies with the instruction. -/
theorem raises_instruction (p : Program) (i : Instruction) :
    Raises Cause.OfInstruction (instruction p i) := by
  have hpush (v : Value) : Raises Cause.OfInstruction (push v) := raises_push (fun _ => trivial) v
  have hpop : Raises Cause.OfInstruction pop := raises_pop trivial
  have hpopRaw : Raises Cause.OfInstruction popRaw := raises_popRaw trivial fun _ => trivial
  have hpopReference : Raises Cause.OfInstruction popReference := raises_popReference trivial fun _ => trivial
  have hjump (v : UInt64) : Raises Cause.OfInstruction (jump p v) := by
    unfold jump
    split
    · exact raises_throw trivial
    · exact raises_pure _
  have hjumpIf (taken : UInt64 → Bool) (v : UInt64) : Raises Cause.OfInstruction (jumpIf p taken v) :=
    hpopRaw.bind fun w => by
      cases taken w with
      | true => exact hjump v
      | false => exact raises_pure _
  have hoperator (op : Opcode) (apply : UInt64 → UInt64 → Option UInt64) :
      Raises Cause.OfInstruction (operator op apply) :=
    (raises_twoOperands trivial).bind fun _ => hpopRaw.bind fun b => hpopRaw.bind fun a => by
      cases apply a b with
      | some v => exact hpush _
      | none => exact raises_throw trivial
  have hinput (side : Side) (n : Nat) : Raises Cause.OfInstruction (pushInput p side n) := by
    unfold pushInput
    split
    · exact hpush _
    · exact raises_throw trivial
  have hhandle {γ : Type} (x : Handle) (act : HeapM γ) :
      Raises Cause.OfInstruction (onHeap (Cause.ofHandleUse x) act) :=
    raises_onHeap (Cause.ofInstruction_ofHandleUse x) act
  rcases i with ⟨op, operand⟩
  cases op with
  | unreachable => exact raises_throw trivial
  | noop | halt => exact raises_pure _
  | jump => exact hjump operand
  | jumpIfZero | jumpIfNotZero => exact hjumpIf _ operand
  | pushInput side => exact (hinput side _).andNext
  | pushR => exact Raises.andNext fun f => hpush f.r f
  | pop => exact (hpop.bind fun _ => raises_pure _).andNext
  | popIntoR => exact (hpop.bind fun v => (sure_setRegister v).raises).andNext
  | dup => exact ((raises_top trivial).bind hpush).andNext
  | swap => exact (raises_swapTop trivial).andNext
  | pushWord => exact (hpush _).andNext
  | clear => exact Raises.andNext (Sure.raises fun _ => ⟨_, _, rfl⟩)
  | int op | float op => exact (hoperator _ _).andNext
  | alloc =>
    exact ((raises_room fun _ => trivial).bind fun _ =>
      (raises_onHeap Cause.ofInstruction_ofAllocation _).bind fun x => hpush _).andNext
  | prop => exact (hpopReference.bind fun x => (hhandle x _).bind hpush).andNext
  | setProp => exact (hpop.bind fun v => hpopReference.bind fun x => hhandle x _).andNext
  | sizeOf => exact (hpopReference.bind fun x => (hhandle x _).bind fun n => hpush _).andNext
  | retain => exact (hpopReference.bind fun x => hhandle x _).andNext
  | release => exact (hpopReference.bind fun x => (hhandle x _).bind fun _ => raises_pure _).andNext
  | print => exact (raises_top trivial).bind fun v => raises_pure _

end Exec

end StackVM
