/-
  StackVM.Proofs.Machine.Division — what the four dividing operators leave on the stack.

  A machine is at an operator with two words on top (`AtOperator`): whatever lies below them, a step puts the result of
  `IntOp.apply` in their place, or comes to a fault if there is none. `IntOp.Yields` says this of an operator and its
  result, for every such machine. A word is a number, or a signed number by two's complement; of signed words, all
  quotients but one are signed words again.

  - `Machine.step_of_some`, `Machine.step_of_none`: a step of a machine at an operator.
  - `truncated_div`: quotient and remainder of signed words.
  - `division_laws`: all four operators, for any two words.
-/

import StackVM.Proofs.Machine.Operands

namespace StackVM

/-! ## Two words on top -/

theorem Stack.pop_pair {s : Stack} {l : List Value} {v w : Value} (hl : s.toList = l ++ [v, w]) :
    s.peek 0 = some w ∧ s.pop.2.toList = l ++ [v] := by
  have hw : s.toList = (l ++ [v]) ++ [w] := by
    rw [hl, List.append_assoc]
    rfl
  exact ⟨peek_of_toList hw, (pop_of_toList hw).2⟩

namespace Exec

variable {α : Type} {f : Frame} {l : List Value} {a b v : UInt64}

theorem popRaw_of_peek (ha : f.stack.peek 0 = some (.raw a)) : popRaw f = .ok a ⟨f.stack.pop.2, f.r, f.heap⟩ := by
  unfold popRaw
  rw [bind_of_ok (pop_of_peek ha)]
  rfl

/-- The operands of an operator are taken off, the right one first. -/
theorem operands_bind (hl : f.stack.toList = l ++ [.raw a, .raw b]) (op : Opcode) (k : UInt64 → UInt64 → Exec α) :
    (do twoOperands op; let b ← popRaw; let a ← popRaw; k a b) f =
      k a b ⟨f.stack.pop.2.pop.2, f.r, f.heap⟩ := by
  obtain ⟨hb, ha⟩ := Stack.pop_pair hl
  have htwo : ¬ f.stack.size < 2 := by
    rw [Stack.size, ← Stack.length_toList, hl, List.length_append]
    exact Nat.not_lt_of_le (Nat.le_add_left _ _)
  have hgo : twoOperands op f = .ok () f := if_neg htwo
  rw [bind_of_ok hgo, bind_of_ok (popRaw_of_peek hb)]
  exact bind_of_ok (f := ⟨f.stack.pop.2, f.r, f.heap⟩) (popRaw_of_peek (Stack.peek_of_toList ha))

/-- There is room for the result in the place of the operands. -/
theorem push_result (hl : f.stack.toList = l ++ [.raw a, .raw b]) :
    push (.raw v) ⟨f.stack.pop.2.pop.2, f.r, f.heap⟩ =
        .ok () ⟨(f.stack.pop.2.pop.2.push (.raw v)).2, f.r, f.heap⟩ ∧
      (f.stack.pop.2.pop.2.push (.raw v)).2.toList = l ++ [.raw v] := by
  obtain ⟨-, ha⟩ := Stack.pop_pair hl
  have hroom := Stack.room_pop ha
  refine ⟨push_of_room (f := ⟨f.stack.pop.2.pop.2, f.r, f.heap⟩) hroom _, ?_⟩
  rw [(Stack.push_of_lt hroom).2, (Stack.pop_of_toList ha).2]

theorem operator_of_some (op : Opcode) {apply : UInt64 → UInt64 → Option UInt64}
    (hl : f.stack.toList = l ++ [.raw a, .raw b]) (hv : apply a b = some v) :
    ∃ s, operator op apply f = .ok () ⟨s, f.r, f.heap⟩ ∧ s.toList = l ++ [.raw v] := by
  obtain ⟨hpush, hlist⟩ := push_result (v := v) hl
  refine ⟨_, ?_, hlist⟩
  unfold operator
  rw [operands_bind hl, hv]
  exact hpush

theorem operator_of_none (op : Opcode) {apply : UInt64 → UInt64 → Option UInt64}
    (hl : f.stack.toList = l ++ [.raw a, .raw b]) (hv : apply a b = none) :
    ∃ f', operator op apply f = .error .divisionByZero f' := by
  refine ⟨⟨f.stack.pop.2.pop.2, f.r, f.heap⟩, ?_⟩
  unfold operator
  rw [operands_bind hl, hv]
  rfl

end Exec

namespace Machine

/-- The machine comes to the operator next, with the two words on top of the stack and `below` under them. -/
structure AtOperator (m : Machine) (op : IntOp) (a b : UInt64) (below : List Value) : Prop where
  instruction : ∃ i, m.instruction? = some i ∧ i.op = .int op
  stack : m.stack.toList = below ++ [.raw a, .raw b]

variable {m : Machine} {op : IntOp} {a b v : UInt64} {below : List Value}

/-- Where the operator has a result, the machine goes on with it in the place of the words. -/
theorem step_of_some (hm : m.AtOperator op a b below) (hv : op.apply a b = some v) (h : Heap) :
    (m.step h).1.status = .running ∧ (m.step h).1.stack.toList = below ++ [.raw v] := by
  obtain ⟨i, hi, hop⟩ := hm.instruction
  obtain ⟨s, hs, hlist⟩ := Exec.operator_of_some (f := m.frame h) (.int op) hm.stack hv
  have hx : Exec.instruction m.program i (m.frame h) = .ok .next ⟨s, m.r, h⟩ := by
    simp only [Exec.instruction, hop]
    exact Exec.bind_of_ok hs
  rw [step_of_instruction? hi, perform_of_ok hx]
  exact ⟨(instruction?_eq_some.mp hi).1, hlist⟩

/-- Where it has none, the machine comes to a fault. -/
theorem step_of_none (hm : m.AtOperator op a b below) (hv : op.apply a b = none) (h : Heap) :
    (m.step h).1.status = .faulted .divisionByZero := by
  obtain ⟨i, hi, hop⟩ := hm.instruction
  obtain ⟨f, hf⟩ := Exec.operator_of_none (f := m.frame h) (.int op) hm.stack hv
  have hx : Exec.instruction m.program i (m.frame h) = .error .divisionByZero f := by
    simp only [Exec.instruction, hop]
    exact Exec.bind_of_error hf
  rw [step_of_instruction? hi, perform_of_error hx]
  rfl

end Machine

/-! ## Quotients and remainders -/

namespace IntOp

variable {op : IntOp} {a b v : UInt64}

/-- The operators that divide. -/
def divides : IntOp → Bool
  | divU | remU | divS | remS => true
  | _ => false

theorem apply_eq_none_iff (hop : op.divides = true) : op.apply a b = none ↔ b = 0 := by
  cases op with
  | add | sub | mul => cases hop
  | divU | remU | divS | remS => by_cases hb : b = 0 <;> simp [apply, hb]

/-- The operator has the result, and so every machine at the operator goes on with it in the place of the words. -/
structure Yields (op : IntOp) (a b v : UInt64) : Prop where
  apply : op.apply a b = some v
  step : ∀ {m : Machine} {below : List Value}, m.AtOperator op a b below → ∀ h,
    (m.step h).1.status = .running ∧ (m.step h).1.stack.toList = below ++ [.raw v]

theorem yields (hv : op.apply a b = some v) : op.Yields a b v :=
  ⟨hv, fun hm h => Machine.step_of_some hm hv h⟩

end IntOp

/-- Signed words `q` and `r` are quotient and remainder, the quotient cut toward zero. -/
structure Truncated (a b q r : Int64) : Prop where
  sum : (q.toInt * b.toInt + r.toInt) % UInt64.size = a.toInt % UInt64.size
  less : r.toInt.natAbs < b.toInt.natAbs
  sign : r = 0 ∨ r.toInt.sign = a.toInt.sign
  quotient : ¬ (a = Int64.minValue ∧ b = -1) → q.toInt = a.toInt.tdiv b.toInt
  /-- The one quotient that is no signed word. -/
  overflow : a = Int64.minValue ∧ b = -1 → q = Int64.minValue ∧ r = 0

theorem truncated_div {a b : Int64} (hb : b ≠ 0) : Truncated a b (a / b) (a % b) := by
  have hb' : b.toInt ≠ 0 := fun h => hb (Int64.toInt_inj.mp h)
  have hr : (a % b).toInt = a.toInt.tmod b.toInt := Int64.toInt_mod a b
  have hq : ¬ (a = Int64.minValue ∧ b = -1) → (a / b).toInt = a.toInt.tdiv b.toInt := by
    intro hfits
    by_cases ha : a = Int64.minValue
    · exact Int64.toInt_div_of_ne_right a b fun hone => hfits ⟨ha, hone⟩
    · exact Int64.toInt_div_of_ne_left a b ha
  refine ⟨?_, ?_, ?_, hq, ?_⟩
  · by_cases hfits : a = Int64.minValue ∧ b = -1
    · obtain ⟨rfl, rfl⟩ := hfits
      rfl
    · rw [hq hfits, hr, Int.add_comm, Int.tmod_add_tdiv_mul]
  · rw [hr, Int.natAbs_tmod]
    exact Nat.mod_lt _ (Int.natAbs_pos.mpr hb')
  · by_cases hdvd : b.toInt ∣ a.toInt
    · left
      apply Int64.toInt_inj.mp
      rw [hr, Int.tmod_eq_zero_of_dvd hdvd]
      rfl
    · right
      rw [hr, Int.sign_tmod, if_neg hdvd]
  · intro ⟨ha, hone⟩
    subst ha hone
    exact ⟨rfl, rfl⟩

/-- For any two words: each of the four operators comes to a fault exactly if the divisor is zero; otherwise the
machine goes on with quotient and remainder, of the words as numbers or as signed numbers. -/
theorem division_laws (a b : UInt64) :
    (∀ op : IntOp, op.divides = true → ∀ (m : Machine) (below : List Value),
      m.AtOperator op a b below → ∀ h,
      (m.step h).1.status.fault = .divisionByZero ↔ b = 0) ∧
    (b ≠ 0 → ∃ q r, IntOp.divU.Yields a b q ∧ IntOp.remU.Yields a b r ∧
      a.toNat = q.toNat * b.toNat + r.toNat ∧ r.toNat < b.toNat) ∧
    (b ≠ 0 → ∃ q r, IntOp.divS.Yields a b q ∧ IntOp.remS.Yields a b r ∧
      Truncated a.toInt64 b.toInt64 q.toInt64 r.toInt64) := by
  refine ⟨fun op hop m below hm h => ?_, fun hb => ?_, fun hb => ?_⟩
  · cases hv : op.apply a b with
    | none =>
      rw [Machine.step_of_none hm hv h]
      exact ⟨fun _ => (IntOp.apply_eq_none_iff hop).mp hv, fun _ => rfl⟩
    | some v =>
      rw [(Machine.step_of_some hm hv h).1]
      constructor
      · intro hfault
        cases hfault
      · intro hb
        rw [(IntOp.apply_eq_none_iff hop).mpr hb] at hv
        cases hv
  · have hpos : 0 < b.toNat := Nat.pos_of_ne_zero fun hzero => hb (UInt64.toNat_inj.mp hzero)
    refine ⟨a / b, a % b, IntOp.yields (if_neg hb), IntOp.yields (if_neg hb), ?_, ?_⟩
    · rw [UInt64.toNat_div, UInt64.toNat_mod, Nat.mul_comm]
      exact (Nat.div_add_mod _ _).symm
    · rw [UInt64.toNat_mod]
      exact Nat.mod_lt _ hpos
  · have hb' : b.toInt64 ≠ 0 := by
      intro hzero
      apply hb
      rw [← UInt64.toUInt64_toInt64 b, hzero]
      rfl
    exact ⟨_, _, IntOp.yields (if_neg hb), IntOp.yields (if_neg hb), truncated_div hb'⟩

/-- A machine about to divide the least signed word by minus one. -/
def Machine.divider : Machine :=
  { ready ⟨#[0x25], 0, #[], #[]⟩ {} (Stack.empty 2) with
    stack := (((Stack.empty 2).push (.raw Int64.minValue.toUInt64)).2.push (.raw (-1 : Int64).toUInt64)).2 }

/-- It goes on with the least signed word. -/
theorem division_laws_overflow :
    let h := Heap.build ⟨[1], 1⟩
    let a := Int64.minValue.toUInt64
    let b := (-1 : Int64).toUInt64
    b ≠ 0 ∧ Machine.divider.AtOperator .divS a b [] ∧ (Machine.divider.step h).1.status.fault ≠ .divisionByZero ∧
      (Machine.divider.step h).1.stack.toList = [.raw a] := by
  intro h a b
  have hb : b ≠ 0 := by decide
  have hm : Machine.divider.AtOperator .divS a b [] := ⟨⟨⟨.int .divS, 0⟩, rfl, rfl⟩, rfl⟩
  obtain ⟨hfault, _, hsigned⟩ := division_laws a b
  obtain ⟨q, r, hq, _, htruncated⟩ := hsigned hb
  have hqa : q = a := by
    rw [← UInt64.toUInt64_toInt64 q, (htruncated.overflow ⟨rfl, rfl⟩).1]
  refine ⟨hb, hm, mt (hfault .divS rfl _ _ hm h).mp hb, ?_⟩
  rw [(hq.step hm h).2, hqa]
  rfl

end StackVM
