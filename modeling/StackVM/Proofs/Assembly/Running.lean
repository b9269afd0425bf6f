/-
  StackVM.Proofs.Assembly.Running — assembled programs run within their code.

  When every jump of a source names a label, and so does its entry, the boundaries between its instructions are a
  set of places that execution does not leave: a label stands at a boundary, and each instruction reads back with the
  target that the second pass has given it.

  - `boundary_of_labelOffset?`: labels stand at boundaries.
  - `Assembled.closed`: the boundaries of an assembled program are closed.
  - `run_assembled`: the program counter of a machine that runs the program stays on them.
-/

import StackVM.Proofs.Assembly.Backpatch
import StackVM.Proofs.Machine.Flow

namespace StackVM

namespace Assembly

open Instruction (encoding total offsetsFrom Boundary)
open TwoPass (label? instruction? entryTarget? labelOffset? value? instructions? wordLines)

/-- Every jump of the source names a label, and so does the entry directive, if there is one. -/
structure LabelsOnly (source : Text) : Prop where
  jumps : ∀ ws ∈ wordLines source, ∀ i ∈ instruction? ws, i.1.operandWidth = 4 →
    ∀ operand ∈ i.2, (TwoPass.labels source operand).isSome = true
  entry : ∀ ws ∈ wordLines source, ∀ target ∈ entryTarget? ws, (TwoPass.labels source target).isSome = true

/-! ## Labels -/

theorem exists_of_labelOffset? {name : Text} {offset o : Nat} {lines : List (List Text)}
    (ho : labelOffset? name offset lines = some o) : ∃ ws ∈ lines, label? ws = some name := by
  induction lines generalizing offset with
  | nil => cases ho
  | cons ws lines ih =>
    by_cases hlabel : label? ws = some name
    · exact ⟨ws, List.mem_cons_self, hlabel⟩
    · rw [labelOffset?, if_neg hlabel] at ho
      obtain ⟨ws', hws', hlabel'⟩ := ih ho
      exact ⟨ws', List.mem_cons_of_mem _ hws', hlabel'⟩

/-- A label stands at the end of the instructions of the lines before it. -/
theorem boundary_of_labelOffset? {labels : Text → Option Nat} {name : Text} {offset o : Nat}
    {lines : List (List Text)} {is : List Instruction} (his : instructions? labels lines = some is)
    (ho : labelOffset? name offset lines = some o) :
    ∃ before after, is = before ++ after ∧ o = offset + total before := by
  induction lines generalizing offset is with
  | nil => cases ho
  | cons ws lines ih =>
    rw [labelOffset?] at ho
    split at ho
    next => cases ho; exact ⟨[], is, rfl, rfl⟩
    next =>
      rw [instructions?] at his
      rw [TwoPass.size] at ho
      cases hi : instruction? ws with
      | none =>
        rw [hi] at his ho
        exact ih his ho
      | some i =>
        rw [hi] at his ho
        obtain ⟨v, -, hmap⟩ := Option.bind_eq_some_iff.mp his
        obtain ⟨is', his', rfl⟩ := Option.map_eq_some_iff.mp hmap
        obtain ⟨before, after, rfl, rfl⟩ := ih his' ho
        exact ⟨⟨i.1, v⟩ :: before, after, rfl, by simp [total, Instruction.length]; omega⟩

/-- Every instruction comes from a line, with the value of that line's operand. -/
theorem line_of_mem {labels : Text → Option Nat} {lines : List (List Text)} {is : List Instruction} {i : Instruction}
    (his : instructions? labels lines = some is) (hi : i ∈ is) :
    ∃ ws ∈ lines, ∃ operands,
      instruction? ws = some (i.op, operands) ∧ value? labels i.op operands = some i.operand := by
  induction lines generalizing is with
  | nil => cases his; cases hi
  | cons ws lines ih =>
    rw [instructions?] at his
    cases hws : instruction? ws with
    | none =>
      rw [hws] at his
      obtain ⟨ws', hws', hline⟩ := ih his hi
      exact ⟨ws', List.mem_cons_of_mem _ hws', hline⟩
    | some j =>
      rw [hws] at his
      obtain ⟨v, hv, hmap⟩ := Option.bind_eq_some_iff.mp his
      obtain ⟨is', his', rfl⟩ := Option.map_eq_some_iff.mp hmap
      rcases List.mem_cons.mp hi with rfl | hi
      · exact ⟨ws, List.mem_cons_self, j.2, hws, hv⟩
      · obtain ⟨ws', hws', hline⟩ := ih his' hi
        exact ⟨ws', List.mem_cons_of_mem _ hws', hline⟩

namespace Assembled

variable {source : Text} {is : List Instruction}

theorem size_code (h : Assembled source is) : (assemble source).code.size = total is := by
  rw [← Array.length_toList, h.code, Instruction.length_encoding]

theorem boundary_of_label (h : Assembled source is) {name : Text} {o : Nat}
    (ho : TwoPass.labels source name = some o) : Boundary is o := by
  obtain ⟨before, after, his, hplace⟩ := boundary_of_labelOffset? h.program ho
  exact ⟨before, after, his, by rw [hplace, Nat.zero_add]⟩

theorem isLabelName_of_label (h : Assembled source is) {name : Text} {o : Nat}
    (ho : TwoPass.labels source name = some o) : isLabelName name = true := by
  obtain ⟨ws, hws, hlabel⟩ := exists_of_labelOffset? ho
  exact h.names ws hws name hlabel

/-- A jump's target is a boundary, if its offset can be stored. -/
theorem boundary_operand (h : Assembled source is) (hlabels : LabelsOnly source)
    (hsize : (assemble source).code.size < UInt32.size) {i : Instruction} (hi : i ∈ is)
    (hwidth : i.op.operandWidth = 4) :
    Boundary is i.operand.toNat := by
  obtain ⟨ws, hws, operands, hline, hvalue⟩ := line_of_mem h.program hi
  match operands with
  | [] | _ :: _ :: _ => simp [value?, hwidth] at hvalue
  | [operand] =>
    obtain ⟨o, ho⟩ := Option.isSome_iff_exists.mp (hlabels.jumps ws hws _ hline hwidth operand List.mem_cons_self)
    have hboundary := h.boundary_of_label ho
    have hlt : o < UInt32.size := Nat.lt_of_le_of_lt hboundary.le (h.size_code ▸ hsize)
    have hname : (i.op.operandWidth = 4 && isLabelName operand) = true := by simp [hwidth, h.isLabelName_of_label ho]
    rw [value?, if_neg (by omega), if_pos hname, ho] at hvalue
    rw [← Option.some.inj hvalue, UInt32.toNat_toUInt64, UInt32.toNat_ofNat_of_lt' hlt]
    exact hboundary

/-- A program whose jumps go to labels never leaves the boundaries between its instructions. -/
theorem closed (h : Assembled source is) (hlabels : LabelsOnly source)
    (hsize : (assemble source).code.size < UInt32.size) : Closed (assemble source).code (Boundary is) := by
  intro o ho hne
  obtain ⟨i, hi, hdecode, hnext⟩ := ho.decode h.code h.fits hne
  refine ⟨i, hdecode, hnext, fun hwidth => ?_⟩
  have htarget := h.boundary_operand hlabels hsize hi hwidth
  exact ⟨htarget, h.size_code ▸ htarget.le⟩

theorem boundary_entry (h : Assembled source is) (hlabels : LabelsOnly source) :
    Boundary is (assemble source).entry := by
  have hentry := h.entry
  unfold TwoPass.entryOffset? at hentry
  split at hentry
  next =>
    rw [← Option.some.inj hentry]
    exact Instruction.boundary_zero is
  next target htarget =>
    obtain ⟨ws, hws, hline⟩ := List.exists_of_findSome?_eq_some htarget
    obtain ⟨o, ho⟩ := Option.isSome_iff_exists.mp (hlabels.entry ws hws target hline)
    rw [ho, Option.some_or, Option.some.injEq] at hentry
    exact hentry ▸ h.boundary_of_label ho

end Assembled

/-! ## The machine -/

/-- A machine built on an assembled program whose jumps go to labels has its program counter at the offset of an
instruction or at the end of the code, and never comes to a fault that the code is to blame for, however many steps
it takes, on whatever heaps, with whatever inputs and settings. -/
theorem run_assembled {source : Text} (hok : (assemble source).ok = true) (hlabels : LabelsOnly source)
    (hsize : (assemble source).code.size < UInt32.size) {a b : Array Value} {settings : Settings} {m : Machine}
    {log : List Log.Line}
    (hm : Machine.create ⟨(assemble source).code, (assemble source).entry, a, b⟩ settings = .ok (m, log)) :
    ∃ is, TwoPass.program? source = some is ∧ (assemble source).code.toList = encoding is ∧
      (∀ m', m.Later m' → (m'.pc ∈ offsetsFrom 0 is ∨ m'.pc = (assemble source).code.size) ∧
        m'.status.fault ≠ .illegalInstruction ∧ m'.status.fault ≠ .unexpectedEndOfCode ∧
        m'.status.fault ≠ .invalidJump) ∧
      ∀ n h lines, m.Later (m.run n h lines).1 := by
  obtain ⟨is, h⟩ := assembled hok
  obtain ⟨hcourse, hprogram⟩ := Machine.onCourse_of_create hm (h.boundary_entry hlabels) h.entry_le
  refine ⟨is, h.program, h.code, fun m' hl => ?_, fun n h lines => .run .refl h lines⟩
  have hclosed : Closed m.program.code (Boundary is) := hprogram ▸ h.closed hlabels hsize
  obtain ⟨hpc, hfault⟩ := hl.onCourse hclosed hcourse
  refine ⟨h.size_code ▸ Instruction.boundary_iff.mp hpc, ?_, ?_, ?_⟩
  all_goals rintro he; rw [he] at hfault; cases hfault

theorem labelsOnly_forthAndBack : LabelsOnly forthAndBack := ⟨by decide +kernel, by decide +kernel⟩

/-- The two jumps, run. -/
theorem run_assembled_forthAndBack :
    ∃ m, Machine.create ⟨(assemble forthAndBack).code, (assemble forthAndBack).entry, #[], #[]⟩ {} = .ok (m, []) ∧
      ∀ n h, ((m.run n h #[]).1.pc ∈ [0, 5, 10] ∨ (m.run n h #[]).1.pc = 19) ∧
        (m.run n h #[]).1.status.fault ≠ .invalidJump := by
  have hok : (assemble forthAndBack).ok = true := by decide +kernel
  have hsize : (assemble forthAndBack).code.size = 19 := by decide +kernel
  have hprogram : TwoPass.program? forthAndBack = some [⟨.jump, 19⟩, ⟨.jump, 0⟩, ⟨.pushWord, 7⟩] := by
    decide +kernel
  have hm : Machine.create ⟨(assemble forthAndBack).code, (assemble forthAndBack).entry, #[], #[]⟩ {} = .ok (_, []) :=
    Machine.create_eq_ok.mpr ⟨by decide, (Machine.start_of_le (by decide +kernel)).symm⟩
  obtain ⟨is, his, -, hlater, hrun⟩ := run_assembled hok labelsOnly_forthAndBack (by rw [hsize]; decide) hm
  rw [hprogram, Option.some.injEq] at his
  rw [← his, hsize] at hlater
  exact ⟨_, hm, fun n h => ⟨(hlater _ (hrun n h #[])).1, (hlater _ (hrun n h #[])).2.2.2⟩⟩

end Assembly

end StackVM
