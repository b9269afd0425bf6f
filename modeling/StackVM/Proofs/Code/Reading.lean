/-
  StackVM.Proofs.Code.Reading — programs read back from their bytes.

  `walk code o` goes through the code from an offset, one instruction after the other, each as long as it says it is,
  and gives the instructions together with the offset where it stopped. It fails where an instruction cannot be
  decoded. Code that can be walked through from the start is the encoding of the instructions found, and of no others.

  - `decode_eq_ok_iff`: an instruction is found exactly where its bytes stand.
  - `walk_encoding`, `encoding_of_walk`: a walk finds exactly the instructions that the code encodes.
  - `walk_emitAll`: writing instructions and walking through code undo each other.
-/

import StackVM.Proofs.Code.Encoding

namespace StackVM

namespace Instruction

/-! ## One instruction -/

theorem bytes_of_decode {code : Bytes} {before rest : List UInt8} {i : Instruction}
    (hcode : code.toList = before ++ rest) (hd : decode code before.length = .ok i) :
    i.Fits ∧ ∃ after, rest = i.bytes ++ after := by
  obtain ⟨hbyte, hend, hoperand⟩ := decode_eq_ok hd
  have hsize : code.size = before.length + rest.length := by
    rw [← Array.length_toList, hcode, List.length_append]
  rw [length] at hend
  obtain ⟨b, rest, rfl⟩ := List.exists_cons_of_length_pos (l := rest) (by omega)
  rw [List.length_cons] at hsize
  have hb : b = i.op.byte := by
    rw [← Array.getElem?_toList, hcode] at hbyte
    simpa using hbyte
  have hwidth : i.op.operandWidth ≤ 8 := by rcases i.op.operandWidth_cases with h | h | h | h <;> omega
  have htake : (rest.take i.op.operandWidth).length = i.op.operandWidth := by
    rw [List.length_take]
    omega
  have hsplit : code.toList = (before ++ [b]) ++ rest.take i.op.operandWidth ++ rest.drop i.op.operandWidth := by
    rw [hcode]; simp
  have hread := LittleEndian.bytes_read hsplit (by rw [htake]; exact hwidth)
  rw [htake, List.length_append, List.length_singleton, ← hoperand] at hread
  refine ⟨hread.2, rest.drop i.op.operandWidth, ?_⟩
  rw [bytes, hread.1, hb, List.cons_append, List.take_append_drop]

/-- An instruction is found exactly where its bytes stand. -/
theorem decode_eq_ok_iff {code : Bytes} {before rest : List UInt8} {i : Instruction}
    (hcode : code.toList = before ++ rest) :
    decode code before.length = .ok i ↔ i.Fits ∧ ∃ after, rest = i.bytes ++ after := by
  refine ⟨bytes_of_decode hcode, ?_⟩
  rintro ⟨hfits, after, rfl⟩
  exact decode_of_toList (by rw [hcode, List.append_assoc]) hfits

/-! ## One after the other -/

/-- The instructions from an offset on, and where the last one ends. -/
def walk (code : Bytes) (offset : Nat) : Except DecodeError (List Instruction × Nat) :=
  if offset < code.size then
    match decode code offset with
    | .error e => .error e
    | .ok i =>
      match walk code (offset + i.length) with
      | .error e => .error e
      | .ok (is, last) => .ok (i :: is, last)
  else .ok ([], offset)
termination_by code.size - offset
decreasing_by unfold length; omega

variable {code : Bytes} {before rest : List UInt8} {is : List Instruction}

theorem walk_of_decode {offset : Nat} {i : Instruction} (hd : decode code offset = .ok i) :
    walk code offset = (walk code (offset + i.length)).map fun x => (i :: x.1, x.2) := by
  have hlt : offset < code.size := (Array.getElem?_eq_some_iff.mp (decode_eq_ok hd).1).1
  rw [walk, if_pos hlt, hd]
  simp only
  cases walk code (offset + i.length) <;> rfl

/-- A walk that finds something has found an instruction and gone on behind it. -/
theorem walk_eq_ok {offset last : Nat} (hw : walk code offset = .ok (is, last)) :
    (code.size ≤ offset ∧ is = [] ∧ last = offset) ∨
      ∃ i js, decode code offset = .ok i ∧ is = i :: js ∧ walk code (offset + i.length) = .ok (js, last) := by
  cases hd : decode code offset with
  | error e =>
    rw [walk, hd] at hw
    split at hw
    next => cases hw
    next hge =>
      cases hw
      exact .inl ⟨Nat.le_of_not_lt hge, rfl, rfl⟩
  | ok i =>
    rw [walk_of_decode hd] at hw
    cases hrest : walk code (offset + i.length) with
    | error e => rw [hrest] at hw; cases hw
    | ok x =>
      rw [hrest] at hw
      cases hw
      exact .inr ⟨i, x.1, rfl, rfl, hrest⟩

theorem walk_encoding (hcode : code.toList = before ++ encoding is) (hfits : ∀ i ∈ is, i.Fits) :
    walk code before.length = .ok (is, code.size) := by
  induction is generalizing before with
  | nil =>
    have hsize : code.size = before.length := by rw [← Array.length_toList, hcode]; simp
    rw [walk, if_neg (by omega), hsize]
  | cons i is ih =>
    have hd : decode code before.length = .ok i :=
      (decode_eq_ok_iff hcode).mpr ⟨hfits i List.mem_cons_self, encoding is, encoding_cons i is⟩
    have hsplit : code.toList = (before ++ i.bytes) ++ encoding is := by rw [hcode]; simp
    have hrest := ih hsplit fun j hj => hfits j (List.mem_cons_of_mem i hj)
    rw [List.length_append, length_bytes] at hrest
    rw [walk_of_decode hd, hrest]
    rfl

theorem encoding_of_walk {last : Nat} (hcode : code.toList = before ++ rest)
    (hw : walk code before.length = .ok (is, last)) :
    rest = encoding is ∧ (∀ i ∈ is, i.Fits) ∧ last = code.size := by
  induction is generalizing before rest with
  | nil =>
    rcases walk_eq_ok hw with ⟨hge, -, rfl⟩ | ⟨i, js, -, hcons, -⟩
    · have hsize : code.size = before.length + rest.length := by
        rw [← Array.length_toList, hcode, List.length_append]
      exact ⟨List.eq_nil_of_length_eq_zero (by omega), fun _ hi => (nomatch hi), by omega⟩
    · cases hcons
  | cons i is ih =>
    rcases walk_eq_ok hw with ⟨-, hnil, -⟩ | ⟨i, is, hd, hcons, hrest⟩
    · cases hnil
    cases hcons
    obtain ⟨hi, after, rfl⟩ := (decode_eq_ok_iff hcode).mp hd
    have hsplit : code.toList = (before ++ i.bytes) ++ after := by rw [hcode, List.append_assoc]
    rw [← length_bytes i, ← List.length_append] at hrest
    obtain ⟨rfl, his, hlast⟩ := ih hsplit hrest
    exact ⟨(encoding_cons i is).symm, List.forall_mem_cons.mpr ⟨hi, his⟩, hlast⟩

end Instruction

/-! ## Written and read back -/

namespace Writer

open Instruction (walk)

/-- What is written once a writer has been asked for an instruction. Where it refuses, that is what was there
before. -/
def asked (w : Writer) (b : UInt8) (operand : UInt64) : Writer :=
  match w.emitInstruction b operand with
  | .ok w' => w'
  | .error _ => w

/-- Of the operands that take up bytes, those are refused that do not fit into them. -/
theorem refuses_iff {op : Opcode} (hop : op.operandWidth ≠ 0) (w : Writer) (v : UInt64) :
    (∃ e, w.emitInstruction op.byte v = .error e) ↔ ¬ Instruction.Fits ⟨op, v⟩ := by
  rw [← refusal?_eq_none_iff hop]
  simp only [emitInstruction, Opcode.ofByte?_byte]
  cases refusal? op v <;> simp

theorem asked_of_refused {w : Writer} {b : UInt8} {v : UInt64} (he : ∃ e, w.emitInstruction b v = .error e) :
    w.asked b v = w := by
  obtain ⟨e, he⟩ := he
  rw [asked, he]

/-- Instructions that are written one after the other are found again by walking through the code, which ends where
the last of them does. Code that can be walked through is what the instructions found come to when they are written.
And an operand that does not fit is refused, with nothing written. -/
theorem walk_emitAll :
    (∀ is : List Instruction, (∀ i ∈ is, i.Fits) →
      ∃ w, empty.emitAll is = .ok w ∧ walk w.code 0 = .ok (is, w.code.size)) ∧
    (∀ (code : Bytes) (is : List Instruction) (last : Nat), walk code 0 = .ok (is, last) →
      last = code.size ∧ empty.emitAll is = .ok ⟨code⟩) ∧
    ∀ (w : Writer) (op : Opcode) (v : UInt64), op.operandWidth ≠ 0 →
      ((∃ e, w.emitInstruction op.byte v = .error e) ↔ ¬ Instruction.Fits ⟨op, v⟩) ∧
      (¬ Instruction.Fits ⟨op, v⟩ → w.asked op.byte v = w) := by
  refine ⟨fun is his => ?_, fun code is last hw => ?_, fun w op v hop => ?_⟩
  · have hcode : (empty.append (Instruction.encoding is)).code.toList = [] ++ Instruction.encoding is := by
      simp [append, empty]
    exact ⟨_, emitAll_of_fits his, Instruction.walk_encoding hcode his⟩
  · have hstart : code.toList = [] ++ code.toList := rfl
    obtain ⟨hcode, his, hlast⟩ := Instruction.encoding_of_walk hstart hw
    refine ⟨hlast, ?_⟩
    rw [emitAll_of_fits his, ← hcode]
    simp [append, empty]
  · have hrefuses := refuses_iff hop w v
    exact ⟨hrefuses, fun hno => asked_of_refused (hrefuses.mpr hno)⟩

/-- An operand of each width, at its largest. -/
theorem walk_emitAll_widths :
    let is : List Instruction := [⟨.jump, 0xFFFFFFFF⟩, ⟨.noop, 0⟩, ⟨.prop, 255⟩, ⟨.pushWord, 0xFFFFFFFFFFFFFFFF⟩]
    let code : Bytes := #[8, 255, 255, 255, 255, 1, 49, 255, 23, 255, 255, 255, 255, 255, 255, 255, 255]
    (∀ i ∈ is, i.Fits) ∧ walk code 0 = .ok (is, 17) ∧ empty.emitAll is = .ok ⟨code⟩ ∧
      (Writer.mk code).asked Opcode.prop.byte 256 = ⟨code⟩ := by
  intro is code
  have his : ∀ i ∈ is, i.Fits := by decide
  obtain ⟨hread, hwritten, hrefused⟩ := walk_emitAll
  obtain ⟨w, hw, hwalk⟩ := hread is his
  have hcode : w.code = code := by
    have : empty.emitAll is = .ok ⟨code⟩ := rfl
    rw [this] at hw
    cases hw
    rfl
  rw [hcode] at hwalk
  exact ⟨his, hwalk, (hwritten code is 17 hwalk).2, (hrefused ⟨code⟩ .prop 256 (by decide)).2 (by decide)⟩

end Writer

end StackVM
