/-
  StackVM.Proofs.Code.Encoding — instructions one after the other, as bytes.

  `encoding is` is the code of a list of instructions and `offsetsFrom 0 is` are the places where they start. An
  instruction is found again at its place whatever stands before and after it, and a jump's target can be
  overwritten without touching anything else.

  - `decode_of_toList`: an instruction reads back.
  - `Writer.emitAll_of_fits`: writing the instructions one by one gives their encoding.
  - `Writer.code_patchJump`: a patch replaces four bytes by those of the target.
-/

import StackVM.Writer

namespace StackVM

/-! ## Words as bytes -/

namespace LittleEndian

/-- The low byte and the rest make the word again. -/
theorem low_or_high (v : UInt64) : v.toUInt8.toUInt64 ||| ((v >>> 8) <<< 8) = v := by
  have hv := v.toNat_lt
  have hsmall : v.toNat >>> 8 <<< 8 < 18446744073709551616 := by
    rw [Nat.shiftLeft_eq, Nat.shiftRight_eq_div_pow]
    omega
  apply UInt64.toNat_inj.mp
  simp only [UInt64.toNat_or, UInt64.toNat_shiftLeft, UInt64.toNat_shiftRight, UInt8.toNat_toUInt64,
    UInt64.toNat_toUInt8, show UInt64.toNat 8 % 64 = 8 from rfl]
  rw [Nat.mod_eq_of_lt hsmall, Nat.or_comm, ← Nat.shiftLeft_add_eq_or_of_lt (Nat.mod_lt _ (by decide)),
    Nat.shiftLeft_eq, Nat.shiftRight_eq_div_pow]
  omega

/-- Shifts add up, as long as a bit of the word is left. -/
theorem shift_shift (v : UInt64) {a b : UInt64} (hab : a.toNat + b.toNat < 64) : v >>> a >>> b = v >>> (a + b) := by
  have hsum : (a + b).toNat = a.toNat + b.toNat := by
    rw [UInt64.toNat_add, Nat.mod_eq_of_lt (Nat.lt_trans hab (by decide))]
  apply UInt64.toNat_inj.mp
  rw [UInt64.toNat_shiftRight, UInt64.toNat_shiftRight, UInt64.toNat_shiftRight, ← Nat.shiftRight_add, hsum,
    Nat.mod_eq_of_lt hab, Nat.mod_eq_of_lt (by omega), Nat.mod_eq_of_lt (by omega)]

theorem shift_lt {v : UInt64} {n : Nat} (hv : v.toNat < 1 <<< (n + 8)) : (v >>> 8).toNat < 1 <<< n := by
  rw [UInt64.toNat_shiftRight, show UInt64.toNat 8 % 64 = 8 from rfl, Nat.shiftRight_eq_div_pow]
  rw [Nat.shiftLeft_add, Nat.shiftLeft_eq _ 8] at hv
  omega

/-- A word that fits in the bytes it is written in reads back. -/
theorem read_bytes {code : Bytes} {before after : List UInt8} {width : Nat} {v : UInt64}
    (hcode : code.toList = before ++ bytes width v ++ after) (hv : v.toNat < 1 <<< (8 * width)) :
    read code before.length width = v := by
  induction width generalizing before v with
  | zero => exact (UInt64.toNat_inj.mp (by simpa [read] using hv)).symm
  | succ width ih =>
    have hbyte : code.getD before.length 0 = v.toUInt8 := by
      rw [Array.getD_eq_getD_getElem?, ← Array.getElem?_toList, hcode]
      simp [bytes]
    have hrest : read code (before.length + 1) width = v >>> 8 := by
      have hcode' : code.toList = (before ++ [v.toUInt8]) ++ bytes width (v >>> 8) ++ after := by
        rw [hcode]; simp [bytes]
      simpa using ih hcode' (shift_lt hv)
    rw [read, hbyte, hrest, low_or_high]

/-- A byte in front of a word that leaves room for it. -/
theorem toNat_or_shift (b : UInt8) {v : UInt64} (hv : v.toNat < 1 <<< 56) :
    (b.toUInt64 ||| (v <<< 8)).toNat = b.toNat + 256 * v.toNat := by
  have hb := b.toNat_lt
  have hsmall : v.toNat <<< 8 < 18446744073709551616 := by
    rw [show (1 : Nat) <<< 56 = 72057594037927936 from rfl] at hv
    rw [Nat.shiftLeft_eq]
    omega
  simp only [UInt64.toNat_or, UInt64.toNat_shiftLeft, UInt8.toNat_toUInt64, show UInt64.toNat 8 % 64 = 8 from rfl]
  rw [Nat.mod_eq_of_lt hsmall, Nat.or_comm, ← Nat.shiftLeft_add_eq_or_of_lt hb, Nat.shiftLeft_eq]
  omega

/-- What is read, written again, gives the bytes that were read. -/
theorem bytes_read {code : Bytes} {before bs after : List UInt8} (hcode : code.toList = before ++ bs ++ after)
    (hlen : bs.length ≤ 8) : bytes bs.length (read code before.length bs.length) = bs ∧
      (read code before.length bs.length).toNat < 1 <<< (8 * bs.length) := by
  induction bs generalizing before with
  | nil => exact ⟨rfl, Nat.one_pos⟩
  | cons b bs ih =>
    have hbyte : code.getD before.length 0 = b := by
      rw [Array.getD_eq_getD_getElem?, ← Array.getElem?_toList, hcode]
      simp
    rw [List.length_cons] at hlen
    have hsplit : code.toList = (before ++ [b]) ++ bs ++ after := by rw [hcode]; simp
    have hrest := ih hsplit (by omega)
    rw [List.length_append, List.length_singleton] at hrest
    rw [List.length_cons, read, hbyte]
    generalize read code (before.length + 1) bs.length = v at hrest ⊢
    obtain ⟨hbytes, hv⟩ := hrest
    have hpow : 1 <<< (8 * (bs.length + 1)) = 256 * 1 <<< (8 * bs.length) := by
      rw [Nat.mul_succ, Nat.shiftLeft_add, Nat.shiftLeft_eq _ 8, Nat.mul_comm]
    have hfits : v.toNat < 1 <<< 56 := Nat.lt_of_lt_of_le hv (by
      rw [Nat.one_shiftLeft, Nat.one_shiftLeft]
      exact Nat.pow_le_pow_right (by decide) (by omega))
    have hword := toNat_or_shift b hfits
    have hb := b.toNat_lt
    have hlow : (b.toUInt64 ||| (v <<< 8)).toUInt8 = b := by
      apply UInt8.toNat_inj.mp
      rw [UInt64.toNat_toUInt8, hword]
      omega
    have hhigh : (b.toUInt64 ||| (v <<< 8)) >>> 8 = v := by
      apply UInt64.toNat_inj.mp
      rw [UInt64.toNat_shiftRight, show UInt64.toNat 8 % 64 = 8 from rfl, Nat.shiftRight_eq_div_pow, hword]
      omega
    refine ⟨by rw [bytes, hlow, hhigh, hbytes], ?_⟩
    rw [hword, hpow]
    omega

/-- Any eight bytes or fewer are those of a word. -/
theorem exists_bytes {bs : List UInt8} (hlen : bs.length ≤ 8) : ∃ v, bytes bs.length v = bs := by
  have hcode : bs.toArray.toList = [] ++ bs ++ [] := by simp
  exact ⟨_, (bytes_read hcode hlen).1⟩

end LittleEndian

/-! ## Instructions one after the other -/

namespace Instruction

def encoding (is : List Instruction) : List UInt8 := is.flatMap bytes

/-- How many bytes the instructions take. -/
def total : List Instruction → Nat
  | [] => 0
  | i :: is => i.length + total is

/-- Where the instructions start, the first at `offset`. -/
def offsetsFrom (offset : Nat) : List Instruction → List Nat
  | [] => []
  | i :: is => offset :: offsetsFrom (offset + i.length) is

@[simp] theorem encoding_nil : encoding [] = [] := rfl

@[simp] theorem encoding_cons (i : Instruction) (is : List Instruction) :
    encoding (i :: is) = i.bytes ++ encoding is := List.flatMap_cons

@[simp] theorem encoding_append (is is' : List Instruction) : encoding (is ++ is') = encoding is ++ encoding is' :=
  List.flatMap_append

@[simp] theorem length_encoding (is : List Instruction) : (encoding is).length = total is := by
  induction is with
  | nil => rfl
  | cons i is ih => simp [total, ih]

@[simp] theorem total_append (is is' : List Instruction) : total (is ++ is') = total is + total is' := by
  rw [← length_encoding, encoding_append, List.length_append, length_encoding, length_encoding]

theorem mem_offsetsFrom {offset x : Nat} {is : List Instruction} :
    x ∈ offsetsFrom offset is ↔ ∃ before i after, is = before ++ i :: after ∧ x = offset + total before := by
  induction is generalizing offset with
  | nil => simp [offsetsFrom]
  | cons j is ih =>
    rw [offsetsFrom, List.mem_cons, ih]
    constructor
    · rintro (rfl | ⟨before, i, after, rfl, rfl⟩)
      · exact ⟨[], j, is, rfl, rfl⟩
      · exact ⟨j :: before, i, after, rfl, Nat.add_assoc _ _ _⟩
    · rintro ⟨before, i, after, hsplit, rfl⟩
      cases before with
      | nil => exact .inl rfl
      | cons k before =>
        rw [List.cons_append, List.cons.injEq] at hsplit
        obtain ⟨rfl, rfl⟩ := hsplit
        exact .inr ⟨before, i, after, rfl, (Nat.add_assoc _ _ _).symm⟩

theorem decode_of_toList {code : Bytes} {before after : List UInt8} {i : Instruction}
    (hcode : code.toList = before ++ i.bytes ++ after) (hfits : i.Fits) : decode code before.length = .ok i := by
  have hsize : code.size = before.length + i.length + after.length := by
    rw [← Array.length_toList, hcode]
    simp [Nat.add_assoc]
  have hlen : i.length = 1 + i.op.operandWidth := rfl
  have hlt : before.length < code.size := by omega
  have hop : code[before.length] = i.op.byte := by
    rw [← Option.some.injEq, ← Array.getElem?_eq_getElem hlt, ← Array.getElem?_toList, hcode]
    simp [bytes]
  have hread : LittleEndian.read code (before.length + 1) i.op.operandWidth = i.operand := by
    have hcode' : code.toList =
        (before ++ [i.op.byte]) ++ LittleEndian.bytes i.op.operandWidth i.operand ++ after := by
      rw [hcode]; simp [bytes]
    simpa using LittleEndian.read_bytes hcode' hfits
  unfold decode
  rw [dif_pos hlt, hop, Opcode.ofByte?_byte]
  simp only
  rw [if_neg (by omega), hread]

/-- What is decoded begins with its opcode's byte, ends within the code and has the bytes in between as its operand. -/
theorem decode_eq_ok {code : Bytes} {offset : Nat} {i : Instruction} (hd : decode code offset = .ok i) :
    code[offset]? = some i.op.byte ∧ offset + i.length ≤ code.size ∧
      i.operand = LittleEndian.read code (offset + 1) i.op.operandWidth := by
  unfold decode at hd
  split at hd
  next hlt =>
    cases hop : Opcode.ofByte? code[offset] with
    | none => simp only [hop] at hd; cases hd
    | some op =>
      simp only [hop] at hd
      split at hd
      next => cases hd
      next hroom =>
        cases hd
        refine ⟨?_, by simp only [length]; omega, rfl⟩
        rw [Array.getElem?_eq_getElem hlt, Opcode.byte_of_ofByte? hop]
  next => cases hd

theorem size_le_of_decode {code : Bytes} {offset : Nat} (hd : decode code offset = .error .endOfCode) :
    code.size ≤ offset := by
  refine Nat.le_of_not_lt fun hlt => ?_
  rw [decode, dif_pos hlt] at hd
  split at hd
  next => cases hd
  next => split at hd <;> cases hd

/-! ## Boundaries -/

/-- A place between two instructions, before the first one or after the last. -/
def Boundary (is : List Instruction) (o : Nat) : Prop := ∃ before after, is = before ++ after ∧ o = total before

theorem boundary_zero (is : List Instruction) : Boundary is 0 := ⟨[], is, rfl, rfl⟩

theorem boundary_iff {is : List Instruction} {o : Nat} : Boundary is o ↔ o ∈ offsetsFrom 0 is ∨ o = total is := by
  constructor
  · rintro ⟨before, after, rfl, rfl⟩
    cases after with
    | nil => exact .inr (by rw [List.append_nil])
    | cons i after => exact .inl (mem_offsetsFrom.mpr ⟨before, i, after, rfl, (Nat.zero_add _).symm⟩)
  · rintro (ho | rfl)
    · obtain ⟨before, i, after, rfl, rfl⟩ := mem_offsetsFrom.mp ho
      exact ⟨before, i :: after, rfl, Nat.zero_add _⟩
    · exact ⟨is, [], (List.append_nil is).symm, rfl⟩

theorem Boundary.le {is : List Instruction} {o : Nat} (h : Boundary is o) : o ≤ total is := by
  obtain ⟨before, after, rfl, rfl⟩ := h
  rw [total_append]
  exact Nat.le_add_right _ _

/-- At a boundary stands an instruction, and after it comes the next boundary. -/
theorem Boundary.decode {code : Bytes} {is : List Instruction} {o : Nat} (h : Boundary is o)
    (hcode : code.toList = encoding is) (hfits : ∀ i ∈ is, i.Fits) (hne : o ≠ code.size) :
    ∃ i ∈ is, decode code o = .ok i ∧ Boundary is (o + i.length) := by
  obtain ⟨before, after, rfl, rfl⟩ := h
  cases after with
  | nil =>
    rw [List.append_nil] at hcode
    exact absurd (by rw [← Array.length_toList, hcode, length_encoding]) hne
  | cons i after =>
    have hi : i ∈ before ++ i :: after := List.mem_append_right _ List.mem_cons_self
    have hsplit : code.toList = encoding before ++ i.bytes ++ encoding after := by rw [hcode]; simp
    refine ⟨i, hi, ?_, before ++ [i], after, by simp, by simp [total]⟩
    rw [← length_encoding]
    exact decode_of_toList hsplit (hfits i hi)

end Instruction

/-! ## Writing them -/

theorem Opcode.operandWidth_cases (op : Opcode) :
    op.operandWidth = 0 ∨ op.operandWidth = 1 ∨ op.operandWidth = 4 ∨ op.operandWidth = 8 := by
  unfold operandWidth
  split <;> simp

namespace Writer

open Instruction (encoding)

/-- One instruction after the other. -/
def emitAll (w : Writer) : List Instruction → Except EmitError Writer
  | [] => .ok w
  | i :: is =>
    match w.emitInstruction i.op.byte i.operand with
    | .ok w => w.emitAll is
    | .error e => .error e

/-- An operand is refused when it does not fit. -/
theorem refusal?_eq_none_iff {op : Opcode} {v : UInt64} (hop : op.operandWidth ≠ 0) :
    refusal? op v = none ↔ Instruction.Fits ⟨op, v⟩ := by
  unfold refusal? Instruction.Fits
  rcases op.operandWidth_cases with h | h | h | h
  · exact absurd h hop
  · simp only [h, UInt64.lt_iff_toNat_lt]
    rw [show UInt64.toNat 0xFF = 255 from rfl, show (1 : Nat) <<< (8 * 1) = 256 from rfl]
    by_cases hv : 255 < v.toNat
    · simp [hv]; omega
    · simp [hv]; omega
  · simp only [h, UInt64.lt_iff_toNat_lt]
    rw [show UInt64.toNat 0xFFFFFFFF = 4294967295 from rfl, show (1 : Nat) <<< (8 * 4) = 4294967296 from rfl]
    by_cases hv : 4294967295 < v.toNat
    · simp [hv]; omega
    · simp [hv]; omega
  · simp only [h, true_iff]
    exact v.toNat_lt

theorem emitInstruction_of_fits {w : Writer} {i : Instruction} (hi : i.Fits) :
    w.emitInstruction i.op.byte i.operand = .ok (w.append i.bytes) := by
  have hno : refusal? i.op i.operand = none := by
    by_cases hop : i.op.operandWidth = 0
    · simp [refusal?, hop]
    · exact (refusal?_eq_none_iff hop).mpr hi
  simp only [emitInstruction, Opcode.ofByte?_byte, hno]

theorem append_append (w : Writer) (bs bs' : List UInt8) : (w.append bs).append bs' = w.append (bs ++ bs') :=
  congrArg mk (Array.toList_inj.mp (by simp [append]))

@[simp] theorem offset_append (w : Writer) (bs : List UInt8) : (w.append bs).offset = w.offset + bs.length := by
  simp [offset, append, ← Array.length_toList]

theorem emitAll_of_fits {w : Writer} {is : List Instruction} (his : ∀ i ∈ is, i.Fits) :
    w.emitAll is = .ok (w.append (encoding is)) := by
  induction is generalizing w with
  | nil => simp [emitAll, append]
  | cons i is ih =>
    rw [emitAll, emitInstruction_of_fits (his i List.mem_cons_self)]
    simp only
    rw [ih fun j hj => his j (List.mem_cons_of_mem _ hj), append_append, Instruction.encoding_cons]

/-! ## Patching -/

theorem code_patchJump {w : Writer} {before operand after : List UInt8}
    (hcode : w.code.toList = before ++ operand ++ after) (hlen : operand.length = 4) (target : UInt32) :
    (w.patchJump before.length target).code.toList =
      before ++ LittleEndian.bytes 4 target.toUInt64 ++ after := by
  match operand, hlen with
  | [_, _, _, _], _ =>
    simp [patchJump, hcode, LittleEndian.bytes, LittleEndian.shift_shift]

/-- Patching a jump in a program gives it another operand and leaves all other instructions as they are. -/
theorem toList_patchJump {w : Writer} {before after : List Instruction} {op : Opcode} {v : UInt64}
    (hop : op.operandWidth = 4) (hcode : w.code.toList = encoding (before ++ ⟨op, v⟩ :: after)) (target : UInt32) :
    (w.patchJump (Instruction.total before + 1) target).code.toList =
      encoding (before ++ ⟨op, target.toUInt64⟩ :: after) := by
  have hbytes (v : UInt64) : encoding (before ++ ⟨op, v⟩ :: after) =
      (encoding before ++ [op.byte]) ++ LittleEndian.bytes 4 v ++ encoding after := by
    simp [Instruction.bytes, hop]
  have hstart : Instruction.total before + 1 = (encoding before ++ [op.byte]).length := by simp
  rw [hbytes] at hcode ⊢
  rw [hstart]
  exact code_patchJump hcode (LittleEndian.length_bytes 4 v) target

/-- Nothing but the four bytes at the operand's place changes. -/
theorem getElem?_patchJump {w : Writer} {operand j : Nat} (hj : j < operand ∨ operand + 4 ≤ j) (target : UInt32) :
    (w.patchJump operand target).code[j]? = w.code[j]? := by
  simp only [patchJump, Array.getElem?_setIfInBounds]
  rw [if_neg (by omega), if_neg (by omega), if_neg (by omega), if_neg (by omega)]

end Writer

end StackVM
