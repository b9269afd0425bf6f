/-
  StackVM.Proofs.Code.Distinct — different code has different listings.

  A listing of code without a cut-off instruction shows all of it. Each line gives the byte that is no opcode, or the
  name and the operand in full; what stands on the line up to the first space tells which, and the rest is numbers in
  columns that can be read back. Since a line also says how many bytes it stands for, two programs with one listing have
  their lines at the same offsets and the same bytes on each. Lines are put together in buffers of fixed size, which
  have room for every line of code shorter than 2^32 bytes.

  - `line_lt_buffer`, `bufferedText_eq`: no line is too long for its buffer.
  - `shown_inj`: what is on a line after the offset determines what stands there.
  - `drop_eq_of_lines`: equal lines come from equal bytes.
  - `text_eq_iff`: listings are equal if the code and the line at the entry are.
-/

import StackVM.Proofs.Code.Listings

namespace StackVM

open Text (byte ofString decimal hexadecimal padStart padEnd)

/-! ## Numbers written out -/

theorem Numeral.unique {base m n : Nat} {t : Text} (hm : Numeral base t m) (hn : Numeral base t n) : m = n :=
  hm.read.2.2.symm.trans hn.read.2.2

theorem decimal_inj {m n : Nat} (h : decimal m = decimal n) : m = n :=
  (numeral_decimal m).unique (h ▸ numeral_decimal n)

/-- A digit is one byte. -/
theorem length_digits {base : Nat} (hbase : 1 < base) (hle : base ≤ 16) (n : Nat) :
    ((Nat.toDigits base n).flatMap String.utf8EncodeChar).length = (Nat.toDigits base n).length := by
  induction n using Nat.strongRecOn with
  | ind n ih =>
    by_cases hn : n < base
    · rw [Nat.toDigits_of_lt_base hn, List.flatMap_singleton, ofString_digitChar (by omega)]
      rfl
    · have hlt : n % base < base := Nat.mod_lt _ (by omega)
      rw [Nat.toDigits_of_base_le hbase (by omega), List.flatMap_append, List.flatMap_singleton,
        ofString_digitChar (by omega), List.length_append, List.length_append,
        ih (n / base) (Nat.div_lt_self (by omega) hbase)]
      rfl

theorem length_toDigits_mono {base : Nat} (hbase : 1 < base) {m n : Nat} (h : m ≤ n) :
    (Nat.toDigits base m).length ≤ (Nat.toDigits base n).length := by
  have hpos : 0 < (Nat.toDigits base n).length := Nat.length_toDigits_pos
  have hn := (Nat.length_toDigits_le_iff (n := n) hbase hpos).mp (Nat.le_refl _)
  exact (Nat.length_toDigits_le_iff hbase hpos).mpr (Nat.lt_of_le_of_lt h hn)

theorem length_decimal_mono {m n : Nat} (h : m ≤ n) : (decimal m).length ≤ (decimal n).length := by
  have hlength (k : Nat) : (decimal k).length = (Nat.toDigits 10 k).length := by
    rw [decimal, ofString, Nat.toString_eq_ofList_toDigits, String.toList_ofList,
      length_digits (by decide) (by decide)]
  rw [hlength, hlength]
  exact length_toDigits_mono (by decide) h

theorem length_hexadecimal_mono {m n : Nat} (h : m ≤ n) : (hexadecimal m).length ≤ (hexadecimal n).length := by
  have hlength (k : Nat) : (hexadecimal k).length = (Nat.toDigits 16 k).length := by
    rw [hexadecimal, ofString, String.toList_ofList, length_digits (by decide) (by decide)]
  rw [hlength, hlength]
  exact length_toDigits_mono (by decide) h

/-! ## The bytes at an offset -/

namespace Instruction

variable {code : Bytes} {o : Nat} {i : Instruction} {b : UInt8}

theorem toList_eq_append (code : Bytes) (h : o ≤ code.size) :
    code.toList = code.toList.take o ++ code.toList.drop o ∧ (code.toList.take o).length = o :=
  ⟨(List.take_append_drop _ _).symm, by rw [List.length_take, Array.length_toList]; omega⟩

theorem drop_of_decode (hd : decode code o = .ok i) :
    i.Fits ∧ code.toList.drop o = i.bytes ++ code.toList.drop (o + i.length) := by
  have hend := (decode_eq_ok hd).2.1
  obtain ⟨hsplit, hlen⟩ := toList_eq_append code (show o ≤ code.size by omega)
  rw [← hlen] at hd
  obtain ⟨hfits, after, hafter⟩ := bytes_of_decode hsplit hd
  refine ⟨hfits, ?_⟩
  rw [← List.drop_drop, hafter, ← length_bytes, List.drop_left]

theorem drop_of_illegal (hd : decode code o = .error (.illegalOpcode b)) :
    code.toList.drop o = b :: code.toList.drop (o + 1) := by
  unfold decode at hd
  split at hd
  next hlt =>
    split at hd
    next =>
      cases hd
      rw [List.drop_eq_getElem_cons (by simpa using hlt), Array.getElem_toList]
    next => split at hd <;> cases hd
  next => cases hd

/-- An opcode without operand has none that could differ. -/
theorem operand_of_fits (hi : i.Fits) (hop : i.op.operandWidth = 0) : i.operand = 0 := by
  rw [Fits, hop] at hi
  exact UInt64.toNat_inj.mp (Nat.lt_one_iff.mp hi)

end Instruction

namespace Listing

open Instruction (decode DecodeError)

variable {code code' : Bytes} {o n : Nat} {os os' : List Nat} {i : Instruction}

/-! ## Buffers -/

/-- The size of the buffer that the line at an offset is put together in. One byte of it is for the end. -/
def buffer (code : Bytes) (offset : Nat) : Nat :=
  match decode code offset with
  | .ok ⟨.pushWord, _⟩ => 96
  | _ => 64

/-- A line as it comes out of its buffer, as far as there was room, with the mark in front. -/
def bufferedLine (code : Bytes) (entry offset : Nat) : Text :=
  ofString (if offset = entry then "> " else "  ") ++ (line code offset).take (buffer code offset - 1)

/-- The listing as it comes out of the buffers. -/
def bufferedText (code : Bytes) (entry : Nat) : Text :=
  ((offsets code).map (bufferedLine code entry)).flatMap (· ++ [byte '\n'])

theorem length_padStart (width : Nat) (fill : UInt8) (t : Text) :
    (padStart width fill t).length = max width t.length := by
  rw [padStart, List.length_append, List.length_replicate]
  omega

theorem length_decimal_word (ho : o < UInt32.size) : (decimal o).length ≤ 10 :=
  length_decimal_mono (n := 0xFFFFFFFF) (Nat.le_of_lt_succ ho)

theorem length_offsetColumn_le (ho : o < UInt32.size) : (offsetColumn o).length ≤ 11 := by
  have hdecimal := length_decimal_word ho
  have hspace : (ofString " ").length = 1 := rfl
  rw [offsetColumn, List.length_append, length_padStart]
  omega

theorem length_name_le (op : Opcode) : (ofString op.name).length ≤ 16 := by
  have hall : ∀ op ∈ Opcode.all, (ofString op.name).length ≤ 16 := by decide +kernel
  exact hall op (Assembly.Dialect.mem_all op)

theorem length_nameColumn (op : Opcode) : (nameColumn op).length = 17 := by
  have hname := length_name_le op
  have hspace : (ofString " ").length = 1 := rfl
  rw [nameColumn, padEnd, List.length_append, List.length_append, List.length_replicate]
  omega

/-- What stands on a line after the offset. -/
def shown (offset : Nat) : Except DecodeError Instruction → Text
  | .ok i => instruction offset i
  | .error .endOfCode => ofString "<<end of code>>"
  | .error (.illegalOpcode b) =>
    ofString "<<illegal 0x" ++ padStart 2 (byte '0') (hexadecimal b.toNat) ++ ofString ">>"
  | .error (.truncated op) => nameColumn op ++ ofString "<truncated>"

theorem line_eq_shown (code : Bytes) (o : Nat) : line code o = offsetColumn o ++ shown o (decode code o) := by
  unfold line
  cases decode code o with
  | ok i => rfl
  | error e => cases e <;> rfl

theorem length_instruction_le (ho : o < UInt32.size) (hi : i.Fits) :
    (instruction o i).length ≤ if i.op = .pushWord then 58 else 41 := by
  have hcolumn (op : Opcode) (n : Nat) : (nameColumn op ++ number n).length = 17 + max 4 (decimal n).length := by
    rw [List.length_append, length_nameColumn, number, length_padStart]
  rcases i with ⟨op, v⟩
  rw [Instruction.Fits] at hi
  cases op with
  | jump | jumpIfZero | jumpIfNotZero =>
    have hoffset := length_decimal_word ho
    have htarget : (decimal v.toNat).length ≤ 10 := length_decimal_word hi
    have harrow : (ofString " -> ").length = 4 := rfl
    simp only [instruction, reduceCtorEq, if_false]
    rw [List.length_append, List.length_append, hcolumn, harrow]
    omega
  | pushInput | alloc | prop | setProp =>
    have hindex : (decimal v.toNat).length ≤ 3 := length_decimal_mono (n := 0xFF) (Nat.le_of_lt_succ hi)
    simp only [instruction, hcolumn, reduceCtorEq, if_false]
    omega
  | pushWord =>
    have hword : (decimal v.toNat).length ≤ 20 :=
      length_decimal_mono (n := 0xFFFFFFFFFFFFFFFF) (Nat.le_of_lt_succ hi)
    have hhexadecimal : (hexadecimal v.toNat).length ≤ 16 :=
      length_hexadecimal_mono (n := 0xFFFFFFFFFFFFFFFF) (Nat.le_of_lt_succ hi)
    have hopen : (ofString " (0x").length = 4 := rfl
    have hclose : (ofString ")").length = 1 := rfl
    simp only [instruction, List.length_append, length_nameColumn, hopen, hclose, if_true]
    omega
  | _ =>
    simp only [instruction, reduceCtorEq, if_false]
    exact Nat.le_trans (length_name_le _) (by decide)

/-- No line is too long for its buffer. -/
theorem line_lt_buffer (code : Bytes) (ho : o < UInt32.size) : (line code o).length < buffer code o := by
  have hcolumn := length_offsetColumn_le ho
  rw [line_eq_shown, List.length_append, buffer]
  cases hd : decode code o with
  | ok i =>
    have hlength := length_instruction_le ho (Instruction.drop_of_decode hd).1
    rcases i with ⟨op, v⟩
    simp only [shown]
    cases op with
    | pushWord =>
      rw [if_pos rfl] at hlength
      simp only
      omega
    | _ =>
      simp only [reduceCtorEq, if_false] at hlength
      simp only
      omega
  | error e =>
    cases e with
    | endOfCode =>
      have hend : (ofString "<<end of code>>").length = 15 := rfl
      simp only [shown]
      omega
    | illegalOpcode b =>
      have hopen : (ofString "<<illegal 0x").length = 12 := rfl
      have hclose : (ofString ">>").length = 2 := rfl
      have hbyte : (hexadecimal b.toNat).length ≤ 2 :=
        length_hexadecimal_mono (n := 0xFF) (Nat.le_of_lt_succ b.toNat_lt)
      simp only [shown, List.length_append, length_padStart]
      omega
    | truncated op =>
      have htruncated : (ofString "<truncated>").length = 11 := rfl
      simp only [shown, List.length_append, length_nameColumn]
      omega

theorem bufferedText_eq (hsize : code.size < UInt32.size) (entry : Nat) : bufferedText code entry = text code entry := by
  have htiles : Tiles code 0 (offsets code) := tiles_offsetsFrom (Nat.zero_le _)
  rw [bufferedText, text, lines, List.map_congr_left fun o ho => ?_]
  have hlt := line_lt_buffer code (Nat.lt_trans (htiles.bounds o ho).2 hsize)
  rw [bufferedLine, List.take_of_length_le (by omega), markedLine]

/-! ## Reading a line -/

/-- All up to the first space. -/
def leading (t : Text) : Text := t.takeWhile (· != byte ' ')

theorem leading_append {t rest : Text} (ht : ∀ b ∈ t, b ≠ byte ' ') (hrest : ∀ b ∈ rest.head?, b = byte ' ') :
    leading (t ++ rest) = t := by
  rw [leading, List.takeWhile_append_of_pos (by simpa using ht)]
  cases rest with
  | nil => simp
  | cons b rest => simp [hrest b rfl]

theorem numeral_no_space {base m : Nat} {t : Text} (hbase : base ≤ 16) (h : Numeral base t m) :
    ∀ b ∈ t, b ≠ byte ' ' := by
  rintro b hb rfl
  exact absurd (Assembly.inside_of_numeral hbase h _ hb).1.1 (by decide)

theorem number_inj {m n : Nat} (h : number m = number n) : m = n := by
  have hback (k : Nat) : (number k).dropWhile (· == byte ' ') = decimal k := by
    obtain ⟨b, rest, ht, -⟩ := (numeral_decimal k).exists_cons
    have hb : b ≠ byte ' ' := numeral_no_space (by decide) (numeral_decimal k) b (by rw [ht]; exact List.mem_cons_self)
    rw [number, padStart, List.dropWhile_append_of_pos (by simp), ht, List.dropWhile_cons_of_neg (by simpa using hb)]
  exact decimal_inj (by rw [← hback m, ← hback n, h])

theorem name_no_space (op : Opcode) : ∀ b ∈ ofString op.name, b ≠ byte ' ' := by
  have hall : ∀ op ∈ Opcode.all, ∀ b ∈ ofString op.name, b ≠ byte ' ' := by decide +kernel
  exact hall op (Assembly.Dialect.mem_all op)

theorem leading_name (op : Opcode) : leading (ofString op.name) = ofString op.name := by
  have halone : leading (ofString op.name ++ []) = ofString op.name := leading_append (name_no_space op) (by simp)
  rwa [List.append_nil] at halone

theorem leading_nameColumn (op : Opcode) (rest : Text) : leading (nameColumn op ++ rest) = ofString op.name := by
  rw [nameColumn, padEnd, List.append_assoc, List.append_assoc]
  refine leading_append (name_no_space op) ?_
  have hspace : ofString " " = [byte ' '] := by decide
  cases 16 - (ofString op.name).length with
  | zero => simp [hspace]
  | succ k => simp [List.replicate_succ]

/-- A line with an instruction starts with its name. -/
theorem leading_instruction (o : Nat) (i : Instruction) : leading (instruction o i) = ofString i.op.name := by
  rcases i with ⟨op, v⟩
  cases op with
  | jump | jumpIfZero | jumpIfNotZero | pushInput | alloc | prop | setProp | pushWord =>
    simp only [instruction, List.append_assoc]
    exact leading_nameColumn _ _
  | _ =>
    simp only [instruction]
    exact leading_name _

theorem leading_illegal (o : Nat) (b : UInt8) :
    leading (shown o (.error (.illegalOpcode b))) = ofString "<<illegal" := by
  have hopen : ofString "<<illegal 0x" = ofString "<<illegal" ++ byte ' ' :: ofString "0x" := by decide
  rw [shown, hopen, List.append_assoc, List.append_assoc]
  exact leading_append (by decide +kernel) (by simp)

theorem name_ne_illegal (op : Opcode) : ofString op.name ≠ ofString "<<illegal" := by
  have hall : ∀ op ∈ Opcode.all, ofString op.name ≠ ofString "<<illegal" := by decide +kernel
  exact hall op (Assembly.Dialect.mem_all op)

theorem op_of_name {op op' : Opcode} (h : ofString op.name = ofString op'.name) : op = op' :=
  Assembly.Dialect.names_apart op (Assembly.Dialect.mem_all op) op' (Assembly.Dialect.mem_all op') (ofString op.name)
    (Assembly.Dialect.mem_names.mpr (.inl rfl)) (Assembly.Dialect.mem_names.mpr (.inl h))

/-- Behind the name stands the operand, in full. -/
theorem instruction_inj {i i' : Instruction} (hi : i.Fits) (hi' : i'.Fits) (h : instruction o i = instruction o i') :
    i = i' := by
  have hop : i.op = i'.op := op_of_name (by rw [← leading_instruction o i, h, leading_instruction])
  rcases i with ⟨op, v⟩
  rcases i' with ⟨op', v'⟩
  cases hop
  refine congrArg _ ?_
  cases op with
  | jump | jumpIfZero | jumpIfNotZero =>
    exact UInt64.toNat_inj.mp (decimal_inj (List.append_cancel_left h))
  | pushInput | alloc | prop | setProp =>
    exact UInt64.toNat_inj.mp (number_inj (List.append_cancel_left h))
  | pushWord =>
    simp only [instruction, List.append_assoc] at h
    have hopen : ofString " (0x" = byte ' ' :: ofString "(0x" := by decide
    have hword (n : Nat) (rest : Text) : leading (decimal n ++ (ofString " (0x" ++ rest)) = decimal n :=
      leading_append (numeral_no_space (by decide) (numeral_decimal n)) (by simp [hopen])
    have hrest := congrArg leading (List.append_cancel_left h)
    rw [hword, hword] at hrest
    exact UInt64.toNat_inj.mp (decimal_inj hrest)
  | _ => exact (Instruction.operand_of_fits hi rfl).trans (Instruction.operand_of_fits hi' rfl).symm

theorem illegal_inj {b b' : UInt8} (h : shown o (.error (.illegalOpcode b)) = shown o (.error (.illegalOpcode b'))) :
    b = b' := by
  have hdigits := List.append_cancel_left (List.append_cancel_right h)
  have hnumeral (b : UInt8) : Numeral 16 (padStart 2 (byte '0') (hexadecimal b.toNat)) b.toNat :=
    (numeral_hexadecimal _).zeros (by decide) _
  have hfirst := hnumeral b
  rw [hdigits] at hfirst
  exact UInt8.toNat_inj.mp (hfirst.unique (hnumeral b'))

theorem instruction_ne_illegal (o : Nat) (i : Instruction) (b : UInt8) :
    instruction o i ≠ shown o (.error (.illegalOpcode b)) := by
  intro h
  apply name_ne_illegal i.op
  rw [← leading_instruction o i, h, leading_illegal]

/-- What a line shows all of. -/
inductive Complete : Except DecodeError Instruction → Prop
  | instruction {i : Instruction} : i.Fits → Complete (.ok i)
  | illegal (b : UInt8) : Complete (.error (.illegalOpcode b))

theorem shown_inj {d d' : Except DecodeError Instruction} (hd : Complete d) (hd' : Complete d')
    (h : shown o d = shown o d') : d = d' := by
  cases hd with
  | @instruction i hi =>
    cases hd' with
    | @instruction i' hi' => rw [instruction_inj hi hi' h]
    | illegal b => exact absurd h (instruction_ne_illegal o i b)
  | illegal b =>
    cases hd' with
    | illegal b' => rw [illegal_inj h]
    | @instruction i hi => exact absurd h.symm (instruction_ne_illegal o i b)

/-! ## Reading a listing -/

/-- No instruction on the listing is cut off. -/
def Whole (code : Bytes) : Prop := ∀ o ∈ offsets code, ∀ op, decode code o ≠ .error (.truncated op)

theorem complete_of_ends (hends : Ends code o n) (hwhole : ∀ op, decode code o ≠ .error (.truncated op)) :
    Complete (decode code o) := by
  cases hends with
  | instruction hd => rw [hd]; exact .instruction (Instruction.drop_of_decode hd).1
  | @illegal b hd => rw [hd]; exact .illegal b
  | truncated hd => exact absurd hd (hwhole _)

/-- Where the same stands in both codes, the lines end at the same offset and are for the same bytes. -/
theorem Ends.drop_eq (hends : Ends code o n) {n' : Nat} (hends' : Ends code' o n') (hcomplete : Complete (decode code o))
    (heq : decode code o = decode code' o) : n = n' ∧ ∃ bs : List UInt8,
      code.toList.drop o = bs ++ code.toList.drop n ∧ code'.toList.drop o = bs ++ code'.toList.drop n := by
  cases hends with
  | instruction hd =>
    have hd' := heq ▸ hd
    rw [hends'.eq_following, following, hd']
    exact ⟨rfl, _, (Instruction.drop_of_decode hd).2, (Instruction.drop_of_decode hd').2⟩
  | @illegal b hd =>
    have hd' := heq ▸ hd
    rw [hends'.eq_following, following, hd']
    exact ⟨rfl, [b], Instruction.drop_of_illegal hd, Instruction.drop_of_illegal hd'⟩
  | truncated hd =>
    rw [hd] at hcomplete
    cases hcomplete

theorem Tiles.eq_size (h : Tiles code o []) : o = code.size := by
  cases h
  rfl

/-- Equal lines come from equal bytes. -/
theorem drop_eq_of_lines (h : Tiles code o os) (h' : Tiles code' o os')
    (hwhole : ∀ x ∈ os, ∀ op, decode code x ≠ .error (.truncated op))
    (hwhole' : ∀ x ∈ os', ∀ op, decode code' x ≠ .error (.truncated op))
    (hlines : os.map (line code) = os'.map (line code')) : code.toList.drop o = code'.toList.drop o := by
  -- Both listings are at the same offset, and a line that says the same takes them both to the next one.
  induction h generalizing os' with
  | done =>
    have hnil : os' = [] := List.map_eq_nil_iff.mp hlines.symm
    subst hnil
    have hsize : code'.toList.length ≤ code.size := Nat.le_of_eq (by rw [h'.eq_size, Array.length_toList])
    rw [List.drop_of_length_le (by simp), List.drop_of_length_le hsize]
  | @line o n os ho hends hrest ih =>
    cases h' with
    | done => exact absurd (List.map_eq_nil_iff.mp hlines) (List.cons_ne_nil _ _)
    | @line _ n' os' ho' hends' hrest' =>
      rw [List.map_cons, List.map_cons, List.cons.injEq, line_eq_shown, line_eq_shown] at hlines
      obtain ⟨hline, hlines⟩ := hlines
      obtain ⟨hfirst, hwhole⟩ := List.forall_mem_cons.mp hwhole
      obtain ⟨hfirst', hwhole'⟩ := List.forall_mem_cons.mp hwhole'
      have hcomplete := complete_of_ends hends hfirst
      have heq := shown_inj hcomplete (complete_of_ends hends' hfirst') (List.append_cancel_left hline)
      obtain ⟨rfl, bs, hbytes, hbytes'⟩ := hends.drop_eq hends' hcomplete heq
      rw [hbytes, hbytes', ih hrest' hwhole hwhole' hlines]

theorem drop_markedLine (code : Bytes) (entry o : Nat) : (markedLine code entry o).drop 2 = line code o := by
  have hmark : (ofString (if o = entry then "> " else "  ")).length = 2 := by split <;> rfl
  rw [markedLine, ← hmark, List.drop_left]

theorem code_of_lines (hwhole : Whole code) (hwhole' : Whole code') {entry entry' : Nat}
    (hlines : lines code entry = lines code' entry') : code = code' := by
  have hshown : (offsets code).map (line code) = (offsets code').map (line code') := by
    have hdrop := congrArg (List.map (List.drop 2)) hlines
    simpa only [lines, List.map_map, Function.comp_def, drop_markedLine] using hdrop
  have hdrop := drop_eq_of_lines (tiles_offsetsFrom (Nat.zero_le _)) (tiles_offsetsFrom (Nat.zero_le _)) hwhole hwhole'
    hshown
  exact Array.toList_inj.mp hdrop

/-- The listings of two programs are the same exactly if the code is, byte for byte, and the line at the entry. And the
buffers are large enough for the listings to be whole. -/
theorem text_eq_iff (hsize : code.size < UInt32.size) (hsize' : code'.size < UInt32.size) (hwhole : Whole code)
    (hwhole' : Whole code') (entry entry' : Nat) :
    (bufferedText code entry = bufferedText code' entry' ↔
      code = code' ∧ ∀ o ∈ offsets code, (o = entry ↔ o = entry')) ∧
    bufferedText code entry = text code entry ∧ bufferedText code' entry' = text code' entry' := by
  refine ⟨?_, bufferedText_eq hsize entry, bufferedText_eq hsize' entry'⟩
  rw [bufferedText_eq hsize, bufferedText_eq hsize']
  constructor
  · intro htext
    have hlines : lines code entry = lines code' entry' := by rw [← lines_text, ← lines_text, htext]
    have hcode := code_of_lines hwhole hwhole' hlines
    subst hcode
    refine ⟨rfl, fun o ho => ?_⟩
    have hmarked := congrArg isMarked (List.map_inj_left.mp hlines o ho)
    rwa [isMarked_markedLine, isMarked_markedLine, Bool.eq_iff_iff, beq_iff_eq, beq_iff_eq] at hmarked
  · rintro ⟨rfl, hentry⟩
    rw [text, text, lines, lines, List.map_congr_left fun o ho => ?_]
    simp only [markedLine, hentry o ho]

/-- Two words that differ in their last byte, after a byte that is no opcode. Two offsets at which no line starts are
not told apart. -/
theorem text_eq_iff_word :
    let code : Bytes := #[0xFF, 0x17, 5, 0, 0, 0, 0, 0, 0, 0x80]
    let code' : Bytes := #[0xFF, 0x17, 5, 0, 0, 0, 0, 0, 0, 0x81]
    code.size < UInt32.size ∧ code'.size < UInt32.size ∧ Whole code ∧ Whole code' ∧
      bufferedText code 1 ≠ bufferedText code' 1 ∧ bufferedText code 2 = bufferedText code 7 ∧
      bufferedText code 1 = text code 1 := by
  intro code code'
  have hoffsets : offsets code = [0, 1] := by decide +kernel
  have hoffsets' : offsets code' = [0, 1] := by decide +kernel
  have hwhole : Whole code := by
    have hfirst : decode code 0 = .error (.illegalOpcode 0xFF) := by cbv
    have hsecond : decode code 1 = .ok ⟨.pushWord, 0x8000000000000005⟩ := by cbv
    simp [Whole, hoffsets, hfirst, hsecond]
  have hwhole' : Whole code' := by
    have hfirst : decode code' 0 = .error (.illegalOpcode 0xFF) := by cbv
    have hsecond : decode code' 1 = .ok ⟨.pushWord, 0x8100000000000005⟩ := by cbv
    simp [Whole, hoffsets', hfirst, hsecond]
  have hsize : code.size < UInt32.size := by decide
  have hsize' : code'.size < UInt32.size := by decide
  obtain ⟨hother, hfits, -⟩ := text_eq_iff hsize hsize' hwhole hwhole' 1 1
  obtain ⟨hsame, -⟩ := text_eq_iff hsize hsize hwhole hwhole 2 7
  refine ⟨hsize, hsize', hwhole, hwhole', fun heq => ?_, hsame.mpr ⟨rfl, ?_⟩, hfits⟩
  · exact absurd (hother.mp heq).1 (by decide)
  · rw [hoffsets]
    decide

end Listing

end StackVM
