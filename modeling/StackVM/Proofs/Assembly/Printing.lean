/-
  StackVM.Proofs.Assembly.Printing — programs written out and read back.

  An instruction is written as one of its opcode's names and, if it has an operand, a gap and the operand, in any of the
  spellings of an unsigned number; a word of at least 2^63 may also be written as the negative number that it is in
  two's complement. A program is written with an instruction on each line. There are many texts for every program,
  which is why writing is a relation here, and the assembler reads all of them back.

  - `Written`, `Printed`: how instructions and programs may be written.
  - `words_append`, `words_gap`: how a line falls into words.
  - `Operand.read`, `Written.ofText`: an operand is read as its value, and a line as its instruction.
  - `assemble_printed`: a program is assembled to its own code, however it is written.
-/

import StackVM.Proofs.Assembly.Literals
import StackVM.Proofs.Code.Reading

namespace StackVM

namespace Assembly

open Text (byte ofString)
open Literal

/-! ## What is written -/

/-- How the operand of an instruction may be written. -/
inductive Operand (i : Instruction) : Text → Prop
  | unsigned {t : Text} : Spelling t i.operand.toNat → Operand i t
  | negative {t : Text} {n : Nat} : i.op = .pushWord → UInt64.size / 2 ≤ i.operand.toNat →
      i.operand.toNat + n = UInt64.size → Numeral 10 t n → Operand i (byte '-' :: t)

/-- Blanks on one line, at least one. -/
def Gap (t : Text) : Prop := t ≠ [] ∧ ∀ b ∈ t, Text.isBlank b = true ∧ b ≠ byte '\n'

/-- How an instruction may be written. -/
inductive Written (i : Instruction) : Text → Prop
  | bare {word : Text} : i.op.operandWidth = 0 → i.op.Named word → Written i word
  | withOperand {word gap operand : Text} : i.op.operandWidth ≠ 0 → i.op.Named word → Gap gap → Operand i operand →
      Written i (word ++ (gap ++ operand))

/-- How a program may be written: each instruction on a line of its own. The last line may be left without its
line feed. -/
inductive Printed : List Instruction → Text → Prop
  | nothing : Printed [] []
  | last {i : Instruction} {t : Text} : Written i t → Printed [i] t
  | more {i : Instruction} {is : List Instruction} {t rest : Text} : Written i t → Printed is rest →
      Printed (i :: is) (t ++ byte '\n' :: rest)

/-! ## How a line falls into words -/

/-- A byte that neither ends a word nor starts a comment. -/
def Inside (b : UInt8) : Prop := Text.isBlank b = false ∧ b ≠ byte ';' ∧ b ≠ byte '#'

instance (b : UInt8) : Decidable (Inside b) := inferInstanceAs (Decidable (_ ∧ _))

theorem inside_not_newline {b : UInt8} (hb : Inside b) : b ≠ byte '\n' :=
  forall_byte (P := fun b => Inside b → b ≠ byte '\n') (by decide +kernel) b hb

theorem words_blank {b : UInt8} (hb : Text.isBlank b = true) (rest : Text) : words (b :: rest) = words rest := by
  cases rest <;> simp [words, hb]

theorem words_gap {gap : Text} (hgap : ∀ b ∈ gap, Text.isBlank b = true) (rest : Text) :
    words (gap ++ rest) = words rest := by
  induction gap with
  | nil => rfl
  | cons b gap ih =>
    rw [List.cons_append, words_blank (hgap b List.mem_cons_self)]
    exact ih fun c hc => hgap c (List.mem_cons_of_mem b hc)

/-- A word ends at a blank. -/
theorem words_append {word rest : Text} (hne : word ≠ []) (hword : ∀ b ∈ word, Text.isBlank b = false)
    (hrest : ∀ b ∈ rest.head?, Text.isBlank b = true) : words (word ++ rest) = word :: words rest := by
  induction word with
  | nil => exact absurd rfl hne
  | cons b word ih =>
    have hb : ¬ Text.isBlank b = true := by simp [hword b List.mem_cons_self]
    cases word with
    | nil =>
      cases rest with
      | nil => simp [words, hb]
      | cons c rest =>
        have hc : Text.isBlank c = true := hrest c rfl
        simp [words, hb, hc]
    | cons c word =>
      have hc : ¬ Text.isBlank c = true := by simp [hword c (by simp)]
      have hlater := ih (by simp) fun d hd => hword d (List.mem_cons_of_mem b hd)
      rw [List.cons_append] at hlater
      rw [List.cons_append, List.cons_append, words, if_neg hb]
      simp only [if_neg hc, hlater]

theorem words_word {word : Text} (hne : word ≠ []) (hword : ∀ b ∈ word, Text.isBlank b = false) :
    words word = [word] := by
  have hwords : words (word ++ []) = word :: words [] := words_append hne hword (by simp)
  rwa [List.append_nil] at hwords

theorem withoutComment_of_inside {t : Text} (h : ∀ b ∈ t, b ≠ byte ';' ∧ b ≠ byte '#') : withoutComment t = t := by
  have happend := @List.takeWhile_append_of_pos _ (fun b => b != byte ';' && b != byte '#') t [] (by simpa using h)
  simpa [withoutComment] using happend

/-! ## Names and operands as words -/

variable {i : Instruction} {t word operand : Text} {n : Nat}

theorem names_inside : ∀ op ∈ Opcode.all, ∀ word ∈ Dialect.names op,
    word ≠ [] ∧ (∀ b ∈ word, Inside b) ∧ Line.labelOf? word = none := by
  decide +kernel

/-- A name is one word, and no label's definition. -/
theorem inside_of_named {op : Opcode} (hop : op.Named word) :
    word ≠ [] ∧ (∀ b ∈ word, Inside b) ∧ Line.labelOf? word = none :=
  names_inside op (Dialect.mem_all op) word (Dialect.mem_names.mpr hop)

theorem inside_of_digit {b : UInt8} (hb : isDigitOf 16 b = true) : Inside b ∧ b ≠ 0 :=
  forall_byte (P := fun b => isDigitOf 16 b = true → Inside b ∧ b ≠ 0) (by decide +kernel) b hb

theorem inside_of_numeral {base : Nat} (hbase : base ≤ 16) (h : Numeral base t n) : ∀ b ∈ t, Inside b ∧ b ≠ 0 :=
  fun b hb => inside_of_digit (isDigitOf_mono hbase (h.read.2.1 b hb))

theorem inside_of_hexMark (h : HexMark t) : ∀ b ∈ t, Inside b ∧ b ≠ 0 := by
  rcases h with rfl | rfl <;> exact forall_mem_of_all (by decide)

theorem inside_of_spelling (h : Spelling t n) : ∀ b ∈ t, Inside b ∧ b ≠ 0 := by
  cases h with
  | decimal hnum => exact inside_of_numeral (by decide) hnum
  | hexadecimal hmark hnum =>
    intro b hb
    rcases List.mem_append.mp hb with hb | hb
    · exact inside_of_hexMark hmark b hb
    · exact inside_of_numeral (by decide) hnum b hb

/-- A spelling starts with a decimal digit. -/
theorem Spelling.exists_cons (h : Spelling t n) : ∃ b rest, t = b :: rest ∧ isDigitOf 10 b = true := by
  cases h with
  | decimal hnum =>
    obtain ⟨b, rest, rfl, hb, -⟩ := hnum.exists_cons
    exact ⟨b, rest, rfl, hb⟩
  | @hexadecimal mark digits _ hmark hnum =>
    obtain ⟨x, -, rfl⟩ := hexMark_cases hmark
    exact ⟨byte '0', x :: digits, rfl, by decide⟩

theorem Operand.inside (h : Operand i operand) : operand ≠ [] ∧ ∀ b ∈ operand, Inside b ∧ b ≠ 0 := by
  cases h with
  | unsigned hspelling =>
    obtain ⟨b, rest, rfl, -⟩ := hspelling.exists_cons
    exact ⟨by simp, inside_of_spelling hspelling⟩
  | negative _ _ _ hnum =>
    refine ⟨by simp, fun b hb => ?_⟩
    rcases List.mem_cons.mp hb with rfl | hb
    · decide
    · exact inside_of_numeral (by decide) hnum b hb

/-! ## How an operand is read -/

theorem digit_not_float {b : UInt8} (hb : isDigitOf 10 b = true) :
    (b == byte '.' || Text.lower b == byte 'e') = false ∧ b ≠ byte '-' ∧ Text.isLetter b = false ∧ b ≠ byte '_' :=
  forall_byte (P := fun b => isDigitOf 10 b = true →
      (b == byte '.' || Text.lower b == byte 'e') = false ∧ b ≠ byte '-' ∧ Text.isLetter b = false ∧ b ≠ byte '_')
    (by decide +kernel) b hb

/-- Decimal digits are not taken for a floating-point number, with a minus or without. -/
theorem looksLikeFloat_of_numeral (hnum : Numeral 10 t n) :
    looksLikeFloat t = false ∧ looksLikeFloat (byte '-' :: t) = false := by
  have hno : (t.any fun b => b == byte '.' || Text.lower b == byte 'e') = false := by
    rw [List.any_eq_false]
    intro b hb
    rw [(digit_not_float (hnum.read.2.1 b hb)).1]
    exact Bool.false_ne_true
  have hminus : (byte '-' == byte '.' || Text.lower (byte '-') == byte 'e') = false := by decide
  rw [looksLikeFloat, looksLikeFloat, List.any_cons, hminus, hno, Bool.false_or, Bool.and_false, Bool.and_false]
  exact ⟨rfl, rfl⟩

/-- With a mark, the letter `e` is a digit. -/
theorem looksLikeFloat_of_spelling (h : Spelling t n) : looksLikeFloat t = false := by
  cases h with
  | decimal hnum => exact (looksLikeFloat_of_numeral hnum).1
  | @hexadecimal mark digits _ hmark hnum =>
    rw [looksLikeFloat, hasHexMark_iff.mpr ⟨mark, digits, hmark, hnum.read.1, rfl⟩]
    rfl

theorem token_of_inside (h : ∀ b ∈ t, Inside b ∧ b ≠ 0) : Token t := fun b hb => ⟨(h b hb).1.1, (h b hb).2⟩

theorem unsigned?_of_spelling (h : Spelling t i.operand.toNat) : unsigned? t = some i.operand :=
  (unsigned?_iff (token_of_inside (inside_of_spelling h))).mpr (accepted_of_spelling h)

/-- A negative number is read as the word that is its two's complement. -/
theorem negative?_of_numeral (hnum : Numeral 10 t n) (hhalf : UInt64.size / 2 ≤ i.operand.toNat)
    (hsum : i.operand.toNat + n = UInt64.size) : negative? (byte '-' :: t) = some i.operand := by
  have hzero : ∀ b ∈ byte '-' :: t, b ≠ 0 := by
    refine List.forall_mem_cons.mpr ⟨by decide, fun b hb => ?_⟩
    exact (inside_of_numeral (by decide) hnum b hb).2
  have hle : n ≤ UInt64.size / 2 := by
    have hsize : UInt64.size = 18446744073709551616 := rfl
    omega
  have hword : 0 - UInt64.ofNat n = i.operand := by
    have hn : UInt64.ofNat n + i.operand = 0 := by
      rw [← UInt64.ofNat_toNat (x := i.operand), ← UInt64.ofNat_add, Nat.add_comm, hsum]
      rfl
    rw [← hn, UInt64.add_comm, UInt64.add_sub_cancel]
  rw [negative?, untilZero_of_no_zero hzero, List.drop_succ_cons, List.drop_zero, (numeral_iff (by decide)).mp hnum,
    Option.bind_some, if_pos hle, hword]

theorem Operand.read (h : Operand i operand) : operandValue i.op operand = .ok i.operand := by
  by_cases hop : i.op.operandWidth = 8
  · rw [Dialect.eq_pushWord_of_width hop, Dialect.operandValue_pushWord]
    cases h with
    | unsigned hspelling =>
      obtain ⟨b, rest, rfl, hb⟩ := hspelling.exists_cons
      have hsign : ¬ ((b :: rest).head? == some (byte '-')) = true := by simp [(digit_not_float hb).2.1]
      rw [Literal.word, looksLikeFloat_of_spelling hspelling, if_neg Bool.false_ne_true, if_neg hsign,
        unsigned?_of_spelling hspelling]
      rfl
    | negative _ hhalf hsum hnum =>
      rw [Literal.word, (looksLikeFloat_of_numeral hnum).2, if_neg Bool.false_ne_true, if_pos (by simp),
        negative?_of_numeral hnum hhalf hsum]
      rfl
  · rw [Dialect.operandValue_of_width hop]
    cases h with
    | unsigned hspelling => exact unsigned?_of_spelling hspelling
    | negative hpush => rw [hpush] at hop; exact absurd rfl hop

/-! ## How a line is read -/

/-- An operand that stands for a number is no label. -/
theorem Operand.not_label (h : Operand i operand) (hop : i.op.operandWidth = 4) : ¬ Dialect.LabelName operand := by
  rintro ⟨first, rest, rfl, hfirst, -⟩
  cases h with
  | unsigned hspelling =>
    obtain ⟨b, rest, hcons, hb⟩ := hspelling.exists_cons
    obtain ⟨-, -, hletter, hunderscore⟩ := digit_not_float hb
    cases hcons
    rcases hfirst with hfirst | hfirst
    · rw [hletter] at hfirst; cases hfirst
    · exact hunderscore hfirst
  | negative hpush => rw [hpush] at hop; cases hop

/-- What is written is one line, without a comment. -/
theorem Written.plain (h : Written i t) : t ≠ [] ∧ (∀ b ∈ t, b ≠ byte ';' ∧ b ≠ byte '#') ∧ byte '\n' ∉ t := by
  have hinside : ∀ {b : UInt8}, Inside b → (b ≠ byte ';' ∧ b ≠ byte '#') ∧ b ≠ byte '\n' :=
    fun {b} => forall_byte (P := fun b => Inside b → (b ≠ byte ';' ∧ b ≠ byte '#') ∧ b ≠ byte '\n')
      (by decide +kernel) b
  have hblank : ∀ {b : UInt8}, Text.isBlank b = true → b ≠ byte ';' ∧ b ≠ byte '#' :=
    fun {b} => forall_byte (P := fun b => Text.isBlank b = true → b ≠ byte ';' ∧ b ≠ byte '#') (by decide +kernel) b
  suffices hall : t ≠ [] ∧ ∀ b ∈ t, (b ≠ byte ';' ∧ b ≠ byte '#') ∧ b ≠ byte '\n' from
    ⟨hall.1, fun b hb => (hall.2 b hb).1, fun hn => (hall.2 _ hn).2 rfl⟩
  cases h with
  | bare _ hname =>
    obtain ⟨hne, hword, -⟩ := inside_of_named hname
    exact ⟨hne, fun b hb => hinside (hword b hb)⟩
  | withOperand _ hname hgap hoperand =>
    obtain ⟨hne, hword, -⟩ := inside_of_named hname
    refine ⟨by simp [hne], fun b hb => ?_⟩
    rcases List.mem_append.mp hb with hb | hb
    · exact hinside (hword b hb)
    rcases List.mem_append.mp hb with hb | hb
    · exact ⟨hblank (hgap.2 b hb).1, (hgap.2 b hb).2⟩
    · exact hinside (hoperand.inside.2 b hb).1

/-- A line falls into the words that it was written with. -/
theorem Written.words (h : Written i t) (hfits : i.Fits) :
    ∃ word operands, words t = word :: operands ∧ i.op.Named word ∧ Dialect.Encodes i.op operands (.whole i) := by
  cases h with
  | bare hwidth hname =>
    obtain ⟨hne, hword, -⟩ := inside_of_named hname
    have hzero : i = ⟨i.op, 0⟩ := by
      have hlt : i.operand.toNat < 1 := by simpa [Instruction.Fits, hwidth] using hfits
      rw [← UInt64.toNat_inj.mp (show i.operand.toNat = UInt64.toNat 0 by rw [UInt64.toNat_zero]; omega)]
    refine ⟨t, [], words_word hne fun b hb => (hword b hb).1, hname, ?_⟩
    rw [hzero]
    exact .bare hwidth
  | @withOperand word gap operand hwidth hname hgap hoperand =>
    obtain ⟨hne, hword, -⟩ := inside_of_named hname
    obtain ⟨hsome, hinside⟩ := hoperand.inside
    have hblank : ∀ b ∈ (gap ++ operand).head?, Text.isBlank b = true := by
      obtain ⟨b, gap', rfl⟩ := List.exists_cons_of_ne_nil hgap.1
      simpa using (hgap.2 b List.mem_cons_self).1
    refine ⟨word, [operand], ?_, hname, ?_⟩
    · rw [words_append hne (fun b hb => (hword b hb).1) hblank, words_gap fun b hb => (hgap.2 b hb).1,
        words_word hsome fun b hb => (hinside b hb).1.1]
    · exact .literal hwidth (fun hlabel => hoperand.not_label hlabel.1 hlabel.2) hoperand.read hfits

/-- The line of an instruction is read as that instruction. -/
theorem Written.ofText (h : Written i t) (hfits : i.Fits) : Line.ofText t = ⟨none, .piece (.whole i)⟩ := by
  obtain ⟨word, operands, hwords, hname, hencodes⟩ := h.words hfits
  obtain ⟨-, -, hlabel⟩ := inside_of_named hname
  rw [Line.ofText, withoutComment_of_inside h.plain.2.1, hwords, Line.ofWords, hlabel]
  simp only [Dialect.ofWords_of_named hname hencodes]

/-! ## How a program is read -/

theorem lines_line (hno : byte '\n' ∉ t) (rest : Text) : Text.lines (t ++ byte '\n' :: rest) = t :: Text.lines rest := by
  induction t with
  | nil => simp [Text.lines]
  | cons b t ih =>
    rw [List.mem_cons, not_or] at hno
    rw [List.cons_append, Text.lines, if_neg (Ne.symm hno.1), ih hno.2]

theorem lines_last (hne : t ≠ []) (hno : byte '\n' ∉ t) : Text.lines t = [t] := by
  induction t with
  | nil => exact absurd rfl hne
  | cons b t ih =>
    rw [List.mem_cons, not_or] at hno
    rw [Text.lines, if_neg (Ne.symm hno.1)]
    cases t with
    | nil => rfl
    | cons c t => rw [ih (by simp) hno.2]

variable {is : List Instruction} {source : Text}

/-- The lines of a program add its code, and nothing else, to whatever has been assembled before them. -/
theorem addLines_printed (h : Printed is source) (hfits : ∀ i ∈ is, i.Fits) (d : Draft) (line : Nat) :
    d.addLines line source.lines = { d with writer := d.writer.append (Instruction.encoding is) } := by
  induction h generalizing d line with
  | nothing => simp [Text.lines, Draft.addLines, Writer.append]
  | last hi =>
    have hread := hi.ofText (hfits _ List.mem_cons_self)
    obtain ⟨hne, -, hno⟩ := hi.plain
    rw [lines_last hne hno, Draft.addLines, hread]
    simp [Draft.addLine, Draft.addStatement, Draft.addPiece, Draft.addLines]
  | more hi _ ih =>
    have hread := hi.ofText (hfits _ List.mem_cons_self)
    rw [lines_line hi.plain.2.2, Draft.addLines, hread, ih fun j hj => hfits j (List.mem_cons_of_mem _ hj)]
    simp [Draft.addLine, Draft.addStatement, Draft.addPiece, Writer.append_append]

/-- A draft without labels, jumps to labels and an entry is a program already. -/
theorem ofDraft_of_writer (w : Writer) : Assembly.ofDraft { Draft.empty with writer := w } = ⟨0, w.code, #[]⟩ := rfl

/-! ## How numbers are written out -/

theorem operand_decimal (i : Instruction) (zeros : Nat) :
    Operand i (List.replicate zeros (byte '0') ++ Text.decimal i.operand.toNat) :=
  .unsigned (.decimal ((numeral_decimal _).zeros (by decide) zeros))

/-- Hexadecimal digits may be small or capital. -/
theorem operand_hexadecimal {mark digits : Text} (hmark : HexMark mark)
    (hdigits : digits.map Text.lower = Text.hexadecimal i.operand.toNat) (zeros : Nat) :
    Operand i (mark ++ (List.replicate zeros (byte '0') ++ digits)) := by
  have hnum : Numeral 16 (digits.map Text.lower) i.operand.toNat := hdigits ▸ numeral_hexadecimal _
  exact .unsigned (.hexadecimal hmark ((hnum.of_lower (by decide)).zeros (by decide) zeros))

theorem operand_negative (hop : i.op = .pushWord) (hhalf : UInt64.size / 2 ≤ i.operand.toNat) (zeros : Nat) :
    Operand i (byte '-' :: (List.replicate zeros (byte '0') ++ Text.decimal (UInt64.size - i.operand.toNat))) := by
  have hlt : i.operand.toNat < UInt64.size := i.operand.toNat_lt
  exact .negative hop hhalf (by omega) ((numeral_decimal _).zeros (by decide) zeros)

theorem gap_space : Gap (ofString " ") := ⟨by decide, forall_mem_of_all (by decide)⟩

/-- Every instruction can be written. -/
theorem exists_written (i : Instruction) : ∃ t, Written i t := by
  by_cases hop : i.op.operandWidth = 0
  · exact ⟨_, .bare hop (.inl rfl)⟩
  · exact ⟨_, .withOperand hop (.inl rfl) gap_space (operand_decimal i 0)⟩

theorem exists_printed (is : List Instruction) : ∃ source, Printed is source := by
  induction is with
  | nil => exact ⟨[], .nothing⟩
  | cons i is ih =>
    obtain ⟨t, ht⟩ := exists_written i
    obtain ⟨rest, hrest⟩ := ih
    exact ⟨_, .more ht hrest⟩

/-- Every program whose operands fit can be written, and however it is written, it is assembled without an error, to
the code that a writer makes of it, from which it can be read back. -/
theorem assemble_printed (hfits : ∀ i ∈ is, i.Fits) :
    (∃ source, Printed is source) ∧ ∀ source, Printed is source →
      (assemble source).ok = true ∧ (assemble source).errors = #[] ∧ (assemble source).entry = 0 ∧
      Writer.empty.emitAll is = .ok ⟨(assemble source).code⟩ ∧
      Instruction.walk (assemble source).code 0 = .ok (is, (assemble source).code.size) := by
  refine ⟨exists_printed is, fun source h => ?_⟩
  have hassembled : assemble source = ⟨0, (Writer.empty.append (Instruction.encoding is)).code, #[]⟩ := by
    rw [assemble, addLines_printed h hfits]
    exact ofDraft_of_writer _
  have hcode : (Writer.empty.append (Instruction.encoding is)).code.toList = [] ++ Instruction.encoding is := by
    simp [Writer.append, Writer.empty]
  rw [hassembled]
  exact ⟨rfl, rfl, rfl, Writer.emitAll_of_fits hfits, Instruction.walk_encoding hcode hfits⟩

/-- Each way of writing an operand, at the ends of the range. -/
theorem assemble_printed_ends :
    let is : List Instruction := [⟨.prop, 255⟩, ⟨.int .sub, 0⟩, ⟨.jump, 0xFFFFFFFF⟩, ⟨.pushWord, 0x8000000000000000⟩,
      ⟨.pushWord, 0xEEEEEEEEEEEEEEEE⟩]
    let source := ofString ". 0xfF\n-\njmp 004294967295\npush_imm -9223372036854775808\npush_imm 0X00eEeEeEeEeEeEeEeE"
    (∀ i ∈ is, i.Fits) ∧ Printed is source ∧ (assemble source).ok = true ∧
      Instruction.walk (assemble source).code 0 = .ok (is, (assemble source).code.size) := by
  intro is source
  have hfits : ∀ i ∈ is, i.Fits := by decide
  have hindex : Operand ⟨.prop, 255⟩ _ :=
    operand_hexadecimal (.inl rfl) (show (ofString "fF").map Text.lower = _ by decide) 0
  have hword : Operand ⟨.pushWord, 0xEEEEEEEEEEEEEEEE⟩ _ :=
    operand_hexadecimal (.inr rfl) (show (ofString "eEeEeEeEeEeEeEeE").map Text.lower = _ by decide) 2
  have hprinted : Printed is _ :=
    .more (.withOperand (by decide) (.inr ⟨".", rfl, rfl⟩) gap_space hindex) <|
    .more (.bare rfl (.inr ⟨"-", rfl, rfl⟩)) <|
    .more (.withOperand (by decide) (.inr ⟨"jmp", rfl, rfl⟩) gap_space (operand_decimal _ 2)) <|
    .more (.withOperand (by decide) (.inl rfl) gap_space (operand_negative rfl (by decide) 0)) <|
    .last (.withOperand (by decide) (.inl rfl) gap_space hword)
  have hsource : Printed is source := by
    refine (congrArg (Printed is) ?_).mp hprinted
    decide
  obtain ⟨hok, -, -, -, hwalk⟩ := (assemble_printed hfits).2 source hsource
  exact ⟨hfits, hsource, hok, hwalk⟩

end Assembly

end StackVM
