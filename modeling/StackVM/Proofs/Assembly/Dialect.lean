/-
  StackVM.Proofs.Assembly.Dialect — the sources that can be assembled.

  A source is seen as its lines, and a line as its words. The dialect says what may stand on a line, given the lines
  before it, and what has to hold of the labels and the entry of the source as a whole. It is told without the
  assembler's own reading of a line; both are brought together here, kind by kind.

  - `WellFormed`: what a line has to be after the lines before it.
  - `InDialect`: what a source has to be.
  - `says_iff`, `enters_iff`, `jumpsTo_iff`, `phrase_iff`: how the assembler reads the words of a line.
-/

import StackVM.Proofs.Assembly.TwoPass

namespace StackVM

open Text (byte ofString)

/-- The words that stand for an opcode. -/
def Opcode.Named (op : Opcode) (word : Text) : Prop :=
  word = ofString op.name ∨ ∃ s, op.alias? = some s ∧ word = ofString s

namespace Assembly

namespace Dialect

/-! ## Words -/

/-- A letter or underscore, and then letters, digits, underscores and points. -/
def LabelName (name : Text) : Prop :=
  ∃ first rest, name = first :: rest ∧ (Text.isLetter first = true ∨ first = byte '_') ∧
    ∀ c ∈ rest, Text.isAlphanumeric c = true ∨ c = byte '_' ∨ c = byte '.'

/-- The line starts with a label: a word that ends in a colon and is more than the colon. -/
def Defines (ws : List Text) (name : Text) : Prop :=
  name ≠ [] ∧ ∃ rest, ws = (name ++ ofString ":") :: rest

/-- What is left of a line without its label, if it has one. -/
inductive Says : List Text → List Text → Prop
  | labelled {ws rest : List Text} {name : Text} : name ≠ [] → ws = (name ++ ofString ":") :: rest → Says ws rest
  | plain {ws : List Text} : (∀ name, ¬ Defines ws name) → Says ws ws

/-- What may be said on a line. -/
inductive Phrase : List Text → Prop
  | nothing : Phrase []
  | entry (target : Text) : Phrase [ofString ".entry", target]
  | bare {op : Opcode} {word : Text} : op.Named word → op.operandWidth = 0 → Phrase [word]
  | index {op : Opcode} {word operand : Text} {v : UInt64} : op.Named word → op.operandWidth = 1 →
      Literal.unsigned? operand = some v → v.toNat ≤ 255 → Phrase [word, operand]
  | jumpTo {op : Opcode} {word label : Text} : op.Named word → op.operandWidth = 4 → LabelName label →
      Phrase [word, label]
  | jump {op : Opcode} {word operand : Text} {v : UInt64} : op.Named word → op.operandWidth = 4 →
      Literal.unsigned? operand = some v → v.toNat < UInt32.size → Phrase [word, operand]
  | pushWord {word operand : Text} {v : UInt64} : Opcode.pushWord.Named word → Literal.word operand = .ok v →
      Phrase [word, operand]

/-! ## Lines -/

/-- The line gives an entry. -/
def Enters (ws : List Text) (target : Text) : Prop := Says ws [ofString ".entry", target]

/-- The line jumps to a label. -/
def JumpsTo (ws : List Text) (label : Text) : Prop :=
  ∃ op word, Opcode.Named op word ∧ op.operandWidth = 4 ∧ LabelName label ∧ Says ws [word, label]

/-- One of the lines defines the label. -/
def Defined (lines : List (List Text)) (name : Text) : Prop := LabelName name ∧ ∃ ws ∈ lines, Defines ws name

/-- None of the lines gives an entry. -/
def NoEntry (lines : List (List Text)) : Prop := ∀ ws ∈ lines, ∀ target, ¬ Enters ws target

/-- The label of a line, if it has one, is a new label. -/
def LabelFits (before : List (List Text)) (ws : List Text) : Prop :=
  ∀ name, Defines ws name → LabelName name ∧ ¬ Defined before name

/-- The rest of a line is a phrase, and no second entry. -/
def RestFits (before : List (List Text)) (ws : List Text) : Prop :=
  (∃ rest, Says ws rest ∧ Phrase rest) ∧ ∀ target, Enters ws target → NoEntry before

/-- A line that may follow the lines before it. -/
def WellFormed (before : List (List Text)) (ws : List Text) : Prop := LabelFits before ws ∧ RestFits before ws

/-- Something holds of the `n`-th line, the first of which is the line 1, and of the lines before it. -/
def OnLine (lines : List (List Text)) (n : Nat) (P : List (List Text) → List Text → Prop) : Prop :=
  ∃ before ws after, lines = before ++ ws :: after ∧ n = before.length + 1 ∧ P before ws

/-! ## Sources -/

/-- How many bytes of code the lines take. -/
def codeSize : List (List Text) → Nat
  | [] => 0
  | ws :: lines => TwoPass.size ws + codeSize lines

/-- The target of an entry directive is a label or an offset up to the end of the code. -/
def EntryFits (lines : List (List Text)) (target : Text) : Prop :=
  Defined lines target ∨ ∃ v, Literal.unsigned? target = some v ∧ v.toNat ≤ codeSize lines

structure InDialect (lines : List (List Text)) : Prop where
  wellFormed : ∀ before ws after, lines = before ++ ws :: after → WellFormed before ws
  jumps : ∀ ws ∈ lines, ∀ label, JumpsTo ws label → Defined lines label
  entry : ∀ ws ∈ lines, ∀ target, Enters ws target → EntryFits lines target

/-! ## Lines by number -/

section OnLine

variable {lines : List (List Text)} {ws : List Text} {n : Nat} {P Q : List (List Text) → List Text → Prop}

theorem not_onLine_nil : ¬ OnLine [] n P := by
  rintro ⟨before, ws, after, h, -⟩
  cases before <;> cases h

/-- What holds of a line of a longer source holds of an earlier line or of the last one. -/
theorem onLine_concat : OnLine (lines ++ [ws]) n P ↔ OnLine lines n P ∨ (n = lines.length + 1 ∧ P lines ws) := by
  constructor
  · rintro ⟨before, ws', after, h, hn, hp⟩
    rcases List.eq_nil_or_concat after with rfl | ⟨after, ws'', rfl⟩
    · obtain ⟨hlines, hlast⟩ := List.append_inj' h rfl
      subst hlines
      cases hlast
      exact .inr ⟨hn, hp⟩
    · rw [List.concat_eq_append, ← List.cons_append, ← List.append_assoc] at h
      obtain ⟨rfl, -⟩ := List.append_inj' h rfl
      exact .inl ⟨before, ws', after, rfl, hn, hp⟩
  · rintro (⟨before, ws', after, rfl, hn, hp⟩ | ⟨hn, hp⟩)
    · exact ⟨before, ws', after ++ [ws], by simp, hn, hp⟩
    · exact ⟨lines, ws, [], rfl, hn, hp⟩

theorem OnLine.bounds (h : OnLine lines n P) : 1 ≤ n ∧ n ≤ lines.length := by
  obtain ⟨before, ws, after, rfl, rfl, -⟩ := h
  simp only [List.length_append, List.length_cons]
  omega

theorem exists_onLine_of_mem (hws : ws ∈ lines) (hp : ∀ before, P before ws) : ∃ n, OnLine lines n P := by
  obtain ⟨before, after, rfl⟩ := List.append_of_mem hws
  exact ⟨_, before, ws, after, rfl, rfl, hp before⟩

end OnLine

/-! ## How words are read -/

open TwoPass (label? body)

variable {ws rest : List Text} {name word target label : Text} {op : Opcode}

theorem labelName_iff : LabelName name ↔ isLabelName name = true := by
  cases name with
  | nil => simp [LabelName, isLabelName]
  | cons b rest =>
    simp only [isLabelName, Bool.and_eq_true, Bool.or_eq_true, beq_iff_eq, List.all_eq_true, or_assoc]
    constructor
    · rintro ⟨first, rest', heq, hfirst, hrest⟩
      cases heq
      exact ⟨hfirst, hrest⟩
    · rintro ⟨hfirst, hrest⟩
      exact ⟨b, rest, rfl, hfirst, hrest⟩

theorem labelOf?_eq_some : Line.labelOf? word = some name ↔ name ≠ [] ∧ word = name ++ ofString ":" := by
  have hcolon : ofString ":" = [byte ':'] := by decide
  rw [hcolon]
  unfold Line.labelOf?
  constructor
  · intro h
    split at h
    next hword =>
      cases h
      simp only [Bool.and_eq_true, decide_eq_true_eq, beq_iff_eq] at hword
      obtain ⟨hlong, hlast⟩ := hword
      have hne : word ≠ [] := by rintro rfl; cases hlast
      rw [List.getLast?_eq_some_getLast hne, Option.some.injEq] at hlast
      refine ⟨fun hnil => ?_, ?_⟩
      · have := congrArg List.length hnil
        rw [List.length_dropLast, List.length_nil] at this
        omega
      · rw [← hlast, List.dropLast_concat_getLast hne]
    next => cases h
  · rintro ⟨hne, rfl⟩
    have hlong : 0 < name.length := List.length_pos_iff.mpr hne
    simp [hlong]

theorem defines_iff : Defines ws name ↔ label? ws = some name := by
  cases ws with
  | nil => simp [Defines, label?]
  | cons word rest =>
    show _ ↔ Line.labelOf? word = some name
    rw [labelOf?_eq_some]
    simp [Defines]

theorem says_iff : Says ws rest ↔ rest = body ws := by
  constructor
  · intro h
    cases h with
    | labelled hne heq =>
      rw [body, defines_iff.mp ⟨hne, _, heq⟩, heq]
      rfl
    | plain hno =>
      have hlabel : label? ws = none := by
        cases h : label? ws with
        | none => rfl
        | some name => exact absurd (defines_iff.mpr h) (hno name)
      rw [body, hlabel]
      rfl
  · rintro rfl
    cases h : label? ws with
    | none =>
      rw [body, h]
      exact .plain fun name hname => by rw [defines_iff, h] at hname; cases hname
    | some name =>
      obtain ⟨hne, rest, rfl⟩ := defines_iff.mpr h
      rw [body, h]
      exact .labelled hne rfl

/-! ## How instructions are named -/

/-- The words that stand for an opcode, listed. -/
def names (op : Opcode) : List Text := ofString op.name :: (op.alias?.map ofString).toList

theorem mem_names : word ∈ names op ↔ op.Named word := by
  unfold names Opcode.Named
  cases op.alias? <;> simp

theorem mem_all (op : Opcode) : op ∈ Opcode.all := by
  cases op with
  | pushInput side => cases side <;> decide
  | int op => cases op <;> decide
  | float op => cases op <;> decide
  | _ => decide

/-- No word stands for two opcodes. -/
theorem names_apart : ∀ op ∈ Opcode.all, ∀ op' ∈ Opcode.all, ∀ word ∈ names op, word ∈ names op' → op = op' := by
  decide +kernel

/-- No directive stands for an opcode. -/
theorem names_not_directive : ∀ op ∈ Opcode.all, ∀ word ∈ names op, Statement.isDirective word = false := by
  decide +kernel

theorem answersTo_iff : op.answersTo word = true ↔ op.Named word := by
  unfold Opcode.answersTo Opcode.Named
  rw [Bool.or_eq_true, beq_iff_eq, Option.any_eq_true, eq_comm]
  refine or_congr_right (exists_congr fun s => and_congr_right fun _ => ?_)
  rw [beq_iff_eq, eq_comm]

theorem named_iff : op.Named word ↔ Opcode.ofName? word = some op := by
  unfold Opcode.ofName?
  constructor
  · intro hop
    have hsome : (Opcode.all.find? (·.answersTo word)).isSome = true :=
      List.find?_isSome.mpr ⟨op, mem_all op, answersTo_iff.mpr hop⟩
    obtain ⟨op', hop'⟩ := Option.isSome_iff_exists.mp hsome
    have hanswers := List.find?_some hop'
    have hnamed : op'.Named word := answersTo_iff.mp hanswers
    rw [hop', names_apart op (mem_all op) op' (mem_all op') word (mem_names.mpr hop) (mem_names.mpr hnamed)]
  · intro h
    have hanswers := List.find?_some h
    exact answersTo_iff.mp hanswers

theorem isDirective_of_named (hop : op.Named word) : Statement.isDirective word = false :=
  names_not_directive op (mem_all op) word (mem_names.mpr hop)

/-! ## How instructions are read -/

variable {operands : List Text} {operand : Text} {p : Piece} {v : UInt64}

/-- The pieces that an opcode and its operands can be read as. -/
inductive Encodes (op : Opcode) : List Text → Piece → Prop
  | bare : op.operandWidth = 0 → Encodes op [] (.whole ⟨op, 0⟩)
  | jumpTo {label : Text} : op.operandWidth = 4 → LabelName label → Encodes op [label] (.jumpTo op label)
  | literal {operand : Text} {v : UInt64} : op.operandWidth ≠ 0 → ¬ (op.operandWidth = 4 ∧ LabelName operand) →
      operandValue op operand = .ok v → Instruction.Fits ⟨op, v⟩ → Encodes op [operand] (.whole ⟨op, v⟩)

theorem isLabelOperand_iff : (op.operandWidth = 4 && isLabelName operand) = true ↔
    op.operandWidth = 4 ∧ LabelName operand := by
  rw [Bool.and_eq_true, decide_eq_true_eq, labelName_iff]

theorem pieceOf_iff : pieceOf op operands = .ok p ↔ Encodes op operands p := by
  constructor
  · intro hp
    unfold pieceOf at hp
    by_cases hwidth : op.operandWidth = 0
    · rw [if_pos hwidth] at hp
      cases operands with
      | nil => cases hp; exact .bare hwidth
      | cons operand operands => cases hp
    · rw [if_neg hwidth] at hp
      match operands with
      | [] | _ :: _ :: _ => cases hp
      | [operand] =>
        simp only at hp
        by_cases hlabel : (op.operandWidth = 4 && isLabelName operand) = true
        · rw [if_pos hlabel] at hp
          cases hp
          obtain ⟨hfour, hname⟩ := isLabelOperand_iff.mp hlabel
          exact .jumpTo hfour hname
        · rw [if_neg hlabel] at hp
          obtain ⟨v, hv, rfl, hfits⟩ := literalPiece_eq_ok hwidth hp
          exact .literal hwidth (fun h => hlabel (isLabelOperand_iff.mpr h)) hv hfits
  · intro hp
    cases hp with
    | bare hwidth => unfold pieceOf; rw [if_pos hwidth]; rfl
    | jumpTo hfour hname =>
      have hwidth : op.operandWidth ≠ 0 := by omega
      simp only [pieceOf, if_neg hwidth, if_pos (isLabelOperand_iff.mpr ⟨hfour, hname⟩)]
    | literal hwidth hlabel hv hfits =>
      simp only [pieceOf, if_neg hwidth, if_neg (mt isLabelOperand_iff.mp hlabel), literalPiece, hv,
        (Writer.refusal?_eq_none_iff hwidth).mpr hfits]

/-- An operand that can be read and fits makes a piece, be it a label or a literal. -/
theorem exists_encodes (hwidth : op.operandWidth ≠ 0) (hv : operandValue op operand = .ok v)
    (hfits : Instruction.Fits ⟨op, v⟩) : ∃ p, Encodes op [operand] p := by
  by_cases hlabel : op.operandWidth = 4 ∧ LabelName operand
  · exact ⟨_, .jumpTo hlabel.1 hlabel.2⟩
  · exact ⟨_, .literal hwidth hlabel hv hfits⟩

theorem eq_pushWord_of_width (hop : op.operandWidth = 8) : op = .pushWord := by
  cases op with
  | pushWord => rfl
  | _ => cases hop

theorem operandValue_pushWord : operandValue .pushWord operand = .ok v ↔ Literal.word operand = .ok v := by
  unfold operandValue
  cases Literal.word operand <;> simp

theorem operandValue_of_width (hop : op.operandWidth ≠ 8) :
    operandValue op operand = .ok v ↔ Literal.unsigned? operand = some v := by
  unfold operandValue
  split
  next => exact absurd rfl hop
  next => cases Literal.unsigned? operand <;> simp

theorem fits_of_width_one (hop : op.operandWidth = 1) : Instruction.Fits ⟨op, v⟩ ↔ v.toNat ≤ 255 := by
  show v.toNat < 1 <<< (8 * op.operandWidth) ↔ _
  rw [hop]
  exact Nat.lt_succ_iff

theorem fits_of_width_four (hop : op.operandWidth = 4) : Instruction.Fits ⟨op, v⟩ ↔ v.toNat < UInt32.size := by
  show v.toNat < 1 <<< (8 * op.operandWidth) ↔ _
  rw [hop]
  exact Iff.rfl

theorem phrase_of_encodes (hop : op.Named word) (hp : Encodes op operands p) : Phrase (word :: operands) := by
  cases hp with
  | bare hwidth => exact .bare hop hwidth
  | jumpTo hfour hname => exact .jumpTo hop hfour hname
  | @literal operand v hwidth hlabel hv hfits =>
    rcases op.operandWidth_cases with h | h | h | h
    · exact absurd h hwidth
    · exact .index hop h ((operandValue_of_width (by omega)).mp hv) ((fits_of_width_one h).mp hfits)
    · exact .jump hop h ((operandValue_of_width (by omega)).mp hv) ((fits_of_width_four h).mp hfits)
    · obtain rfl := eq_pushWord_of_width h
      exact .pushWord hop (operandValue_pushWord.mp hv)

/-! ## How statements are read -/

theorem ofWords_of_named (hop : op.Named word) (hp : Encodes op operands p) :
    Statement.ofWords (word :: operands) = .piece p := by
  rw [Statement.ofWords, if_neg (Bool.eq_false_iff.mp (isDirective_of_named hop)), Statement.ofInstruction]
  simp only [named_iff.mp hop, pieceOf_iff.mpr hp]

theorem ofWords_entry (target : Text) : Statement.ofWords [ofString ".entry", target] = .entry target := by
  rw [Statement.ofWords, if_pos TwoPass.isDirective_entry, Statement.ofDirective, if_pos (beq_self_eq_true _)]

/-- What a line without a fault says, by the words after its label. -/
inductive Told : List Text → Statement → Prop
  | nothing : Told [] .nothing
  | entry (target : Text) : Told [ofString ".entry", target] (.entry target)
  | piece {op : Opcode} {word : Text} {operands : List Text} {p : Piece} : op.Named word → Encodes op operands p →
      Told (word :: operands) (.piece p)

theorem Told.ofWords {st : Statement} (h : Told rest st) : Statement.ofWords rest = st := by
  cases h with
  | nothing => rfl
  | entry target => exact ofWords_entry target
  | piece hop hp => exact ofWords_of_named hop hp

theorem told_or_faulty (rest : List Text) :
    Told rest (Statement.ofWords rest) ∨ ∃ p, Statement.ofWords rest = .faulty p := by
  cases rest with
  | nil => exact .inl .nothing
  | cons word operands =>
    rw [Statement.ofWords]
    split
    next =>
      unfold Statement.ofDirective
      split
      next hword =>
        obtain rfl := eq_of_beq hword
        cases operands with
        | nil => exact .inr ⟨_, rfl⟩
        | cons target more =>
          cases more with
          | nil => exact .inl (.entry target)
          | cons => exact .inr ⟨_, rfl⟩
      next => exact .inr ⟨_, rfl⟩
    next =>
      unfold Statement.ofInstruction
      split
      next => exact .inr ⟨_, rfl⟩
      next op hop =>
        split
        next p hp => exact .inl (.piece (named_iff.mpr hop) (pieceOf_iff.mp hp))
        next => exact .inr ⟨_, rfl⟩

theorem told_of_eq {st : Statement} (hst : Statement.ofWords rest = st) (hfault : ∀ p, st ≠ .faulty p) :
    Told rest st := by
  rcases told_or_faulty rest with h | ⟨p, hp⟩
  · exact hst ▸ h
  · exact absurd (hst.symm.trans hp) (hfault p)

/-- The assembler finds no fault with what is a phrase, and with nothing else. -/
theorem phrase_iff : Phrase rest ↔ ∀ p, Statement.ofWords rest ≠ .faulty p := by
  constructor
  · intro h p hp
    have htold : ∃ st, Told rest st := by
      cases h with
      | nothing => exact ⟨_, .nothing⟩
      | entry target => exact ⟨_, .entry target⟩
      | bare hop hwidth => exact ⟨_, .piece hop (.bare hwidth)⟩
      | jumpTo hop hfour hname => exact ⟨_, .piece hop (.jumpTo hfour hname)⟩
      | index hop hone hv hle =>
        obtain ⟨p, hp⟩ := exists_encodes (by omega) ((operandValue_of_width (by omega)).mpr hv)
          ((fits_of_width_one hone).mpr hle)
        exact ⟨_, .piece hop hp⟩
      | jump hop hfour hv hlt =>
        obtain ⟨p, hp⟩ := exists_encodes (by omega) ((operandValue_of_width (by omega)).mpr hv)
          ((fits_of_width_four hfour).mpr hlt)
        exact ⟨_, .piece hop hp⟩
      | @pushWord _ _ v hop hv =>
        obtain ⟨p, hp⟩ := exists_encodes (by decide) (operandValue_pushWord.mpr hv) v.toNat_lt
        exact ⟨_, .piece hop hp⟩
    obtain ⟨st, hst⟩ := htold
    rw [hst.ofWords] at hp
    cases hst <;> cases hp
  · intro h
    have htold := told_of_eq rfl h
    generalize Statement.ofWords rest = st at htold
    cases htold with
    | nothing => exact .nothing
    | entry target => exact .entry target
    | piece hop hp => exact phrase_of_encodes hop hp

/-! ## How lines are read -/

theorem says_phrase_iff : (∃ rest, Says ws rest ∧ Phrase rest) ↔ ∀ p, Statement.ofWords (body ws) ≠ .faulty p := by
  rw [← phrase_iff]
  constructor
  · rintro ⟨rest, hsays, hphrase⟩
    exact says_iff.mp hsays ▸ hphrase
  · intro h
    exact ⟨_, says_iff.mpr rfl, h⟩

theorem enters_iff : Enters ws target ↔ Statement.ofWords (body ws) = .entry target := by
  constructor
  · intro h
    rw [← says_iff.mp h]
    exact ofWords_entry target
  · intro h
    have htold := told_of_eq h (by simp)
    refine says_iff.mpr ?_
    generalize body ws = rest at htold
    cases htold
    rfl

theorem jumpsTo_iff : JumpsTo ws label ↔ ∃ op, Statement.ofWords (body ws) = .piece (.jumpTo op label) := by
  constructor
  · rintro ⟨op, word, hop, hfour, hname, hsays⟩
    refine ⟨op, ?_⟩
    rw [← says_iff.mp hsays]
    exact ofWords_of_named hop (.jumpTo hfour hname)
  · rintro ⟨op, h⟩
    have htold := told_of_eq h (by simp)
    have hsays : Says ws (body ws) := says_iff.mpr rfl
    generalize body ws = rest at htold hsays
    cases htold with
    | @piece op' word _ _ hop hp =>
      cases hp with
      | jumpTo hfour hname => exact ⟨op, word, hop, hfour, hname, hsays⟩

end Dialect

end Assembly

end StackVM
