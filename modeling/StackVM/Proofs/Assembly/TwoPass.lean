/-
  StackVM.Proofs.Assembly.TwoPass — assembling in two passes.

  A source can be assembled without filling anything in later. The first pass adds up how long the instructions
  are and so finds where each label stands; the second writes every instruction with the value of its operand. It
  takes the words of each line as they are and says nothing about what is wrong with a source.

  - `labelOffset?`, `program?`, `entryOffset?`: the passes.
  - `reads`: what a line says, in terms of its words.
  - `pieceOf_eq_ok`: the piece read from an instruction's line becomes what the second pass writes for it, once the
    labels are known.
-/

import StackVM.Assembly.Basic
import StackVM.Proofs.Code.Encoding

namespace StackVM

namespace Assembly

namespace TwoPass

open Text (ofString)

/-! ## Lines as words -/

/-- The words of each line of a source, comments left out. -/
def wordLines (source : Text) : List (List Text) := source.lines.map fun t => words (withoutComment t)

/-- The label that a line defines. -/
def label? (ws : List Text) : Option Text := ws.head?.bind Line.labelOf?

/-- The words of a line after its label. -/
def body (ws : List Text) : List Text := if (label? ws).isSome then ws.tail else ws

/-- The opcode and the operands of a line with an instruction. -/
def instruction? (ws : List Text) : Option (Opcode × List Text) :=
  match body ws with
  | [] => none
  | word :: operands =>
    if Statement.isDirective word then none else (Opcode.ofName? word).map fun op => (op, operands)

/-- The operand of a line with the entry directive. -/
def entryTarget? (ws : List Text) : Option Text :=
  match body ws with
  | [word, target] => if word = ofString ".entry" then some target else none
  | _ => none

/-- The passes know what to do with the line: it is empty but for a label, or it has an instruction or an entry. -/
def Known (ws : List Text) : Prop :=
  body ws = [] ∨ (instruction? ws).isSome = true ∨ (entryTarget? ws).isSome = true

/-! ## The first pass -/

/-- How many bytes of code a line takes. -/
def size (ws : List Text) : Nat := (instruction? ws).elim 0 fun i => 1 + i.1.operandWidth

/-- Where a label stands: after all instructions of the lines before the one that defines it. The first line
starts at `offset`. -/
def labelOffset? (name : Text) (offset : Nat) : List (List Text) → Option Nat
  | [] => none
  | ws :: lines =>
    if label? ws = some name then some offset else labelOffset? name (offset + size ws) lines

/-! ## The second pass -/

/-- The value of an operand: zero where there is none, a label's offset modulo 2^32, or what a literal says. -/
def value? (labels : Text → Option Nat) (op : Opcode) : List Text → Option UInt64
  | [] => if op.operandWidth = 0 then some 0 else none
  | [operand] =>
    if op.operandWidth = 0 then none
    else if op.operandWidth = 4 && isLabelName operand then
      (labels operand).map fun offset => (UInt32.ofNat offset).toUInt64
    else (operandValue op operand).toOption
  | _ => none

/-- The instructions of the lines, in order. -/
def instructions? (labels : Text → Option Nat) : List (List Text) → Option (List Instruction)
  | [] => some []
  | ws :: lines =>
    match instruction? ws with
    | none => instructions? labels lines
    | some (op, operands) =>
      (value? labels op operands).bind fun v => (instructions? labels lines).map (⟨op, v⟩ :: ·)

/-- Where the labels of a source stand. -/
def labels (source : Text) (name : Text) : Option Nat := labelOffset? name 0 (wordLines source)

/-- The instructions of a source. -/
def program? (source : Text) : Option (List Instruction) := instructions? (labels source) (wordLines source)

/-- The entry of a source: a label's offset, a number, or zero where no directive gives another. -/
def entryOffset? (source : Text) : Option Nat :=
  match (wordLines source).findSome? entryTarget? with
  | none => some 0
  | some target => (labels source target).or ((Literal.unsigned? target).map (·.toNat))

theorem entryOffset?_eq (source : Text) : entryOffset? source =
    ((wordLines source).findSome? entryTarget?).elim (some 0) fun target =>
      (labels source target).or ((Literal.unsigned? target).map (·.toNat)) := by
  unfold entryOffset?
  cases (wordLines source).findSome? entryTarget? <;> rfl

/-! ## What a line says -/

theorem ofWords_eq (ws : List Text) : Line.ofWords ws = ⟨label? ws, Statement.ofWords (body ws)⟩ := by
  cases ws with
  | nil => rfl
  | cons word rest =>
    simp only [Line.ofWords, label?, body, List.head?_cons, Option.bind_some, List.tail_cons]
    split
    next name hname => simp [hname]
    next hno => simp [hno]

/-- What a line says after its label, the words of which are `ws`. -/
inductive Reads (ws : List Text) : Statement → Prop
  | nothing : body ws = [] → Reads ws .nothing
  | piece {op : Opcode} {operands : List Text} {p : Piece} : instruction? ws = some (op, operands) →
      pieceOf op operands = .ok p → entryTarget? ws = none → Reads ws (.piece p)
  | entry {target : Text} : instruction? ws = none → entryTarget? ws = some target → Reads ws (.entry target)
  | faulty (p : Problem) : Reads ws (.faulty p)

/-- The entry directive is no instruction. -/
theorem isDirective_entry : Statement.isDirective (ofString ".entry") = true := by decide

theorem entryTarget?_of_not_directive {ws : List Text} {word : Text} {operands : List Text}
    (hbody : body ws = word :: operands) (hd : Statement.isDirective word = false) : entryTarget? ws = none := by
  have hne : word ≠ ofString ".entry" := by
    rintro rfl
    rw [isDirective_entry] at hd
    cases hd
  unfold entryTarget?
  rw [hbody]
  split
  next h => rw [List.cons.injEq] at h; rw [if_neg (h.1 ▸ hne)]
  next => rfl

theorem instruction?_of_empty {ws : List Text} (hbody : body ws = []) : instruction? ws = none := by
  simp [instruction?, hbody]

theorem entryTarget?_of_empty {ws : List Text} (hbody : body ws = []) : entryTarget? ws = none := by
  simp [entryTarget?, hbody]

/-- A statement read from a line is one of the four. -/
theorem reads (ws : List Text) : Reads ws (Statement.ofWords (body ws)) := by
  cases hbody : body ws with
  | nil => exact .nothing hbody
  | cons word operands =>
    rw [Statement.ofWords]
    split
    next hd =>
      have hno : instruction? ws = none := by simp [instruction?, hbody, hd]
      unfold Statement.ofDirective
      split
      next hword =>
        match operands, hbody with
        | [], _ | _ :: _ :: _, _ => exact .faulty _
        | [target], hbody => exact .entry hno (by simp [entryTarget?, hbody, eq_of_beq hword])
      next => exact .faulty _
    next hd =>
      have hentry := entryTarget?_of_not_directive hbody (Bool.eq_false_iff.mpr hd)
      unfold Statement.ofInstruction
      split
      next => exact .faulty _
      next op hop =>
        have hi : instruction? ws = some (op, operands) := by simp [instruction?, hbody, hd, hop]
        split
        next p hp => exact .piece hi hp hentry
        next p _ => exact .faulty p

end TwoPass

/-! ## What a piece stands for -/

namespace Piece

open Instruction (total)

/-- A piece as it is first written: a jump to a label has an empty target. -/
def drafted : Piece → Instruction
  | whole i => i
  | jumpTo op _ => ⟨op, 0⟩

/-- The instruction that a piece becomes, given where the labels stand. -/
def resolved (labels : Text → Option Nat) : Piece → Option Instruction
  | whole i => some i
  | jumpTo op label => (labels label).map fun offset => ⟨op, (UInt32.ofNat offset).toUInt64⟩

/-- What every piece read from a line satisfies. -/
def Sound : Piece → Prop
  | whole i => i.Fits
  | jumpTo op label => op.operandWidth = 4 ∧ isLabelName label = true

theorem drafted_of_resolved {labels : Text → Option Nat} {p : Piece} {i : Instruction}
    (hi : p.resolved labels = some i) : p.drafted.op = i.op := by
  cases p with
  | whole j => cases hi; rfl
  | jumpTo op label =>
    obtain ⟨offset, -, rfl⟩ := Option.map_eq_some_iff.mp hi
    rfl

theorem fits_of_resolved {labels : Text → Option Nat} {p : Piece} {i : Instruction} (hp : p.Sound)
    (hi : p.resolved labels = some i) : i.Fits := by
  cases p with
  | whole j => cases hi; exact hp
  | jumpTo op label =>
    obtain ⟨offset, -, rfl⟩ := Option.map_eq_some_iff.mp hi
    rw [Instruction.Fits, hp.1, UInt32.toNat_toUInt64]
    exact UInt32.toNat_lt _

end Piece

theorem literalPiece_eq_ok {op : Opcode} {operand : Text} {p : Piece} (hop : op.operandWidth ≠ 0)
    (hp : literalPiece op operand = .ok p) :
    ∃ v, operandValue op operand = .ok v ∧ p = .whole ⟨op, v⟩ ∧ Instruction.Fits ⟨op, v⟩ := by
  unfold literalPiece at hp
  cases hv : operandValue op operand with
  | error e => rw [hv] at hp; cases hp
  | ok v =>
    rw [hv] at hp
    cases hr : Writer.refusal? op v with
    | some e => simp only [hr] at hp; cases hp
    | none =>
      simp only [hr, Except.ok.injEq] at hp
      exact ⟨v, rfl, hp.symm, (Writer.refusal?_eq_none_iff hop).mp hr⟩

/-- What is read from an instruction's line is what the second pass writes for it. -/
theorem pieceOf_eq_ok {op : Opcode} {operands : List Text} {p : Piece} (hp : pieceOf op operands = .ok p) :
    p.Sound ∧ p.drafted.op = op ∧
      ∀ labels, p.resolved labels = (TwoPass.value? labels op operands).map (⟨op, ·⟩) := by
  unfold pieceOf at hp
  by_cases hop : op.operandWidth = 0
  · rw [if_pos hop] at hp
    match operands with
    | [] =>
      cases hp
      refine ⟨by simp [Piece.Sound, Instruction.Fits, hop], rfl, fun labels => ?_⟩
      simp [Piece.resolved, TwoPass.value?, hop]
    | _ :: _ => cases hp
  · rw [if_neg hop] at hp
    match operands with
    | [] | _ :: _ :: _ => cases hp
    | [operand] =>
      simp only at hp
      by_cases hlabel : (op.operandWidth = 4 && isLabelName operand) = true
      · rw [if_pos hlabel] at hp
        cases hp
        refine ⟨by simpa [Piece.Sound] using hlabel, rfl, fun labels => ?_⟩
        simp only [Piece.resolved, TwoPass.value?, if_neg hop, if_pos hlabel, Option.map_map]
        rfl
      · rw [if_neg hlabel] at hp
        obtain ⟨v, hv, rfl, hfits⟩ := literalPiece_eq_ok hop hp
        refine ⟨hfits, rfl, fun labels => ?_⟩
        simp only [Piece.resolved, TwoPass.value?, if_neg hop, if_neg hlabel, hv, Except.toOption, Option.map_some]

end Assembly

end StackVM
