/-
  StackVM.Assembly.Line — one line of a source.

  A line ends where a comment starts, at the first `;` or `#`, and is cut into words at blanks. A first
  word that ends in a colon names a label. Of the words that remain, a first one that starts with a point
  (and is more than the point, which is an instruction's second name) is a directive; any other is an
  instruction. What an instruction stores depends on its own line alone, except for the target of a jump
  to a label, which is known only when all labels are.
-/

import StackVM.Assembly.Problem

namespace StackVM

namespace Assembly

open Text (byte ofString)

/-! ## Words -/

/-- The part of a line before its comment. -/
def withoutComment (t : Text) : Text := t.takeWhile fun b => b != byte ';' && b != byte '#'

/-- The maximal runs of bytes that are not blank. -/
def words : Text → List Text
  | [] => []
  | b :: rest =>
    if Text.isBlank b then words rest
    else match rest with
      | [] => [[b]]
      | c :: _ =>
        if Text.isBlank c then [b] :: words rest
        else match words rest with
          | [] => [[b]]
          | w :: ws => (b :: w) :: ws

/-- A letter or underscore, and then letters, digits, underscores and points. -/
def isLabelName : Text → Bool
  | [] => false
  | b :: rest =>
    (Text.isLetter b || b == byte '_') &&
      rest.all fun c => Text.isAlphanumeric c || c == byte '_' || c == byte '.'

/-! ## Instructions -/

/-- What an instruction's line adds to the code. -/
inductive Piece
  /-- All of the instruction is known. -/
  | whole (i : Instruction)
  /-- A jump to wherever the label turns out to be. -/
  | jumpTo (op : Opcode) (label : Text)
  deriving DecidableEq, Repr

namespace Piece

/-- How many bytes of code the piece takes. -/
def size : Piece → Nat
  | whole i => i.length
  | jumpTo op _ => 1 + op.operandWidth

end Piece

/-- The value of an operand that is not a label. -/
def operandValue (op : Opcode) (operand : Text) : Except Problem UInt64 :=
  match op with
  | .pushWord =>
    match Literal.word operand with
    | .ok v => .ok v
    | .error kind => .error (.invalidWord kind operand)
  | _ =>
    match Literal.unsigned? operand with
    | some v => .ok v
    | none => .error (.notANumber op operand)

/-- An instruction with a literal operand, if the operand can be read and fits. -/
def literalPiece (op : Opcode) (operand : Text) : Except Problem Piece :=
  match operandValue op operand with
  | .error p => .error p
  | .ok v =>
    match Writer.refusal? op v with
    | some e => .error (.doesNotFit e)
    | none => .ok (.whole ⟨op, v⟩)

/-- The piece of code that an opcode with these operand words stands for. -/
def pieceOf (op : Opcode) (operands : List Text) : Except Problem Piece :=
  if op.operandWidth = 0 then
    if operands.isEmpty then .ok (.whole ⟨op, 0⟩) else .error (.takesNoOperand op)
  else match operands with
    | [operand] =>
      if op.operandWidth = 4 && isLabelName operand then .ok (.jumpTo op operand)
      else literalPiece op operand
    | _ => .error (.needsOneOperand op)

/-! ## Statements -/

/-- What a line says after its label. -/
inductive Statement
  | nothing
  | piece (p : Piece)
  | entry (target : Text)
  | faulty (p : Problem)
  deriving DecidableEq, Repr

namespace Statement

def isDirective (word : Text) : Bool := 1 < word.length && word.head? == some (byte '.')

def ofDirective (word : Text) (operands : List Text) : Statement :=
  if word == ofString ".entry" then
    match operands with
    | [target] => entry target
    | _ => faulty .entryOperands
  else faulty (.unknownDirective word)

def ofInstruction (word : Text) (operands : List Text) : Statement :=
  match Opcode.ofName? word with
  | none => faulty (.unknownInstruction word)
  | some op =>
    match pieceOf op operands with
    | .ok p => piece p
    | .error p => faulty p

def ofWords : List Text → Statement
  | [] => nothing
  | word :: operands =>
    if isDirective word then ofDirective word operands else ofInstruction word operands

end Statement

/-- A line, read. -/
structure Line where
  /-- The name before the colon, valid or not. -/
  label? : Option Text
  statement : Statement
  deriving DecidableEq, Repr

namespace Line

/-- The name in a word that ends in a colon and is more than the colon. -/
def labelOf? (word : Text) : Option Text :=
  if 1 < word.length && word.getLast? == some (byte ':') then some word.dropLast else none

def ofWords : List Text → Line
  | [] => ⟨none, .nothing⟩
  | word :: rest =>
    match labelOf? word with
    | some name => ⟨some name, Statement.ofWords rest⟩
    | none => ⟨none, Statement.ofWords (word :: rest)⟩

def ofText (t : Text) : Line := ofWords (words (withoutComment t))

end Line

end Assembly

end StackVM
