/-
  StackVM.Assembly.Problem — what can be wrong with a source.

  Every problem stands on one line of the source. Its message repeats the words of the line as they were
  written, byte for byte; opcodes go by their first name.
-/

import StackVM.Literal
import StackVM.Writer

namespace StackVM

namespace Assembly

open Text (ofString decimal quoted)

inductive Problem
  | invalidLabel (name : Text)
  | duplicateLabel (name : Text)
  | unknownDirective (word : Text)
  | entryOperands
  | duplicateEntry
  | unknownInstruction (word : Text)
  | takesNoOperand (op : Opcode)
  | needsOneOperand (op : Opcode)
  /-- The operand of an index or a jump is no unsigned literal. -/
  | notANumber (op : Opcode) (operand : Text)
  /-- The operand of a word to push is no literal. -/
  | invalidWord (kind : Literal.WordError) (operand : Text)
  | doesNotFit (refusal : Writer.EmitError)
  | undefinedLabel (name : Text)
  | undefinedEntry (name : Text)
  | entryPastEnd (offset : Nat)
  deriving DecidableEq, Repr

def Problem.message : Problem → Text
  | invalidLabel name => ofString "invalid label name " ++ quoted name
  | duplicateLabel name => ofString "duplicate label " ++ quoted name
  | unknownDirective word => ofString "unknown directive " ++ quoted word
  | entryOperands => ofString ".entry expects exactly one label or offset"
  | duplicateEntry => ofString "duplicate .entry"
  | unknownInstruction word => ofString "unknown instruction " ++ quoted word
  | takesNoOperand op => quoted (ofString op.name) ++ ofString " takes no operand"
  | needsOneOperand op => quoted (ofString op.name) ++ ofString " expects exactly one operand"
  | notANumber op operand =>
    quoted (ofString op.name) ++ ofString " expects a non-negative integer, got " ++ quoted operand
  | invalidWord .float operand => ofString "invalid float literal " ++ quoted operand
  | invalidWord .signed operand => ofString "invalid signed literal " ++ quoted operand
  | invalidWord .integer operand => ofString "invalid integer literal " ++ quoted operand
  | doesNotFit refusal => ofString refusal.message
  | undefinedLabel name => ofString "undefined label " ++ quoted name
  | undefinedEntry name => ofString "undefined entry label " ++ quoted name
  | entryPastEnd offset => ofString "entry offset " ++ decimal offset ++ ofString " past end of code"

/-- A problem and the line it stands on, counted from one. -/
structure Error where
  line : Nat
  problem : Problem
  deriving DecidableEq, Repr

end Assembly

end StackVM
