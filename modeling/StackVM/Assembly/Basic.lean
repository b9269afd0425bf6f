/-
  StackVM.Assembly.Basic — from a source to a program.

  A source is gone through once, line by line. A jump to a label is written with an empty target and
  noted down; when all lines are read the targets are patched in, in the order of the jumps, and the entry
  is looked up. Nothing stops at a problem: all of them are reported, those of the lines first, then the
  labels that are missing, then the entry. The code is there even if problems were found.
-/

import StackVM.Assembly.Line

namespace StackVM

namespace Assembly

/-- A jump whose target is still to be filled in. -/
structure Fixup where
  /-- Where the jump's operand stands in the code. -/
  operand : Nat
  label : Text
  line : Nat
  deriving DecidableEq, Repr

/-- An entry directive. -/
structure EntryLine where
  line : Nat
  target : Text
  deriving DecidableEq, Repr

/-- A program in the making. -/
structure Draft where
  writer : Writer
  /-- The labels defined so far and their offsets. -/
  labels : List (Text × Nat)
  fixups : Array Fixup
  entryLine : Option EntryLine
  errors : Array Error
  deriving DecidableEq, Repr

namespace Draft

def empty : Draft := ⟨.empty, [], #[], none, #[]⟩

def report (d : Draft) (line : Nat) (p : Problem) : Draft :=
  { d with errors := d.errors.push ⟨line, p⟩ }

/-- Where a label stands. -/
def offsetOf? (d : Draft) (name : Text) : Option Nat := d.labels.lookup name

/-! ## Lines -/

/-- Defines a label here. -/
def define (d : Draft) (line : Nat) (name : Text) : Draft :=
  if !isLabelName name then d.report line (.invalidLabel name)
  else if (d.offsetOf? name).isSome then d.report line (.duplicateLabel name)
  else { d with labels := (name, d.writer.offset) :: d.labels }

def addPiece (d : Draft) (line : Nat) : Piece → Draft
  | .whole i => { d with writer := d.writer.append i.bytes }
  | .jumpTo op label =>
    { d with
      fixups := d.fixups.push ⟨d.writer.jumpOperand, label, line⟩
      writer := d.writer.emitJump op.byte 0 }

def addStatement (d : Draft) (line : Nat) : Statement → Draft
  | .nothing => d
  | .piece p => d.addPiece line p
  | .entry target =>
    if d.entryLine.isSome then d.report line .duplicateEntry
    else { d with entryLine := some ⟨line, target⟩ }
  | .faulty p => d.report line p

def addLine (d : Draft) (line : Nat) (l : Line) : Draft :=
  let d := match l.label? with
    | some name => d.define line name
    | none => d
  d.addStatement line l.statement

/-- Reads the lines, the first of which has the number `line`. -/
def addLines (d : Draft) (line : Nat) : List Text → Draft
  | [] => d
  | t :: ts => (d.addLine line (Line.ofText t)).addLines (line + 1) ts

/-! ## Labels and entry -/

/-- Fills in the target of a jump, as a word of 32 bits. -/
def patch (d : Draft) (f : Fixup) : Draft :=
  match d.offsetOf? f.label with
  | none => d.report f.line (.undefinedLabel f.label)
  | some offset => { d with writer := d.writer.patchJump f.operand (UInt32.ofNat offset) }

def patchAll (d : Draft) : Draft := d.fixups.foldl patch d

/-- What the entry directive's operand stands for: a label, or else an offset. -/
def entryOffset? (d : Draft) (target : Text) : Option Nat :=
  match d.offsetOf? target with
  | some offset => some offset
  | none => (Literal.unsigned? target).map (·.toNat)

/-- The entry, which is zero where no directive gives another. -/
def resolveEntry (d : Draft) : Nat × Draft :=
  match d.entryLine with
  | none => (0, d)
  | some ⟨line, target⟩ =>
    match d.entryOffset? target with
    | none => (0, d.report line (.undefinedEntry target))
    | some offset =>
      if d.writer.offset < offset then (0, d.report line (.entryPastEnd offset))
      else (offset, d)

end Draft

end Assembly

/-- What comes out of assembling a source. -/
structure Assembly where
  entry : Nat
  code : Bytes
  errors : Array Assembly.Error
  deriving DecidableEq, Repr

namespace Assembly

def ok (a : Assembly) : Bool := a.errors.isEmpty

def ofDraft (d : Draft) : Assembly :=
  let (entry, d) := d.patchAll.resolveEntry
  ⟨entry, d.writer.code, d.errors⟩

end Assembly

/-- Assembles a source. -/
def assemble (source : Text) : Assembly :=
  .ofDraft (Assembly.Draft.empty.addLines 1 source.lines)

end StackVM
