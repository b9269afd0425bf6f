/-
  StackVM.Log — what is said while the machine and its tools work.

  Information goes to standard output, and only when it is wanted; warnings and errors go to standard
  error, always, with their level in front.
-/

import StackVM.Text

namespace StackVM

namespace Log

open Text (ofString byte)

inductive Level
  | info
  | warning
  | error
  deriving DecidableEq, Repr

structure Line where
  level : Level
  text : Text
  deriving DecidableEq, Repr

def info (t : Text) : Line := ⟨.info, t⟩

def warning (t : Text) : Line := ⟨.warning, t⟩

def error (t : Text) : Line := ⟨.error, t⟩

namespace Line

def toOutput (l : Line) : Text :=
  match l.level with
  | .info => l.text ++ [byte '\n']
  | _ => []

def toErrors (l : Line) : Text :=
  match l.level with
  | .info => []
  | .warning => ofString "[warn] " ++ l.text ++ [byte '\n']
  | .error => ofString "[error] " ++ l.text ++ [byte '\n']

end Line

/-- What standard output gets. -/
def output (verbose : Bool) (ls : List Line) : Text :=
  if verbose then ls.flatMap Line.toOutput else []

/-- What standard error gets. -/
def errors (ls : List Line) : Text := ls.flatMap Line.toErrors

end Log

end StackVM
