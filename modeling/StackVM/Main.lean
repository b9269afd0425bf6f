/-
  StackVM.Main — the command line on the real file system.
-/

import StackVM.Command.Line

namespace StackVM

namespace Main

/-- A path as the system takes it. -/
def pathOf (p : Text) : String := (String.fromUTF8? ⟨p.untilZero.toArray⟩).getD ""

def errorOf : IO.Error → PathError
  | .noFileOrDirectory .. => .notFound
  | .inappropriateType .. => .notADirectory
  | .alreadyExists .. => .alreadyThere
  | .invalidArgument .. => .nameTooLong
  | _ => .other

/-- What opens for reading but cannot be read is a directory. -/
def statusOf (p : String) : IO PathStatus := do
  match ← (IO.FS.Handle.mk p .read).toBaseIO with
  | .ok h =>
    match ← (h.read 1).toBaseIO with
    | .ok _ => return .file
    | .error _ => return .directory
  | .error e =>
    match errorOf e with
    | .notFound | .notADirectory => return .missing
    | e => return .unknown e

instance : MonadFiles IO where
  status p := statusOf (pathOf p)
  openFile p := do
    match ← statusOf (pathOf p) with
    | .directory => return some .directory
    | _ =>
      match ← (IO.FS.readBinFile (pathOf p)).toBaseIO with
      | .ok bytes => return some (.file bytes.data)
      | .error _ => return none
  store p bytes := do
    match ← (IO.FS.writeBinFile (pathOf p) ⟨bytes⟩).toBaseIO with
    | .ok _ => return true
    | .error _ => return false
  makeDirectory p := do
    match ← (IO.FS.createDir (pathOf p)).toBaseIO with
    | .ok _ => return none
    | .error e => return some (errorOf e)

end Main

end StackVM

def main (arguments : List String) : IO UInt32 := do
  let result ← StackVM.Command.dispatch (arguments.map StackVM.Text.ofString)
  (← IO.getStdout).write ⟨result.output.toArray⟩
  (← IO.getStderr).write ⟨result.errors.toArray⟩
  return result.exit
