/-
  StackVM.Command.Load — programs from files.

  A file whose name ends in `.vna` holds a source and is assembled; any other holds an image. What goes
  wrong is logged, and the caller gets no program.
-/

import StackVM.Assembly.Basic
import StackVM.Files.Access
import StackVM.Image

namespace StackVM

namespace Command

open Text (ofString decimal)

variable {m : Type → Type} [Monad m] [MonadFiles m]

/-- The extension of sources. -/
def sourceExtension : Text := ofString ".vna"

/-- The extension of images. -/
def imageExtension : Text := ofString ".vbc"

def isSource (path : Text) : Bool := Path.extension path == sourceExtension

/-! ## Images -/

def writtenLine (path : Text) (i : Image) : Log.Line :=
  Log.info (ofString "Wrote " ++ path ++ ofString " (" ++ decimal i.code.size ++
    ofString " bytes of code, entry " ++ decimal i.entry.toNat ++ ofString ")")

/-- Stores an image, after making the directories it needs; tells whether it could. -/
def writeImage (path : Text) (i : Image) : m (Bool × List Log.Line) := do
  let (there, log) ← Files.ensureParent path
  if !there then return (false, log)
  else
    match ← Files.writeBytes path i.encode with
    | .ok () => return (true, log ++ [writtenLine path i])
    | .error e =>
      return (false,
        log ++ [Log.error (ofString "Failed write image " ++ path ++ ofString " : " ++ e.message)])

def loadImage (path : Text) : m (Option Image × List Log.Line) := do
  match ← Files.readBytes path with
  | .error e =>
    return (none, [Log.error (ofString "Failed read image " ++ path ++ ofString " : " ++ e.message)])
  | .ok bytes =>
    match Image.decode bytes with
    | .ok i => return (some i, [])
    | .error e =>
      return (none,
        [Log.error (ofString "Invalid image " ++ path ++ ofString " : " ++ ofString e.status.name)])

/-! ## Sources -/

/-- The problem of a source, with its file and line in front. -/
def problemLine (path : Text) (e : Assembly.Error) : Log.Line :=
  Log.error (path ++ ofString ":" ++ decimal e.line ++ ofString ": " ++ e.problem.message)

/-- The image of an assembled source, or its problems. -/
def imageOf (path : Text) (a : Assembly) : Option Image × List Log.Line :=
  if a.ok then (some ⟨UInt64.ofNat a.entry, a.code⟩, [])
  else (none, a.errors.toList.map (problemLine path))

def loadSource (path : Text) : m (Option Image × List Log.Line) := do
  match ← Files.readText path with
  | .error e =>
    return (none, [Log.error (ofString "Failed read source " ++ path ++ ofString " : " ++ e.message)])
  | .ok source => return imageOf path (assemble source)

/-! ## Either -/

/-- The program in a file, be it a source or an image. -/
def loadCode (path : Text) : m (Option Image × List Log.Line) :=
  if isSource path then loadSource path else loadImage path

/-- The program a description names: its source, or else its image, with the entry it may give. -/
def loadProgram (source image : Text) (entry : Option UInt64) : m (Option Image × List Log.Line) := do
  let (i?, log) ← loadCode (if source.isEmpty then image else source)
  return (i?.map fun i => { i with entry := entry.getD i.entry }, log)

end Command

end StackVM
