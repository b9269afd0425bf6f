/-
  StackVM.Files.Access — what the tools ask of a file system.

  `MonadFiles` has the four calls: what is there, open for reading, store, make a directory. All else is
  built from them: reading a file as text or as bytes, storing bytes, and making the directories that a
  new file needs.
-/

import StackVM.Bytes
import StackVM.Files.Path
import StackVM.Log

namespace StackVM

open Text (ofString)

/-- Why a call on a path failed. -/
inductive PathError
  | notFound
  | notADirectory
  | alreadyThere
  | nameTooLong
  | other
  deriving DecidableEq, Repr

def PathError.message : PathError → String
  | notFound => "No such file or directory"
  | notADirectory => "Not a directory"
  | alreadyThere => "File exists"
  | nameTooLong => "File name too long"
  | other => "Input/output error"

/-- What a path leads to. -/
inductive PathStatus
  | missing
  | directory
  | file
  /-- The call failed otherwise, and nothing is known. -/
  | unknown (e : PathError)
  deriving DecidableEq, Repr

/-- What reading finds. -/
inductive Opened
  | directory
  | file (bytes : Bytes)
  deriving DecidableEq, Repr

class MonadFiles (m : Type → Type) where
  status : Text → m PathStatus
  /-- Nothing where the path cannot be opened. -/
  openFile : Text → m (Option Opened)
  /-- Replaces or creates a file; tells whether it could. -/
  store : Text → Bytes → m Bool
  /-- Makes one directory. -/
  makeDirectory : Text → m (Option PathError)

namespace Files

/-! ## Whole files -/

inductive Failure
  | cannotOpen (path : Text)
  | cannotCreate (path : Text)
  | isDirectory
  deriving DecidableEq, Repr

/-- The wording of a failure. It gives the path that was tried, so as far as its first zero byte. -/
def Failure.message : Failure → Text
  | cannotOpen path => ofString "Could not open file: " ++ path.untilZero
  | cannotCreate path => ofString "Could not create file: " ++ path.untilZero
  | isDirectory => ofString "basic_filebuf::underflow error reading the file: Is a directory"

variable {m : Type → Type} [Monad m] [MonadFiles m]

/-- The text of a file. A directory reads as empty. -/
def readText (path : Text) : m (Except Failure Text) := do
  match ← MonadFiles.openFile path with
  | none => return .error (.cannotOpen path)
  | some .directory => return .ok []
  | some (.file bytes) => return .ok bytes.toList

/-- The bytes of a file. A directory has none to read. -/
def readBytes (path : Text) : m (Except Failure Bytes) := do
  match ← MonadFiles.openFile path with
  | none => return .error (.cannotOpen path)
  | some .directory => return .error .isDirectory
  | some (.file bytes) => return .ok bytes

def writeBytes (path : Text) (bytes : Bytes) : m (Except Failure Unit) := do
  if ← MonadFiles.store path bytes then return .ok () else return .error (.cannotCreate path)

/-! ## Directories -/

/-- Whether a path ends in the name of the directory itself or of its parent. -/
def endsInDots (path : Text) : Bool :=
  Path.fileName path == ofString "." || Path.fileName path == ofString ".."

/-- The most directories that are made at once. -/
def maxMissing : Nat := 1000

/-- Puts a directory in front of those to be made, unless its name stands for another one. -/
def toMake (path : Text) (found : List Text) : List Text :=
  if endsInDots path then found else path :: found

/-- The directories that have to be made, outermost first: those in `found`, and of their ancestors,
innermost first, all up to the first one that is there. -/
def missingAbove (found : List Text) : List Text → m (Except PathError (List Text))
  | [] => return if maxMissing < found.length then .error .nameTooLong else .ok found
  | path :: outer => do
    if maxMissing < found.length then return .error .nameTooLong
    else
      match ← MonadFiles.status path with
      | .missing => missingAbove (toMake path found) outer
      | .directory => return .ok found
      | .file => return .error .notADirectory
      | .unknown e => return .error e

/-- Makes directories one after the other. Tells whether the last one is new: one that is there already
is passed over. -/
def makeEach (made : Bool) : List Text → m (Except PathError Bool)
  | [] => return .ok made
  | path :: paths => do
    match ← MonadFiles.makeDirectory path with
    | none => makeEach true paths
    | some .alreadyThere =>
      match ← MonadFiles.status path with
      | .directory => makeEach false paths
      | _ => return .error .alreadyThere
    | some e => return .error e

/-- Makes a directory that is not there, and its parents. Tells whether the last one made is new. -/
def makeDirectories (path : Text) : m (Except PathError Bool) := do
  match ← MonadFiles.status path with
  | .directory => return .ok false
  | .file => return .error .notADirectory
  | .unknown e => return .error e
  | .missing =>
    let path := if (Path.fileName path).isEmpty then Path.parent path else path
    match ← missingAbove (toMake path []) (Path.ancestors path) with
    | .error e => return .error e
    | .ok paths => makeEach false paths

/-- Makes sure that a file's parent directory is there; tells whether it is as far as can be told. A
parent that is a file is no directory, and nothing is said about it. -/
def ensureParent (file : Text) : m (Bool × List Log.Line) := do
  let parent := Path.parent file
  let failed (why : String) : Bool × List Log.Line :=
    (false, [Log.error (ofString "Failed create directory " ++ parent ++ ofString " : " ++ ofString why)])
  if parent.isEmpty then return (true, [])
  else
    match ← MonadFiles.status parent with
    | .directory => return (true, [])
    | .file => return (false, [])
    | _ =>
      match ← makeDirectories parent with
      | .ok true => return (true, [])
      | .ok false => return failed "Success"
      | .error e => return failed e.message

end Files

end StackVM
