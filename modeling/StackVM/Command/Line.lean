/-
  StackVM.Command.Line — the command line.

  The first argument names the command, the others are its own. Each command gives an exit code and what
  it wrote to standard output and standard error. An argument ends at its first zero byte.

  The reader for descriptions of programs is not part of this library. So `run` has all that comes before a
  description is read: its options, and the file that cannot be opened. A file that can be opened is turned
  down. What becomes of a program once it has been described is `Launch.run`.
-/

import StackVM.Command.Load
import StackVM.Listing

namespace StackVM

namespace Command

open Text (ofString)

variable {m : Type → Type} [Monad m] [MonadFiles m]

/-- What a command comes to. -/
structure Result where
  exit : UInt32
  output : Text
  errors : Text
  deriving DecidableEq, Repr

namespace Result

/-- The result of a command that keeps a log. -/
def ofLog (exit : UInt32) (log : List Log.Line) : Result :=
  ⟨exit, Log.output true log, Log.errors log⟩

/-- The result of a command that gives up with one message. -/
def refusal (message : Text) : Result := ofLog 1 [Log.error message]

end Result

/-! ## Help -/

def version : String := "vine 0.1.0\n"

def helpLines : List String :=
  ["vine 0.1.0 - bytecode virtual machine",
   "",
   "Usage:",
   "  vine run <program.json> [--trace] [--quiet]",
   "  vine asm <file.vna> [-o <file.vbc>]",
   "  vine disasm <file.vna|file.vbc>",
   "  vine help | version",
   "",
   "Exit codes for run: 0 halted, 2 faulted, 1 usage or load error",
   "",
   "Examples:",
   "  vine run programs/add.json",
   "  vine asm programs/countdown.vna -o countdown.vbc",
   "  vine disasm countdown.vbc"]

def help : String := String.join (helpLines.map (· ++ "\n"))

/-! ## Assembling -/

/-- The source and the target of `asm`; either is empty where it was not given. -/
structure AsmArguments where
  source : Text
  target : Text
  deriving DecidableEq, Repr

def isTargetOption (argument : Text) : Bool :=
  argument == ofString "-o" || argument == ofString "--output"

/-- Reads the arguments of `asm`. The last target counts, and an empty source is passed over. -/
def AsmArguments.read (a : AsmArguments) : List Text → Except Text AsmArguments
  | [] => .ok a
  | [argument] =>
    if isTargetOption argument then .error (ofString "Missing value for " ++ argument)
    else if a.source.isEmpty then .ok { a with source := argument }
    else .error (ofString "Unexpected argument for asm: " ++ argument)
  | argument :: value :: rest =>
    if isTargetOption argument then read { a with target := value } rest
    else if a.source.isEmpty then read { a with source := argument } (value :: rest)
    else .error (ofString "Unexpected argument for asm: " ++ argument)

/-- Where the image goes. -/
def AsmArguments.imagePath (a : AsmArguments) : Text :=
  if a.target.isEmpty then Path.withExtension a.source imageExtension else a.target

def asm (arguments : List Text) : m Result :=
  match AsmArguments.read ⟨[], []⟩ arguments with
  | .error message => return .refusal message
  | .ok a =>
    if a.source.isEmpty then return .refusal (ofString "Usage: vine asm <file.vna> -o <file.vbc>")
    else if !isSource a.source then
      return .refusal (ofString "asm expects a .vna source, got " ++ a.source)
    else do
      match ← loadCode a.source with
      | (none, log) => return .ofLog 1 log
      | (some i, log) =>
        let (stored, more) ← writeImage a.imagePath i
        return .ofLog (if stored then 0 else 1) (log ++ more)

/-! ## Listing -/

def disasm (arguments : List Text) : m Result :=
  match arguments with
  | [path] => do
    match ← loadCode path with
    | (none, log) => return .ofLog 1 log
    | (some i, log) =>
      let lines := Listing.heading (Path.fileName path) :: Listing.lines i.code i.entry.toNat
      return .ofLog 0 (log ++ lines.map Log.info)
  | _ => return .refusal (ofString "Usage: vine disasm <file.vna|file.vbc>")

/-! ## Running -/

structure RunArguments where
  /-- The file that describes the program. -/
  program : Text
  trace : Bool
  quiet : Bool
  deriving DecidableEq, Repr

def RunArguments.read (a : RunArguments) : List Text → Except Text RunArguments
  | [] =>
    if a.program.isEmpty then .error (ofString "Usage: vine run <program.json> [--trace] [--quiet]")
    else .ok a
  | argument :: rest =>
    if argument == ofString "--trace" then read { a with trace := true } rest
    else if argument == ofString "--quiet" || argument == ofString "-q" then
      read { a with quiet := true } rest
    else if argument.head? == some (Text.byte '-') then
      .error (ofString "Unknown option for run: " ++ argument)
    else if a.program.isEmpty then read { a with program := argument } rest
    else .error (ofString "Unexpected argument for run: " ++ argument)

/-- Reads the options and opens the description. There is no reader for what it says, so one that can be opened
is turned down. -/
def run (arguments : List Text) : m Result :=
  match RunArguments.read ⟨[], false, false⟩ arguments with
  | .error message => return .refusal message
  | .ok a => do
    let failed (why : Text) : Result :=
      .refusal (ofString "Failed parse program " ++ a.program ++ ofString " : " ++ why)
    match ← Files.readText a.program with
    | .error e => return failed e.message
    | .ok _ => return failed (ofString "descriptions are not supported")

/-! ## The program -/

def dispatch (arguments : List Text) : m Result :=
  match arguments.map Text.untilZero with
  | [] => return ⟨1, ofString help, []⟩
  | command :: rest =>
    if command == ofString "help" || command == ofString "--help" || command == ofString "-h" then
      return ⟨0, ofString help, []⟩
    else if command == ofString "version" || command == ofString "--version" ||
        command == ofString "-v" then
      return ⟨0, ofString version, []⟩
    else if command == ofString "run" then run rest
    else if command == ofString "asm" then asm rest
    else if command == ofString "disasm" then disasm rest
    else
      return ⟨1, ofString help, ofString "Unknown command: " ++ command ++ ofString "\n"⟩

end Command

end StackVM
