/-
  StackVM.Files.Path — paths and their parts.

  A path is text. A slash separates its parts; a slash at the end is followed by an empty last part. A
  path is kept and shown as it was given: no part is dropped, not even an empty one or a single point.
-/

import StackVM.Text

namespace StackVM

namespace Path

open Text (byte ofString)

def slash : UInt8 := byte '/'

def point : UInt8 := byte '.'

def isAbsolute (p : Text) : Bool := p.head? == some slash

/-- What stands between slashes. -/
def parts : Text → List Text
  | [] => [[]]
  | b :: rest =>
    if b == slash then [] :: parts rest
    else match parts rest with
      | [] => [[b]]
      | w :: ws => (b :: w) :: ws

/-- The part after the last slash. -/
def fileName (p : Text) : Text := (parts p).getLast?.getD []

/-- The path without its last part and the slashes before it; a slash that starts the path stays. -/
def parent (p : Text) : Text :=
  if p.all (· == slash) then p
  else
    let directory := p.take (p.length - (fileName p).length)
    let bare := (directory.reverse.dropWhile (· == slash)).reverse
    if bare.isEmpty && isAbsolute p then [slash] else bare

/-- The parent, its parent and so on, as far as they get shorter and are not empty. -/
def ancestors (p : Text) : List Text :=
  if _h : (parent p).length < p.length then
    if (parent p).isEmpty then [] else parent p :: ancestors (parent p)
  else []
termination_by p.length

/-- The last point of the file name and what follows it. A point that starts the name is part of it, and
the names of the directory itself and of its parent have no extension. -/
def extension (p : Text) : Text :=
  let name := fileName p
  if name == ofString "." || name == ofString ".." then []
  else
    let tail := name.reverse.takeWhile (· != point)
    if tail.length + 1 < name.length then name.drop (name.length - tail.length - 1) else []

/-- The path with another extension. -/
def withExtension (p ext : Text) : Text := p.take (p.length - (extension p).length) ++ ext

/-- A path below another. A slash is put between the two unless the first ends in one or is empty; an
absolute path stands for itself. -/
def join (base p : Text) : Text :=
  if isAbsolute p || base.isEmpty then p
  else if base.getLast? == some slash then base ++ p
  else base ++ [slash] ++ p

/-- A path as it is meant in a file that stands in `base`. -/
def resolve (base p : Text) : Text := if isAbsolute p then p else join base p

end Path

end StackVM
