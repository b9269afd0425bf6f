/-
  StackVM.Files.Tree — a file system to reason about.

  A tree says what stands at each location, a location being the names on the way from the root. A path
  is followed part by part from the root or from the working directory: an empty part or a single point
  stays, two points go up, and every part on the way has to be passed through a directory. A path is seen
  up to its first zero byte.
-/

import StackVM.Files.Access

namespace StackVM

abbrev Location := List Text

inductive Node
  | directory
  | file (bytes : Bytes)
  deriving DecidableEq, Repr

structure FileTree where
  /-- The working directory. -/
  here : Location
  /-- What stands where; the root is a directory without being listed. -/
  nodes : List (Location × Node)
  deriving DecidableEq, Repr

namespace FileTree

open Text (ofString byte)

/-! ## Locations -/

def node? (t : FileTree) (l : Location) : Option Node :=
  if l.isEmpty then some .directory else t.nodes.lookup l

/-- Puts a node at a location, in place of what stands there. -/
def put (t : FileTree) (l : Location) (n : Node) : FileTree :=
  { t with nodes := (l, n) :: t.nodes.filter fun e => e.1 != l }

/-! ## Following paths -/

def maxName : Nat := 255

def maxPath : Nat := 4095

/-- One part of a path. -/
def follow (t : FileTree) (l : Location) (name : Text) : Except PathError Location :=
  match t.node? l with
  | some .directory =>
    if name.isEmpty || name == ofString "." then .ok l
    else if name == ofString ".." then .ok l.dropLast
    else if maxName < name.length then .error .nameTooLong
    else if (t.node? (l ++ [name])).isSome then .ok (l ++ [name])
    else .error .notFound
  | some (.file _) => .error .notADirectory
  | none => .error .notFound

def followAll (t : FileTree) (l : Location) : List Text → Except PathError Location
  | [] => .ok l
  | name :: names =>
    match t.follow l name with
    | .error e => .error e
    | .ok l => t.followAll l names

/-- Where a path starts from. -/
def origin (t : FileTree) (p : Text) : Location := if Path.isAbsolute p then [] else t.here

/-- The parts of a path that names something at all. -/
def partsOf (p : Text) : Except PathError (List Text) :=
  if p.isEmpty then .error .notFound
  else if maxPath < p.length then .error .nameTooLong
  else .ok (Path.parts p)

/-- What stands at the end of a path. -/
def locate (t : FileTree) (p : Text) : Except PathError Location :=
  match partsOf p.untilZero with
  | .error e => .error e
  | .ok names => t.followAll (t.origin p) names

/-- The directory a new name is to stand in, and the name. -/
def place (t : FileTree) (names : List Text) (p : Text) : Except PathError (Location × Text) :=
  let name := names.getLast?.getD []
  match t.followAll (t.origin p) names.dropLast with
  | .error e => .error e
  | .ok l =>
    match t.node? l with
    | some .directory => if maxName < name.length then .error .nameTooLong else .ok (l, name)
    | some (.file _) => .error .notADirectory
    | none => .error .notFound

/-- The name of no new file or directory. -/
def isReserved (name : Text) : Bool := name.isEmpty || name == ofString "." || name == ofString ".."

/-! ## The calls -/

def status (t : FileTree) (p : Text) : PathStatus :=
  match t.locate p with
  | .ok l =>
    match t.node? l with
    | some .directory => .directory
    | some (.file _) => .file
    | none => .missing
  | .error .notFound => .missing
  | .error .notADirectory => .missing
  | .error e => .unknown e

def openFile (t : FileTree) (p : Text) : Option Opened :=
  match t.locate p with
  | .ok l =>
    match t.node? l with
    | some .directory => some .directory
    | some (.file bytes) => some (.file bytes)
    | none => none
  | .error _ => none

def store (t : FileTree) (p : Text) (bytes : Bytes) : Bool × FileTree :=
  match partsOf p.untilZero with
  | .error _ => (false, t)
  | .ok names =>
    match t.place names p with
    | .error _ => (false, t)
    | .ok (l, name) =>
      if isReserved name then (false, t)
      else match t.node? (l ++ [name]) with
        | some .directory => (false, t)
        | _ => (true, t.put (l ++ [name]) (.file bytes))

/-- The parts without empty ones at the end, which a directory's name may have. -/
def withoutTrailing (names : List Text) : List Text :=
  (names.reverse.dropWhile (·.isEmpty)).reverse

def makeDirectory (t : FileTree) (p : Text) : Option PathError × FileTree :=
  match partsOf p.untilZero with
  | .error e => (some e, t)
  | .ok names =>
    match t.place (withoutTrailing names) p with
    | .error e => (some e, t)
    | .ok (l, name) =>
      if isReserved name then (some .alreadyThere, t)
      else if (t.node? (l ++ [name])).isSome then (some .alreadyThere, t)
      else (none, t.put (l ++ [name]) .directory)

/-! ## Whole trees -/

/-- A tree with nothing but an empty working directory. -/
def empty : FileTree := ⟨[ofString "work"], [([ofString "work"], .directory)]⟩

/-- Makes a node and every directory on the way to it. -/
def grow (t : FileTree) (l : Location) (n : Node) : List Text → FileTree
  | [] => t
  | [name] => if isReserved name then t else t.put (l ++ [name]) n
  | name :: names =>
    if isReserved name then t.grow l n names
    else
      let l := l ++ [name]
      (if (t.node? l).isSome then t else t.put l .directory).grow l n names

/-- Adds a file or directory at a path below the working directory. -/
def add (t : FileTree) (p : Text) (n : Node) : FileTree :=
  t.grow t.here n (withoutTrailing (Path.parts p.untilZero))

/-- The location as a path below the working directory, if it is there. -/
def relative? (t : FileTree) (l : Location) : Option Text :=
  if t.here.isPrefixOf l && t.here.length < l.length then
    some (List.intercalate [byte '/'] (l.drop t.here.length))
  else none

/-- The path under which a node is listed: that of a directory ends in a slash. -/
def listedAs (p : Text) : Node → Text
  | .directory => p ++ [byte '/']
  | .file _ => p

/-- Everything below the working directory, in the order of the bytes of the paths as listed. -/
def listing (t : FileTree) : List (Text × Node) :=
  (t.nodes.filterMap fun (l, n) => (t.relative? l).map fun p => (listedAs p n, n)).mergeSort
    fun x y => x.1 ≤ y.1

end FileTree

/-- Work on a tree. -/
abbrev FileM := StateM FileTree

instance : MonadFiles FileM where
  status p := do return (← get).status p
  openFile p := do return (← get).openFile p
  store p bytes := modifyGet (·.store p bytes)
  makeDirectory p := modifyGet (·.makeDirectory p)

end StackVM
