import AsmExpand.Run.Basic

/-!
# A system that is a value

A disk holds files and folders at places, a place being the names that lead to
it from the root. A path starts at the root if it begins with a slash, and at
the working folder otherwise, and is walked name by name: each name is taken
from a folder, `.` and an empty name stay there, `..` goes up.

To read a path is to walk all of it. To make a file is to walk to its folder and
look at the last name there, and a slash behind that name asks for a folder,
which making a file refuses whatever the name is.

A world is a disk and what has been written to the two outputs, and it is a host.
-/

namespace AsmExpand

/-- The names that lead to something from the root. -/
abbrev Place := List String

inductive Node where
  | file (content : List Byte)
  | folder
deriving DecidableEq

structure Disk where
  /-- Nodes by their places, the latest first. -/
  nodes : List (Place × Node) := []
  /-- Where relative paths start. -/
  working : Place := []
deriving DecidableEq

namespace Disk

/-- What is at a place. Whatever the working folder or a node lies in is a folder. -/
def find? (d : Disk) (place : Place) : Option Node :=
  match d.nodes.lookup place with
  | some node => some node
  | none =>
    if place.isPrefixOf d.working ∨ d.nodes.any (fun n => place.isPrefixOf n.1) then some .folder
    else none

/-- Put a node at a place. -/
def put (d : Disk) (place : Place) (node : Node) : Disk :=
  { d with nodes := (place, node) :: d.nodes.filter (·.1 ≠ place) }

/-- The longest name that the disk knows, in bytes. -/
def longestName : Nat := 255

/-- The longest path that the disk knows, in bytes. -/
def longestPath : Nat := 4095

/-- Where a name leads to from a folder. -/
def step (here : Place) (name : String) : Place :=
  if name = "" ∨ name = "." then here
  else if name = ".." then here.dropLast
  else here ++ [name]

/-- The fault of a place that is not a folder. -/
def requireFolder (d : Disk) (place : Place) : Except FileFault Unit :=
  match d.find? place with
  | none => .error .notFound
  | some (.file _) => .error .notFolder
  | some .folder => .ok ()

/-- Follow a name from a place, which must be a folder. What the name leads to
need not exist. -/
def follow (d : Disk) (here : Place) (name : String) : Except FileFault Place := do
  d.requireFolder here
  if longestName < name.utf8ByteSize then throw .nameTooLong
  return step here name

/-- The names in a path, slashes that follow each other or end it giving empty ones. -/
def names (path : String) : List String := (path.toList.splitOn '/').map String.ofList

/-- The place where a path starts. -/
def start (d : Disk) (path : String) : Place :=
  if path.toList.head? = some '/' then [] else d.working

/-- The fault of a path that no disk knows. -/
def requirePath (path : String) : Except FileFault Unit :=
  if path.toList.contains '\x00' then .error .nulInName
  else if path.isEmpty then .error .notFound
  else if longestPath < path.utf8ByteSize then .error .nameTooLong
  else .ok ()

/-- The place that a path leads to. -/
def resolve (d : Disk) (path : String) : Except FileFault Place := do
  requirePath path
  (names path).foldlM d.follow (d.start path)

def read (d : Disk) (path : String) : Except FileFault (List Byte) :=
  match d.resolve path with
  | .error fault => .error fault
  | .ok place =>
    match d.find? place with
    | none => .error .notFound
    | some .folder => .error .isFolder
    | some (.file content) => .ok content

/-- The place for a file at a path. The folder is walked to first; then a slash at
the end, or a last name that cannot be a file's, counts before the name's length. -/
def target (d : Disk) (path : String) : Except FileFault Place := do
  requirePath path
  let steps := (names path).filter (· ≠ "")
  let folder ← steps.dropLast.foldlM d.follow (d.start path)
  d.requireFolder folder
  match steps.getLast? with
  | none => throw .isFolder
  | some name =>
    if path.toList.getLast? = some '/' ∨ name = "." ∨ name = ".." then throw .isFolder
    let place ← d.follow folder name
    if d.find? place = some .folder then throw .isFolder
    return place

def create (d : Disk) (path : String) : Except FileFault Disk :=
  (d.target path).map fun place => d.put place (.file [])

def append (d : Disk) (path : String) (text : String) : Except FileFault Disk :=
  (d.target path).map fun place =>
    match d.find? place with
    | some (.file content) => d.put place (.file (content ++ Utf8.bytes text))
    | _ => d.put place (.file (Utf8.bytes text))

/-- Make a folder at a place if nothing is there. -/
def ensureFolder (d : Disk) (place : Place) : Disk :=
  match d.find? place with
  | some _ => d
  | none => d.put place .folder

/-- Put a node at the end of a path, and folders on the way to it. -/
def plant (d : Disk) (path : String) (node : Node) : Disk :=
  let walked := (names path).foldl (fun r name => (r.1.ensureFolder r.2, step r.2 name))
    (d, d.start path)
  walked.1.put walked.2 node

end Disk

/-- A disk and what has been written to the outputs. -/
structure World where
  disk : Disk := {}
  out : String := ""
  err : String := ""
deriving DecidableEq

namespace World

/-- Change the disk by an action, unless it fails. -/
def act (f : Disk → Except FileFault Disk) : StateM World (Except FileFault Unit) := fun w =>
  match f w.disk with
  | .ok disk => (.ok (), { w with disk := disk })
  | .error fault => (.error fault, w)

instance : Host (StateM World) where
  read path := fun w => (w.disk.read path, w)
  create path := act (·.create path)
  append path text := act (·.append path text)
  print text := fun w => ((), { w with out := w.out ++ text })
  printError text := fun w => ((), { w with err := w.err ++ text })

end World

end AsmExpand
