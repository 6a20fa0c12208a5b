import CommitLog.Disk.Fault
import CommitLog.Path.Basic
import Std.Data.HashMap

/-!
# The file system

A disk holds directories and files, each found by the names on the way to it from the root.  A path
is followed name by name: every name but the last has to lead to a directory, two dots lead back,
and a slash at the end asks for a directory.
-/

namespace CommitLog

/-- The names on the way from the root directory. -/
abbrev Place := List String

/-- What a place holds. -/
inductive Disk.Node where
  | directory
  | file (content : List UInt8)
  deriving DecidableEq

/-- Directories and files by place. -/
structure Disk where
  nodes : Std.HashMap Place Disk.Node
  /-- The directory where relative paths start. -/
  here : Place

namespace Disk

/-- The disk with nothing but its root directory. -/
def empty : Disk := ⟨∅, []⟩

/-- The disk as seen from another directory. -/
def seenFrom (disk : Disk) (here : Place) : Disk := { disk with here := here }

/-- What a place holds; the root is always a directory. -/
def node? (disk : Disk) (place : Place) : Option Node :=
  if place.isEmpty then some .directory else disk.nodes[place]?

/-- The absolute path of a place. -/
def pathOf (place : Place) : Path := ⟨"/" ++ "/".intercalate place⟩

/-- The greatest number of bytes in a name. -/
def longestName : Nat := 255

/-- The number of bytes that a path stays below. -/
def longestPath : Nat := 4096

/-! ## Following paths -/

def child (disk : Disk) (place : Place) (name : String) : Except Fault (Place × Node) :=
  if longestName < name.utf8ByteSize then .error .nameTooLong
  else match disk.node? (place ++ [name]) with
    | some node => .ok (place ++ [name], node)
    | none => .error .notFound

/-- Goes on by the text between two slashes. -/
def enter (disk : Disk) (found : Place × Node) (segment : List Char) :
    Except Fault (Place × Node) :=
  match found.2 with
  | .file _ => .error .notDirectory
  | .directory =>
    match Component.ofSegment? segment with
    | none => .ok found
    | some .parent => .ok (found.1.dropLast, .directory)
    | some component => disk.child found.1 component.text

/-- Where a path starts. -/
def start (disk : Disk) (path : Path) : Except Fault (Place × Node) :=
  if path.isAbsolute then .ok ([], .directory)
  else match disk.node? disk.here with
    | some node => .ok (disk.here, node)
    | none => .error .notFound

/-- Follows the texts between slashes from the start of a path. -/
def follow (disk : Disk) (path : Path) (segments : List (List Char)) :
    Except Fault (Place × Node) := do
  segments.foldlM disk.enter (← disk.start path)

/-- The texts between the slashes of a path; a path that is no path at all is a fault. -/
def segmentsOf (path : Path) : Except Fault (List (List Char)) :=
  if path.text.contains '\x00' then .error .nullInName
  else if path.text.isEmpty then .error .notFound
  else if longestPath ≤ path.text.utf8ByteSize then .error .nameTooLong
  else .ok (Text.splitAll '/' path.text.toList)

/-- The place that a path names, and what it holds. -/
def find (disk : Disk) (path : Path) : Except Fault (Place × Node) := do
  disk.follow path (← segmentsOf path)

/-! ## Looking -/

def isPresent (disk : Disk) (path : Path) : Bool := (disk.find path).isOk

def isFile (disk : Disk) (path : Path) : Bool :=
  match disk.find path with
  | .ok (_, .file _) => true
  | _ => false

def isDirectory (disk : Disk) (path : Path) : Bool :=
  match disk.find path with
  | .ok (_, .directory) => true
  | _ => false

/-- The absolute path, without dots, of what a path names. -/
def canonical (disk : Disk) (path : Path) : Except Fault Path := do
  return pathOf (← disk.find path).1

def readFile (disk : Disk) (path : Path) : Except Fault (List UInt8) := do
  match (← disk.find path).2 with
  | .file content => return content
  | .directory => throw .isDirectory

/-- The places of the files at or below a path, each relative to the path, in ascending order. -/
def filesBelow (disk : Disk) (path : Path) : List Place :=
  match disk.find path with
  | .error _ => []
  | .ok (_, .file _) => [[]]
  | .ok (base, .directory) =>
    (disk.nodes.toList.filterMap fun (place, node) =>
      match node with
      | .file _ => if base.isPrefixOf place then some (place.drop base.length) else none
      | .directory => none).mergeSort fun a b => (compare a b).isLE

end Disk

end CommitLog
