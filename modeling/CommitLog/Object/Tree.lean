import CommitLog.Object.Framing

/-!
# Trees

A tree is a directory at one point of the history: it maps names to entries, each with a mode and
the id of its content.  Entries are kept in the order of their names.  In the body of a tree object
directories are put where their names would stand with a slash after them.
-/

namespace CommitLog

/-- What an entry of a tree is. -/
inductive EntryMode where
  | regular
  | executable
  | symlink
  | submodule
  | directory
  deriving DecidableEq, Repr

namespace EntryMode

def octal : EntryMode → String
  | .regular => "100644"
  | .executable => "100755"
  | .symlink => "120000"
  | .submodule => "160000"
  | .directory => "40000"

/-- Reads a mode; group-writable files are regular files, and directories may have a leading
zero. -/
def parse (text : String) : Except Fault EntryMode :=
  match text with
  | "100644" | "100664" => .ok .regular
  | "100755" => .ok .executable
  | "120000" => .ok .symlink
  | "160000" => .ok .submodule
  | "40000" | "040000" => .ok .directory
  | _ => .error (.entryMode text)

def isTree (mode : EntryMode) : Bool := mode == .directory

end EntryMode

structure TreeEntry where
  mode : EntryMode
  id : ObjectId
  deriving DecidableEq

namespace TreeEntry

def isTree (entry : TreeEntry) : Bool := entry.mode.isTree

end TreeEntry

/-- A directory: names with their entries, in ascending order of names. -/
structure Tree where
  entries : List (String × TreeEntry)
  deriving DecidableEq

namespace Tree

def empty : Tree := ⟨[]⟩

/-- Puts an entry into an ascending list, in place of the entry of the same name. -/
def insertEntry (name : String) (entry : TreeEntry) :
    List (String × TreeEntry) → List (String × TreeEntry)
  | [] => [(name, entry)]
  | (n, e) :: rest =>
    match compare name n with
    | .lt => (name, entry) :: (n, e) :: rest
    | .eq => (name, entry) :: rest
    | .gt => (n, e) :: insertEntry name entry rest

def insert (tree : Tree) (name : String) (entry : TreeEntry) : Tree :=
  ⟨insertEntry name entry tree.entries⟩

def get? (tree : Tree) (name : String) : Option TreeEntry := tree.entries.lookup name

def names (tree : Tree) : List String := tree.entries.map (·.1)

/-- The bytes by which an entry is sorted in the body of a tree. -/
def sortKey (entry : String × TreeEntry) : List UInt8 :=
  Utf8.ofString entry.1 ++ if entry.2.isTree then [0x2F] else []

/-- The entries in the order of the body. -/
def bodyOrder (tree : Tree) : List (String × TreeEntry) :=
  tree.entries.mergeSort fun a b => (compare (sortKey a) (sortKey b)).isLE

/-- An entry in the body of a tree. -/
def entryBytes (entry : String × TreeEntry) : List UInt8 :=
  Utf8.ofString (entry.2.mode.octal ++ " " ++ entry.1) ++ 0 :: entry.2.id.bytes

def content (tree : Tree) : List UInt8 := tree.bodyOrder.flatMap entryBytes

def toRaw (tree : Tree) : RawObject := ⟨.tree, tree.content⟩

def takeId (bytes : List UInt8) : Except Fault (ObjectId × List UInt8) :=
  match ObjectId.ofBytes? (bytes.take 20) with
  | some id => .ok (id, bytes.drop 20)
  | none => .error .cutOff

def takeEntry (bytes : List UInt8) : Except Fault ((String × TreeEntry) × List UInt8) := do
  let (modeBytes, spaced, afterMode) := splitAtByte 0x20 bytes
  if !spaced then throw .entryModeEnd
  let mode ← EntryMode.parse (← textOfBytes modeBytes)
  let (nameBytes, ended, afterName) := splitAtByte 0 afterMode
  if !ended then throw .entryNameEnd
  let name ← textOfBytes nameBytes
  let (id, rest) ← (takeId afterName).mapError .entryIdEnd
  return ((name, ⟨mode, id⟩), rest)

/-- Reads at most `count` entries into a tree. -/
def parseEntries : Nat → Tree → List UInt8 → Except Fault Tree
  | 0, tree, _ => .ok tree
  | _ + 1, tree, [] => .ok tree
  | count + 1, tree, bytes => do
    let ((name, entry), rest) ← takeEntry bytes
    parseEntries count (tree.insert name entry) rest

/-- Reads the body of a tree; of several entries of one name the last one counts.  Every entry takes
some bytes, so there are no more entries than bytes. -/
def parse (body : List UInt8) : Except Fault Tree := parseEntries body.length .empty body

end Tree

end CommitLog
