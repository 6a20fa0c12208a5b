import CommitLog.Disk.Fault
import CommitLog.Object.Id
import CommitLog.Object.Kind
import CommitLog.Path.Basic
import CommitLog.Text.Quoted
import CommitLog.Text.Utf8

/-!
# Faults

Everything that can go wrong, by its cause.  A fault may wrap the fault that brought it about;
`message` is the wording of a fault by itself and `causes` the wordings of the faults below it, from
the outside in.
-/

namespace CommitLog

inductive Fault where
  /-- The file system refuses. -/
  | disk (fault : Disk.Fault)
  /-- A compressed text is damaged or cut off. -/
  | compressed
  /-- A text file holds something else than UTF-8. -/
  | notText
  /-- There are fewer bytes than asked for. -/
  | cutOff
  /-- Bytes are not UTF-8. -/
  | encoding (flaw : Utf8.Flaw)
  /-- A text is no object id. -/
  | objectId (flaw : ObjectId.Flaw)
  /-- A header names no kind of object. -/
  | objectKind (name : String)
  /-- A header does not end. -/
  | headerEnd
  /-- A header gives no length. -/
  | headerSize
  /-- A tree entry has an unknown mode. -/
  | entryMode (mode : String)
  /-- A tree ends inside the mode of an entry. -/
  | entryModeEnd
  /-- A tree ends inside the name of an entry. -/
  | entryNameEnd
  /-- A tree ends inside the id of an entry. -/
  | entryIdEnd (cause : Fault)
  /-- A text has no author's form. -/
  | author (text : String)
  /-- No angle bracket opens the address of an author. -/
  | authorOpening
  /-- No angle bracket closes the address of an author. -/
  | authorClosing
  /-- The time of an author is no number. -/
  | authorTime (text : String)
  /-- The time of an author is outside the calendar. -/
  | authorTimeRange
  /-- The time zone of an author is none. -/
  | authorZone (text : String)
  /-- A commit has no author. -/
  | commitAuthor
  /-- A commit has no tree. -/
  | commitTree
  /-- A branch has an empty name. -/
  | branchEmpty
  /-- A text is no name of a branch. -/
  | branchName (text : String)
  /-- A pattern of branch names is too large. -/
  | branchPattern (spec : String)
  /-- A pattern of messages is malformed or too large. -/
  | textPattern (text : String)
  /-- A text is no date. -/
  | date (text : String)
  /-- A number of seconds is outside the calendar. -/
  | dateRange (text : String)
  /-- The body of an object is not as long as its header says. -/
  | objectSize (id : ObjectId) (declared held : Nat)
  /-- An object is of another kind than expected. -/
  | otherKind (id : ObjectId) (found expected : ObjectKind)
  /-- A commit object cannot be understood. -/
  | corruptCommit (id : ObjectId) (cause : Fault)
  /-- A tree object cannot be understood. -/
  | corruptTree (id : ObjectId) (cause : Fault)
  /-- The file of an object cannot be read. -/
  | readObject (path : Path) (cause : Fault)
  /-- The content of an object file cannot be decompressed. -/
  | decompress (cause : Fault)
  /-- The directory of an object cannot be made. -/
  | objectDirectory (path : Path) (cause : Fault)
  /-- The file of an object cannot be put in its place. -/
  | placeObject (path : Path) (cause : Fault)
  /-- The file of a ref cannot be read. -/
  | readRef (path : Path) (cause : Fault)
  /-- The file of packed refs cannot be read. -/
  | readPackedRefs (path : Path) (cause : Fault)
  /-- The file of a ref cannot be opened for writing. -/
  | openRef (path : Path) (cause : Fault)
  /-- Symbolic refs lead to each other without end. -/
  | refLoop (name : String)
  /-- A commit on the way through a history cannot be read. -/
  | readCommit (id : ObjectId) (cause : Fault)
  /-- The history of a repository cannot be walked. -/
  | walk (root : Path) (cause : Fault)
  /-- There is no repository at a path because there is nothing. -/
  | repositoryMissing (path : Path) (cause : Fault)
  /-- A directory is no repository. -/
  | notRepository (path : Path)
  /-- A directory of a new repository cannot be made. -/
  | makeDirectory (path : Path) (cause : Fault)
  /-- A number is too large. -/
  | numberRange
  /-- A session has no numbers left for its commits. -/
  | storeFull (count : Nat) (cause : Fault)
  /-- A root to be indexed is missing. -/
  | indexedRootMissing (path : Path) (cause : Fault)
  /-- A root to be shown is missing. -/
  | rootMissing (path : Path) (cause : Fault)
  /-- A session is to be opened on nothing. -/
  | noRoots
  /-- A session has no commit of this number. -/
  | unknownCommit (index : Nat)
  /-- A session has no repository at this root. -/
  | unknownRoot (root : Path)

namespace Fault

/-- The wording of a fault, without those below it. -/
def message : Fault → String
  | .disk fault => fault.message
  | .compressed => "corrupt deflate stream"
  | .notText => "stream did not contain valid UTF-8"
  | .cutOff => "failed to fill whole buffer"
  | .encoding flaw => flaw.message
  | .objectId flaw => flaw.message
  | .objectKind name => "Invalid object type: " ++ name
  | .headerEnd => "Invalid object header: missing size terminator"
  | .headerSize => "Invalid object header: bad size"
  | .entryMode mode => "Invalid entry mode: " ++ mode
  | .entryModeEnd => "unexpected EOF in tree entry mode"
  | .entryNameEnd => "unexpected EOF in tree entry name"
  | .entryIdEnd _ => "unexpected EOF in tree entry object id"
  | .author text => "Invalid author format: " ++ text
  | .authorOpening => "Invalid author format: missing '<'"
  | .authorClosing => "Invalid author format: missing '>'"
  | .authorTime text => "Invalid timestamp: " ++ text
  | .authorTimeRange => "Invalid timestamp"
  | .authorZone text => "Invalid timezone: " ++ text
  | .commitAuthor => "Invalid commit object: missing author line"
  | .commitTree => "Invalid commit object: missing tree line"
  | .branchEmpty => "branch name cannot be empty"
  | .branchName text => "invalid branch name: " ++ text
  | .branchPattern spec => "Invalid branch pattern: " ++ spec
  | .textPattern text => "Invalid text pattern: " ++ text
  | .date text =>
    "Invalid date: " ++ text ++ " (expected YYYY-MM-DD, RFC 3339 or a unix timestamp)"
  | .dateRange text => "Timestamp out of range: " ++ text
  | .objectSize id declared held =>
    "Object " ++ id.text ++ " declares " ++ toString declared ++ " bytes but holds " ++
      toString held
  | .otherKind id found expected =>
    "Object " ++ id.text ++ " is a " ++ found.name ++ ", not a " ++ expected.name
  | .corruptCommit id _ => "Corrupt commit object " ++ id.text
  | .corruptTree id _ => "Corrupt tree object " ++ id.text
  | .readObject path _ => "Unable to read object file " ++ path.text
  | .decompress _ => "Unable to decompress object content"
  | .objectDirectory path _ => "Unable to create object directory " ++ path.text
  | .placeObject path _ => "Unable to rename object file to " ++ path.text
  | .readRef path _ => "failed to read ref file at " ++ Text.quoted path.text
  | .readPackedRefs path _ => "failed to read packed refs at " ++ Text.quoted path.text
  | .openRef path _ => "failed to open ref file at " ++ Text.quoted path.text
  | .refLoop name => "symbolic ref loop at " ++ name
  | .readCommit id _ => "Unable to read commit " ++ id.text
  | .walk root _ => "unable to walk history of " ++ root.text
  | .repositoryMissing path _ => "repository path " ++ path.text ++ " does not exist"
  | .notRepository path => "not a git repository: " ++ path.text
  | .makeDirectory path _ => "failed to create " ++ path.text
  | .numberRange => "out of range integral type conversion attempted"
  | .storeFull count _ => "commit storage is full after " ++ toString count ++ " commits"
  | .indexedRootMissing path _ => "indexed root " ++ path.text ++ " does not exist"
  | .rootMissing path _ => "root " ++ path.text ++ " does not exist"
  | .noRoots => "no repository roots given"
  | .unknownCommit index => "unknown commit #" ++ toString index
  | .unknownRoot root => "unknown repository root " ++ root.text

/-- The fault from outside to inside, itself first. -/
def chain : Fault → List Fault
  | .entryIdEnd cause => .entryIdEnd cause :: cause.chain
  | .corruptCommit id cause => .corruptCommit id cause :: cause.chain
  | .corruptTree id cause => .corruptTree id cause :: cause.chain
  | .readObject path cause => .readObject path cause :: cause.chain
  | .decompress cause => .decompress cause :: cause.chain
  | .objectDirectory path cause => .objectDirectory path cause :: cause.chain
  | .placeObject path cause => .placeObject path cause :: cause.chain
  | .readRef path cause => .readRef path cause :: cause.chain
  | .readPackedRefs path cause => .readPackedRefs path cause :: cause.chain
  | .openRef path cause => .openRef path cause :: cause.chain
  | .readCommit id cause => .readCommit id cause :: cause.chain
  | .walk root cause => .walk root cause :: cause.chain
  | .repositoryMissing path cause => .repositoryMissing path cause :: cause.chain
  | .makeDirectory path cause => .makeDirectory path cause :: cause.chain
  | .storeFull count cause => .storeFull count cause :: cause.chain
  | .indexedRootMissing path cause => .indexedRootMissing path cause :: cause.chain
  | .rootMissing path cause => .rootMissing path cause :: cause.chain
  | fault => [fault]

/-- The faults that brought this one about, nearest first. -/
def causes (fault : Fault) : List Fault := fault.chain.tail

/-- The wordings of the whole chain in one line. -/
def fullMessage (fault : Fault) : String := ": ".intercalate (fault.chain.map message)

/-- Whether reading itself failed, rather than what was read. -/
def isReadFailure : Fault → Bool
  | .disk _ | .compressed | .notText | .cutOff => true
  | _ => false

end Fault

end CommitLog
