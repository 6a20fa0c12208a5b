import CommitLog.Session.Basic

/-!
# Writing the log

`LogOptions` are the wishes of a user; `filters` turns them into filters.  A log lists the commits
of a search, each in several lines or in one, with the names that point to it.  `expand` lists the
commits that partial hashes name.
-/

namespace CommitLog

/-- What a user wants to see. -/
structure LogOptions where
  branches : List String
  authors : List String
  grep : Option String
  isPattern : Bool
  matchCase : Bool
  since : Option String
  upTo : Option String
  hashes : List String
  /-- The repositories to show. -/
  roots : List Path
  /-- The files and directories to show. -/
  paths : List Path
  order : SortOrder
  stage : Stage
  /-- One line for each commit. -/
  oneline : Bool

/-- A value made from a list, unless the list is empty. -/
def unlessEmpty (make : List α → Except Fault β) (list : List α) : Except Fault (Option β) :=
  if list.isEmpty then .ok none else (make list).map some

namespace LogOptions

def standard : LogOptions :=
  ⟨[], [], none, false, false, none, none, [], [], [], .date, .initial, false⟩

def dateFilter (options : LogOptions) : Except Fault (Option DateFilter) := do
  let after ← options.since.mapM DateFilter.parseSince
  let before ← options.upTo.mapM DateFilter.parseUntil
  return if after.isSome || before.isSome then some ⟨after, before⟩ else none

def root (disk : Disk) (path : Path) : Except Fault Path :=
  (disk.canonical ((Disk.pathOf disk.here).join path)).mapError fun fault =>
    .rootMissing path (.disk fault)

/-- A path as an absolute one, without dots if it names something. -/
def absolute (disk : Disk) (path : Path) : Path :=
  let joined := (Disk.pathOf disk.here).join path
  (disk.canonical joined).toOption.getD joined

def filters (options : LogOptions) (disk : Disk) : Except Fault Filters := do
  let branch ← unlessEmpty BranchFilter.ofSpecs options.branches
  let user ← unlessEmpty (fun names => .ok (UserFilter.ofNames names)) options.authors
  let text ← options.grep.mapM fun grep =>
    TextFilter.ofText grep options.isPattern options.matchCase
  let date ← options.dateFilter
  let hash ← unlessEmpty (fun hashes => .ok (HashFilter.ofTexts hashes)) options.hashes
  let root ← unlessEmpty (fun paths => return RootFilter.ofRoots (← paths.mapM (root disk)))
    options.roots
  let paths ← unlessEmpty
    (fun paths => .ok (StructureFilter.ofPaths (paths.map (absolute disk)))) options.paths
  return ⟨branch, root, paths, hash, user, date, text⟩

end LogOptions

/-! ## Colors -/

/-- The colors of a log. -/
inductive Ink where
  | yellow
  | boldCyan
  | boldGreen

namespace Ink

/-- What turns a color on in a terminal. -/
def code : Ink → String
  | .yellow => "33"
  | .boldCyan => "1;36"
  | .boldGreen => "1;32"

/-- A text in a color, if colors are wanted. -/
def paint (ink : Ink) (color : Bool) (text : String) : String :=
  if color then "\x1b[" ++ ink.code ++ "m" ++ text ++ "\x1b[0m" else text

end Ink

namespace Session

/-! ## Commits as text -/

/-- The names that point to a commit, the head first and then the branches in ascending order. -/
def decoration (session : Session) (color : Bool) (index : CommitIndex) : String :=
  let names := session.history.namesOf index
  let heads := (names.filter (·.isHead)).map fun name => Ink.boldCyan.paint color name.text
  let branches := ((names.filter (!·.isHead)).map (·.text)).mergeSort fun a b => (compare a b).isLE
  let all := heads ++ branches.map (Ink.boldGreen.paint color)
  if all.isEmpty then "" else " (" ++ ", ".intercalate all ++ ")"

/-- Whether commits are shown with their repositories. -/
def showsRoots (session : Session) : Bool := 1 < session.history.roots.length

/-- The lines of a commit with its whole message. -/
def mediumLines (session : Session) (color : Bool) (metadata : Metadata) : List String :=
  [Ink.yellow.paint color ("commit " ++ metadata.hash.text) ++
      session.decoration color metadata.index] ++
    (if session.showsRoots then ["Root:   " ++ metadata.root.label] else []) ++
    ["Author: " ++ metadata.author.displayName, "Date:   " ++ metadata.author.readableTime, ""] ++
    (Text.lines metadata.message.toList).map fun line => "    " ++ String.ofList line

/-- A commit in one line. -/
def shortLine (session : Session) (color : Bool) (metadata : Metadata) : String :=
  (if session.showsRoots then "[" ++ metadata.root.label ++ "] " else "") ++
    Ink.yellow.paint color metadata.hash.short ++ session.decoration color metadata.index ++ " " ++
    metadata.shortMessage

/-- The lines of a commit in a log; in the longer form an empty line parts it from the one
before. -/
def logLines (session : Session) (options : LogOptions) (color isFirst : Bool)
    (metadata : Metadata) : List String :=
  if options.oneline then [session.shortLine color metadata]
  else (if isFirst then [] else [""]) ++ session.mediumLines color metadata

/-! ## The log -/

/-- What a log has come to. -/
structure LogSummary where
  /-- The number of commits. -/
  shown : Nat
  stage : Stage
  /-- Whether a wider stage may show more. -/
  canWiden : Bool

/-- A log: the lines written, the session afterwards, and how it ended. -/
structure LogRun where
  lines : List String
  session : Session
  outcome : Except Fault LogSummary

/-- Lines ended by line feeds. -/
def textOfLines (lines : List String) : String := String.join (lines.map (· ++ "\n"))

/-- Writes commits until details cannot be read. -/
def writeCommits (session : Session) (disk : Disk) (options : LogOptions) (color : Bool) :
    Bool → List CommitIndex → List String × Session × Except Fault Unit
  | _, [] => ([], session, .ok ())
  | isFirst, index :: rest =>
    match session.details disk index with
    | .error fault => ([], session, .error fault)
    | .ok (metadata, session) =>
      let lines := session.logLines options color isFirst metadata
      let (more, session, outcome) := session.writeCommits disk options color false rest
      (lines ++ more, session, outcome)

def log (session : Session) (disk : Disk) (options : LogOptions) (color : Bool) : LogRun :=
  match options.filters disk with
  | .error fault => ⟨[], session, .error fault⟩
  | .ok filters =>
    let result := session.search disk options.order filters options.stage
    let (lines, after, outcome) := session.writeCommits disk options color true result.graph.commits
    ⟨lines, after, outcome.map fun _ =>
      ⟨result.graph.commits.length, result.stage, result.canWiden⟩⟩

/-! ## Expanding hashes -/

/-- A line for each commit that one of the partial hashes names. -/
def expand (session : Session) (hashes : List String) : List String :=
  (hashes.flatMap fun hash => session.resolve (Text.trimmed hash)).map fun id =>
    id.hash.text ++ " " ++ id.root.text

end Session

end CommitLog
