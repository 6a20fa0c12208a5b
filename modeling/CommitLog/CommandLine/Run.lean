import CommitLog.CommandLine.Invocation

/-!
# Running a command line

A run gives an exit code, a text for standard output and one for standard error.  The code is 0 for
success, 1 for a fault, and 2 for arguments that make no sense.
-/

namespace CommitLog.CommandLine

/-- What a run comes to. -/
structure Outcome where
  code : Nat
  output : String
  errors : String

def versionText : String := "vislog 0.1.0\n"

def usageText : String :=
  "Usage: vislog [OPTIONS] log [REPOSITORIES]... [-- PATHS...]\n" ++
    "       vislog [OPTIONS] resolve PREFIXES... [--repo REPOSITORY]...\n"

/-- The outcome when reading the arguments ends early. -/
def Stop.outcome : Stop → Outcome
  | .misuse => ⟨2, "", usageText⟩
  | .help => ⟨0, usageText, ""⟩
  | .version => ⟨0, versionText, ""⟩

/-- The faults that brought a fault about, one in a line and numbered if there are several. -/
def causeLines (fault : Fault) : List String :=
  match fault.causes with
  | [] => []
  | [cause] => ["", "Caused by:", "    " ++ cause.message]
  | causes => ["", "Caused by:"] ++ causes.zipIdx.map fun (cause, i) =>
    "    " ++ toString i ++ ": " ++ cause.message

/-- A fault as it is reported. -/
def report (fault : Fault) : String :=
  Session.textOfLines (("Error: " ++ fault.message) :: causeLines fault)

/-- The stage that a hint names. -/
def hintedStage : Stage → Stage
  | .initial => .firstStep
  | .firstStep | .all => .all

/-- The hint that a wider stage may show more. -/
def hint (summary : Session.LogSummary) : String :=
  if summary.canWiden then
    "more commits may match; rerun with --stage " ++ (hintedStage summary.stage).name ++ "\n"
  else ""

/-- The repositories of a command; without any, the current directory. -/
def repositoriesOr (disk : Disk) (repositories : List Path) : List Path :=
  if repositories.isEmpty then [Disk.pathOf disk.here] else repositories

def Invocation.settings (invocation : Invocation) (currentUser : Option String) :
    SessionSettings :=
  ⟨invocation.budget, invocation.cacheSize, invocation.indexedRoots, currentUser⟩

def Invocation.run (invocation : Invocation) (disk : Disk) (currentUser : Option String)
    (color : Bool) : Outcome :=
  let settings := invocation.settings currentUser
  match invocation.command with
  | .log repositories options =>
    match Session.openAt (repositoriesOr disk repositories) settings disk with
    | .error fault => ⟨1, "", report fault⟩
    | .ok session =>
      let run := session.log disk options color
      let output := Session.textOfLines run.lines
      match run.outcome with
      | .error fault => ⟨1, output, report fault⟩
      | .ok summary => ⟨0, output, hint summary⟩
  | .resolve repositories hashes =>
    match Session.openAt (repositoriesOr disk repositories) settings disk with
    | .error fault => ⟨1, "", report fault⟩
    | .ok session => ⟨0, Session.textOfLines (session.expand hashes), ""⟩

/-- The variable of the environment that names the current user. -/
def userVariable : String := "GIT_AUTHOR_NAME"

def run (disk : Disk) (environment : String → Option String) (color : Bool)
    (texts : List String) : Outcome :=
  match parse environment texts with
  | .error stop => stop.outcome
  | .ok invocation => invocation.run disk (environment userVariable) color

end CommitLog.CommandLine
