import CommitLog.CommandLine.Options
import CommitLog.Session.Log

/-!
# What a command line asks for

There are two commands: `log` shows commits and `resolve` expands partial hashes.  Three counts may
be given before or after the command; the one after it wins, and where neither is given a variable
of the environment counts, and then a standard value.
-/

namespace CommitLog.CommandLine

/-- A count that is an option everywhere. -/
structure CountSpec where
  name : String
  /-- The variable of the environment that may give it. -/
  envName : String
  standard : Nat

namespace CountSpec

/-- The matches that the details in memory must give. -/
def initial : CountSpec := ⟨"initial-count", "VISLOG_INITIAL_COUNT", Budget.standard.initial⟩

/-- The commits that each repository may give on the first walk. -/
def firstStep : CountSpec :=
  ⟨"first-step-count", "VISLOG_FIRST_STEP_COUNT", Budget.standard.firstStep⟩

/-- The commits whose details are kept. -/
def cacheSize : CountSpec := ⟨"cache-size", "VISLOG_CACHE_SIZE", RecentCache.standardCapacity⟩

/-- The number in a text. -/
def read? (text : String) : Option Nat := Text.unsigned? text.toList

def spec (count : CountSpec) : OptionSpec :=
  ⟨count.name, none, .single, false, fun text => (read? text).isSome⟩

/-- The count, from the arguments before and after the command and from the environment.  The
environment has to make sense unless the count is given in both places. -/
def resolve (count : CountSpec) (environment : String → Option String) (before after : Arguments) :
    Except Stop Nat :=
  let given := environment count.envName
  let isIgnored := before.has count.name && after.has count.name
  if !isIgnored && given.any (fun text => (read? text).isNone) then .error .misuse
  else
    let text := ((after.value? count.name).or (before.value? count.name)).or given
    .ok ((text.bind read?).getD count.standard)

end CountSpec

/-! ## The commands -/

def textOption (name : String) (kind : OptionKind) : OptionSpec :=
  ⟨name, none, kind, false, fun _ => true⟩

/-- An option for a path, which is never empty. -/
def pathOption (name : String) : OptionSpec := ⟨name, none, .repeated, false, (!·.isEmpty)⟩

/-- An option without value. -/
def flagOption (name : String) : OptionSpec := textOption name .flag

def orderNamed? : String → Option SortOrder
  | "date" => some .date
  | "topo" => some .topological
  | _ => none

/-- The options that may stand anywhere. -/
def commonOptions : List OptionSpec :=
  [CountSpec.initial.spec, CountSpec.firstStep.spec, CountSpec.cacheSize.spec]

/-- The arguments before the command. -/
def outerSpec : CommandSpec := ⟨commonOptions, fun _ => true, true⟩

/-- The arguments of the log. -/
def logSpec : CommandSpec where
  options := commonOptions ++
    [⟨"branch", some 'b', .repeated, true, fun _ => true⟩, textOption "author" .repeated,
      textOption "grep" .single, flagOption "regex", flagOption "match-case",
      textOption "since" .single, textOption "until" .single, textOption "hash" .repeated,
      pathOption "root", pathOption "index",
      ⟨"order", none, .single, false, fun text => (orderNamed? text).isSome⟩,
      ⟨"stage", none, .single, false, fun text => (Stage.named? text).isSome⟩,
      flagOption "oneline", flagOption "no-pager"]
  isArgument := (!·.isEmpty)
  hasVersion := false

def resolveSpec : CommandSpec := ⟨commonOptions ++ [pathOption "repo"], fun _ => true, false⟩

inductive Command where
  /-- Shows commits. -/
  | log (repositories : List Path) (options : LogOptions)
  /-- Expands partial hashes. -/
  | resolve (repositories : List Path) (hashes : List String)

/-- A command with all that concerns the session. -/
structure Invocation where
  budget : Budget
  cacheSize : Nat
  indexedRoots : List Path
  command : Command

namespace Invocation

/-- The repositories that are named to be opened. -/
def repositories (invocation : Invocation) : List Path :=
  match invocation.command with
  | .log repositories _ => repositories
  | .resolve repositories _ => repositories

/-- The other paths that are named. -/
def otherPaths (invocation : Invocation) : List Path :=
  invocation.indexedRoots ++
    match invocation.command with
    | .log _ options => options.roots ++ options.paths
    | .resolve _ _ => []

end Invocation

def paths (texts : List String) : List Path := texts.map Path.mk

/-- The log that arguments ask for. -/
def logCommand (arguments : Arguments) : Except Stop Command := do
  let trailing := arguments.trailing.getD []
  if trailing.any (·.isEmpty) then throw .misuse
  if (arguments.has "regex" || arguments.has "match-case") && !arguments.has "grep" then
    throw .misuse
  return .log (paths arguments.positional) {
    branches := arguments.values "branch"
    authors := arguments.values "author"
    grep := arguments.value? "grep"
    isPattern := arguments.has "regex"
    matchCase := arguments.has "match-case"
    since := arguments.value? "since"
    upTo := arguments.value? "until"
    hashes := arguments.values "hash"
    roots := paths (arguments.values "root")
    paths := paths trailing
    order := ((arguments.value? "order").bind orderNamed?).getD .date
    stage := ((arguments.value? "stage").bind Stage.named?).getD .initial
    oneline := arguments.has "oneline" }

/-- The expansion that arguments ask for. -/
def resolveCommand (arguments : Arguments) : Except Stop Command := do
  let hashes := arguments.positional ++ arguments.trailing.getD []
  if hashes.isEmpty then throw .misuse
  return .resolve (paths (arguments.values "repo")) hashes

/-- What asking for help with the given names comes to: there is help on the program, on its
commands and on help itself. -/
def helpStop : List String → Stop
  | [] => .help
  | [name] => if name ∈ ["log", "resolve", "help"] then .help else .misuse
  | _ => .misuse

/-- Reads a command line. -/
def parse (environment : String → Option String) (texts : List String) :
    Except Stop Invocation := do
  let (before, rest) ← outerSpec.read (fun _ => true) texts .none
  let (spec, make) ← match rest.head? with
    | some "log" => pure (logSpec, logCommand)
    | some "resolve" => pure (resolveSpec, resolveCommand)
    | some "help" => throw (helpStop rest.tail)
    | _ => throw .misuse
  let (arguments, _) ← spec.read (fun _ => false) rest.tail .none
  let initial ← CountSpec.initial.resolve environment before arguments
  let firstStep ← CountSpec.firstStep.resolve environment before arguments
  let cacheSize ← CountSpec.cacheSize.resolve environment before arguments
  let command ← make arguments
  return ⟨⟨initial, firstStep⟩, cacheSize, paths (arguments.values "index"), command⟩

end CommitLog.CommandLine
