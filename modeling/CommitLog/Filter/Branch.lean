import CommitLog.BranchName
import CommitLog.Pattern.Basic

/-!
# Filtering by branch

A spec names a branch or, with `*` and `?`, several; a hyphen before it excludes them.  A filter
lets a name through when some including spec selects it, or there is none, and no excluding spec
does.  `@` is another word for the head.
-/

namespace CommitLog

/-- What a spec selects. -/
inductive BranchSelector where
  /-- The name itself. -/
  | exact (name : String)
  /-- The names that the pattern describes. -/
  | wildcards (pattern : Pattern)

namespace BranchSelector

def hasWildcards (spec : String) : Bool := spec.toList.any fun c => c == '*' || c == '?'

/-- Reads a spec without its hyphen. -/
def parse (spec : String) : Except Fault BranchSelector :=
  let spec := if spec = "@" then BranchName.headText else spec
  if hasWildcards spec then
    match Pattern.ofWildcards? spec with
    | some pattern => .ok (.wildcards pattern)
    | none => .error (.branchPattern spec)
  else .ok (.exact spec)

def selects : BranchSelector → String → Bool
  | .exact whole, name => whole == name
  | .wildcards pattern, name => pattern.occursIn name

end BranchSelector

structure BranchFilter where
  specs : List String
  includes : List BranchSelector
  excludes : List BranchSelector

namespace BranchFilter

def empty : BranchFilter := ⟨[], [], []⟩

def add (filter : BranchFilter) (spec : String) : Except Fault BranchFilter :=
  match spec.toList with
  | '-' :: rest => do
    let selector ← BranchSelector.parse (String.ofList rest)
    return ⟨filter.specs ++ [spec], filter.includes, filter.excludes ++ [selector]⟩
  | _ => do
    let selector ← BranchSelector.parse spec
    return ⟨filter.specs ++ [spec], filter.includes ++ [selector], filter.excludes⟩

def ofSpecs (specs : List String) : Except Fault BranchFilter := specs.foldlM add empty

def accepts (filter : BranchFilter) (name : String) : Bool :=
  (filter.includes.isEmpty || filter.includes.any (·.selects name)) &&
    !filter.excludes.any (·.selects name)

end BranchFilter

end CommitLog
