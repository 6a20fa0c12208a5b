import CommitLog.Path.Basic

/-!
# Tables by path

A table has at most one entry for every path, in ascending order of paths.  An entry keeps the
spelling under which its path came first.
-/

namespace CommitLog

structure PathTable (α : Type) where
  entries : List (Path × α)

namespace PathTable

def empty : PathTable α := ⟨[]⟩

/-- Puts an entry into an ascending list, in place of the entry of the same path. -/
def insertEntry (path : Path) (value : α) : List (Path × α) → List (Path × α)
  | [] => [(path, value)]
  | (p, v) :: rest =>
    match path.order p with
    | .lt => (path, value) :: (p, v) :: rest
    | .eq => (p, value) :: rest
    | .gt => (p, v) :: insertEntry path value rest

/-- The table with an entry, in place of what it had for the path. -/
def insert (table : PathTable α) (path : Path) (value : α) : PathTable α :=
  ⟨insertEntry path value table.entries⟩

def get? (table : PathTable α) (path : Path) : Option α :=
  (table.entries.find? fun (p, _) => p == path).map (·.2)

def paths (table : PathTable α) : List Path := table.entries.map (·.1)

/-- The table of the given entries; of several for one path the last counts. -/
def ofList (entries : List (Path × α)) : PathTable α :=
  entries.foldl (fun table (path, value) => table.insert path value) empty

end PathTable

end CommitLog
