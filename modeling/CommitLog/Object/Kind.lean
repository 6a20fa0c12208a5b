/-!
# Kinds of objects
-/

namespace CommitLog

/-- The kinds of objects that a history is made of. -/
inductive ObjectKind where
  | blob
  | tree
  | commit
  deriving DecidableEq, Repr

namespace ObjectKind

def name : ObjectKind → String
  | .blob => "blob"
  | .tree => "tree"
  | .commit => "commit"

def named? : String → Option ObjectKind
  | "blob" => some .blob
  | "tree" => some .tree
  | "commit" => some .commit
  | _ => none

/-- What stands before the body of an object: its kind and the length of the body, ended by a null
character. -/
def header (kind : ObjectKind) (size : Nat) : String :=
  kind.name ++ " " ++ toString size ++ "\x00"

end ObjectKind

end CommitLog
