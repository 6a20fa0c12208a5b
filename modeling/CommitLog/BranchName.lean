import CommitLog.Fault

/-!
# Names of branches

A branch name is not empty, and no part of it between slashes starts with a dot.  It has no two dots
in a row, no slash at either end, no lock file ending, no `@` before an opening brace, and none of
the characters that stand for something else in a command.
-/

namespace CommitLog

/-- The name of a branch, or of the head. -/
structure BranchName where
  text : String
  deriving DecidableEq, Repr

namespace BranchName

/-- The name under which the commit that is checked out goes. -/
def headText : String := "HEAD"

/-- The pseudo branch of the commit that is checked out. -/
def head : BranchName := ⟨headText⟩

def isHead (name : BranchName) : Bool := name.text == headText

def occurs (part : List Char) : List Char → Bool
  | [] => part.isEmpty
  | c :: rest => part.isPrefixOf (c :: rest) || occurs part rest

/-- The characters that no name has: control characters, the space, and seven others. -/
def isForbiddenChar (c : Char) : Bool :=
  c.toNat ≤ 0x20 || c.toNat == 0x7F || c ∈ "*:?[\\~^".toList

/-- Whether a text breaks one of the rules for names. -/
def isForbidden (text : List Char) : Bool :=
  ['.'].isPrefixOf text || occurs ['/', '.'] text || occurs ['.', '.'] text ||
    ['/'].isPrefixOf text || ['/'].isSuffixOf text || ".lock".toList.isSuffixOf text ||
    occurs ['@', '\x7b'] text || text.any isForbiddenChar

/-- Reads the name of a branch. -/
def parse (text : String) : Except Fault BranchName :=
  if text.isEmpty then .error .branchEmpty
  else if isForbidden text.toList then .error (.branchName text)
  else .ok ⟨text⟩

end BranchName

end CommitLog
