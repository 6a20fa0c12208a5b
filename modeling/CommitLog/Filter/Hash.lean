import CommitLog.Text.Blank

/-!
# Filtering by hash
-/

namespace CommitLog

/-- Full or partial hashes of the commits to show. -/
structure HashFilter where
  hashes : List String
  deriving DecidableEq, Repr

namespace HashFilter

/-- The filter of the given texts; blanks around them do not count, nor do blank texts. -/
def ofTexts (texts : List String) : HashFilter :=
  ⟨(texts.map Text.trimmed).filter fun hash => !hash.isEmpty⟩

def isEmpty (filter : HashFilter) : Bool := filter.hashes.isEmpty

end HashFilter

end CommitLog
