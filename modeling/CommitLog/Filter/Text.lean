import CommitLog.Metadata
import CommitLog.Pattern.Basic

/-!
# Filtering by message

A filter has a text, taken literally or as a pattern, that has to occur in the message of a commit.
Unless case is to be matched, letters count in either case.
-/

namespace CommitLog

structure TextFilter where
  text : String
  isPattern : Bool
  matchCase : Bool
  pattern : Pattern

namespace TextFilter

def ofText (text : String) (isPattern matchCase : Bool) : Except Fault TextFilter :=
  let pattern? :=
    if isPattern then Pattern.ofText? (!matchCase) text else Pattern.ofLiteral? (!matchCase) text
  match pattern? with
  | some pattern => .ok ⟨text, isPattern, matchCase, pattern⟩
  | none => .error (.textPattern text)

def acceptsMessage (filter : TextFilter) (message : String) : Bool :=
  filter.pattern.occursIn message

/-- Whether the pattern occurs in the message of a commit. -/
def accepts (filter : TextFilter) (metadata : Metadata) : Bool :=
  filter.acceptsMessage metadata.message

end TextFilter

end CommitLog
