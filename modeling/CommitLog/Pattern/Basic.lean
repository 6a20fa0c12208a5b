import CommitLog.Pattern.Cost
import CommitLog.Pattern.Reader
import CommitLog.Pattern.Resolve

/-!
# Patterns

A pattern is an expression that fits into its automaton.  It is made from the pattern language
(`ofText?`), from a plain text (`ofLiteral?`), or from a name with wildcards (`ofWildcards?`), where
a star stands for any run of characters and a question mark for one character; line feeds aside.
Plain texts and names are put into the pattern language, with a backslash before every character
that would mean something else there.
-/

namespace CommitLog

structure Pattern where
  expr : Pattern.Expr

namespace Pattern

/-- The pattern of an expression, unless it is too large. -/
def ofExpr? (e : Expr) : Option Pattern := if e.fits then some ⟨e⟩ else none

/-- The pattern that a text of the pattern language describes. -/
def ofText? (ignoreCase : Bool) (text : String) : Option Pattern := do
  let node ← readPattern? text.toList
  let (e, _) ← node.resolve? (Flags.start ignoreCase)
  ofExpr? e

/-- A text with a backslash before every character that has a meaning of its own. -/
def escape (text : List Char) : List Char :=
  text.flatMap fun c => if isMeta c then ['\\', c] else [c]

/-- The pattern that stands for a text itself. -/
def ofLiteral? (ignoreCase : Bool) (text : String) : Option Pattern :=
  ofText? ignoreCase (String.ofList (escape text.toList))

/-- What a character of a name with wildcards is in the pattern language. -/
def wildcardText : Char → List Char
  | '*' => ['.', '*']
  | '?' => ['.']
  | c => escape [c]

/-- The pattern that stands for the whole of the names that a name with wildcards describes. -/
def ofWildcards? (spec : String) : Option Pattern :=
  ofText? false (String.ofList ('^' :: spec.toList.flatMap wildcardText ++ ['$']))

def occursIn (pattern : Pattern) (text : String) : Bool := pattern.expr.occursIn text.toList

end Pattern

end CommitLog
