import CommitLog.Pattern.Notation
import CommitLog.Unicode.Script
import CommitLog.Unicode.BinaryProperty

/-!
# Properties in patterns

`PropertyName.codePoints?` looks up the characters that a property of a pattern stands for.  Names
are compared without case, blanks, hyphens, underscores and a leading `is`.
-/

namespace CommitLog.Pattern

open CommitLog.Unicode

/-- A name without a leading `is`. -/
def dropIs : List Char → List Char
  | i :: s :: rest =>
    if (i = 'i' ∨ i = 'I') ∧ (s = 's' ∨ s = 'S') then
      (if rest.map Char.toLower = ['c'] then i :: s :: rest else rest)
    else i :: s :: rest
  | name => name

/-- The form in which names are compared. -/
def looseName (name : String) : String :=
  String.ofList (((dropIs name.toList).filter fun c =>
    !(c ∈ [' ', '_', '-']) && c.toNat < 0x80).map Char.toLower)

/-- The characters of a category or of one of the three sets that count as categories. -/
def categoryNamed? (name : String) : Option CodePoints :=
  match name with
  | "any" => some .everything
  | "assigned" => some (Category.codePoints .unassigned).complement
  | "ascii" => some [(0, 0x7F)]
  | name => (Category.named? name).map Category.union

/-- The names of properties that are also names of categories; the category goes first. -/
def categoryFirst : List String := ["cf", "sc", "lc"]

def plainProperty? (name : String) : Option CodePoints :=
  let binary? := if categoryFirst.contains name then none else BinaryProperty.named? name
  (binary?.map BinaryProperty.codePoints) <|> categoryNamed? name <|>
    ((Script.named? name).map Script.codePoints)

def valuedProperty? (name value : String) : Option CodePoints :=
  match name with
  | "generalcategory" | "gc" => categoryNamed? value
  | "script" | "sc" => (Script.named? value).map Script.codePoints
  | "scriptextensions" | "scx" => (Script.named? value).map Script.extended
  | _ => none

def PropertyName.codePoints? : PropertyName → Option CodePoints
  | .plain name => plainProperty? (looseName name)
  | .valued name value => valuedProperty? (looseName name) (looseName value)

end CommitLog.Pattern
