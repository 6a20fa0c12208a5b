import CommitLog.Text.Blank

/-!
# Paths

A path is a text that names a file by its components.  Two paths are the same when their components
are: repeated and trailing slashes do not count, nor do single dots after the first component.  A
path still prints as it was written, and what `stripBase?` leaves over keeps the spelling of the
remaining text.  Paths are ordered by components, so everything below `a` comes before `a.txt`.
-/

namespace CommitLog

/-- A part of a path. -/
inductive Component where
  /-- The leading slash of an absolute path. -/
  | root
  /-- A leading single dot. -/
  | current
  /-- Two dots. -/
  | parent
  /-- A name. -/
  | normal (name : String)
  deriving DecidableEq, Hashable, Repr

namespace Component

/-- The kinds of components in ascending order. -/
def rank : Component → Nat
  | .root => 0
  | .current => 1
  | .parent => 2
  | .normal _ => 3

/-- Components are ordered by kind, names by their characters. -/
def order : Component → Component → Ordering
  | .normal a, .normal b => compare a b
  | a, b => compare a.rank b.rank

def text : Component → String
  | .root => "/"
  | .current => "."
  | .parent => ".."
  | .normal name => name

/-- What the text between two slashes stands for; an empty text and a single dot stand for
nothing. -/
def ofSegment? (segment : List Char) : Option Component :=
  if segment = [] ∨ segment = ['.'] then none
  else if segment = ['.', '.'] then some .parent
  else some (.normal (String.ofList segment))

end Component

/-- Lexicographic order of lists of components. -/
def orderComponents : List Component → List Component → Ordering
  | [], [] => .eq
  | [], _ :: _ => .lt
  | _ :: _, [] => .gt
  | a :: as, b :: bs => (a.order b).then (orderComponents as bs)

/-- A path as it was written. -/
structure Path where
  text : String
  deriving Repr

namespace Path

/-- The leading slash, or the leading dot of a path such as `./a`, apart from the rest. -/
def split (path : Path) : Option Component × List Char :=
  match path.text.toList with
  | '/' :: rest => (some .root, rest)
  | ['.'] => (some .current, [])
  | '.' :: '/' :: rest => (some .current, '/' :: rest)
  | text => (none, text)

/-- The texts between the slashes of the path, after its leading slash or dot. -/
def segments (path : Path) : List (List Char) := Text.splitAll '/' path.split.2

/-- The components of the path. -/
def components (path : Path) : List Component :=
  path.split.1.toList ++ path.segments.filterMap Component.ofSegment?

/-- Paths with equal components are the same path. -/
def same (a b : Path) : Bool := a.components == b.components

instance : BEq Path := ⟨same⟩

instance : Hashable Path := ⟨fun path => hash path.components⟩

/-- The order of paths. -/
def order (a b : Path) : Ordering := orderComponents a.components b.components

/-- Whether the path starts with a slash. -/
def isAbsolute (path : Path) : Bool := path.split.1 == some .root

/-- The path `other` as seen from `base`: absolute paths stay as they are, others follow `base`
after one slash. -/
def join (base other : Path) : Path :=
  match other.text.toList, base.text.toList.getLast? with
  | '/' :: _, _ => other
  | _, none => other
  | _, some '/' => ⟨base.text ++ other.text⟩
  | _, some _ => ⟨base.text ++ "/" ++ other.text⟩

/-- `join` with a plain text. -/
def child (base : Path) (name : String) : Path := base.join ⟨name⟩

/-- Whether the components of `base` begin those of the path. -/
def startsWith (path base : Path) : Bool := base.components.isPrefixOf path.components

/-- Whether a segment stands for no component. -/
def isSilent (segment : List Char) : Bool := (Component.ofSegment? segment).isNone

/-- The segments without the silent ones at the end. -/
def dropSilentEnd (segments : List (List Char)) : List (List Char) :=
  (segments.reverse.dropWhile isSilent).reverse

/-- The segments after the first `count` components. -/
def dropComponents : Nat → List (List Char) → List (List Char)
  | 0, segments => segments
  | _ + 1, [] => []
  | count + 1, segment :: rest =>
    if isSilent segment then dropComponents (count + 1) rest else dropComponents count rest

/-- The text of a head and of segments. -/
def assemble (head : Option Component) (segments : List (List Char)) : Path :=
  ⟨(head.map Component.text).getD "" ++ String.ofList (['/'].intercalate segments)⟩

/-- The rest of the path after its first `count` components, as it is written there. -/
def afterComponents (path : Path) (count : Nat) : Path :=
  match path.split.1, count with
  | head, 0 => assemble head (dropSilentEnd path.segments)
  | some _, count + 1 =>
    assemble none (dropSilentEnd ((dropComponents count path.segments).dropWhile isSilent))
  | none, count + 1 =>
    assemble none (dropSilentEnd ((dropComponents (count + 1) path.segments).dropWhile isSilent))

/-- The path relative to `base`, when it starts with it. -/
def stripBase? (path base : Path) : Option Path :=
  if path.startsWith base then some (path.afterComponents base.components.length) else none

/-- The directory that holds what the path names. -/
def directory? (path : Path) : Option Path :=
  match path.components.getLast?, dropSilentEnd path.segments with
  | none, _ => none
  | some .root, _ => none
  | some _, [] => some ⟨""⟩
  | some _, segments => some (assemble path.split.1 (dropSilentEnd segments.dropLast))

/-- The name that ends the path, unless it ends in a slash of its own or in two dots. -/
def fileName? (path : Path) : Option String :=
  match path.components.getLast? with
  | some (.normal name) => some name
  | _ => none

/-- The last name of the path, or the whole path when it ends in none. -/
def label (path : Path) : String := path.fileName?.getD path.text

end Path

/-! ## Sets of paths -/

/-- Adds a path to an ascending list, unless the list already has the same path. -/
def insertPath (path : Path) : List Path → List Path
  | [] => [path]
  | p :: rest =>
    match path.order p with
    | .lt => path :: p :: rest
    | .eq => p :: rest
    | .gt => p :: insertPath path rest

/-- Adds a path to an ascending list, in place of the same path if it is there. -/
def replacePath (path : Path) : List Path → List Path
  | [] => [path]
  | p :: rest =>
    match path.order p with
    | .lt => path :: p :: rest
    | .eq => path :: rest
    | .gt => p :: replacePath path rest

/-- The paths in ascending order; of the spellings of one path the last one stays. -/
def sortPaths (paths : List Path) : List Path := paths.foldl (fun set p => replacePath p set) []

end CommitLog
