import CommitLog.Object.Author
import CommitLog.Object.Framing

/-!
# Commits

A commit names a tree and its parents, says who wrote and who committed it, and carries a message.
Its body is text: header lines, an empty line, and the message.

    tree 4b825dc642cb6eb9a060e54bf8d69288fbee4904
    parent 2222222222222222222222222222222222222222
    author Ada <ada@example.com> 1700000000 +0000
    committer Ada <ada@example.com> 1700000000 +0000

    Fix the parser
-/

namespace CommitLog

structure Commit where
  parents : List ObjectId
  tree : ObjectId
  author : Author
  committer : Author
  message : String
  deriving DecidableEq

namespace Commit

/-- A commit by one person. -/
def byAuthor (parents : List ObjectId) (tree : ObjectId) (author : Author) (message : String) :
    Commit :=
  ⟨parents, tree, author, author, message⟩

def shortMessage (commit : Commit) : String := Text.firstLine commit.message

/-- The lines of the body, the message as the last of them. -/
def contentLines (commit : Commit) : List String :=
  ["tree " ++ commit.tree.text] ++ commit.parents.map (fun p => "parent " ++ p.text) ++
    ["author " ++ commit.author.display, "committer " ++ commit.committer.display, "",
      commit.message]

def content (commit : Commit) : List UInt8 :=
  Utf8.ofString ("\n".intercalate commit.contentLines)

def toRaw (commit : Commit) : RawObject := ⟨.commit, commit.content⟩

/-- What the header lines read so far have given. -/
structure Headers where
  tree : Option ObjectId
  parents : List ObjectId
  author : Option Author
  committer : Option Author

def Headers.empty : Headers := ⟨none, [], none, none⟩

/-- Takes in a header line.  A line that starts with a space goes on with the line before it and
does not count; neither do lines with an unknown first word. -/
def Headers.add (headers : Headers) (line : List Char) : Except Fault Headers :=
  if line.head? = some ' ' then .ok headers
  else
    let (key, value) := (Text.splitOnce ' ' line).getD (line, [])
    let value := String.ofList value
    match String.ofList key with
    | "tree" => do
      let tree ← (ObjectId.parse value).mapError .objectId
      return { headers with tree := some tree }
    | "parent" => do
      let parent ← (ObjectId.parse value).mapError .objectId
      return { headers with parents := headers.parents ++ [parent] }
    | "author" => do return { headers with author := some (← Author.parse value) }
    | "committer" => do return { headers with committer := some (← Author.parse value) }
    | _ => .ok headers

/-- The commit with these headers; an author without committer is both. -/
def Headers.finish (headers : Headers) (message : String) : Except Fault Commit := do
  let some author := headers.author | throw .commitAuthor
  let some tree := headers.tree | throw .commitTree
  return ⟨headers.parents, tree, author, headers.committer.getD author, message⟩

def parse (body : List UInt8) : Except Fault Commit := do
  let text ← (Utf8.decode body).mapError fun _ => .notText
  let (head, message) := (Text.splitParagraph text).getD (text, [])
  let headers ← (Text.lines head).foldlM Headers.add Headers.empty
  headers.finish (String.ofList message)

end Commit

end CommitLog
