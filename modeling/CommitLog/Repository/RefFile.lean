/-!
# Writing the file of a ref

A writer opens the file, which empties it, and only then waits for the lock.  With the lock it
writes its text at the start of the file and a line feed after the text, and gives the lock back.
`advance?` is one step of one of several writers, which take their steps in any order.  A writer
that nobody else disturbs leaves `written` behind, whatever the file held.
-/

namespace CommitLog

/-- How far a writer has come. -/
inductive RefWriter.Stage where
  | closed
  | opened
  | locked
  | textWritten
  | lineEnded
  | finished
  deriving DecidableEq, Repr

/-- A writer with the text of its ref. -/
structure RefWriter where
  text : List UInt8
  stage : RefWriter.Stage
  deriving DecidableEq, Repr

/-- The file of a ref and those who write it. -/
structure RefFile where
  content : List UInt8
  /-- The writer that has the lock. -/
  holder : Option Nat
  writers : List RefWriter
  deriving DecidableEq, Repr

namespace RefFile

/-- The byte that ends the text of a ref. -/
def lineFeed : UInt8 := 0x0A

/-- What a writer means to leave behind. -/
def written (text : List UInt8) : List UInt8 := text ++ [lineFeed]

/-- Bytes with some of them overwritten from a position on; a gap before it is filled with zeros. -/
def overwrite (content : List UInt8) (position : Nat) (data : List UInt8) : List UInt8 :=
  content.take position ++ List.replicate (position - content.length) 0 ++ data ++
    content.drop (position + data.length)

/-- A file before its writers begin. -/
def start (content : List UInt8) (texts : List (List UInt8)) : RefFile :=
  ⟨content, none, texts.map (⟨·, .closed⟩)⟩

/-- The file with new content, lock and stage of a writer. -/
def move (file : RefFile) (number : Nat) (stage : RefWriter.Stage) (content : List UInt8)
    (holder : Option Nat) : RefFile :=
  ⟨content, holder, file.writers.modify number fun writer => { writer with stage := stage }⟩

/-- The next step of a writer, if it is possible now: nobody gets the lock while another has it. -/
def advance? (file : RefFile) (number : Nat) : Option RefFile := do
  let writer ← file.writers[number]?
  match writer.stage with
  | .closed => return file.move number .opened [] file.holder
  | .opened =>
    if file.holder.isSome then none
    else return file.move number .locked file.content (some number)
  | .locked =>
    return file.move number .textWritten (overwrite file.content 0 writer.text) file.holder
  | .textWritten =>
    return file.move number .lineEnded (overwrite file.content writer.text.length [lineFeed])
      file.holder
  | .lineEnded => return file.move number .finished file.content none
  | .finished => none

/-- The steps of the given writers one after the other, if they are possible. -/
def run? (file : RefFile) (numbers : List Nat) : Option RefFile := numbers.foldlM advance? file

def isFinished (file : RefFile) : Bool := file.writers.all (·.stage == .finished)

/-- Overwriting nothing writes the data. -/
theorem overwrite_nil (data : List UInt8) : overwrite [] 0 data = data := by
  simp [overwrite]

/-- Writing at the end appends. -/
theorem overwrite_length (content data : List UInt8) :
    overwrite content content.length data = content ++ data := by
  simp [overwrite]

/-- A writer that nobody else disturbs leaves its text and a line feed behind. -/
theorem run?_alone (content text : List UInt8) :
    (start content [text]).run? [0, 0, 0, 0, 0] =
      some ⟨written text, none, [⟨text, .finished⟩]⟩ := by
  simp [run?, start, advance?, move, written, overwrite_nil, overwrite_length]

end RefFile

end CommitLog
