import CommitLog.Search.MetadataStore

/-!
# The owner of loaded details

One thread owns a source of details and serves the callers of other threads.  A caller puts its
question into a queue of bounded length and waits for the answer, which comes on a way of its own;
the owner takes one question after the other from the queue, looks it up in the source and sends
what it has found.  When its source breaks down, the thread ends: the questions that it has not
answered, and all later ones, are left without details.

`step?` is one step of a caller or of the owner, and callers and owner may take their steps in any
order.  `request` is the run of a caller that nobody else disturbs.
-/

namespace CommitLog

/-! ## Sources -/

/-- What asking a source leads to. -/
inductive SourceReply where
  /-- An answer: the details, if they are loaded. -/
  | answer (metadata : Option Metadata)
  /-- The source asks the owner for another commit and answers with what it gets. -/
  | ask (index : CommitIndex)
  /-- The source breaks down. -/
  | breakdown

namespace SourceReply

/-- What the owner's thread gets from a source.  A question of the source itself is answered on the
spot, and there may be at most so many in a row; the outer option is empty when the source breaks
down. -/
def follow (source : CommitIndex → SourceReply) : Nat → CommitIndex → Option (Option Metadata)
  | 0, _ => none
  | questions + 1, index =>
    match source index with
    | .answer metadata => some metadata
    | .ask other => follow source questions other
    | .breakdown => none

end SourceReply

/-! ## Questions -/

/-- How far a question has come. -/
inductive Question.Stage where
  /-- The caller wants to put it into the queue. -/
  | asked
  /-- It is in the queue, or the owner has taken it. -/
  | queued
  /-- The owner has looked it up and is to send the answer. -/
  | found (metadata : Option Metadata)
  /-- The answer is on its way. -/
  | answered (metadata : Option Metadata)
  /-- The caller has the answer. -/
  | returned (metadata : Option Metadata)

/-- A question for the details of a commit. -/
structure Question where
  index : CommitIndex
  stage : Question.Stage

namespace Question

/-- What a question without answer gets when the owner ends. -/
def abandon (question : Question) : Question :=
  match question.stage with
  | .queued => { question with stage := .answered none }
  | _ => question

end Question

/-! ## The owner -/

/-- The thread that owns a source, with the questions of its callers. -/
structure MetadataOwner where
  /-- Whether the thread still serves. -/
  running : Bool
  /-- All questions by number. -/
  questions : List Question
  /-- The questions in the queue, oldest first. -/
  queue : List Nat
  /-- The question that has been taken from the queue. -/
  current : Option Nat

/-- A step of a caller or of the owner. -/
inductive OwnerEvent where
  /-- A caller has a question, which gets the next number. -/
  | ask (index : CommitIndex)
  /-- The caller of a question puts it into the queue. -/
  | enqueue (number : Nat)
  /-- The owner takes the oldest question. -/
  | take
  /-- The owner asks the source for the question it has taken. -/
  | look
  /-- The owner sends what it has found. -/
  | reply
  /-- The caller of a question receives the answer. -/
  | receive (number : Nat)
  deriving DecidableEq, Repr

namespace MetadataOwner

def start : MetadataOwner := ⟨true, [], [], none⟩

def queueCapacity : Nat := 64

/-- The owner with a question at another stage. -/
def advance (owner : MetadataOwner) (number : Nat) (stage : Question.Stage) : MetadataOwner :=
  { owner with questions := owner.questions.modify number fun q => { q with stage := stage } }

/-- The owner after its source has broken down: nobody is served any more. -/
def stop (owner : MetadataOwner) : MetadataOwner :=
  ⟨false, owner.questions.map Question.abandon, [], none⟩

/-- A caller puts its question into the queue.  It waits while the queue is full, and goes away with
nothing when the thread has ended. -/
def enqueue? (owner : MetadataOwner) (number : Nat) : Option MetadataOwner :=
  match owner.questions[number]? with
  | some ⟨_, .asked⟩ =>
    if !owner.running then some (owner.advance number (.returned none))
    else if owner.queue.length < queueCapacity then
      some ({ owner with queue := owner.queue ++ [number] }.advance number .queued)
    else none
  | _ => none

/-- The owner takes the oldest question, one at a time. -/
def take? (owner : MetadataOwner) : Option MetadataOwner :=
  match owner.current, owner.queue with
  | none, number :: rest => some { owner with queue := rest, current := some number }
  | _, _ => none

/-- The owner asks the source for the question it has taken, once. -/
def look? (owner : MetadataOwner) (source : CommitIndex → Option (Option Metadata)) :
    Option MetadataOwner := do
  let number ← owner.current
  match owner.questions[number]? with
  | some ⟨index, .queued⟩ =>
    match source index with
    | some metadata => return owner.advance number (.found metadata)
    | none => return owner.stop
  | _ => none

/-- The owner sends what it has found and is free for the next question. -/
def reply? (owner : MetadataOwner) : Option MetadataOwner := do
  let number ← owner.current
  match owner.questions[number]? with
  | some ⟨_, .found metadata⟩ =>
    return { owner with current := none }.advance number (.answered metadata)
  | _ => none

def receive? (owner : MetadataOwner) (number : Nat) : Option MetadataOwner :=
  match owner.questions[number]? with
  | some ⟨_, .answered metadata⟩ => some (owner.advance number (.returned metadata))
  | _ => none

/-- A step, if it is possible now. -/
def step? (source : CommitIndex → Option (Option Metadata)) (owner : MetadataOwner) :
    OwnerEvent → Option MetadataOwner
  | .ask index => some { owner with questions := owner.questions ++ [⟨index, .asked⟩] }
  | .enqueue number => owner.enqueue? number
  | .take => owner.take?
  | .look => owner.look? source
  | .reply => owner.reply?
  | .receive number => owner.receive? number

/-- The owner after the steps that are possible. -/
def steps (source : CommitIndex → Option (Option Metadata)) (owner : MetadataOwner)
    (events : List OwnerEvent) : MetadataOwner :=
  events.foldl (fun owner event => (owner.step? source event).getD owner) owner

/-- What the caller of a question has got. -/
def returned? (owner : MetadataOwner) (number : Nat) : Option Metadata :=
  match owner.questions[number]? with
  | some ⟨_, .returned metadata⟩ => metadata
  | _ => none

/-- The answer to a question that nobody else disturbs, and the owner after it. -/
def request (owner : MetadataOwner) (source : CommitIndex → Option (Option Metadata))
    (index : CommitIndex) : Option Metadata × MetadataOwner :=
  let number := owner.questions.length
  let after := owner.steps source
    [.ask index, .enqueue number, .take, .look, .reply, .receive number]
  (after.returned? number, after)

end MetadataOwner

end CommitLog
