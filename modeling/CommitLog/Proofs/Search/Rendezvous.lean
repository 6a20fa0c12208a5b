import CommitLog.Proofs.Search.Owner

/-!
# Callers of one owner

Any number of callers ask one owner, while details are loaded into the store that its source reads,
and all of them may take their steps in any order (`OwnerSchedule`).  A call that returns gives what
the source held for its commit at a moment between its start and its return, or nothing when the
owner has stopped.  No question is served twice, and a reply reaches the caller that has been served
and no other (`OwnerSchedule.calls_answered`).

    schedule.question? now n = some ⟨index, .returned value⟩ → ∃ start t finish,
      start < t ∧ t < finish ∧ finish < now ∧ schedule.CallsAt start n index ∧
        schedule.ServesAt t n index ∧ schedule.held t index = some value ∧
          schedule.ReturnsAt finish n index value           -- unless the owner has stopped
-/

namespace CommitLog

namespace MetadataStore

theorem get?_empty (index : CommitIndex) : empty.get? index = none := by
  simp [empty, get?]

theorem get?_insert (store : MetadataStore) (metadata : Metadata) (index : CommitIndex) :
    (store.insert metadata).get? index =
      if metadata.index = index then some metadata else store.get? index := by
  simp [insert, get?, Std.HashMap.getElem?_insert]

end MetadataStore

/-! ## Schedules -/

/-- An owner and the store that its source reads. -/
structure ServedStore where
  store : MetadataStore
  owner : MetadataOwner

/-- What may happen to an owner or to the store of its source. -/
inductive ServedStore.Event where
  /-- The details of a commit come into the store. -/
  | load (metadata : Metadata)
  /-- A caller or the owner takes a step. -/
  | step (event : OwnerEvent)

/-- The owner and the store after an event.  A step that is not possible is not taken. -/
def ServedStore.after (served : ServedStore) (source : CommitIndex → Option (Option Metadata)) :
    Event → ServedStore
  | .load metadata => { served with store := served.store.insert metadata }
  | .step event => { served with owner := (served.owner.step? source event).getD served.owner }

/-- All that happens to an owner, moment by moment. -/
structure OwnerSchedule where
  /-- What is loaded when the owner begins to serve. -/
  initial : MetadataStore
  /-- What asking the source leads to at a moment, with the details that are loaded by then; nothing
  when the source breaks down. -/
  source : Nat → MetadataStore → CommitIndex → Option (Option Metadata)
  event : Nat → ServedStore.Event

namespace OwnerSchedule

def state (schedule : OwnerSchedule) : Nat → ServedStore
  | 0 => ⟨schedule.initial, .start⟩
  | t + 1 =>
    let served := schedule.state t
    served.after (schedule.source t served.store) (schedule.event t)

def owner (schedule : OwnerSchedule) (t : Nat) : MetadataOwner := (schedule.state t).owner

def held (schedule : OwnerSchedule) (t : Nat) : CommitIndex → Option (Option Metadata) :=
  schedule.source t (schedule.state t).store

def question? (schedule : OwnerSchedule) (t n : Nat) : Option Question :=
  (schedule.owner t).questions[n]?

/-- A call starts: a caller has a question, which gets the number `n`. -/
def CallsAt (schedule : OwnerSchedule) (t n : Nat) (index : CommitIndex) : Prop :=
  schedule.event t = .step (.ask index) ∧ (schedule.owner t).questions.length = n

/-- The owner asks its source for the question `n`. -/
def ServesAt (schedule : OwnerSchedule) (t n : Nat) (index : CommitIndex) : Prop :=
  schedule.event t = .step .look ∧ (schedule.owner t).current = some n ∧
    schedule.question? t n = some ⟨index, .queued⟩

/-- The owner sends an answer to the question `n`. -/
def RepliesAt (schedule : OwnerSchedule) (t n : Nat) (index : CommitIndex)
    (value : Option Metadata) : Prop :=
  schedule.event t = .step .reply ∧ (schedule.owner t).current = some n ∧
    schedule.question? t n = some ⟨index, .found value⟩

/-- A call returns: from here on its caller has the answer to the question `n`. -/
def ReturnsAt (schedule : OwnerSchedule) (t n : Nat) (index : CommitIndex)
    (value : Option Metadata) : Prop :=
  schedule.question? t n ≠ some ⟨index, .returned value⟩ ∧
    schedule.question? (t + 1) n = some ⟨index, .returned value⟩

variable {schedule : OwnerSchedule} {t now later n : Nat} {index : CommitIndex}
  {value metadata : Option Metadata} {event : OwnerEvent} {next : MetadataOwner}
  {question : Question}

/-! ## One moment -/

theorem question?_of_owner (h : schedule.owner t = next) :
    schedule.question? t n = next.questions[n]? := by
  rw [question?, h]

theorem owner_succ_of_event (happens : schedule.event t = .step event) :
    schedule.owner (t + 1) =
      ((schedule.owner t).step? (schedule.held t) event).getD (schedule.owner t) := by
  simp only [owner, state, happens, ServedStore.after, held]

theorem owner_succ_of_step (happens : schedule.event t = .step event)
    (step : MetadataOwner.Step (schedule.held t) (schedule.owner t) event next) :
    schedule.owner (t + 1) = next := by
  rw [owner_succ_of_event happens, MetadataOwner.step?_eq_some_iff.2 step, Option.getD_some]

/-- The owner takes a step, or stays what it is. -/
theorem owner_succ (schedule : OwnerSchedule) (t : Nat) :
    schedule.owner (t + 1) = schedule.owner t ∨ ∃ event, schedule.event t = .step event ∧
      MetadataOwner.Step (schedule.held t) (schedule.owner t) event (schedule.owner (t + 1)) := by
  cases happens : schedule.event t with
  | load metadata => exact .inl (by simp only [owner, state, happens, ServedStore.after])
  | step event =>
    cases taken : (schedule.owner t).step? (schedule.held t) event with
    | none =>
      rw [owner_succ_of_event happens, taken]
      exact .inl rfl
    | some next =>
      have step := MetadataOwner.step?_eq_some_iff.1 taken
      exact .inr ⟨event, rfl, (owner_succ_of_step happens step).symm ▸ step⟩

/-- A run in which nothing is loaded and the source always says the same is a schedule too. -/
theorem owner_eq_steps {source : CommitIndex → Option (Option Metadata)} {events : List OwnerEvent}
    (given : ∀ t (h : t < events.length), schedule.event t = .step events[t])
    (same : ∀ t, t < events.length → schedule.held t = source) :
    schedule.owner events.length = MetadataOwner.start.steps source events := by
  have run (t : Nat) (inside : t ≤ events.length) :
      schedule.owner t = MetadataOwner.start.steps source (events.take t) := by
    induction t with
    | zero => rfl
    | succ t ih =>
      rw [owner_succ_of_event (given t inside), same t inside, ih (Nat.le_of_lt inside),
        List.take_succ_eq_append_getElem inside]
      simp only [MetadataOwner.steps, List.foldl_append, List.foldl_cons, List.foldl_nil]
  rw [run _ (Nat.le_refl _), List.take_length]

/-- A property of the owner that no step destroys. -/
theorem owner_induction {p : MetadataOwner → Prop} (start : p .start)
    (keeps : ∀ {source owner event next}, MetadataOwner.Step source owner event next → p owner →
      p next) (t : Nat) : p (schedule.owner t) := by
  induction t with
  | zero => exact start
  | succ t ih =>
    rcases schedule.owner_succ t with same | ⟨event, -, step⟩
    · exact same ▸ ih
    · exact keeps step ih

theorem question?_succ (h : schedule.question? (t + 1) n = some question) :
    schedule.question? t n = some question ∨ ∃ event, schedule.event t = .step event ∧
      MetadataOwner.Change (schedule.held t) (schedule.owner t) (schedule.owner (t + 1)) n event
        question := by
  rcases schedule.owner_succ t with same | ⟨event, happens, step⟩
  · exact .inl ((question?_of_owner same).symm.trans h)
  · exact (step.change h).imp_right fun change => ⟨event, happens, change⟩

/-- The queue is bounded at every moment. -/
theorem length_queue_le (schedule : OwnerSchedule) (t : Nat) :
    (schedule.owner t).queue.length ≤ MetadataOwner.queueCapacity :=
  owner_induction (p := fun owner => owner.queue.length ≤ MetadataOwner.queueCapacity)
    (Nat.zero_le _) MetadataOwner.Step.length_queue_le t

/-! ## What stays -/

theorem ended_of_le (order : t ≤ later) (ended : (schedule.owner t).running = false) :
    (schedule.owner later).running = false := by
  induction order with
  | refl => exact ended
  | @step later _ ih =>
    rcases schedule.owner_succ later with same | ⟨event, -, step⟩
    · rw [same]
      exact ih
    · exact step.ended ih

theorem answer?_of_le (order : t ≤ later) (found : schedule.question? t n = some question)
    (answer : question.answer? = some value) :
    ∃ after, schedule.question? later n = some after ∧ after.answer? = some value := by
  induction order with
  | refl => exact ⟨question, found, answer⟩
  | @step later _ ih =>
    obtain ⟨after, found, answer⟩ := ih
    rcases schedule.owner_succ later with same | ⟨event, -, step⟩
    · exact ⟨after, (question?_of_owner same).trans found, answer⟩
    · exact step.answer? found answer

/-! ## Calls and answers -/

/-- Every question has been asked. -/
theorem exists_callsAt (found : schedule.question? now n = some question) :
    ∃ start, start < now ∧ schedule.CallsAt start n question.index := by
  induction now generalizing question with
  | zero => cases found
  | succ now ih =>
    rcases question?_succ found with same | ⟨event, happens, change⟩
    · obtain ⟨start, before, calls⟩ := ih same
      exact ⟨start, Nat.lt_succ_of_lt before, calls⟩
    · cases change with
      | asked last => exact ⟨now, Nat.lt_succ_self now, happens, last⟩
      | turnedAway own | queued own | found _ own | abandoned own | answered own | returned own =>
        obtain ⟨start, before, calls⟩ := ih own
        exact ⟨start, Nat.lt_succ_of_lt before, calls⟩

/-- What has been found for a question comes from its serving. -/
theorem exists_servesAt (found : schedule.question? now n = some ⟨index, .found value⟩) :
    ∃ t, t < now ∧ schedule.ServesAt t n index ∧ schedule.held t index = some value := by
  induction now with
  | zero => cases found
  | succ now ih =>
    rcases question?_succ found with same | ⟨event, happens, change⟩
    · obtain ⟨t, before, served⟩ := ih same
      exact ⟨t, Nat.lt_succ_of_lt before, served⟩
    · cases change with
      | found current own held => exact ⟨now, Nat.lt_succ_self now, ⟨happens, current, own⟩, held⟩

/-- An answer comes from serving the question, or there is none because the owner has ended. -/
theorem answer_cases (found : schedule.question? now n = some question)
    (answer : question.answer? = some value) :
    (∃ t, schedule.ServesAt t n question.index ∧ schedule.held t question.index = some value) ∨
      value = none ∧ (schedule.owner now).running = false := by
  induction now generalizing question with
  | zero => cases found
  | succ now ih =>
    have later : (schedule.owner now).running = false → _ := ended_of_le (Nat.le_succ now)
    rcases question?_succ found with same | ⟨event, happens, change⟩
    · exact (ih same answer).imp_right fun none => ⟨none.1, later none.2⟩
    · cases change with
      | asked | queued => cases answer
      | turnedAway own ended =>
        cases answer
        exact .inr ⟨rfl, later ended⟩
      | found current own held =>
        cases answer
        exact .inl ⟨now, ⟨happens, current, own⟩, held⟩
      | abandoned own ended =>
        cases answer
        exact .inr ⟨rfl, ended⟩
      | answered own | returned own =>
        exact (ih own answer).imp_right fun none => ⟨none.1, later none.2⟩

/-- A call that has returned has done so at some moment. -/
theorem exists_returnsAt (returned : schedule.question? now n = some ⟨index, .returned value⟩) :
    ∃ finish, finish < now ∧ schedule.ReturnsAt finish n index value := by
  induction now with
  | zero => cases returned
  | succ now ih =>
    by_cases before : schedule.question? now n = some ⟨index, .returned value⟩
    · obtain ⟨finish, earlier, returns⟩ := ih before
      exact ⟨finish, Nat.lt_succ_of_lt earlier, returns⟩
    · exact ⟨now, Nat.lt_succ_self now, before, returned⟩

/-- A call returns with the answer to its question, or without one when the owner has ended before
the question came into the queue. -/
theorem returnsAt_cases (returns : schedule.ReturnsAt t n index value) :
    (schedule.event t = .step (.receive n) ∧
        schedule.question? t n = some ⟨index, .answered value⟩) ∨
      schedule.event t = .step (.enqueue n) ∧ schedule.question? t n = some ⟨index, .asked⟩ ∧
        value = none ∧ (schedule.owner t).running = false := by
  obtain ⟨before, after⟩ := returns
  obtain ⟨event, happens, change⟩ := (question?_succ after).resolve_left before
  cases change with
  | turnedAway own ended => exact .inr ⟨happens, own, rfl, ended⟩
  | returned own => exact .inl ⟨happens, own⟩

/-! ## Serving -/

theorem running_of_servesAt (serves : schedule.ServesAt t n index) :
    (schedule.owner t).running = true := by
  have idle : (schedule.owner t).running = false → _ := owner_induction
    (p := fun owner => owner.running = false → owner.current = none ∧ owner.queue = [])
    nofun MetadataOwner.Step.idle t
  refine Bool.of_not_eq_false fun ended => ?_
  have none := (idle ended).1
  rw [serves.2.1] at none
  cases none

/-- A question that has been served has its answer from then on. -/
theorem ServesAt.answer? (serves : schedule.ServesAt t n index) (order : t < now) :
    ∃ question, schedule.question? now n = some question ∧
      question.answer? = some (schedule.held t index).join := by
  obtain ⟨happens, current, own⟩ := serves
  cases held : schedule.held t index with
  | some metadata =>
    have next := owner_succ_of_step happens (.find current own held)
    have found : schedule.question? (t + 1) n = some ⟨index, .found metadata⟩ :=
      (question?_of_owner next).trans (MetadataOwner.getElem?_advance_self own)
    exact answer?_of_le order found rfl
  | none =>
    have next := owner_succ_of_step happens (.breakDown current own held)
    have abandoned : schedule.question? (t + 1) n = some ⟨index, .answered none⟩ :=
      (question?_of_owner next).trans (MetadataOwner.getElem?_stop own)
    exact answer?_of_le order abandoned rfl

/-- A question that has its answer is not served. -/
theorem ServesAt.lt_of_answer? (serves : schedule.ServesAt t n index)
    (found : schedule.question? now n = some question) (answer : question.answer? = some value) :
    t < now := by
  refine Nat.lt_of_not_le fun order => ?_
  obtain ⟨after, own, answer⟩ := answer?_of_le order found answer
  cases own.symm.trans serves.2.2
  cases answer

theorem ServesAt.answer_eq (serves : schedule.ServesAt t n index)
    (found : schedule.question? now n = some question) (answer : question.answer? = some value) :
    value = (schedule.held t index).join := by
  obtain ⟨after, own, same⟩ := serves.answer? (serves.lt_of_answer? found answer)
  cases own.symm.trans found
  exact Option.some.inj (answer.symm.trans same)

/-- No question is served twice. -/
theorem ServesAt.le (serves : schedule.ServesAt t n index)
    {other : CommitIndex} (again : schedule.ServesAt later n other) : later ≤ t := by
  refine Nat.le_of_not_lt fun order => ?_
  obtain ⟨question, own, answer⟩ := serves.answer? order
  cases own.symm.trans again.2.2
  cases answer

/-- A call has been served before it returns. -/
theorem ServesAt.lt_of_returnsAt {other : CommitIndex} (serves : schedule.ServesAt t n other)
    (returns : schedule.ReturnsAt now n index value) : t < now := by
  refine Nat.lt_of_le_of_ne (Nat.le_of_lt_succ (serves.lt_of_answer? returns.2 rfl)) ?_
  rintro rfl
  rcases returnsAt_cases returns with ⟨happens, -⟩ | ⟨happens, -⟩
  · cases happens.symm.trans serves.1
  · cases happens.symm.trans serves.1

/-! ## The rendezvous -/

/-- **Every call that returns gives what the source held for its commit at a moment between its
start and its return, when the owner was running, or nothing because the owner has ended; no
question is served twice; and a reply is what has been found for the question it answers, and
reaches nobody else.** -/
theorem calls_answered (schedule : OwnerSchedule) :
    (∀ now n index value, schedule.question? now n = some ⟨index, .returned value⟩ →
      ∃ start finish, start < finish ∧ finish < now ∧ schedule.CallsAt start n index ∧
        schedule.ReturnsAt finish n index value ∧
        ((∃ t, start < t ∧ t < finish ∧ schedule.ServesAt t n index ∧
            (schedule.owner t).running = true ∧ schedule.held t index = some value) ∨
          value = none ∧ (schedule.owner finish).running = false ∧
            ∀ t, schedule.ServesAt t n index → schedule.held t index = none)) ∧
    (∀ n t index t' index', schedule.ServesAt t n index → schedule.ServesAt t' n index' →
      t = t') ∧
    ∀ t n index value, schedule.RepliesAt t n index value →
      (∃ served, served < t ∧ schedule.ServesAt served n index ∧
        schedule.held served index = some value) ∧
      schedule.question? (t + 1) n = some ⟨index, .answered value⟩ ∧
      ∀ other, other ≠ n → schedule.question? (t + 1) other = schedule.question? t other := by
  refine ⟨fun now n index value returned => ?_, fun n t index t' index' serves again =>
    Nat.le_antisymm (again.le serves) (serves.le again), fun t n index value replies => ?_⟩
  · obtain ⟨finish, earlier, returns⟩ := exists_returnsAt returned
    by_cases served : ∃ t, schedule.ServesAt t n index ∧ schedule.held t index = some value
    · obtain ⟨t, serves, held⟩ := served
      obtain ⟨start, before, calls⟩ := exists_callsAt serves.2.2
      have after := serves.lt_of_returnsAt returns
      exact ⟨start, finish, Nat.lt_trans before after, earlier, calls, returns,
        .inl ⟨t, before, after, serves, running_of_servesAt serves, held⟩⟩
    · have broken : ∀ t, schedule.ServesAt t n index → schedule.held t index = none := by
        intro t serves
        have value_eq := serves.answer_eq returned rfl
        cases held : schedule.held t index with
        | none => rfl
        | some metadata =>
          rw [held] at value_eq
          exact absurd ⟨t, serves, held.trans (congrArg some value_eq.symm)⟩ served
      rcases returnsAt_cases returns with ⟨-, own⟩ | ⟨-, own, none, ended⟩
      · obtain ⟨start, before, calls⟩ := exists_callsAt own
        obtain ⟨none, ended⟩ := (answer_cases own rfl).resolve_left served
        exact ⟨start, finish, before, earlier, calls, returns, .inr ⟨none, ended, broken⟩⟩
      · obtain ⟨start, before, calls⟩ := exists_callsAt own
        exact ⟨start, finish, before, earlier, calls, returns, .inr ⟨none, ended, broken⟩⟩
  · obtain ⟨happens, current, own⟩ := replies
    have next := owner_succ_of_step happens (.reply current own)
    exact ⟨exists_servesAt own,
      (question?_of_owner next).trans (MetadataOwner.getElem?_advance_self own),
      fun other differ =>
        (question?_of_owner next).trans (MetadataOwner.getElem?_advance_of_ne differ)⟩

/-- Details of a commit, the same for every commit but for its number. -/
def detailsOf (index : CommitIndex) : Metadata :=
  ⟨index, .zero, ⟨"/a"⟩, [], ⟨"Ada", "ada@example.com", 5, 0⟩, 5, "First\n", none⟩

/-- Two callers ask for the commits 1 and 2 and come into the queue the other way round.  The details
of both are loaded while they wait, those of 1 too late for its caller. -/
def twoCallers : OwnerSchedule where
  initial := .empty
  source _ store index := some (store.get? index)
  event t := ([.step (.ask 1), .step (.ask 2), .step (.enqueue 1), .step (.enqueue 0), .step .take,
    .load (detailsOf 2), .step .look, .step .reply, .step .take, .step .look,
    .load (detailsOf 1), .step .reply, .step (.receive 0)] : List ServedStore.Event)[t]?.getD
      (.step (.receive 1))

/-- Each of the two callers gets what was loaded when it was served. -/
theorem calls_answered_two :
    twoCallers.question? 14 0 = some ⟨1, .returned none⟩ ∧
    twoCallers.question? 14 1 = some ⟨2, .returned (some (detailsOf 2))⟩ ∧
    (∃ start t finish, start < t ∧ t < finish ∧ finish < 14 ∧ twoCallers.CallsAt start 0 1 ∧
      twoCallers.ServesAt t 0 1 ∧ twoCallers.ReturnsAt finish 0 1 none) ∧
    (∀ t index, twoCallers.ServesAt t 1 index → t = 6) ∧
    ∃ served, served < 7 ∧ twoCallers.ServesAt served 1 2 ∧
      twoCallers.held served 2 = some (some (detailsOf 2)) := by
  obtain ⟨answered, once, reached⟩ := calls_answered twoCallers
  have loaded (index : CommitIndex) : (MetadataStore.empty.insert (detailsOf 2)).get? index =
      if 2 = index then some (detailsOf 2) else none := by
    rw [MetadataStore.get?_insert, MetadataStore.get?_empty]
    rfl
  have first : twoCallers.question? 14 0 = some ⟨1, .returned none⟩ :=
    congrArg (fun value => some (Question.mk 1 (.returned value))) (loaded 1)
  have second : twoCallers.question? 14 1 = some ⟨2, .returned (some (detailsOf 2))⟩ :=
    congrArg (fun value => some (Question.mk 2 (.returned value))) (loaded 2)
  have found : twoCallers.question? 7 1 = some ⟨2, .found (some (detailsOf 2))⟩ :=
    congrArg (fun value => some (Question.mk 2 (.found value))) (loaded 2)
  refine ⟨first, second, ?_, fun t index serves => once 1 t index 6 2 serves ⟨rfl, rfl, rfl⟩,
    (reached 7 1 2 _ ⟨rfl, rfl, found⟩).1⟩
  obtain ⟨start, finish, -, earlier, calls, returns, origin⟩ := answered 14 0 1 none first
  rcases origin with ⟨t, before, after, serves, -⟩ | ⟨-, ended, -⟩
  · exact ⟨start, t, finish, before, after, earlier, calls, serves, returns⟩
  · -- the owner is still running at the end
    cases ended_of_le (Nat.le_of_lt earlier) ended

end OwnerSchedule

end CommitLog
