import CommitLog.Search.MetadataOwner

/-!
# Steps of the owner of loaded details

What one step of a caller or of the owner does (`MetadataOwner.Step`), and from it where the state
of a question comes from (`MetadataOwner.Change`).  A question that has its answer keeps it, and an
owner that has ended does not begin again.

    owner.step? source event = some next ↔ Step source owner event next
    Step source owner event next → next.questions[n]? = some q →
      owner.questions[n]? = some q ∨ Change source owner next n event q
-/

namespace CommitLog

/-- The answer to a question, from the moment it is found. -/
def Question.answer? (question : Question) : Option (Option Metadata) :=
  match question.stage with
  | .asked | .queued => none
  | .found metadata | .answered metadata | .returned metadata => some metadata

namespace MetadataOwner

/-- What the steps lead to. -/
inductive Step (source : CommitIndex → Option (Option Metadata)) (owner : MetadataOwner) :
    OwnerEvent → MetadataOwner → Prop
  | ask (index : CommitIndex) :
      Step source owner (.ask index) { owner with questions := owner.questions ++ [⟨index, .asked⟩] }
  | turnAway {n : Nat} {index : CommitIndex} : owner.questions[n]? = some ⟨index, .asked⟩ →
      owner.running = false → Step source owner (.enqueue n) (owner.advance n (.returned none))
  | enqueue {n : Nat} {index : CommitIndex} : owner.questions[n]? = some ⟨index, .asked⟩ →
      owner.running = true → owner.queue.length < queueCapacity →
      Step source owner (.enqueue n) ({ owner with queue := owner.queue ++ [n] }.advance n .queued)
  | take {n : Nat} {rest : List Nat} : owner.current = none → owner.queue = n :: rest →
      Step source owner .take { owner with queue := rest, current := some n }
  | find {n : Nat} {index : CommitIndex} {metadata : Option Metadata} : owner.current = some n →
      owner.questions[n]? = some ⟨index, .queued⟩ → source index = some metadata →
      Step source owner .look (owner.advance n (.found metadata))
  | breakDown {n : Nat} {index : CommitIndex} : owner.current = some n →
      owner.questions[n]? = some ⟨index, .queued⟩ → source index = none →
      Step source owner .look owner.stop
  | reply {n : Nat} {index : CommitIndex} {metadata : Option Metadata} : owner.current = some n →
      owner.questions[n]? = some ⟨index, .found metadata⟩ →
      Step source owner .reply ({ owner with current := none }.advance n (.answered metadata))
  | receive {n : Nat} {index : CommitIndex} {metadata : Option Metadata} :
      owner.questions[n]? = some ⟨index, .answered metadata⟩ →
      Step source owner (.receive n) (owner.advance n (.returned metadata))

/-- How a question comes to be what it is after a step. -/
inductive Change (source : CommitIndex → Option (Option Metadata)) (owner next : MetadataOwner)
    (n : Nat) : OwnerEvent → Question → Prop
  | asked {index : CommitIndex} : owner.questions.length = n →
      Change source owner next n (.ask index) ⟨index, .asked⟩
  | turnedAway {index : CommitIndex} : owner.questions[n]? = some ⟨index, .asked⟩ →
      owner.running = false → Change source owner next n (.enqueue n) ⟨index, .returned none⟩
  | queued {index : CommitIndex} : owner.questions[n]? = some ⟨index, .asked⟩ →
      Change source owner next n (.enqueue n) ⟨index, .queued⟩
  | found {index : CommitIndex} {metadata : Option Metadata} : owner.current = some n →
      owner.questions[n]? = some ⟨index, .queued⟩ → source index = some metadata →
      Change source owner next n .look ⟨index, .found metadata⟩
  | abandoned {index : CommitIndex} : owner.questions[n]? = some ⟨index, .queued⟩ →
      next.running = false → Change source owner next n .look ⟨index, .answered none⟩
  | answered {index : CommitIndex} {metadata : Option Metadata} :
      owner.questions[n]? = some ⟨index, .found metadata⟩ →
      Change source owner next n .reply ⟨index, .answered metadata⟩
  | returned {index : CommitIndex} {metadata : Option Metadata} :
      owner.questions[n]? = some ⟨index, .answered metadata⟩ →
      Change source owner next n (.receive n) ⟨index, .returned metadata⟩

variable {source : CommitIndex → Option (Option Metadata)} {owner next : MetadataOwner}
  {event : OwnerEvent} {n number : Nat} {question : Question} {metadata : Option Metadata}

/-! ## Steps -/

theorem step?_eq_some_iff :
    owner.step? source event = some next ↔ Step source owner event next := by
  constructor
  · intro step
    cases event with
    | ask index =>
      cases step
      exact .ask index
    | enqueue number =>
      change owner.enqueue? number = some next at step
      unfold enqueue? at step
      split at step
      · next index found =>
        split at step
        · next ended =>
          cases step
          exact .turnAway found (by simpa using ended)
        · next running =>
          split at step
          · next room =>
            cases step
            exact .enqueue found (by simpa using running) room
          · cases step
      · cases step
    | take =>
      change owner.take? = some next at step
      unfold take? at step
      split at step
      · next number rest idle queue =>
        cases step
        exact .take idle queue
      · cases step
    | look =>
      obtain ⟨number, current, step⟩ := Option.bind_eq_some_iff.1 step
      split at step
      · next index found =>
        split at step
        · next metadata looked =>
          cases step
          exact .find current found looked
        · next broken =>
          cases step
          exact .breakDown current found broken
      · cases step
    | reply =>
      obtain ⟨number, current, step⟩ := Option.bind_eq_some_iff.1 step
      split at step
      · next index metadata found =>
        cases step
        exact .reply current found
      · cases step
    | receive number =>
      change owner.receive? number = some next at step
      unfold receive? at step
      split at step
      · next index metadata found =>
        cases step
        exact .receive found
      · cases step
  · intro step
    cases step with
    | ask index => rfl
    | turnAway found ended => simp [step?, enqueue?, found, ended]
    | enqueue found running room => simp [step?, enqueue?, found, running, room]
    | take idle queue => simp [step?, take?, idle, queue]
    | find current found looked => simp [step?, look?, current, found, looked]
    | breakDown current found broken => simp [step?, look?, current, found, broken]
    | reply current found => simp [step?, reply?, current, found]
    | receive found => simp [step?, receive?, found]

/-- No question is forgotten. -/
theorem Step.length_le (step : Step source owner event next) :
    owner.questions.length ≤ next.questions.length := by
  cases step <;> simp [advance, stop]

/-- An owner that has ended does not begin again. -/
theorem Step.ended (step : Step source owner event next) (ended : owner.running = false) :
    next.running = false := by
  cases step with
  | breakDown => rfl
  | ask | turnAway | enqueue | take | find | reply | receive => exact ended

/-- An owner that has ended has nothing to do. -/
theorem Step.idle (step : Step source owner event next)
    (idle : owner.running = false → owner.current = none ∧ owner.queue = [])
    (ended : next.running = false) : next.current = none ∧ next.queue = [] := by
  cases step with
  | breakDown => exact ⟨rfl, rfl⟩
  | enqueue _ running =>
    have ended : owner.running = false := ended
    rw [running] at ended
    cases ended
  | take _ queue =>
    have empty := (idle ended).2
    rw [queue] at empty
    cases empty
  | find current | reply current =>
    have none := (idle ended).1
    rw [current] at none
    cases none
  | ask | turnAway | receive => exact idle ended

/-- The queue is bounded. -/
theorem Step.length_queue_le (step : Step source owner event next)
    (bounded : owner.queue.length ≤ queueCapacity) : next.queue.length ≤ queueCapacity := by
  cases step with
  | enqueue _ _ room =>
    show (owner.queue ++ [_]).length ≤ queueCapacity
    rw [List.length_append]
    exact room
  | take _ queue =>
    rw [queue] at bounded
    exact Nat.le_of_succ_le bounded
  | breakDown => exact Nat.zero_le _
  | ask | turnAway | find | reply | receive => exact bounded

/-! ## Questions -/

theorem getElem?_advance_self {stage before : Question.Stage} {index : CommitIndex}
    (found : owner.questions[n]? = some ⟨index, before⟩) :
    (owner.advance n stage).questions[n]? = some ⟨index, stage⟩ := by
  simp [advance, found]

theorem getElem?_advance_of_ne {stage : Question.Stage} (differ : n ≠ number) :
    (owner.advance number stage).questions[n]? = owner.questions[n]? := by
  simp [advance, Ne.symm differ]

/-- Only one question moves on. -/
theorem getElem?_advance {stage before : Question.Stage} {index : CommitIndex}
    (found : owner.questions[number]? = some ⟨index, before⟩)
    (h : (owner.advance number stage).questions[n]? = some question) :
    owner.questions[n]? = some question ∨ n = number ∧ question = ⟨index, stage⟩ := by
  by_cases same : n = number
  · rw [same, getElem?_advance_self found] at h
    exact .inr ⟨same, (Option.some.inj h).symm⟩
  · rw [getElem?_advance_of_ne same] at h
    exact .inl h

/-- Who waits when the owner ends gets nothing. -/
theorem getElem?_stop {index : CommitIndex} (found : owner.questions[n]? = some ⟨index, .queued⟩) :
    owner.stop.questions[n]? = some ⟨index, .answered none⟩ := by
  simp [stop, found, Question.abandon]

/-- Whatever a question has become in a step, it has come to be in one of the ways of `Change`. -/
theorem Step.change (step : Step source owner event next)
    (h : next.questions[n]? = some question) :
    owner.questions[n]? = some question ∨ Change source owner next n event question := by
  cases step with
  | ask index =>
    rcases Nat.lt_or_ge n owner.questions.length with inside | outside
    · rw [List.getElem?_append_left inside] at h
      exact .inl h
    · rw [List.getElem?_append_right outside, List.getElem?_singleton] at h
      split at h
      · next last =>
        cases h
        exact .inr (.asked (by omega))
      · cases h
  | turnAway found ended =>
    rcases getElem?_advance found h with same | ⟨rfl, rfl⟩
    · exact .inl same
    · exact .inr (.turnedAway found ended)
  | enqueue found running room =>
    rcases getElem?_advance found h with same | ⟨rfl, rfl⟩
    · exact .inl same
    · exact .inr (.queued found)
  | take idle queue => exact .inl h
  | find current found looked =>
    rcases getElem?_advance found h with same | ⟨rfl, rfl⟩
    · exact .inl same
    · exact .inr (.found current found looked)
  | breakDown current found broken =>
    simp only [stop, List.getElem?_map, Option.map_eq_some_iff] at h
    obtain ⟨⟨index, before⟩, own, rfl⟩ := h
    cases before with
    | queued => exact .inr (.abandoned own rfl)
    | asked | found | answered | returned => exact .inl own
  | reply current found =>
    rcases getElem?_advance found h with same | ⟨rfl, rfl⟩
    · exact .inl same
    · exact .inr (.answered found)
  | receive found =>
    rcases getElem?_advance found h with same | ⟨rfl, rfl⟩
    · exact .inl same
    · exact .inr (.returned found)

/-- A question that has its answer keeps it. -/
theorem Step.answer? (step : Step source owner event next)
    (found : owner.questions[n]? = some question) (answer : question.answer? = some metadata) :
    ∃ after, next.questions[n]? = some after ∧ after.answer? = some metadata := by
  obtain ⟨inside, -⟩ := List.getElem?_eq_some_iff.1 found
  have inside' := Nat.lt_of_lt_of_le inside step.length_le
  refine ⟨next.questions[n], List.getElem?_eq_getElem inside', ?_⟩
  rcases step.change (List.getElem?_eq_getElem inside') with same | change
  · rwa [← Option.some.inj (found.symm.trans same)]
  · generalize next.questions[n] = after at change
    cases change with
    | asked outside => omega
    | turnedAway own | queued own | found _ own | abandoned own =>
      cases Option.some.inj (found.symm.trans own)
      cases answer
    | answered own | returned own =>
      cases Option.some.inj (found.symm.trans own)
      exact answer

end MetadataOwner

end CommitLog
