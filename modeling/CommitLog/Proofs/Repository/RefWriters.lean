import CommitLog.Proofs.Text.Number
import CommitLog.Repository.Refs

/-!
# Several writers of one ref

A writer empties the file when it opens it, before it waits for the lock, and whoever has the lock
writes at the start of what is there.  So the file begins with what the last writer writes
(`RefFile.run?_finished`).  After it stands the end of a longer text, if another writer has had the
lock between the opening and the turn of the last one (`RefFile.run?_leaves_end`); texts of one
length, such as ids, never leave anything behind (`RefFile.run?_ids`).

    file.run? numbers = some final → final.isFinished →
      written text <+: final.content      -- the text of the last number
-/

namespace CommitLog

def RefWriter.Stage.hasLock : RefWriter.Stage → Bool
  | .locked | .textWritten | .lineEnded => true
  | .closed | .opened | .finished => false

/-- Whether a writer in this stage has had no turn yet. -/
def RefWriter.Stage.isWaiting : RefWriter.Stage → Bool
  | .closed | .opened => true
  | .locked | .textWritten | .lineEnded | .finished => false

namespace RefFile

variable {file next final : RefFile} {number other : Nat} {numbers : List Nat}
  {writer : RefWriter} {texts : List (List UInt8)} {content data : List UInt8}

/-! ## Overwriting -/

theorem overwrite_start (content data : List UInt8) :
    overwrite content 0 data = data ++ content.drop data.length := by
  simp [overwrite]

theorem overwrite_append (front content data : List UInt8) :
    overwrite (front ++ content) front.length data = front ++ data ++ content.drop data.length := by
  simp [overwrite, List.drop_append]

theorem length_overwrite_le {position bound : Nat} (short : content.length ≤ bound)
    (fits : position + data.length ≤ bound) :
    (overwrite content position data).length ≤ bound := by
  simp only [overwrite, List.length_append, List.length_take, List.length_replicate,
    List.length_drop]
  omega

/-! ## Steps -/

/-- What one step of a writer does. -/
theorem advance?_eq_some (step : file.advance? number = some next) :
    ∃ writer, file.writers[number]? = some writer ∧
      (writer.stage = .closed ∧ next = file.move number .opened [] file.holder ∨
      writer.stage = .opened ∧ file.holder = none ∧
        next = file.move number .locked file.content (some number) ∨
      writer.stage = .locked ∧
        next = file.move number .textWritten (overwrite file.content 0 writer.text) file.holder ∨
      writer.stage = .textWritten ∧ next = file.move number .lineEnded
        (overwrite file.content writer.text.length [lineFeed]) file.holder ∨
      writer.stage = .lineEnded ∧ next = file.move number .finished file.content none) := by
  unfold advance? at step
  obtain ⟨writer, found, step⟩ := Option.bind_eq_some_iff.1 step
  refine ⟨writer, found, ?_⟩
  cases stage : writer.stage with
  | opened =>
    simp only [stage] at step
    split at step
    · cases step
    · next free =>
      have free : file.holder = none := by simpa using free
      exact .inr (.inl ⟨rfl, free, (Option.some.inj step).symm⟩)
  | closed | locked | textWritten | lineEnded =>
    simp only [stage] at step
    cases step
    simp
  | finished =>
    simp only [stage] at step
    cases step

/-- The writers after a step: one of them is in another stage. -/
theorem getElem?_move {stage : RefWriter.Stage} {holder : Option Nat}
    (found : (file.move number stage content holder).writers[other]? = some writer) :
    ∃ before, file.writers[other]? = some before ∧ writer.text = before.text ∧
      writer.stage = if other = number then stage else before.stage := by
  simp only [move, List.getElem?_modify, Option.map_eq_map, Option.map_eq_some_iff] at found
  obtain ⟨before, hbefore, rfl⟩ := found
  refine ⟨before, hbefore, ?_⟩
  by_cases same : number = other
  · simp [same]
  · simp [same, Ne.symm same]

theorem getElem?_move_self {stage : RefWriter.Stage} {holder : Option Nat}
    (found : file.writers[number]? = some writer) :
    (file.move number stage content holder).writers[number]? = some ⟨writer.text, stage⟩ := by
  simp [move, found]

theorem getElem?_move_of_ne {stage : RefWriter.Stage} {holder : Option Nat}
    (differ : other ≠ number) :
    (file.move number stage content holder).writers[other]? = file.writers[other]? := by
  simp [move, Ne.symm differ]

/-- What holds of one writer and of all others holds of every one. -/
theorem forall_writers {p : RefWriter → Prop} (found : file.writers[number]? = some writer)
    (own : p writer)
    (others : ∀ (i : Nat) (w : RefWriter), i ≠ number → file.writers[i]? = some w → p w) :
    ∀ w ∈ file.writers, p w := by
  intro w mem
  obtain ⟨i, hi⟩ := List.mem_iff_getElem?.1 mem
  by_cases same : i = number
  · subst same
    obtain rfl := Option.some.inj (found.symm.trans hi)
    exact own
  · exact others i w same hi

theorem map_text_move (file : RefFile) (number : Nat) (stage : RefWriter.Stage)
    (content : List UInt8) (holder : Option Nat) :
    (file.move number stage content holder).writers.map (·.text) = file.writers.map (·.text) := by
  refine List.ext_getElem? fun i => ?_
  simp only [move, List.getElem?_map, List.getElem?_modify]
  cases file.writers[i]? with
  | none => rfl
  | some writer => by_cases same : number = i <;> simp [same]

/-! ## What the steps keep -/

/-- What holds of a file while it is written: only the holder of the lock has it, the file is not
longer than the longest text once it has been opened, and when nobody waits for a turn any more it
begins with what the holder has written. -/
structure Kept (texts : List (List UInt8)) (file : RefFile) : Prop where
  texts_eq : file.writers.map (·.text) = texts
  holder_iff : ∀ i writer, file.writers[i]? = some writer →
    (writer.stage.hasLock = true ↔ file.holder = some i)
  short : ∀ bound, (∀ text ∈ texts, text.length ≤ bound) →
    (∃ writer ∈ file.writers, writer.stage ≠ .closed) → file.content.length ≤ bound + 1
  begins : (∀ writer ∈ file.writers, writer.stage.isWaiting = false) →
    ∀ (i : Nat) (writer : RefWriter), file.writers[i]? = some writer →
      (writer.stage = .textWritten → writer.text <+: file.content) ∧
      (writer.stage = .lineEnded → written writer.text <+: file.content)

theorem kept_start (content : List UInt8) (texts : List (List UInt8)) :
    Kept texts (start content texts) := by
  have closed : ∀ writer ∈ (start content texts).writers, writer.stage = .closed := by
    intro writer mem
    obtain ⟨text, -, rfl⟩ := List.mem_map.1 mem
    rfl
  refine ⟨by simp [start, Function.comp_def], fun i writer found => ?_, fun bound _ some => ?_,
    fun turns i writer found => ?_⟩
  · rw [closed writer (List.mem_of_getElem? found)]
    exact iff_of_false Bool.false_ne_true (by simp [start])
  · obtain ⟨writer, mem, opened⟩ := some
    exact absurd (closed writer mem) opened
  · have mem := List.mem_of_getElem? found
    have turn := turns writer mem
    rw [closed writer mem] at turn
    cases turn

/-- A writer moves on to a stage, with new content of the file and the lock in other hands. -/
theorem Kept.move {stage : RefWriter.Stage} {holder : Option Nat} (kept : Kept texts file)
    (found : file.writers[number]? = some writer)
    (own : stage.hasLock = true ↔ holder = some number)
    (others : ∀ i, i ≠ number → (file.holder = some i ↔ holder = some i))
    (alone : stage.isWaiting = true ∨ ∀ i, i ≠ number → holder ≠ some i)
    (short : ∀ bound, (∀ text ∈ texts, text.length ≤ bound) → content.length ≤ bound + 1)
    (begins : (∀ i w, i ≠ number → file.writers[i]? = some w → w.stage.isWaiting = false) →
      (stage = .textWritten → writer.text <+: content) ∧
      (stage = .lineEnded → written writer.text <+: content)) :
    Kept texts (file.move number stage content holder) := by
  have holder_iff : ∀ i w, (file.move number stage content holder).writers[i]? = some w →
      (w.stage.hasLock = true ↔ holder = some i) := by
    intro i w hw
    obtain ⟨before, hbefore, -, hstage⟩ := getElem?_move hw
    rw [hstage]
    by_cases same : i = number
    · rw [if_pos same, own, same]
    · rw [if_neg same, kept.holder_iff i before hbefore, others i same]
  have moved : (file.move number stage content holder).writers[number]? =
      some ⟨writer.text, stage⟩ := getElem?_move_self found
  refine ⟨?_, holder_iff, fun bound fits _ => short bound fits, fun turns i w hw => ?_⟩
  · rw [map_text_move, kept.texts_eq]
  by_cases same : i = number
  · subst same
    obtain rfl := Option.some.inj (moved.symm.trans hw)
    refine begins fun i w differ hw => turns w ?_
    rw [← getElem?_move_of_ne differ] at hw
    exact List.mem_of_getElem? hw
  · have noLock : ¬ w.stage.hasLock = true := by
      rw [holder_iff i w hw]
      refine alone.resolve_left ?_ i same
      rw [turns _ (List.mem_of_getElem? moved)]
      exact Bool.false_ne_true
    constructor
    · intro textWritten
      exact absurd (textWritten ▸ rfl) noLock
    · intro lineEnded
      exact absurd (lineEnded ▸ rfl) noLock

/-- One step keeps what holds of the file. -/
theorem Kept.advance (kept : Kept texts file) (step : file.advance? number = some next) :
    Kept texts next := by
  obtain ⟨writer, found, h⟩ := advance?_eq_some step
  have mem : writer ∈ file.writers := List.mem_of_getElem? found
  have text_mem : writer.text ∈ texts := kept.texts_eq ▸ List.mem_map_of_mem mem
  have lock := kept.holder_iff number writer found
  have only (h : writer.stage.hasLock = true) : ∀ i, i ≠ number → file.holder ≠ some i := by
    intro i differ same
    exact differ (Option.some.inj (same.symm.trans (lock.1 h)))
  have short (opened : writer.stage ≠ .closed) {bound : Nat}
      (fits : ∀ text ∈ texts, text.length ≤ bound) : file.content.length ≤ bound + 1 :=
    kept.short bound fits ⟨writer, mem, opened⟩
  rcases h with ⟨stage, rfl⟩ | ⟨stage, free, rfl⟩ | ⟨stage, rfl⟩ | ⟨stage, rfl⟩ | ⟨stage, rfl⟩
  · -- the file is opened and empty
    rw [stage] at lock
    refine kept.move found lock (fun _ _ => .rfl) (.inl rfl) (fun _ _ => Nat.zero_le _) ?_
    exact fun _ => ⟨nofun, nofun⟩
  · -- the lock is taken
    refine kept.move found (by simp [RefWriter.Stage.hasLock]) (fun i differ => ?_)
      (.inr fun i differ => ?_) (fun bound fits => short (by simp [stage]) fits)
      fun _ => ⟨nofun, nofun⟩
    · rw [free]
      simp [Ne.symm differ]
    · simpa using Ne.symm differ
  · -- the text is written
    rw [stage] at lock only
    refine kept.move found lock (fun _ _ => .rfl) (.inr (only rfl)) (fun bound fits => ?_)
      fun _ => ⟨fun _ => ?_, nofun⟩
    · refine length_overwrite_le (short (by simp [stage]) fits) ?_
      have := fits _ text_mem
      omega
    · rw [overwrite_start]
      exact List.prefix_append _ _
  · -- the line is ended
    have turn : writer.stage.isWaiting = false := by rw [stage]; rfl
    rw [stage] at lock only
    refine kept.move found lock (fun _ _ => .rfl) (.inr (only rfl)) (fun bound fits => ?_)
      fun turns => ⟨nofun, fun _ => ?_⟩
    · refine length_overwrite_le (short (by simp [stage]) fits) ?_
      have := fits _ text_mem
      simp only [List.length_singleton]
      omega
    · have all := forall_writers found turn turns
      obtain ⟨rest, hrest⟩ := (kept.begins all number writer found).1 stage
      rw [← hrest, overwrite_append]
      exact List.prefix_append _ _
  · -- the lock is given back
    rw [stage] at lock only
    refine kept.move found (by simp [RefWriter.Stage.hasLock]) (fun i differ => ?_)
      (.inr fun i _ => by simp) (fun bound fits => short (by simp [stage]) fits)
      fun _ => ⟨nofun, nofun⟩
    simpa using only rfl i differ

/-! ## Runs -/

theorem run?_cons : file.run? (number :: numbers) = (file.advance? number).bind (·.run? numbers) :=
  List.foldlM_cons ..

theorem run?_concat :
    file.run? (numbers ++ [number]) = (file.run? numbers).bind (·.advance? number) := by
  unfold run?
  rw [List.foldlM_append]
  cases List.foldlM advance? file numbers with
  | none => rfl
  | some middle => simp

/-- Any number of steps keep what holds of the file. -/
theorem Kept.run (kept : Kept texts file) (run : file.run? numbers = some final) :
    Kept texts final := by
  induction numbers generalizing file with
  | nil => exact Option.some.inj run ▸ kept
  | cons number numbers ih =>
    rw [run?_cons] at run
    obtain ⟨next, step, rest⟩ := Option.bind_eq_some_iff.1 run
    exact ih (kept.advance step) rest

theorem isFinished_iff :
    file.isFinished = true ↔
      ∀ (i : Nat) (w : RefWriter), file.writers[i]? = some w → w.stage = .finished := by
  unfold isFinished
  rw [List.all_eq_true]
  constructor
  · intro all i w hw
    simpa using all w (List.mem_of_getElem? hw)
  · intro all w mem
    obtain ⟨i, hi⟩ := List.mem_iff_getElem?.1 mem
    simpa using all i w hi

/-- The step after which all writers have finished is that of the one that gives the lock back. -/
theorem Kept.begins_of_last (kept : Kept texts file) (step : file.advance? number = some final)
    (finished : final.isFinished = true) :
    ∃ text, texts[number]? = some text ∧ written text <+: final.content := by
  rw [isFinished_iff] at finished
  obtain ⟨writer, found, h⟩ := advance?_eq_some step
  have last {stage : RefWriter.Stage} {content : List UInt8} {holder : Option Nat}
      (same : final = file.move number stage content holder) : stage = .finished := by
    subst same
    exact finished number ⟨writer.text, stage⟩ (getElem?_move_self found)
  rcases h with ⟨-, h⟩ | ⟨-, -, h⟩ | ⟨-, h⟩ | ⟨-, h⟩ | ⟨stage, rfl⟩
  · cases last h
  · cases last h
  · cases last h
  · cases last h
  have turns : ∀ w ∈ file.writers, w.stage.isWaiting = false := by
    refine forall_writers found (by rw [stage]; rfl) fun i w differ hw => ?_
    rw [← getElem?_move_of_ne differ] at hw
    rw [finished i w hw]
    rfl
  refine ⟨writer.text, ?_, (kept.begins turns number writer found).2 stage⟩
  rw [← kept.texts_eq, List.getElem?_map, found]
  rfl

/-- **When all writers have finished, the file begins with what the last of them writes, and is no
longer than the longest text and a line feed.**  Nothing else is in the file when no other text is
longer. -/
theorem run?_finished (run : (start content texts).run? numbers = some final)
    (finished : final.isFinished = true) (ne : texts ≠ []) :
    ∃ last text, numbers.getLast? = some last ∧ texts[last]? = some text ∧
      written text <+: final.content ∧
      (∀ bound, (∀ t ∈ texts, t.length ≤ bound) → final.content.length ≤ bound + 1) ∧
      ((∀ t ∈ texts, t.length ≤ text.length) → final.content = written text) := by
  have kept : Kept texts final := (kept_start content texts).run run
  rcases List.eq_nil_or_concat numbers with rfl | ⟨front, last, rfl⟩
  · -- no writer has finished before the first step
    obtain rfl := Option.some.inj run
    obtain ⟨text, rest, rfl⟩ := List.exists_cons_of_ne_nil ne
    cases isFinished_iff.1 finished 0 ⟨text, .closed⟩ rfl
  rw [List.concat_eq_append, run?_concat] at run
  obtain ⟨before, front_run, step⟩ := Option.bind_eq_some_iff.1 run
  obtain ⟨text, found, begins⟩ :=
    ((kept_start content texts).run front_run).begins_of_last step finished
  have short : ∀ bound, (∀ t ∈ texts, t.length ≤ bound) → final.content.length ≤ bound + 1 := by
    intro bound fits
    obtain ⟨w, hw, -⟩ : ∃ w, final.writers[last]? = some w ∧ w.text = text := by
      rw [← kept.texts_eq, List.getElem?_map] at found
      exact Option.map_eq_some_iff.1 found
    refine kept.short bound fits ⟨w, List.mem_of_getElem? hw, ?_⟩
    rw [isFinished_iff.1 finished last w hw]
    exact nofun
  refine ⟨last, text, by simp, found, begins, short, fun longest => ?_⟩
  refine (begins.eq_of_length_le ?_).symm
  rw [written, List.length_append]
  exact short text.length longest

/-! ## Branches and heads -/

/-- What a writer that lets a branch point to a commit writes before the line feed. -/
def branchText (id : ObjectId) : List UInt8 := Utf8.ofString id.text

/-- What a writer that checks out a branch writes before the line feed. -/
def headText (name : BranchName) : List UInt8 :=
  Utf8.ofString (String.ofList (RefTarget.marker ++ Refs.headsPrefix) ++ name.text)

theorem length_branchText (id : ObjectId) : (branchText id).length = 40 := by
  have size : ∀ n : Fin 16, (String.utf8EncodeChar (Text.hexChar n)).length = 1 := by decide
  have one : ∀ c ∈ id.digits, (String.utf8EncodeChar c).length = 1 := by
    intro c mem
    obtain ⟨n, small, rfl⟩ := Text.mem_hex mem
    exact size ⟨n, small⟩
  rw [branchText, Utf8.ofString, Utf8.encode, ObjectId.text, String.toList_ofList,
    List.length_flatMap, List.map_congr_left one, List.map_const',
    List.sum_replicate_nat, Nat.mul_one]
  exact id.length_digits

/-- Writers of ids leave one of the ids behind and nothing else. -/
theorem run?_ids {ids : List ObjectId}
    (run : (start content (ids.map branchText)).run? numbers = some final)
    (finished : final.isFinished = true) (ne : ids ≠ []) :
    ∃ id ∈ ids, final.content = written (branchText id) := by
  obtain ⟨last, text, -, found, -, -, only⟩ := run?_finished run finished (by simpa using ne)
  obtain ⟨id, mem, rfl⟩ := List.mem_map.1 (List.mem_of_getElem? found)
  refine ⟨id, mem, only fun t ht => ?_⟩
  obtain ⟨other, -, rfl⟩ := List.mem_map.1 ht
  exact Nat.le_of_eq ((length_branchText other).trans (length_branchText id).symm)

/-- Two writers check out branches; the one with the shorter name opens the file first and has its
turn last. -/
theorem run?_finished_heads :
    ∃ final, (start [] [headText ⟨"a"⟩, headText ⟨"longer"⟩]).run? [0, 1, 1, 1, 1, 1, 0, 0, 0, 0] =
      some final ∧ final.isFinished = true ∧ written (headText ⟨"a"⟩) <+: final.content ∧
      final.content.length ≤ (headText ⟨"longer"⟩).length + 1 := by
  obtain ⟨final, run, finished⟩ : ∃ final,
      (start [] [headText ⟨"a"⟩, headText ⟨"longer"⟩]).run? [0, 1, 1, 1, 1, 1, 0, 0, 0, 0] =
        some final ∧ final.isFinished = true := ⟨_, rfl, rfl⟩
  obtain ⟨last, text, isLast, found, begins, short, -⟩ := run?_finished run finished (by decide)
  obtain rfl : 0 = last := Option.some.inj isLast
  obtain rfl : headText ⟨"a"⟩ = text := Option.some.inj found
  exact ⟨final, run, finished, begins, short _ (by decide)⟩

/-- The end of the longer text stays in the file. -/
theorem run?_leaves_end : ∃ numbers final,
    (start [] [headText ⟨"a"⟩, headText ⟨"longer"⟩]).run? numbers = some final ∧
    final.isFinished = true ∧
    ∀ text ∈ [headText ⟨"a"⟩, headText ⟨"longer"⟩], final.content ≠ written text :=
  ⟨[0, 1, 1, 1, 1, 1, 0, 0, 0, 0], _, rfl, by decide, by decide⟩

end RefFile

end CommitLog
