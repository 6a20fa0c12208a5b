import CommitLog.Proofs.Graph.Links

/-!
# Tables of commits and of counts

What the tables that the graph algorithms keep answer: `occurrences ns` has the numbers of `ns`,
each with how often it occurs; `table` finds the first commit of a number, and `distinct` keeps
these commits.
-/

namespace CommitLog

/-! ## Counts -/

theorem getElem?_foldl_count (ns : List CommitIndex) (counts : Std.HashMap CommitIndex Nat)
    (n : CommitIndex) :
    (ns.foldl (fun counts n => counts.insert n (counts.getD n 0 + 1)) counts)[n]? =
      if n ∈ ns then some (counts.getD n 0 + ns.count n) else counts[n]? := by
  induction ns generalizing counts with
  | nil => simp
  | cons m rest ih =>
    rw [List.foldl_cons, ih]
    by_cases same : m = n
    · subst same
      by_cases mem : m ∈ rest
      · simp [mem]; omega
      · simp [mem, List.count_eq_zero_of_not_mem mem]
    · simp [Std.HashMap.getD_insert, Std.HashMap.getElem?_insert, same, Ne.symm same]

theorem getElem?_occurrences (ns : List CommitIndex) (n : CommitIndex) :
    (occurrences ns)[n]? = if n ∈ ns then some (ns.count n) else none := by
  simp [occurrences, getElem?_foldl_count]

theorem contains_occurrences (ns : List CommitIndex) (n : CommitIndex) :
    (occurrences ns).contains n = true ↔ n ∈ ns := by
  rw [Std.HashMap.contains_eq_isSome_getElem?, getElem?_occurrences]
  split <;> simp [*]

namespace GraphCommit

/-! ## Commits by number -/

theorem getElem?_foldl_insertIfNew (commits : List GraphCommit)
    (table : Std.HashMap CommitIndex GraphCommit) (n : CommitIndex) :
    (commits.foldl (fun table c => table.insertIfNew c.index c) table)[n]? =
      table[n]?.or (commits.find? (·.index == n)) := by
  induction commits generalizing table with
  | nil => simp
  | cons c rest ih =>
    rw [List.foldl_cons, ih, Std.HashMap.getElem?_insertIfNew]
    by_cases same : c.index = n
    · subst same
      by_cases known : c.index ∈ table <;> simp [known]
    · simp [same, List.find?_cons_of_neg]

@[simp]
theorem getElem?_table (commits : List GraphCommit) (n : CommitIndex) :
    (table commits)[n]? = commits.find? (·.index == n) := by
  simp [table, getElem?_foldl_insertIfNew]

theorem Numbered.getElem?_table {commits : List GraphCommit} (numbered : Numbered commits)
    {c : GraphCommit} (hc : c ∈ commits) : (table commits)[c.index]? = some c := by
  rw [GraphCommit.getElem?_table]
  exact numbered.find?.2 ⟨hc, rfl⟩

theorem contains_table (commits : List GraphCommit) (n : CommitIndex) :
    (table commits).contains n = true ↔ ∃ c ∈ commits, c.index = n := by
  rw [Std.HashMap.contains_eq_isSome_getElem?, getElem?_table, List.find?_isSome]
  simp

/-! ## First commits of their numbers -/

/-- What is kept of the commits seen so far: for every number the first of them. -/
structure Kept (commits : List GraphCommit)
    (state : List GraphCommit × Std.HashMap CommitIndex GraphCommit) : Prop where
  numbered : Numbered state.1.reverse
  find? : ∀ n, state.1.reverse.find? (·.index == n) = commits.find? (·.index == n)
  seen : ∀ n, state.2.contains n = true ↔ ∃ c ∈ commits, c.index = n

theorem Kept.keep {commits : List GraphCommit}
    {state : List GraphCommit × Std.HashMap CommitIndex GraphCommit} (kept : Kept commits state)
    (c : GraphCommit) : Kept (commits ++ [c]) (GraphCommit.keep state c) := by
  have found (n : CommitIndex) :
      (commits.find? (·.index == n)).isSome = true ↔ ∃ d ∈ commits, d.index = n := by
    simp
  unfold GraphCommit.keep
  split
  · next known =>
    have first := (kept.seen c.index).1 known
    refine ⟨kept.numbered, fun n => ?_, fun n => ?_⟩
    · rw [kept.find?, List.find?_append]
      by_cases same : c.index = n
      · rw [Option.or_of_isSome ((found n).2 (same ▸ first))]
      · simp [same]
    · rw [kept.seen]
      constructor
      · rintro ⟨d, hd, rfl⟩
        exact ⟨d, by simp [hd], rfl⟩
      · rintro ⟨d, hd, rfl⟩
        rcases List.mem_append.1 hd with hd | hd
        · exact ⟨d, hd, rfl⟩
        · rwa [List.mem_singleton.1 hd]
  · next fresh =>
    have fresh : ∀ d ∈ state.1, d.index ≠ c.index := by
      intro d hd same
      have : (state.1.reverse.find? (·.index == c.index)).isSome = true := by
        rw [List.find?_isSome]
        exact ⟨d, List.mem_reverse.2 hd, by simpa using same⟩
      rw [kept.find?, found] at this
      exact fresh ((kept.seen _).2 this)
    refine ⟨?_, fun n => ?_, fun n => ?_⟩
    · rw [Numbered, List.reverse_cons, List.map_append, List.nodup_append]
      exact ⟨kept.numbered, by simp, by simpa using fresh⟩
    · rw [List.reverse_cons, List.find?_append, List.find?_append, kept.find?]
    · rw [Std.HashMap.contains_insert, Bool.or_eq_true, kept.seen, beq_iff_eq]
      simp only [List.mem_append, List.mem_singleton, or_and_right, exists_or, exists_eq_left]
      exact or_comm

theorem kept_foldl (rest : List GraphCommit) {commits : List GraphCommit}
    {state : List GraphCommit × Std.HashMap CommitIndex GraphCommit} (kept : Kept commits state) :
    Kept (commits ++ rest) (rest.foldl GraphCommit.keep state) := by
  induction rest generalizing commits state with
  | nil => simpa using kept
  | cons c rest ih => simpa using ih (kept.keep c)

theorem kept_distinct (commits : List GraphCommit) :
    Kept commits (commits.foldl GraphCommit.keep ([], ∅)) := by
  have start : Kept [] ([], ∅) := ⟨by simp [Numbered], by simp, by simp⟩
  simpa using kept_foldl commits start

theorem numbered_distinct (commits : List GraphCommit) : Numbered (distinct commits) :=
  (kept_distinct commits).numbered

theorem find?_distinct (commits : List GraphCommit) (n : CommitIndex) :
    (distinct commits).find? (·.index == n) = commits.find? (·.index == n) :=
  (kept_distinct commits).find? n

end GraphCommit

end CommitLog
