import CommitLog.Proofs.Unicode.CodePoints
import CommitLog.Unicode.Case

/-!
# Characters that differ in case only

A code point that folding moves stands in the table of pairs, and its representative is not moved
again.  So the case closure of a set has exactly the code points that have the representative of a
member (`CodePoints.contains_caseClosure`).

    set.caseClosure.contains n ↔ ∃ m, set.contains m ∧ foldCode m = foldCode n
    fold c = fold d ↔ foldCode c.toNat = foldCode d.toNat
-/

namespace CommitLog.Unicode

variable {run : CaseRun} {set : CodePoints} {m n f : Nat} {c d : Char}

/-! ## Runs -/

namespace CaseRun

/-- Where a run moves a code point. -/
def image (run : CaseRun) (n : Nat) : Nat := ((n : Int) + run.shift).toNat

/-- The code points of a run, and where it moves them. -/
theorem mem_pairs_of_covers (covers : run.covers n = true) : (n, run.image n) ∈ run.pairs := by
  simp only [CaseRun.covers, Bool.and_eq_true, decide_eq_true_eq, beq_iff_eq] at covers
  obtain ⟨⟨least, greatest⟩, multiple⟩ := covers
  have own : run.first + (n - run.first) / run.step * run.step = n := by
    rw [Nat.div_mul_cancel (Nat.dvd_of_mod_eq_zero multiple), Nat.add_sub_cancel' least]
  refine List.mem_map.2 ⟨(n - run.first) / run.step, List.mem_range.2 ?_, by rw [own, image]⟩
  exact Nat.lt_succ_of_le (Nat.div_le_div_right (Nat.sub_le_sub_right greatest _))

theorem covers_of_mem_pairs (ascending : run.first ≤ run.last) (mem : (n, f) ∈ run.pairs) :
    run.covers n = true ∧ f = run.image n := by
  obtain ⟨i, inside, same⟩ := List.mem_map.1 mem
  obtain ⟨rfl, rfl⟩ := Prod.mk.inj same
  refine ⟨?_, rfl⟩
  have most : i * run.step ≤ run.last - run.first :=
    Nat.le_trans (Nat.mul_le_mul_right _ (Nat.le_of_lt_succ (List.mem_range.1 inside)))
      (Nat.div_mul_le_self _ _)
  simp only [CaseRun.covers, Bool.and_eq_true, decide_eq_true_eq, beq_iff_eq]
  rw [Nat.add_sub_cancel_left, Nat.mul_mod_left]
  omega

/-- Whether a run covers no code point of a row with the given distances: the two lie apart, or
every second code point belongs to the one and the others to the other. -/
def isApart (run : CaseRun) (low high step : Nat) : Bool :=
  Nat.blt high run.first || Nat.blt run.last low ||
    (run.step == 2 && (step == 2 || low == high) && (low + run.first) % 2 == 1)

theorem not_covers {low high step : Nat} (apart : run.isApart low high step = true)
    (least : low ≤ n) (greatest : n ≤ high) (multiple : (n - low) % step = 0) :
    run.covers n = false := by
  rw [Bool.eq_false_iff]
  intro covers
  simp only [CaseRun.covers, Bool.and_eq_true, decide_eq_true_eq, beq_iff_eq] at covers
  simp only [isApart, Bool.or_eq_true, Bool.and_eq_true, Nat.blt_eq, beq_iff_eq] at apart
  obtain (above | below) | ⟨⟨two, same | one⟩, odd⟩ := apart
  · omega
  · omega
  · rw [two] at covers
    rw [same] at multiple
    omega
  · rw [two] at covers
    omega

/-- The first of several runs that cover a code point is the only one. -/
theorem find?_of_covers {runs : List CaseRun}
    (apart : runs.Pairwise fun run other => run.isApart other.first other.last other.step = true)
    (mem : run ∈ runs) (covers : run.covers n = true) :
    runs.find? (fun run => run.covers n) = some run := by
  induction runs with
  | nil => cases mem
  | cons other rest ih =>
    obtain ⟨first, apart⟩ := List.pairwise_cons.1 apart
    rcases List.mem_cons.1 mem with rfl | mem
    · rw [List.find?_cons, covers]
    · have own := covers
      simp only [CaseRun.covers, Bool.and_eq_true, decide_eq_true_eq, beq_iff_eq] at own
      rw [List.find?_cons, not_covers (first run mem) own.1.1 own.1.2 own.2]
      exact ih apart mem

end CaseRun

/-! ## The table of pairs -/

/-- No two runs of folding cover the same code point. -/
theorem foldRuns_apart :
    foldRuns.Pairwise fun run other => run.isApart other.first other.last other.step = true := by
  decide +kernel

/-- The runs of folding lead to code points that no run covers. -/
theorem foldRuns_still : (foldRuns.all fun run => foldRuns.all
    (·.isApart (run.image run.first) (run.image run.last) run.step)) = true := by
  decide +kernel

/-- The runs of folding are in order and lead to characters. -/
theorem foldRuns_valid : ∀ run ∈ foldRuns, run.first ≤ run.last ∧ 0 ≤ run.first + run.shift ∧
    (run.last + run.shift < 0xD800 ∨
      0xDFFF < run.first + run.shift ∧ run.last + run.shift < 0x110000) := by
  decide +kernel

theorem foldCode_of_covers (mem : run ∈ foldRuns) (covers : run.covers n = true) :
    foldCode n = run.image n := by
  rw [foldCode, applyRuns, CaseRun.find?_of_covers foldRuns_apart mem covers]
  rfl

/-- A code point that folding moves is in the table. -/
theorem mem_foldPairs (moved : foldCode n ≠ n) : (n, foldCode n) ∈ foldPairs := by
  unfold foldCode applyRuns at *
  split at moved
  · next run found =>
    have covers : run.covers n = true := by simpa using List.find?_some found
    exact List.mem_flatMap.2 ⟨run, List.mem_of_find?_eq_some found, run.mem_pairs_of_covers covers⟩
  · exact absurd rfl moved

/-- The table is that of folding, and folding twice is folding once. -/
theorem foldPairs_spec (mem : (n, f) ∈ foldPairs) :
    foldCode n = f ∧ foldCode f = f ∧ f.isValidChar := by
  obtain ⟨run, own, pair⟩ := List.mem_flatMap.1 mem
  obtain ⟨ascending, least, valid⟩ := foldRuns_valid run own
  obtain ⟨covers, rfl⟩ := CaseRun.covers_of_mem_pairs ascending pair
  refine ⟨foldCode_of_covers own covers, ?_, ?_⟩
  · have still (other : CaseRun) (mem : other ∈ foldRuns) : other.covers (run.image n) = false := by
      have apart := List.all_eq_true.1 (List.all_eq_true.1 foldRuns_still run own) other mem
      simp only [CaseRun.covers, Bool.and_eq_true, decide_eq_true_eq, beq_iff_eq] at covers
      refine CaseRun.not_covers apart ?_ ?_ ?_
      · unfold CaseRun.image
        omega
      · unfold CaseRun.image
        omega
      · have same : run.image n - run.image run.first = n - run.first := by
          unfold CaseRun.image
          omega
        rw [same]
        exact covers.2
    have none : foldRuns.find? (·.covers (run.image n)) = none :=
      List.find?_eq_none.2 fun other mem => Bool.eq_false_iff.1 (still other mem)
    rw [foldCode, applyRuns, none]
  · simp only [CaseRun.covers, Bool.and_eq_true, decide_eq_true_eq] at covers
    unfold CaseRun.image Nat.isValidChar
    omega

theorem foldCode_foldCode (n : Nat) : foldCode (foldCode n) = foldCode n := by
  by_cases moved : foldCode n = n
  · rw [moved, moved]
  · exact (foldPairs_spec (mem_foldPairs moved)).2.1

theorem fold_eq_iff : fold c = fold d ↔ foldCode c.toNat = foldCode d.toNat := by
  have valid (c : Char) : (foldCode c.toNat).isValidChar := by
    by_cases moved : foldCode c.toNat = c.toNat
    · rw [moved]
      exact c.valid
    · exact (foldPairs_spec (mem_foldPairs moved)).2.2
  constructor
  · intro same
    have toNat (c : Char) : (fold c).toNat = foldCode c.toNat := by
      rw [fold, Char.ofNat, dif_pos (valid c)]
      rfl
    rw [← toNat, ← toNat, same]
  · exact congrArg Char.ofNat

/-! ## The case closure -/

/-- The representatives of the moved code points that a set has, or has the representatives of. -/
def CodePoints.touched (set : CodePoints) : List Nat :=
  (foldPairs.filter fun (n, f) => set.contains n || set.contains f).map (·.2)

theorem CodePoints.mem_touched : f ∈ set.touched ↔
    ∃ n, (n, f) ∈ foldPairs ∧ (set.contains n = true ∨ set.contains f = true) := by
  simp [CodePoints.touched]

/-- The code points that folding moves to these representatives. -/
def CodePoints.moved (set : CodePoints) : List Nat :=
  (foldPairs.filter fun (_, f) => (ofRanges (set.touched.map fun f => (f, f))).contains f).map (·.1)

theorem CodePoints.mem_moved : n ∈ set.moved ↔ ∃ f ∈ set.touched, (n, f) ∈ foldPairs := by
  simp only [CodePoints.moved, List.mem_map, List.mem_filter, CodePoints.contains_ofRanges_map]
  constructor
  · rintro ⟨⟨n, f⟩, ⟨mem, touched⟩, rfl⟩
    exact ⟨f, touched, mem⟩
  · rintro ⟨f, touched, mem⟩
    exact ⟨(n, f), ⟨mem, touched⟩, rfl⟩

theorem CodePoints.caseClosure_eq (set : CodePoints) : set.caseClosure =
    set.union ((ofRanges (set.touched.map fun f => (f, f))).union
      (ofRanges (set.moved.map fun n => (n, n)))) := by
  rw [CodePoints.moved, List.map_map]
  rfl

theorem CodePoints.contains_caseClosure_cases : set.caseClosure.contains n = true ↔
    set.contains n = true ∨ n ∈ set.touched ∨ ∃ f ∈ set.touched, (n, f) ∈ foldPairs := by
  rw [CodePoints.caseClosure_eq, CodePoints.contains_union, CodePoints.contains_union,
    CodePoints.contains_ofRanges_map, CodePoints.contains_ofRanges_map, CodePoints.mem_moved]

/-- **The case closure has the code points that agree with a member up to case.** -/
theorem CodePoints.contains_caseClosure : set.caseClosure.contains n = true ↔
    ∃ m, set.contains m = true ∧ foldCode m = foldCode n := by
  -- a touched representative is that of a member
  have member {f : Nat} (touched : f ∈ set.touched) :
      foldCode f = f ∧ ∃ m, set.contains m = true ∧ foldCode m = f := by
    obtain ⟨m, mem, own⟩ := CodePoints.mem_touched.1 touched
    obtain rfl := (foldPairs_spec mem).1
    refine ⟨foldCode_foldCode m, ?_⟩
    rcases own with own | own
    · exact ⟨m, own, rfl⟩
    · exact ⟨foldCode m, own, foldCode_foldCode m⟩
  rw [CodePoints.contains_caseClosure_cases]
  constructor
  · rintro (own | touched | ⟨f, touched, mem⟩)
    · exact ⟨n, own, rfl⟩
    · obtain ⟨still, m, own, same⟩ := member touched
      exact ⟨m, own, same.trans still.symm⟩
    · obtain ⟨-, m, own, same⟩ := member touched
      exact ⟨m, own, same.trans (foldPairs_spec mem).1.symm⟩
  · rintro ⟨m, own, same⟩
    by_cases moved : foldCode n = n
    · by_cases still : foldCode m = m
      · exact .inl (moved ▸ same ▸ still.symm ▸ own)
      · refine .inr (.inl (CodePoints.mem_touched.2 ⟨m, ?_, .inl own⟩))
        exact moved ▸ same ▸ mem_foldPairs still
    · have pair := mem_foldPairs moved
      refine .inr (.inr ⟨foldCode n, ?_, pair⟩)
      by_cases still : foldCode m = m
      · exact CodePoints.mem_touched.2 ⟨n, pair, .inr (same ▸ still.symm ▸ own)⟩
      · exact CodePoints.mem_touched.2 ⟨m, same ▸ mem_foldPairs still, .inl own⟩

end CommitLog.Unicode
