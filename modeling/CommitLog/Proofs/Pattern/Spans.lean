import CommitLog.Pattern.Expr

/-!
# Matching

The positions that `Expr.ends` computes are those at which spanned stretches end (`Expr.mem_ends`),
for every expression whose repetitions have their bounds in order (`Expr.IsOrdered`).  So an
expression occurs in a text if and only if it spans a stretch of the text (`Expr.occursIn_iff`).

    e.IsOrdered → (j ∈ e.ends text starts ↔ ∃ i ∈ starts, Spans text e i j)
    e.IsOrdered → (e.occursIn text = true ↔ ∃ i j, i ≤ text.length ∧ Spans text.toArray e i j)
-/

namespace CommitLog.Pattern

open CommitLog.Unicode (CodePoints)

/-- The least number of stretches of every repetition is not above the greatest. -/
def Expr.IsOrdered : Expr → Prop
  | .empty | .chars _ | .look _ => True
  | .concat a b | .either a b => a.IsOrdered ∧ b.IsOrdered
  | .repeat least most body => (∀ m, most = some m → least ≤ m) ∧ body.IsOrdered
  | .capture body => body.IsOrdered

variable {text : Array Char} {a b body e : Expr} {set : CodePoints} {condition : Look}
  {i j k n m least fuel : Nat} {most : Option Nat} {starts known fresh as bs : List Nat}
  {step : List Nat → List Nat}

/-! ## Spans by the form of the expression -/

theorem spans_empty : Spans text .empty i j ↔ i = j := by
  constructor
  · rintro ⟨⟩
    rfl
  · rintro rfl
    exact .empty i

theorem spans_chars :
    Spans text (.chars set) i j ↔ j = i + 1 ∧ ∃ c, text[i]? = some c ∧ set.holds c = true := by
  constructor
  · rintro (_ | ⟨own, holds⟩)
    exact ⟨rfl, _, own, holds⟩
  · rintro ⟨rfl, c, own, holds⟩
    exact .chars own holds

/-- A set takes the first character of what is left of the text. -/
theorem spans_chars_drop {text : List Char} : Spans text.toArray (.chars set) i j ↔
    j = i + 1 ∧ ∃ c, text.drop i = c :: text.drop (i + 1) ∧ set.holds c = true := by
  rw [spans_chars, List.getElem?_toArray]
  refine and_congr_right fun _ => exists_congr fun c => and_congr_left fun _ => ?_
  constructor
  · intro own
    obtain ⟨inside, rfl⟩ := List.getElem?_eq_some_iff.1 own
    exact List.drop_eq_getElem_cons inside
  · intro own
    rw [← List.head?_drop, own, List.head?_cons]

theorem spans_look : Spans text (.look condition) i j ↔ i = j ∧ condition.holds text i = true := by
  constructor
  · rintro (_ | _ | holds)
    exact ⟨rfl, holds⟩
  · rintro ⟨rfl, holds⟩
    exact .look holds

theorem spans_concat :
    Spans text (.concat a b) i k ↔ ∃ j, Spans text a i j ∧ Spans text b j k := by
  constructor
  · rintro (_ | _ | _ | ⟨first, second⟩)
    exact ⟨_, first, second⟩
  · rintro ⟨j, first, second⟩
    exact .concat first second

theorem spans_either : Spans text (.either a b) i j ↔ Spans text a i j ∨ Spans text b i j := by
  constructor
  · rintro (_ | _ | _ | _ | first | second)
    · exact .inl first
    · exact .inr second
  · rintro (first | second)
    · exact .left first
    · exact .right second

theorem spans_capture : Spans text (.capture body) i j ↔ Spans text body i j := by
  constructor
  · rintro (_ | _ | _ | _ | _ | _ | _ | inside)
    exact inside
  · exact .capture

theorem spans_repeat : Spans text (.repeat least most body) i j ↔
    ∃ n, least ≤ n ∧ (∀ m, most = some m → n ≤ m) ∧ SpansTimes text body n i j := by
  constructor
  · rintro (_ | _ | _ | _ | _ | _ | ⟨atLeast, atMost, times⟩)
    exact ⟨_, atLeast, atMost, times⟩
  · rintro ⟨n, atLeast, atMost, times⟩
    exact .repeat atLeast atMost times

theorem spansTimes_zero : SpansTimes text body 0 i j ↔ i = j := by
  constructor
  · rintro ⟨⟩
    rfl
  · rintro rfl
    exact .zero i

theorem spansTimes_succ : SpansTimes text body (n + 1) i k ↔
    ∃ j, Spans text body i j ∧ SpansTimes text body n j k := by
  constructor
  · rintro (_ | ⟨first, rest⟩)
    exact ⟨_, first, rest⟩
  · rintro ⟨j, first, rest⟩
    exact .succ first rest

theorem spansTimes_add : SpansTimes text body (m + n) i k ↔
    ∃ j, SpansTimes text body m i j ∧ SpansTimes text body n j k := by
  induction m generalizing i with
  | zero => simp [spansTimes_zero]
  | succ m ih =>
    rw [Nat.add_right_comm]
    simp only [spansTimes_succ, ih]
    constructor
    · rintro ⟨j, first, l, rest, more⟩
      exact ⟨l, ⟨j, first, rest⟩, more⟩
    · rintro ⟨l, ⟨j, first, rest⟩, more⟩
      exact ⟨j, first, l, rest, more⟩

/-- Positions that no stretch leads away from are not left by several stretches either. -/
theorem SpansTimes.mem_of_closed (times : SpansTimes text body n i j) (mem : i ∈ known)
    (closed : ∀ i ∈ known, ∀ k, Spans text body i k → k ∈ known) : j ∈ known := by
  induction n generalizing i with
  | zero => exact spansTimes_zero.1 times ▸ mem
  | succ n ih =>
    obtain ⟨k, first, rest⟩ := spansTimes_succ.1 times
    exact ih rest (closed i mem k first)

/-! ## Stretches run forward -/

/-- A stretch ends where it starts, or further on in the text. -/
def Forward (text : Array Char) (i j : Nat) : Prop := i = j ∨ i < j ∧ j ≤ text.size

theorem forward_iff (inside : i ≤ text.size) : Forward text i j ↔ i ≤ j ∧ j ≤ text.size := by
  unfold Forward
  omega

theorem Forward.trans (first : Forward text i j) (second : Forward text j k) :
    Forward text i k := by
  unfold Forward at *
  omega

theorem forward_of_times (forward : ∀ i j, Spans text body i j → Forward text i j)
    (times : SpansTimes text body n i j) : Forward text i j := by
  induction n generalizing i with
  | zero => exact .inl (spansTimes_zero.1 times)
  | succ n ih =>
    obtain ⟨k, first, rest⟩ := spansTimes_succ.1 times
    exact (forward i k first).trans (ih rest)

theorem Spans.forward (spans : Spans text e i j) : Forward text i j := by
  induction e generalizing i j with
  | empty => exact .inl (spans_empty.1 spans)
  | chars set =>
    obtain ⟨rfl, c, own, -⟩ := spans_chars.1 spans
    obtain ⟨inside, -⟩ := Array.getElem?_eq_some_iff.1 own
    exact .inr ⟨Nat.lt_succ_self i, inside⟩
  | look condition => exact .inl (spans_look.1 spans).1
  | concat a b iha ihb =>
    obtain ⟨k, first, second⟩ := spans_concat.1 spans
    exact (iha first).trans (ihb second)
  | either a b iha ihb => exact (spans_either.1 spans).elim iha ihb
  | «repeat» least most body ih =>
    obtain ⟨n, -, -, times⟩ := spans_repeat.1 spans
    exact forward_of_times (fun _ _ => ih) times
  | capture body ih => exact ih (spans_capture.1 spans)

/-- Rounds that span nothing can be left out, and every other one goes on in the text. -/
theorem SpansTimes.exists_le_size (times : SpansTimes text body n i j) :
    ∃ m ≤ text.size, SpansTimes text body m i j := by
  obtain ⟨m, short, times⟩ : ∃ m, m ≤ j - i ∧ SpansTimes text body m i j := by
    induction n generalizing i with
    | zero => exact ⟨0, Nat.zero_le _, times⟩
    | succ n ih =>
      obtain ⟨k, first, rest⟩ := spansTimes_succ.1 times
      obtain ⟨m, short, rest'⟩ := ih rest
      rcases first.forward with rfl | ⟨lt, -⟩
      · exact ⟨m, short, rest'⟩
      · refine ⟨m + 1, ?_, spansTimes_succ.2 ⟨k, first, rest'⟩⟩
        have := forward_of_times (fun _ _ => Spans.forward) rest
        unfold Forward at this
        omega
  refine ⟨m, ?_, times⟩
  have := forward_of_times (fun _ _ => Spans.forward) times
  unfold Forward at this
  omega

/-! ## Sets of positions -/

theorem mem_merge : j ∈ merge as bs ↔ j ∈ as ∨ j ∈ bs := by
  induction as generalizing bs with
  | nil => simp [merge]
  | cons a as ih =>
    rw [merge]
    induction bs with
    | nil => simp [merge.insertFirst, ih]
    | cons b rest ihb =>
      rw [merge.insertFirst]
      split
      · simp only [List.mem_cons, ih, or_assoc]
      · split
        · next same =>
          subst same
          simp only [List.mem_cons, ih, or_assoc]
          grind
        · simp only [List.mem_cons, ihb]
          rw [or_left_comm]

theorem mem_without : j ∈ without as bs ↔ j ∈ as ∧ j ∉ bs := by
  simp [without]

/-- The positions that are one stretch further than the given ones. -/
def IsStep (text : Array Char) (body : Expr) (step : List Nat → List Nat) : Prop :=
  ∀ starts j, j ∈ step starts ↔ ∃ i ∈ starts, Spans text body i j

namespace IsStep

variable (isStep : IsStep text body step)

include isStep

/-- Where a step changes nothing, no number of steps does. -/
theorem mem_of_same (same : step starts = starts) :
    (∃ i ∈ starts, SpansTimes text body n i j) ↔ j ∈ starts := by
  constructor
  · rintro ⟨i, mem, times⟩
    exact times.mem_of_closed mem fun i mem k spans => same ▸ (isStep starts k).2 ⟨i, mem, spans⟩
  · intro mem
    induction n generalizing j with
    | zero => exact ⟨j, mem, .zero j⟩
    | succ n ih =>
      obtain ⟨k, known, last⟩ := (isStep starts j).1 (same.symm ▸ mem)
      obtain ⟨i, mem, rest⟩ := ih known
      exact ⟨i, mem, spansTimes_add.2 ⟨k, rest, spansTimes_succ.2 ⟨j, last, .zero j⟩⟩⟩

theorem mem_iterate :
    j ∈ iterate step n starts ↔ ∃ i ∈ starts, SpansTimes text body n i j := by
  induction n generalizing starts with
  | zero => simp [iterate, spansTimes_zero]
  | succ n ih =>
    unfold iterate
    dsimp only
    split
    · next same => exact (isStep.mem_of_same (by simpa using same)).symm
    · rw [ih]
      simp only [isStep starts, spansTimes_succ]
      constructor
      · rintro ⟨k, ⟨i, mem, first⟩, rest⟩
        exact ⟨i, mem, k, first, rest⟩
      · rintro ⟨i, mem, k, first, rest⟩
        exact ⟨k, ⟨i, mem, first⟩, rest⟩

/-- The search reaches everything that lies at most so many stretches behind a known position, when
one stretch leads from a position that is known, and not fresh, to a known one. -/
theorem mem_reach (sub : ∀ i ∈ fresh, i ∈ known)
    (closed : ∀ i ∈ known, i ∉ fresh → ∀ k, Spans text body i k → k ∈ known) :
    j ∈ reach step fuel known fresh ↔ ∃ n ≤ fuel, ∃ i ∈ known, SpansTimes text body n i j := by
  induction fuel generalizing known fresh with
  | zero => simp [reach, spansTimes_zero]
  | succ fuel ih =>
    have next (k : Nat) : k ∈ without (step fresh) known ↔
        (∃ i ∈ fresh, Spans text body i k) ∧ k ∉ known := by
      rw [mem_without, isStep fresh]
    -- one stretch from a known position leads to a known or to a new one
    have onward {i k : Nat} (mem : i ∈ known) (spans : Spans text body i k) :
        k ∈ known ∨ k ∈ without (step fresh) known := by
      by_cases old : k ∈ known
      · exact .inl old
      · by_cases isFresh : i ∈ fresh
        · exact .inr ((next k).2 ⟨⟨i, isFresh, spans⟩, old⟩)
        · exact absurd (closed i mem isFresh k spans) old
    unfold reach
    dsimp only
    split
    · next empty =>
      have still {i k : Nat} (mem : i ∈ known) (spans : Spans text body i k) : k ∈ known := by
        refine (onward mem spans).resolve_right ?_
        rw [List.isEmpty_iff.1 empty]
        exact List.not_mem_nil
      constructor
      · intro mem
        exact ⟨0, Nat.zero_le _, j, mem, .zero j⟩
      · rintro ⟨n, -, i, mem, times⟩
        exact times.mem_of_closed mem fun i mem k => still mem
    · rw [ih (fun i mem => mem_merge.2 (.inr mem)) ?_]
      · simp only [mem_merge]
        constructor
        · rintro ⟨n, le, i, old | new, times⟩
          · exact ⟨n, Nat.le_succ_of_le le, i, old, times⟩
          · obtain ⟨⟨l, isFresh, spans⟩, -⟩ := (next i).1 new
            exact ⟨n + 1, Nat.succ_le_succ le, l, sub l isFresh,
              spansTimes_succ.2 ⟨i, spans, times⟩⟩
        · rintro ⟨n, le, i, mem, times⟩
          cases n with
          | zero => exact ⟨0, Nat.zero_le _, i, .inl mem, times⟩
          | succ n =>
            obtain ⟨k, first, rest⟩ := spansTimes_succ.1 times
            exact ⟨n, Nat.le_of_succ_le_succ le, k, onward mem first, rest⟩
      · intro i mem old k spans
        exact mem_merge.2 (onward ((mem_merge.1 mem).resolve_right old) spans)

end IsStep

/-! ## The ends of stretches -/

/-- **The ends that are computed are those of the stretches that are spanned.** -/
theorem Expr.mem_ends (ordered : e.IsOrdered) :
    j ∈ e.ends text starts ↔ ∃ i ∈ starts, Spans text e i j := by
  induction e generalizing starts j with
  | empty => simp [Expr.ends, spans_empty]
  | chars set =>
    simp only [Expr.ends, List.mem_filterMap, spans_chars]
    refine exists_congr fun i => and_congr_right fun _ => ?_
    cases text[i]? with
    | none => simp
    | some c =>
      by_cases holds : set.holds c = true
      · simpa [holds] using eq_comm
      · simp [holds]
  | look condition =>
    rw [Expr.ends, List.mem_filter]
    constructor
    · rintro ⟨mem, holds⟩
      exact ⟨j, mem, .look holds⟩
    · rintro ⟨i, mem, spans⟩
      obtain ⟨rfl, holds⟩ := spans_look.1 spans
      exact ⟨mem, holds⟩
  | concat a b iha ihb =>
    rw [Expr.ends, ihb ordered.2]
    simp only [iha ordered.1, spans_concat]
    constructor
    · rintro ⟨k, ⟨i, mem, first⟩, second⟩
      exact ⟨i, mem, k, first, second⟩
    · rintro ⟨i, mem, k, first, second⟩
      exact ⟨k, ⟨i, mem, first⟩, second⟩
  | either a b iha ihb =>
    rw [Expr.ends, mem_merge, iha ordered.1, ihb ordered.2, ← exists_or]
    refine exists_congr fun i => ?_
    rw [spans_either, and_or_left]
  | «repeat» least most body ih =>
    obtain ⟨bounds, ordered⟩ := ordered
    have isStep : IsStep text body (body.ends text) := fun _ _ => ih ordered
    have whole : (Expr.repeat least most body).ends text starts = reach (body.ends text)
        (most.elim (text.size + 1) (· - least)) (iterate (body.ends text) least starts)
        (iterate (body.ends text) least starts) := by
      cases most <;> rfl
    rw [whole, isStep.mem_reach (fun _ mem => mem) fun i mem new => absurd mem new]
    simp only [isStep.mem_iterate, spans_repeat]
    constructor
    · rintro ⟨n, le, k, ⟨i, mem, first⟩, rest⟩
      refine ⟨i, mem, least + n, Nat.le_add_right _ _, ?_, spansTimes_add.2 ⟨k, first, rest⟩⟩
      rintro m rfl
      have := bounds m rfl
      rw [Option.elim_some] at le
      omega
    · rintro ⟨i, mem, n, atLeast, atMost, times⟩
      obtain ⟨more, rfl⟩ := Nat.exists_eq_add_of_le atLeast
      obtain ⟨k, first, rest⟩ := spansTimes_add.1 times
      cases most with
      | some m =>
        have := atMost m rfl
        exact ⟨more, by rw [Option.elim_some]; omega, k, ⟨i, mem, first⟩, rest⟩
      | none =>
        -- a search of as many rounds as there are positions leaves nothing out
        obtain ⟨short, le, rest⟩ := rest.exists_le_size
        exact ⟨short, Nat.le_succ_of_le le, k, ⟨i, mem, first⟩, rest⟩
  | capture body ih =>
    rw [Expr.ends, ih ordered]
    simp only [spans_capture]

/-- **An expression occurs in a text if and only if it spans a stretch of the text.** -/
theorem Expr.occursIn_iff (ordered : e.IsOrdered) {text : List Char} :
    e.occursIn text = true ↔ ∃ i j, i ≤ text.length ∧ Spans text.toArray e i j := by
  rw [Expr.occursIn, Bool.not_eq_true', List.isEmpty_eq_false_iff_exists_mem]
  simp only [mem_ends ordered, List.mem_range, Nat.lt_succ_iff]
  constructor
  · rintro ⟨j, i, le, spans⟩
    exact ⟨i, j, le, spans⟩
  · rintro ⟨i, j, le, spans⟩
    exact ⟨j, i, le, spans⟩

end CommitLog.Pattern
