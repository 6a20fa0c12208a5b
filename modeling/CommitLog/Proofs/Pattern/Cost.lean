import CommitLog.Pattern.Cost
import CommitLog.Proofs.Pattern.Pieces
import CommitLog.Proofs.Unicode.Case
import Mathlib.Algebra.BigOperators.Ring.List
import Mathlib.Algebra.Order.BigOperators.Group.List
import Mathlib.Algebra.Order.Ring.Nat

/-!
# Patterns that fit

An automaton of a set has no more states than the byte sequences of the set have beginnings
(`total_addStates`), and there are no more sequences than members (`length_sequences_le`).  So
patterns that are one after the other made of parts with a bounded number of members fit when they
are few enough (`Expr.fits_join`).

    setCost set ≤ unitCost * (set.size + 1)
    (∀ e ∈ es, e.CostsAtMost n) → es.length * n + frameSize ≤ sizeLimit → (Expr.join es).fits
-/

namespace CommitLog.Pattern

open CommitLog.Unicode (CodePoints)

variable {set : CodePoints} {states : States} {sequences : List (List (Nat × Nat))}
  {transitions : List (Nat × Nat × Nat)} {e : Expr} {es : List Expr}
  {fuel length low high place state n m : Nat}

/-! ## Byte sequences -/

/-- A range is cut inside. -/
theorem cut?_inside (cut : cut? low high = some place) (le : low ≤ high) :
    low < place ∧ place ≤ high := by
  unfold cut? at cut
  split at cut
  · next limit found =>
    have inside := List.find?_some found
    simp only [Bool.and_eq_true, decide_eq_true_eq] at inside
    cases cut
    omega
  · split at cut
    · cases cut
    · unfold alignmentCut? at cut
      obtain ⟨block, mem, cut⟩ := List.exists_of_findSome?_eq_some cut
      simp only [List.mem_cons, List.not_mem_nil, or_false] at mem
      rcases mem with rfl | rfl | rfl
      all_goals
        simp only [Option.ite_none_left_eq_some] at cut
        obtain ⟨apart, cut⟩ := cut
        split at cut
        · cases cut
          omega
        · rw [Option.ite_none_right_eq_some] at cut
          cases cut.2
          omega

theorem length_sequencesOf_le : (sequencesOf fuel low high).length ≤ high + 1 - low := by
  induction fuel generalizing low high with
  | zero => exact Nat.zero_le _
  | succ fuel ih =>
    rw [sequencesOf]
    split
    · exact Nat.zero_le _
    · next le =>
      split
      · rw [List.length_append]
        have before := @ih low 0xD7FF
        have after := @ih 0xE000 high
        omega
      · split
        · next place cut =>
          obtain ⟨above, below⟩ := cut?_inside cut (by omega)
          rw [List.length_append]
          have before := @ih low (place - 1)
          have after := @ih place high
          omega
        · rw [List.length_singleton]
          omega

def count (set : CodePoints) : Nat := (set.map fun range => range.2 + 1 - range.1).sum

theorem length_sequences_le : (Pattern.sequences set).length ≤ count set := by
  rw [Pattern.sequences, List.length_flatMap, count]
  exact List.sum_le_sum fun range _ => length_sequencesOf_le

theorem groupByFirst_le : (groupByFirst sequences).length ≤ sequences.length ∧
    ((groupByFirst sequences).map (·.2.length)).sum ≤ sequences.length := by
  induction sequences with
  | nil => exact ⟨Nat.le_refl _, Nat.le_refl _⟩
  | cons first rest ih =>
    obtain ⟨groups, tails⟩ := ih
    cases first with
    | nil => exact ⟨Nat.le_succ_of_le groups, Nat.le_succ_of_le tails⟩
    | cons range more =>
      rw [groupByFirst]
      split
      · next own =>
        rw [own] at groups tails
        split
        · simp only [List.length_cons, List.map_cons, List.sum_cons] at *
          omega
        · simp only [List.length_cons, List.map_cons, List.sum_cons, List.length_nil] at *
          omega
      · simp

theorem countBeginnings_succ : countBeginnings (length + 1) sequences =
    ((groupByFirst sequences).map fun group => 1 + countBeginnings length group.2).sum := by
  rw [countBeginnings, List.sum_eq_foldr, List.foldr_map]

theorem countBeginnings_le : countBeginnings length sequences ≤ length * sequences.length := by
  induction length generalizing sequences with
  | zero => exact Nat.zero_le _
  | succ length ih =>
    obtain ⟨groups, tails⟩ := @groupByFirst_le sequences
    calc countBeginnings (length + 1) sequences
        = ((groupByFirst sequences).map fun group => 1 + countBeginnings length group.2).sum :=
          countBeginnings_succ
      _ ≤ ((groupByFirst sequences).map fun group => 1 + length * group.2.length).sum :=
          List.sum_le_sum fun group _ => Nat.add_le_add_left ih 1
      _ = (groupByFirst sequences).length +
            length * ((groupByFirst sequences).map (·.2.length)).sum := by
          rw [List.sum_map_add, List.sum_map_mul_left]
          simp
      _ ≤ sequences.length + length * sequences.length :=
          Nat.add_le_add groups (Nat.mul_le_mul_left length tails)
      _ = (length + 1) * sequences.length := by rw [Nat.succ_mul, Nat.add_comm]

/-! ## States -/

def transitionsSize (transitions : List (Nat × Nat × Nat)) : Nat :=
  stateSize + transitions.length * transitionSize

def total (states : States) : Nat := (states.toList.map fun entry => transitionsSize entry.1).sum

theorem fold_eq_total : states.fold (fun size transitions _ =>
    size + stateSize + transitions.length * transitionSize) n = n + total states := by
  rw [Std.HashMap.fold_eq_foldl_toList, total]
  generalize states.toList = entries
  induction entries generalizing n with
  | nil => rfl
  | cons entry entries ih =>
    rw [List.foldl_cons, ih, List.map_cons, List.sum_cons, transitionsSize]
    omega

theorem total_insert_le :
    total (states.insert transitions state) ≤ total states + transitionsSize transitions := by
  have kept := ((@List.filter_sublist _ (fun entry => decide ¬(transitions == entry.1) = true)
    states.toList).map fun entry => transitionsSize entry.1).sum_le_sum fun _ _ => Nat.zero_le _
  rw [total, (Std.HashMap.toList_insert_perm.map fun entry => transitionsSize entry.1).sum_eq,
    List.map_cons, List.sum_cons, Nat.add_comm]
  exact Nat.add_le_add_right kept _

/-- The targets of transitions are added one group after the other. -/
theorem total_targets {add : List (List (Nat × Nat)) → States → Nat × States}
    {size : List (List (Nat × Nat)) → Nat}
    (bound : ∀ tails states, total (add tails states).2 ≤ total states + size tails)
    (groups : List ((Nat × Nat) × List (List (Nat × Nat)))) (before : List (Nat × Nat × Nat))
    (states : States) :
    let after := groups.foldl (fun (transitions, states) (range, tails) =>
      let (target, states) := add tails states
      (transitions ++ [(range.1, range.2, target)], states)) (before, states)
    after.1.length = before.length + groups.length ∧
      total after.2 ≤ total states + (groups.map fun group => size group.2).sum := by
  induction groups generalizing before states with
  | nil => exact ⟨rfl, Nat.le_refl _⟩
  | cons group groups ih =>
    obtain ⟨number, sum⟩ := ih (before ++ [(group.1.1, group.1.2, (add group.2 states).1)])
      (add group.2 states).2
    have own := bound group.2 states
    refine ⟨number.trans ?_, Nat.le_trans sum ?_⟩
    · rw [List.length_append, List.length_singleton, List.length_cons, Nat.add_assoc,
        Nat.add_comm 1]
    · rw [List.map_cons, List.sum_cons]
      omega

/-- The size that one more beginning of sequences takes at most. -/
def unitCost : Nat := stateSize + transitionSize

/-- The states that are added take no more room than one for each beginning. -/
theorem total_addStates : total (addStates length sequences states).2 ≤
    total states + (stateSize + unitCost * countBeginnings length sequences) := by
  induction length generalizing sequences states with
  | zero => exact Nat.le_add_right _ _
  | succ length ih =>
    rw [addStates]
    split
    · exact Nat.le_add_right _ _
    · have targets := total_targets (fun tails states => @ih states tails)
        (groupByFirst sequences) [] states
      generalize List.foldl _ _ _ = after at targets ⊢
      obtain ⟨transitions, after⟩ := after
      obtain ⟨number, sum⟩ := targets
      rw [List.length_nil, Nat.zero_add] at number
      -- one state for each target, and one with a transition to each
      have sums : ((groupByFirst sequences).map fun group =>
          stateSize + unitCost * countBeginnings length group.2).sum + transitions.length *
            transitionSize = unitCost * countBeginnings (length + 1) sequences := by
        rw [countBeginnings_succ, number]
        generalize groupByFirst sequences = groups
        induction groups with
        | nil => rfl
        | cons group groups ih =>
          simp only [List.map_cons, List.sum_cons, List.length_cons, unitCost, Nat.mul_add,
            Nat.add_mul] at *
          omega
      dsimp only at sum ⊢
      split
      · dsimp only
        omega
      · refine Nat.le_trans total_insert_le ?_
        rw [transitionsSize]
        omega

/-! ## Sets -/

theorem codePointBytes_length_le : (codePointBytes n).length ≤ 4 := by
  rw [codePointBytes, List.length_map, String.length_utf8EncodeChar]
  exact Char.utf8Size_le_four _

/-- Both automata of a set take no more room than its ranges, its sequences and their
beginnings. -/
theorem setCost_le (ranges : set.length ≤ n) (all : (Pattern.sequences set).length ≤ n)
    (beginnings : countBeginnings 4 (Pattern.sequences set) ≤ n) :
    setCost set ≤ unitCost * (n + 4) ∧ reverseSetCost set ≤ unitCost * (n + 4) := by
  have plain (size : Nat) (own : plainSetCost? set = some size) : size ≤ unitCost * (n + 4) := by
    unfold unitCost stateSize transitionSize
    unfold plainSetCost? stateSize transitionSize at own
    split at own
    · cases own
      omega
    · next low high =>
      have bytes := @codePointBytes_length_le low
      split at own
      · cases own
        omega
      · rw [Option.ite_none_right_eq_some] at own
        cases own.2
        omega
    · rw [Option.ite_none_right_eq_some] at own
      cases own.2
      omega
  unfold setCost reverseSetCost
  cases own : plainSetCost? set with
  | some size => exact ⟨plain size own, plain size own⟩
  | none =>
    rw [Option.getD_none, Option.getD_none, fold_eq_total]
    have states := @total_addStates ∅ (Pattern.sequences set) 4
    have none : total ∅ = 0 := by
      rw [total, Std.HashMap.toList_empty]
      rfl
    rw [none] at states
    unfold unitCost stateSize transitionSize linkSize at *
    dsimp only
    omega

theorem setCost_singleton_le : setCost (.singleton n) ≤ unitCost * 4 ∧
    reverseSetCost (.singleton n) ≤ unitCost * 4 := by
  have plain : plainSetCost? (.singleton n) = some ((codePointBytes n).length * stateSize) :=
    if_pos rfl
  have bytes := @codePointBytes_length_le n
  rw [setCost, reverseSetCost, plain, Option.getD_some, Option.getD_some]
  unfold unitCost stateSize transitionSize
  omega

/-! ### Case closures -/

theorem length_mergeFrom_le {ranges : List (Nat × Nat)} :
    (CodePoints.mergeFrom low high ranges).length ≤ ranges.length + 1 := by
  induction ranges generalizing low high with
  | nil => exact Nat.le_refl _
  | cons range rest ih =>
    rw [CodePoints.mergeFrom]
    split
    · exact Nat.le_succ_of_le ih
    · exact Nat.succ_le_succ ih

theorem count_mergeFrom_le {ranges : List (Nat × Nat)}
    (sorted : ((low, high) :: ranges).Pairwise fun r s => r.1 ≤ s.1) :
    count (CodePoints.mergeFrom low high ranges) ≤ count ((low, high) :: ranges) := by
  induction ranges generalizing low high with
  | nil => exact Nat.le_refl _
  | cons range rest ih =>
    obtain ⟨l, h⟩ := range
    obtain ⟨above, sorted⟩ := List.pairwise_cons.1 sorted
    have ascending : low ≤ l := above (l, h) List.mem_cons_self
    rw [CodePoints.mergeFrom]
    split
    · have kept : ((low, max high h) :: rest).Pairwise fun r s => r.1 ≤ s.1 :=
        List.pairwise_cons.2 ⟨fun r mem => above r (List.mem_cons_of_mem _ mem), sorted.of_cons⟩
      refine Nat.le_trans (ih kept) ?_
      simp only [count, List.map_cons, List.sum_cons]
      omega
    · have rest := ih sorted
      simp only [count, List.map_cons, List.sum_cons] at *
      omega

theorem ofRanges_le (ranges : List (Nat × Nat)) :
    (CodePoints.ofRanges ranges).length ≤ ranges.length ∧
      count (CodePoints.ofRanges ranges) ≤ count ranges := by
  obtain ⟨sorted, perm, ascending, own⟩ := CodePoints.exists_ofRanges ranges
  have fewer := perm.length_eq.trans_le (List.length_filter_le _ ranges)
  have sum : count sorted ≤ count ranges := by
    rw [count, (perm.map fun range => range.2 + 1 - range.1).sum_eq]
    exact (List.filter_sublist.map _).sum_le_sum fun _ _ => Nat.zero_le _
  rw [own]
  cases sorted with
  | nil => exact ⟨Nat.zero_le _, Nat.zero_le _⟩
  | cons range rest =>
    exact ⟨Nat.le_trans length_mergeFrom_le fewer,
      Nat.le_trans (count_mergeFrom_le ascending) sum⟩

theorem union_le (a b : CodePoints) : (a.union b).length ≤ a.length + b.length ∧
    count (a.union b) ≤ count a + count b := by
  unfold CodePoints.union
  split
  · exact ⟨Nat.le_add_left _ _, Nat.le_add_left _ _⟩
  · split
    · exact ⟨Nat.le_add_right _ _, Nat.le_add_right _ _⟩
    · have sum : count (a ++ b) = count a + count b := by
        rw [count, List.map_append, List.sum_append]
        rfl
      have both := ofRanges_le (a ++ b)
      rwa [List.length_append, sum] at both

theorem ofRanges_map_le (points : List Nat) :
    (CodePoints.ofRanges (points.map fun n => (n, n))).length ≤ points.length ∧
      count (CodePoints.ofRanges (points.map fun n => (n, n))) ≤ points.length := by
  have one : count (points.map fun n => (n, n)) = points.length := by
    rw [count, List.map_map]
    induction points with
    | nil => rfl
    | cons n points ih =>
      rw [List.map_cons, List.sum_cons, ih, List.length_cons, Function.comp_apply]
      omega
  have both := ofRanges_le (points.map fun n => (n, n))
  rwa [List.length_map, one] at both

/-- Folding adds each code point of its table at most once as one that is moved, and at most once
as a representative. -/
theorem caseClosure_le (set : CodePoints) :
    set.caseClosure.length ≤ set.length + 2 * Unicode.foldPairs.length ∧
      count set.caseClosure ≤ count set + 2 * Unicode.foldPairs.length := by
  have touched := ofRanges_map_le set.touched
  have moved := ofRanges_map_le set.moved
  have inner := union_le (CodePoints.ofRanges (set.touched.map fun f => (f, f)))
    (CodePoints.ofRanges (set.moved.map fun n => (n, n)))
  have outer := union_le set ((CodePoints.ofRanges (set.touched.map fun f => (f, f))).union
    (CodePoints.ofRanges (set.moved.map fun n => (n, n))))
  have few : set.touched.length ≤ Unicode.foldPairs.length := by
    rw [CodePoints.touched, List.length_map]
    exact List.length_filter_le _ _
  have fewer : set.moved.length ≤ Unicode.foldPairs.length := by
    rw [CodePoints.moved, List.length_map]
    exact List.length_filter_le _ _
  rw [CodePoints.caseClosure_eq]
  omega

theorem length_foldPairs : Unicode.foldPairs.length = 1512 := by
  decide +kernel

/-- The size of a set that is closed under case, at most. -/
theorem setCost_caseClosure_le (n : Nat) :
    setCost (CodePoints.singleton n).caseClosure ≤ unitCost * 12104 ∧
      reverseSetCost (CodePoints.singleton n).caseClosure ≤ unitCost * 12104 := by
  obtain ⟨ranges, points⟩ := caseClosure_le (.singleton n)
  have one : count (.singleton n) = 1 := by
    show n + 1 - n + 0 = 1
    omega
  rw [length_foldPairs] at ranges points
  rw [one] at points
  have single : (CodePoints.singleton n).length = 1 := rfl
  rw [single] at ranges
  have all := @length_sequences_le (CodePoints.singleton n).caseClosure
  have beginnings := @countBeginnings_le (Pattern.sequences (CodePoints.singleton n).caseClosure) 4
  exact setCost_le (by omega) (by omega) (by omega)

/-! ## Expressions -/

/-- Both automata of an expression take at most so much room. -/
def Expr.CostsAtMost (e : Expr) (n : Nat) : Prop :=
  e.costWith setCost (2 * stateSize) ≤ n ∧ e.costWith reverseSetCost 0 ≤ n

theorem Expr.costsAtMost_join (each : ∀ e ∈ es, e.CostsAtMost n) :
    (Expr.join es).CostsAtMost (es.length * n) := by
  induction es with
  | nil => exact ⟨Nat.zero_le _, Nat.zero_le _⟩
  | cons e es ih =>
    have first := each e List.mem_cons_self
    have rest := ih fun e mem => each e (List.mem_cons_of_mem _ mem)
    rw [List.length_cons, Nat.succ_mul]
    cases es with
    | nil => simpa [Expr.join] using first
    | cons next es =>
      unfold Expr.CostsAtMost at *
      simp only [Expr.join, Expr.costWith] at *
      omega

/-- **Few parts of bounded size fit.** -/
theorem Expr.fits_join (each : ∀ e ∈ es, e.CostsAtMost n)
    (few : es.length * n + frameSize ≤ sizeLimit) : (Expr.join es).fits = true := by
  obtain ⟨forward, backward⟩ := Expr.costsAtMost_join each
  have frame : stateSize ≤ frameSize := by decide
  rw [Expr.fits, Bool.and_eq_true, decide_eq_true_eq, decide_eq_true_eq, Expr.cost,
    Expr.reverseCost]
  omega

end CommitLog.Pattern
