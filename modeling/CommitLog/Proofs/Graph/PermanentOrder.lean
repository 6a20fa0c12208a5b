import CommitLog.Proofs.Graph.Tables
import CommitLog.Proofs.Queue
import Mathlib.Tactic.Tauto

/-!
# Permanent order is greedy

`GreedyOrder` says what permanent order is: as long as some commit that is still to come has no
child among these, the first of such commits comes next; when there is none, the others follow
sorted.  The queue of `Frontier` holds exactly the commits that may come next (`Frontier.Settled`),
which one released link keeps (`Frontier.Settled.release`) and so a whole run does.

    Numbered commits → parents known → (permanentOrder commits).Perm commits
    Numbered commits → parents known → GreedyOrder (permanentOrder commits)
    GreedyOrder order → Acyclic order → ChildrenFirst order
-/

namespace CommitLog

namespace GraphCommit

/-! ## Queues -/

theorem goesBefore_iff {a b : GraphCommit} :
    a.goesBefore b = true ↔ b.time < a.time ∨ (a.time = b.time ∧ a.index ≤ b.index) := by
  simp [goesBefore]

theorem goesBefore_total (a b : GraphCommit) :
    a.goesBefore b = true ∨ b.goesBefore a = true := by
  simp only [goesBefore_iff]
  grind

theorem goesBefore_trans {a b c : GraphCommit} (hab : a.goesBefore b = true)
    (hbc : b.goesBefore c = true) : a.goesBefore c = true := by
  rw [goesBefore_iff] at *
  grind

theorem enqueue_eq (c : GraphCommit) (queue : List GraphCommit) : enqueue c queue =
    queue.takeWhile (·.goesBefore c) ++ c :: queue.dropWhile (·.goesBefore c) :=
  eq_place c.enqueue rfl (fun _ _ => rfl) queue

theorem perm_enqueue (c : GraphCommit) (queue : List GraphCommit) :
    (enqueue c queue).Perm (c :: queue) := by
  rw [enqueue_eq]
  exact perm_place _ c queue

theorem pairwise_enqueue {c : GraphCommit} {queue : List GraphCommit}
    (h : queue.Pairwise (·.goesBefore ·)) : (enqueue c queue).Pairwise (·.goesBefore ·) := by
  rw [enqueue_eq]
  refine pairwise_place (fun _ _ _ => goesBefore_trans) h (fun d _ before => before) ?_
  intro d _ notBefore
  exact (goesBefore_total c d).resolve_right (by simp [notBefore])

theorem sorted_spec (commits : List GraphCommit) :
    (sorted commits).Perm commits ∧ (sorted commits).Pairwise (·.goesBefore ·) := by
  have run : ∀ (rest queue : List GraphCommit), queue.Pairwise (·.goesBefore ·) →
      (rest.foldl (fun queue c => enqueue c queue) queue).Perm (queue ++ rest) ∧
        (rest.foldl (fun queue c => enqueue c queue) queue).Pairwise (·.goesBefore ·) := by
    intro rest
    induction rest with
    | nil => intro queue h; simpa using h
    | cons c rest ih =>
      intro queue h
      obtain ⟨perm, pairwise⟩ := ih (enqueue c queue) (pairwise_enqueue h)
      refine ⟨perm.trans ?_, pairwise⟩
      exact ((perm_enqueue c queue).append_right rest).trans List.perm_middle.symm
  simpa [sorted] using run commits [] .nil

/-! ## Greedy order -/

/-- A commit that may come next when these are still to come: none of them is its child. -/
def IsFree (rest : List GraphCommit) (c : GraphCommit) : Prop :=
  c ∈ rest ∧ ∀ d ∈ rest, c.index ∉ d.parents

theorem isFree_congr {a b : List GraphCommit} (perm : a.Perm b) : IsFree a = IsFree b := by
  funext c
  simp only [IsFree, perm.mem_iff]

/-- Lists of commits in permanent order. -/
inductive GreedyOrder : List GraphCommit → Prop
  /-- The first of the free commits comes next. -/
  | next {c : GraphCommit} {rest : List GraphCommit} (free : IsFree (c :: rest) c)
      (first : ∀ d, IsFree (c :: rest) d → c.goesBefore d = true) (tail : GreedyOrder rest) :
      GreedyOrder (c :: rest)
  /-- When no commit is free, all that are left are sorted. -/
  | stuck {rest : List GraphCommit} (none : ∀ c, ¬ IsFree rest c)
      (sorted : rest.Pairwise (·.goesBefore ·)) : GreedyOrder rest

/-- No commit comes before one of its children, nor is it its own child. -/
def ChildrenFirst (order : List GraphCommit) : Prop :=
  (∀ c ∈ order, c.index ∉ c.parents) ∧ order.Pairwise fun a b => a.index ∉ b.parents

theorem GreedyOrder.childrenFirst {commits order : List GraphCommit} (greedy : GreedyOrder order)
    (numbered : Numbered commits) (acyclic : Acyclic commits)
    (sub : ∀ c ∈ order, c ∈ commits) : ChildrenFirst order := by
  induction greedy with
  | @next c rest free _ _ ih =>
    obtain ⟨own, pairwise⟩ := ih fun d hd => sub d (List.mem_cons_of_mem _ hd)
    refine ⟨fun d hd => ?_, List.pairwise_cons.2 ⟨fun d hd => ?_, pairwise⟩⟩
    · rcases List.mem_cons.1 hd with rfl | hd
      · exact free.2 _ List.mem_cons_self
      · exact own d hd
    · exact free.2 d (List.mem_cons_of_mem _ hd)
  | @stuck rest none _ =>
    -- an acyclic list always has a free commit, so nothing is left
    by_cases ne : rest = []
    · subst ne; exact ⟨by simp, .nil⟩
    · obtain ⟨d, hd, free⟩ := exists_childless numbered acyclic sub ne
      exact absurd ⟨hd, free⟩ (none d)

end GraphCommit

/-! ## The queue of free commits -/

open GraphCommit

/-- The state of the computation when the commits of `rest` are still to come and the links of
their children to the numbers in `pending` have not been released. -/
structure Frontier.Settled (commits rest : List GraphCommit) (pending : List CommitIndex)
    (frontier : Frontier) : Prop where
  sub : ∀ c ∈ rest, c ∈ commits
  distinct : rest.Nodup
  waiting : ∀ p, frontier.waiting[p]? =
    if p ∈ commits.flatMap (·.parents) then some (pending.count p) else none
  mem_ready : ∀ c, c ∈ frontier.ready ↔ c ∈ rest ∧ c.index ∉ pending
  nodup : frontier.ready.Nodup
  sorted : frontier.ready.Pairwise (·.goesBefore ·)
  /-- Nobody comes before the last link to it is released. -/
  waits : ∀ c ∈ commits, c.index ∈ pending → c ∈ rest

namespace Frontier

variable {commits rest : List GraphCommit} {pending : List CommitIndex} {frontier : Frontier}

theorem Settled.perm {rest' : List GraphCommit} {pending' : List CommitIndex}
    (settled : Settled commits rest pending frontier) (hrest : rest.Perm rest')
    (hpending : pending.Perm pending') : Settled commits rest' pending' frontier where
  sub c hc := settled.sub c (hrest.mem_iff.2 hc)
  distinct := hrest.nodup_iff.1 settled.distinct
  waiting p := by rw [settled.waiting, hpending.count_eq]
  mem_ready c := by rw [settled.mem_ready, hrest.mem_iff, hpending.mem_iff]
  nodup := settled.nodup
  sorted := settled.sorted
  waits c hc h := hrest.mem_iff.1 (settled.waits c hc (hpending.mem_iff.2 h))

/-- When all pending links are those of the commits to come, the queue has the free ones. -/
theorem Settled.mem_ready_iff_isFree
    (settled : Settled commits rest (rest.flatMap (·.parents)) frontier) (c : GraphCommit) :
    c ∈ frontier.ready ↔ IsFree rest c := by
  rw [settled.mem_ready, IsFree]
  simp

/-- The count of a link that is still to be released. -/
theorem Settled.waiting_head {p : CommitIndex} (isParent : p ∈ commits.flatMap (·.parents))
    (settled : Settled commits rest (p :: pending) frontier) :
    frontier.waiting[p]? = some (pending.count p + 1) := by
  rw [settled.waiting, if_pos isParent, List.count_cons_self]

/-- One released link. -/
theorem Settled.release {p : CommitIndex} (numbered : Numbered commits)
    (isParent : p ∈ commits.flatMap (·.parents)) (known : ∃ c ∈ commits, c.index = p)
    (settled : Settled commits rest (p :: pending) frontier) :
    Settled commits rest pending (frontier.release (table commits) p) := by
  obtain ⟨c, hc, rfl⟩ := known
  have hcount := settled.waiting_head isParent
  have hwaiting : ∀ q, (frontier.waiting.insert c.index (pending.count c.index))[q]? =
      if q ∈ commits.flatMap (·.parents) then some (pending.count q) else none := by
    intro q
    rw [Std.HashMap.getElem?_insert]
    by_cases same : c.index = q
    · subst same
      rw [if_pos isParent]
      simp
    · rw [settled.waiting, List.count_cons_of_ne same]
      simp [same]
  have hc_rest : c ∈ rest := settled.waits c hc List.mem_cons_self
  have hwaits : ∀ d ∈ commits, d.index ∈ pending → d ∈ rest := fun d hd h =>
    settled.waits d hd (List.mem_cons_of_mem _ h)
  have hothers : ∀ d ∈ rest, d ≠ c → d.index ≠ c.index := fun d hd ne same =>
    ne (numbered.eq (settled.sub d hd) hc same)
  have htable := numbered.getElem?_table hc
  unfold Frontier.release
  simp only [hcount, Nat.add_sub_cancel, htable]
  by_cases last : pending.count c.index + 1 = 1
  · -- the last link to `c`: it joins the queue
    have free : c.index ∉ pending := List.count_eq_zero.1 (by omega)
    have absent : c ∉ frontier.ready := fun h =>
      ((settled.mem_ready c).1 h).2 List.mem_cons_self
    rw [if_pos last]
    refine ⟨settled.sub, settled.distinct, hwaiting, fun d => ?_, ?_,
      pairwise_enqueue settled.sorted, hwaits⟩
    · rw [(perm_enqueue c frontier.ready).mem_iff, List.mem_cons, settled.mem_ready]
      by_cases same : d = c
      · subst same
        simp [hc_rest, free]
      · constructor
        · rintro (h | ⟨hd, notPending⟩)
          · exact absurd h same
          · exact ⟨hd, fun h => notPending (List.mem_cons_of_mem _ h)⟩
        · rintro ⟨hd, notPending⟩
          exact .inr ⟨hd, by simp [hothers d hd same, notPending]⟩
    · rw [(perm_enqueue c frontier.ready).nodup_iff]
      exact List.nodup_cons.2 ⟨absent, settled.nodup⟩
  · have held : c.index ∈ pending := List.count_pos_iff.1 (by omega)
    rw [if_neg last]
    refine ⟨settled.sub, settled.distinct, hwaiting, fun d => ?_, settled.nodup, settled.sorted,
      hwaits⟩
    rw [settled.mem_ready, List.mem_cons, not_or]
    constructor
    · rintro ⟨hd, -, notPending⟩
      exact ⟨hd, notPending⟩
    · rintro ⟨hd, notPending⟩
      exact ⟨hd, fun same => notPending (same ▸ held), notPending⟩

theorem Settled.foldl_release (numbered : Numbered commits) {parents : List CommitIndex}
    (isParent : ∀ p ∈ parents, p ∈ commits.flatMap (·.parents))
    (known : ∀ p ∈ parents, ∃ c ∈ commits, c.index = p)
    (settled : Settled commits rest (parents ++ pending) frontier) :
    Settled commits rest pending (parents.foldl (Frontier.release (table commits)) frontier) := by
  induction parents generalizing frontier with
  | nil => exact settled
  | cons p parents ih =>
    rw [List.foldl_cons]
    refine ih (fun q hq => isParent q (List.mem_cons_of_mem _ hq))
      (fun q hq => known q (List.mem_cons_of_mem _ hq)) ?_
    exact settled.release numbered (isParent p List.mem_cons_self) (known p List.mem_cons_self)

/-- The first commit of the queue comes; its links are still to be released. -/
theorem Settled.pop {c : GraphCommit} {queue : List GraphCommit}
    {waiting : Std.HashMap CommitIndex Nat}
    (settled : Settled commits (c :: rest) pending ⟨c :: queue, waiting⟩) :
    Settled commits rest pending ⟨queue, waiting⟩ := by
  obtain ⟨absent, distinct⟩ := List.nodup_cons.1 settled.distinct
  obtain ⟨notQueued, nodup⟩ := List.nodup_cons.1 settled.nodup
  have free : c.index ∉ pending := ((settled.mem_ready c).1 List.mem_cons_self).2
  refine ⟨fun d hd => settled.sub d (List.mem_cons_of_mem _ hd), distinct, settled.waiting,
    fun d => ?_, nodup, settled.sorted.of_cons, fun d hd h => ?_⟩
  · have hmem := settled.mem_ready d
    rw [List.mem_cons, List.mem_cons] at hmem
    constructor
    · intro h
      obtain ⟨hd, hfree⟩ := hmem.1 (.inr h)
      exact ⟨hd.resolve_left fun same => notQueued (same ▸ h), hfree⟩
    · rintro ⟨hd, hfree⟩
      exact (hmem.2 ⟨.inr hd, hfree⟩).resolve_left fun same => absent (same ▸ hd)
  · exact (List.mem_cons.1 (settled.waits d hd h)).resolve_left fun same => free (same ▸ h)

/-- The head of the queue is the first of the free commits; it comes next. -/
theorem Settled.first {c : GraphCommit} {queue : List GraphCommit}
    {waiting : Std.HashMap CommitIndex Nat}
    (settled : Settled commits rest (rest.flatMap (·.parents)) ⟨c :: queue, waiting⟩) :
    IsFree rest c ∧ (∀ d, IsFree rest d → c.goesBefore d = true) ∧
      Settled commits (rest.erase c) (c.parents ++ (rest.erase c).flatMap (·.parents))
        ⟨queue, waiting⟩ := by
  have hc : IsFree rest c := (settled.mem_ready_iff_isFree c).1 List.mem_cons_self
  have perm : rest.Perm (c :: rest.erase c) := List.perm_cons_erase hc.1
  refine ⟨hc, fun d hd => ?_, (settled.perm perm (perm.flatMap_right (·.parents))).pop⟩
  rcases List.mem_cons.1 ((settled.mem_ready_iff_isFree d).2 hd) with rfl | hd
  · exact (goesBefore_total d d).elim id id
  · exact (List.pairwise_cons.1 settled.sorted).1 d hd

theorem settled_start (numbered : Numbered commits) :
    Settled commits commits (commits.flatMap (·.parents)) (start commits) where
  sub c hc := hc
  distinct := numbered.nodup
  waiting p := getElem?_occurrences _ p
  mem_ready c := by
    have hcount : (childCounts commits).contains c.index = true ↔
        c.index ∈ commits.flatMap (·.parents) := contains_occurrences _ _
    simp only [start, (sorted_spec _).1.mem_iff, List.mem_filter, Bool.not_eq_true',
      Bool.eq_false_iff, ne_eq, hcount]
  nodup := (sorted_spec _).1.nodup_iff.2 (numbered.nodup.filter _)
  sorted := (sorted_spec _).2
  waits c hc _ := hc

/-- A run ends when no commit is free, and any greedy order of what it leaves continues it. -/
theorem run_spec (numbered : Numbered commits)
    (known : ∀ c ∈ commits, ∀ p ∈ c.parents, ∃ d ∈ commits, d.index = p) (count : Nat)
    (length : rest.length ≤ count)
    (settled : Settled commits rest (rest.flatMap (·.parents)) frontier) :
    ∃ left, rest.Perm (run (table commits) count frontier ++ left) ∧
      (∀ c, ¬ IsFree left c) ∧
      ∀ tail, tail.Perm left → GreedyOrder tail →
        GreedyOrder (run (table commits) count frontier ++ tail) := by
  induction count generalizing rest frontier with
  | zero =>
    obtain rfl : rest = [] := List.length_eq_zero_iff.1 (by omega)
    exact ⟨[], by simp [run], by simp [IsFree], fun tail _ greedy => by simpa [run] using greedy⟩
  | succ count ih =>
    obtain ⟨ready, waiting⟩ := frontier
    cases ready with
    | nil =>
      refine ⟨rest, by simp [run], fun c free => ?_, fun tail _ greedy => by simpa [run] using greedy⟩
      exact absurd ((settled.mem_ready_iff_isFree c).2 free) List.not_mem_nil
    | cons c queue =>
      obtain ⟨hc, first, popped⟩ := settled.first
      have perm : rest.Perm (c :: rest.erase c) := List.perm_cons_erase hc.1
      have hmem : c ∈ commits := settled.sub c hc.1
      have next := popped.foldl_release numbered
        (fun p hp => List.mem_flatMap.2 ⟨c, hmem, hp⟩) (known c hmem)
      have shorter : (rest.erase c).length ≤ count := by
        rw [List.length_erase_of_mem hc.1]
        omega
      obtain ⟨left, hperm, none, greedy⟩ := ih shorter next
      have hrun : run (table commits) (count + 1) ⟨c :: queue, waiting⟩ =
          c :: run (table commits) count
            (c.parents.foldl (Frontier.release (table commits)) ⟨queue, waiting⟩) := rfl
      rw [hrun]
      refine ⟨left, perm.trans (hperm.cons c), none, fun tail htail hgreedy => ?_⟩
      have same := isFree_congr (perm.trans ((hperm.trans (htail.symm.append_left _)).cons c))
      rw [List.cons_append]
      refine .next ?_ (fun d hd => first d ?_) (greedy tail htail hgreedy)
      · rwa [← same]
      · rwa [same]

end Frontier

/-! ## Permanent order -/

/-- Permanent order is greedy and has every commit once. -/
theorem permanentOrder_spec {commits : List GraphCommit} (numbered : Numbered commits)
    (known : ∀ c ∈ commits, ∀ p ∈ c.parents, ∃ d ∈ commits, d.index = p) :
    (permanentOrder commits).Perm commits ∧ GreedyOrder (permanentOrder commits) := by
  obtain ⟨left, perm, none, greedy⟩ := Frontier.run_spec numbered known commits.length le_rfl
    (Frontier.settled_start numbered)
  let ordered := (Frontier.start commits).run (table commits) commits.length
  have numbered' : Numbered (ordered ++ left) := numbered.perm perm.symm
  have absent : ∀ c ∈ left, ∀ d ∈ ordered, d.index ≠ c.index := by
    intro c hc d hd same
    rw [Numbered, List.map_append, List.nodup_append] at numbered'
    exact numbered'.2.2 d.index (List.mem_map_of_mem hd) c.index (List.mem_map_of_mem hc) same
  -- the commits that the run has not come to are those it has left
  have rest : (commits.filter fun c => !(table ordered).contains c.index).Perm left := by
    refine (perm.filter _).trans ?_
    rw [List.filter_append]
    have gone : (ordered.filter fun c => !(table ordered).contains c.index) = [] := by
      rw [List.filter_eq_nil_iff]
      intro c hc
      rw [Bool.not_eq_true', Bool.not_eq_false, contains_table]
      exact ⟨c, hc, rfl⟩
    have kept : (left.filter fun c => !(table ordered).contains c.index) = left := by
      rw [List.filter_eq_self]
      intro c hc
      rw [Bool.not_eq_true', Bool.eq_false_iff, ne_eq, contains_table]
      rintro ⟨d, hd, same⟩
      exact absent c hc d hd same
    rw [gone, kept, List.nil_append]
  obtain ⟨sortedPerm, sorted⟩ := sorted_spec (commits.filter fun c => !(table ordered).contains c.index)
  refine ⟨((sortedPerm.trans rest).append_left ordered).trans perm.symm,
    greedy _ (sortedPerm.trans rest) (.stuck (fun c => ?_) sorted)⟩
  rw [isFree_congr (sortedPerm.trans rest)]
  exact none c

end CommitLog
