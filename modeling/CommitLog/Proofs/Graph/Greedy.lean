import CommitLog.Proofs.Graph.Permanent

/-!
# There is one permanent order

Commits have one greedy order only, so permanent order does not depend on the order in which the
commits are taken up.  `permanentOrder?` is the same computation with every step checked: it gives
nothing when a count is missing or would go below zero, when no commit has a number that is looked
up, or when the steps run out.  It never does.

    GreedyOrder a → GreedyOrder b → a.Perm b → a = b
    Numbered commits → parents known → permanentOrder? commits = some (permanentOrder commits)
-/

namespace CommitLog

namespace GraphCommit

/-! ## Greedy orders -/

theorem index_eq_of_goesBefore {a b : GraphCommit} (hab : a.goesBefore b = true)
    (hba : b.goesBefore a = true) : a.index = b.index := by
  rw [goesBefore_iff] at hab hba
  grind

/-- There is one way to put commits newest first. -/
theorem Numbered.eq_of_pairwise {a b : List GraphCommit} (numbered : Numbered a)
    (ha : a.Pairwise (·.goesBefore ·)) (hb : b.Pairwise (·.goesBefore ·)) (perm : a.Perm b) :
    a = b :=
  List.Perm.eq_of_pairwise (fun _ _ hc hd hcd hdc =>
    numbered.eq hc (perm.mem_iff.2 hd) (index_eq_of_goesBefore hcd hdc)) ha hb perm

/-- The greedy order of some commits is determined. -/
theorem GreedyOrder.unique {a b : List GraphCommit} (ha : GreedyOrder a) (hb : GreedyOrder b)
    (numbered : Numbered a) (perm : a.Perm b) : a = b := by
  induction ha generalizing b with
  | @next c rest free first _ ih =>
    have same := isFree_congr perm
    cases hb with
    | @next d rest' free' first' tail' =>
      -- both come first among the same free commits
      have hcd : c.goesBefore d = true := first d (by rw [same]; exact free')
      have hdc : d.goesBefore c = true := first' c (by rw [← same]; exact free)
      have hd : d ∈ c :: rest := perm.mem_iff.2 List.mem_cons_self
      obtain rfl : c = d :=
        numbered.eq List.mem_cons_self hd (index_eq_of_goesBefore hcd hdc)
      have below : Numbered rest := (List.nodup_cons.1 numbered).2
      rw [ih tail' below perm.cons_inv]
    | stuck none' _ => exact absurd (same ▸ free) (none' c)
  | @stuck rest none sorted =>
    have same := isFree_congr perm
    cases hb with
    | @next d _ free' _ _ => exact absurd (same ▸ free') (none d)
    | stuck _ sorted' => exact numbered.eq_of_pairwise sorted sorted' perm

/-! ### Histories without clock skew -/

/-- No parent goes before a child of it. -/
def ParentsFollow (commits : List GraphCommit) : Prop :=
  ∀ child ∈ commits, ∀ parent ∈ commits, parent.index ∈ child.parents →
    ¬ parent.goesBefore child = true

/-- When all parents follow their children anyway, the greedy order is newest first. -/
theorem GreedyOrder.pairwise {rows : List GraphCommit} (greedy : GreedyOrder rows)
    (follow : ParentsFollow rows) : rows.Pairwise (·.goesBefore ·) := by
  induction greedy with
  | @next c rest _ first _ ih =>
    have below : ParentsFollow rest := fun child hc parent hp =>
      follow child (List.mem_cons_of_mem _ hc) parent (List.mem_cons_of_mem _ hp)
    refine List.pairwise_cons.2 ⟨fun d hd => ?_, ih below⟩
    -- the newest of the commits has no child among them, for that would go before it
    obtain ⟨perm, sorted⟩ := sorted_spec (c :: rest)
    cases newest : GraphCommit.sorted (c :: rest) with
    | nil =>
      rw [newest] at perm
      cases perm.nil_eq
    | cons m others =>
      rw [newest] at perm sorted
      have least : ∀ e ∈ c :: rest, m.goesBefore e = true := by
        intro e he
        rcases List.mem_cons.1 (perm.mem_iff.2 he) with rfl | he
        · exact (goesBefore_total e e).elim id id
        · exact (List.pairwise_cons.1 sorted).1 e he
      have hm : m ∈ c :: rest := perm.mem_iff.1 List.mem_cons_self
      have free : IsFree (c :: rest) m := ⟨hm, fun e he link => follow e he m hm link (least e he)⟩
      exact goesBefore_trans (first m free) (least d (List.mem_cons_of_mem _ hd))
  | stuck _ sorted => exact sorted

/-- An order in which children come first can be newest first only then. -/
theorem ChildrenFirst.parentsFollow {rows : List GraphCommit} (ordered : ChildrenFirst rows)
    (numbered : Numbered rows) (sorted : rows.Pairwise (·.goesBefore ·)) : ParentsFollow rows := by
  intro child hchild parent hparent link before
  obtain ⟨i, hi, rfl⟩ := List.mem_iff_getElem.1 hchild
  obtain ⟨j, hj, rfl⟩ := List.mem_iff_getElem.1 hparent
  rcases lt_trichotomy i j with lt | rfl | lt
  · have after := List.pairwise_iff_getElem.1 sorted i j hi hj lt
    rw [numbered.eq hparent hchild (index_eq_of_goesBefore before after)] at link
    exact ordered.1 _ hchild link
  · exact ordered.1 _ hchild link
  · exact List.pairwise_iff_getElem.1 ordered.2 j i hj hi lt link

end GraphCommit

open GraphCommit

/-- Permanent order is the same in whatever order the commits are taken up. -/
theorem permanentOrder_congr {a b : List GraphCommit} (numbered : Numbered a)
    (known : ∀ c ∈ a, ∀ p ∈ c.parents, ∃ d ∈ a, d.index = p) (perm : b.Perm a) :
    permanentOrder b = permanentOrder a := by
  have known' : ∀ c ∈ b, ∀ p ∈ c.parents, ∃ d ∈ b, d.index = p := by
    intro c hc p hp
    obtain ⟨d, hd, same⟩ := known c (perm.mem_iff.1 hc) p hp
    exact ⟨d, perm.mem_iff.2 hd, same⟩
  obtain ⟨permA, greedyA⟩ := permanentOrder_spec numbered known
  obtain ⟨permB, greedyB⟩ := permanentOrder_spec (numbered.perm perm) known'
  exact greedyB.unique greedyA ((numbered.perm perm).perm permB)
    (permB.trans (perm.trans permA.symm))

/-! ## Checked steps -/

namespace Frontier

/-- `release`, as long as the number has a commit and a count above zero. -/
def release? (table : Std.HashMap CommitIndex GraphCommit) (frontier : Frontier)
    (parent : CommitIndex) : Option Frontier :=
  match frontier.waiting[parent]?, table[parent]? with
  | some (count + 1), some c =>
    let waiting := frontier.waiting.insert parent count
    some (if count = 0 then ⟨c.enqueue frontier.ready, waiting⟩ else ⟨frontier.ready, waiting⟩)
  | _, _ => none

/-- `run`, as long as every step is possible and the queue is empty in the end. -/
def run? (table : Std.HashMap CommitIndex GraphCommit) : Nat → Frontier → Option (List GraphCommit)
  | 0, frontier => if frontier.ready = [] then some [] else none
  | count + 1, frontier =>
    match frontier.ready with
    | [] => some []
    | c :: rest =>
      if table[c.index]? = some c then
        (c.parents.foldlM (release? table) ⟨rest, frontier.waiting⟩).bind fun next =>
          (run? table count next).map (c :: ·)
      else none

variable {commits rest : List GraphCommit} {pending : List CommitIndex} {frontier : Frontier}

/-- A link that is still to be released can be. -/
theorem Settled.release?_eq {p : CommitIndex} (numbered : Numbered commits)
    (isParent : p ∈ commits.flatMap (·.parents)) (known : ∃ c ∈ commits, c.index = p)
    (settled : Settled commits rest (p :: pending) frontier) :
    frontier.release? (table commits) p = some (frontier.release (table commits) p) := by
  obtain ⟨c, hc, rfl⟩ := known
  have hcount := settled.waiting_head isParent
  have htable := numbered.getElem?_table hc
  unfold Frontier.release? Frontier.release
  simp only [hcount, htable, Nat.add_sub_cancel]
  by_cases last : pending.count c.index = 0
  · simp [last]
  · simp [last]

theorem Settled.foldlM_release?_eq (numbered : Numbered commits) {parents : List CommitIndex}
    (isParent : ∀ p ∈ parents, p ∈ commits.flatMap (·.parents))
    (known : ∀ p ∈ parents, ∃ c ∈ commits, c.index = p)
    (settled : Settled commits rest (parents ++ pending) frontier) :
    parents.foldlM (Frontier.release? (table commits)) frontier =
      some (parents.foldl (Frontier.release (table commits)) frontier) := by
  induction parents generalizing frontier with
  | nil => rfl
  | cons p parents ih =>
    have first := settled.release?_eq numbered (isParent p List.mem_cons_self)
      (known p List.mem_cons_self)
    rw [List.foldlM_cons, List.foldl_cons, first]
    exact ih (fun q hq => isParent q (List.mem_cons_of_mem _ hq))
      (fun q hq => known q (List.mem_cons_of_mem _ hq))
      (settled.release numbered (isParent p List.mem_cons_self) (known p List.mem_cons_self))

/-- Every step of a run is possible. -/
theorem run?_eq (numbered : Numbered commits)
    (known : ∀ c ∈ commits, ∀ p ∈ c.parents, ∃ d ∈ commits, d.index = p) (count : Nat)
    (length : rest.length ≤ count)
    (settled : Settled commits rest (rest.flatMap (·.parents)) frontier) :
    run? (table commits) count frontier = some (run (table commits) count frontier) := by
  induction count generalizing rest frontier with
  | zero =>
    obtain rfl : rest = [] := List.length_eq_zero_iff.1 (by omega)
    have empty : frontier.ready = [] := by
      rw [List.eq_nil_iff_forall_not_mem]
      intro c hc
      exact List.not_mem_nil ((settled.mem_ready c).1 hc).1
    unfold run? run
    rw [if_pos empty]
  | succ count ih =>
    obtain ⟨ready, waiting⟩ := frontier
    cases ready with
    | nil => rfl
    | cons c queue =>
      obtain ⟨free, -, popped⟩ := settled.first
      have hc : c ∈ commits := settled.sub c free.1
      have isParent : ∀ p ∈ c.parents, p ∈ commits.flatMap (·.parents) := fun p hp =>
        List.mem_flatMap.2 ⟨c, hc, hp⟩
      have shorter : (rest.erase c).length ≤ count := by
        rw [List.length_erase_of_mem free.1]
        omega
      unfold run? run
      simp only [numbered.getElem?_table hc, if_true]
      rw [popped.foldlM_release?_eq numbered isParent (known c hc), Option.bind_some,
        ih shorter (popped.foldl_release numbered isParent (known c hc)), Option.map_some]

end Frontier

/-- `permanentOrder`, as long as every step is possible. -/
def permanentOrder? (commits : List GraphCommit) : Option (List GraphCommit) :=
  ((Frontier.start commits).run? (GraphCommit.table commits) commits.length).map fun ordered =>
    ordered ++ GraphCommit.sorted
      (commits.filter fun c => !(GraphCommit.table ordered).contains c.index)

theorem permanentOrder?_eq {commits : List GraphCommit} (numbered : Numbered commits)
    (known : ∀ c ∈ commits, ∀ p ∈ c.parents, ∃ d ∈ commits, d.index = p) :
    permanentOrder? commits = some (permanentOrder commits) := by
  unfold permanentOrder?
  rw [Frontier.run?_eq numbered known commits.length le_rfl (Frontier.settled_start numbered)]
  rfl

/-! ## The graph of some commits -/

namespace PermanentGraph

/-- The rows are the first commits of their numbers, with their known parents. -/
theorem mem_rows_ofCommits {commits : List GraphCommit} {heads : List CommitIndex}
    {c : GraphCommit} : c ∈ (ofCommits commits heads).rows ↔
      ∃ first, commits.find? (·.index == c.index) = some first ∧
        c = { first with parents := first.parents.filter fun p => commits.any (·.index == p) } := by
  obtain ⟨perm, -⟩ := rows_ofCommits commits heads
  have any : ∀ p, (distinct commits).any (·.index == p) = commits.any (·.index == p) := by
    intro p
    rw [← List.isSome_find?, ← List.isSome_find?, find?_distinct]
  rw [perm.mem_iff, mem_closeParents]
  simp only [any]
  constructor
  · rintro ⟨d, hd, rfl⟩
    refine ⟨d, ?_, rfl⟩
    rw [← find?_distinct]
    exact (numbered_distinct commits).find?.2 ⟨hd, rfl⟩
  · rintro ⟨first, found, hc⟩
    refine ⟨first, ?_, hc⟩
    rw [← find?_distinct] at found
    exact List.mem_of_find?_eq_some found

/-- The graph depends on the first commits of all numbers only. -/
theorem ofCommits_congr {a b : List GraphCommit}
    (same : ∀ n, b.find? (·.index == n) = a.find? (·.index == n)) (heads : List CommitIndex) :
    ofCommits b heads = ofCommits a heads := by
  have any : ∀ p, b.any (·.index == p) = a.any (·.index == p) := by
    intro p
    rw [← List.isSome_find?, ← List.isSome_find?, same]
  have numbered (commits : List GraphCommit) : Numbered (ofCommits commits heads).rows :=
    (wellFormed_ofCommits commits heads).numbered
  have perm : (ofCommits b heads).rows.Perm (ofCommits a heads).rows := by
    refine (List.perm_ext_iff_of_nodup (numbered b).nodup (numbered a).nodup).2 fun c => ?_
    simp only [mem_rows_ofCommits, same, any]
  have rows : (ofCommits b heads).rows = (ofCommits a heads).rows :=
    (rows_ofCommits b heads).2.unique (rows_ofCommits a heads).2 (numbered b) perm
  unfold ofCommits at rows ⊢
  dsimp only at rows ⊢
  rw [rows]

/-- **The graph of any commits has the first commit of every number, with its known parents, in
greedy order.**  Every step of the computation is possible, in whatever order the commits are taken
up, and the order of commits with different numbers makes no difference. -/
theorem ofCommits_greedy (commits : List GraphCommit) (heads : List CommitIndex) :
    let graph := ofCommits commits heads
    Numbered graph.rows ∧
    (∀ c, c ∈ graph.rows ↔ ∃ first, commits.find? (·.index == c.index) = some first ∧
      c = { first with parents := first.parents.filter fun p => commits.any (·.index == p) }) ∧
    GreedyOrder graph.rows ∧
    (∀ kept : List GraphCommit, kept.Perm (closeParents (distinct commits)) →
      permanentOrder? kept = some graph.rows) ∧
    ∀ given : List GraphCommit,
      (∀ n, given.filter (·.index == n) = commits.filter (·.index == n)) →
      ofCommits given heads = graph := by
  intro graph
  have numbered := numbered_closeParents (numbered_distinct commits)
  have known : ∀ c ∈ closeParents (distinct commits), ∀ p ∈ c.parents,
      ∃ d ∈ closeParents (distinct commits), d.index = p :=
    fun _ hc _ hp => known_closeParents hc hp
  refine ⟨(wellFormed_ofCommits commits heads).numbered, fun c => mem_rows_ofCommits,
    (rows_ofCommits commits heads).2, ?_, ?_⟩
  · intro kept perm
    have known' : ∀ c ∈ kept, ∀ p ∈ c.parents, ∃ d ∈ kept, d.index = p := by
      intro c hc p hp
      obtain ⟨d, hd, same⟩ := known c (perm.mem_iff.1 hc) p hp
      exact ⟨d, perm.mem_iff.2 hd, same⟩
    rw [permanentOrder?_eq (numbered.perm perm) known', permanentOrder_congr numbered known perm]
    rfl
  · intro given same
    refine ofCommits_congr (fun n => ?_) heads
    rw [← List.head?_filter, ← List.head?_filter, same]

/-- A commit given twice, one with a repeated and a dangling parent, one that is its own parent and
two on a cycle, also taken up the other way round. -/
theorem ofCommits_greedy_cycle :
    permanentOrder? [⟨7, [6], 3⟩, ⟨6, [7], 3⟩, ⟨2, [], 8⟩, ⟨1, [2, 1], 7⟩, ⟨4, [1, 1], 5⟩] =
      some (ofCommits [⟨4, [1, 1, 9], 5⟩, ⟨1, [2, 1], 7⟩, ⟨4, [], 9⟩, ⟨2, [], 8⟩, ⟨6, [7], 3⟩,
        ⟨7, [6], 3⟩] [4]).rows ∧
    ofCommits [⟨7, [6], 3⟩, ⟨6, [7], 3⟩, ⟨2, [], 8⟩, ⟨4, [1, 1, 9], 5⟩, ⟨4, [], 9⟩,
        ⟨1, [2, 1], 7⟩] [4] =
      ofCommits [⟨4, [1, 1, 9], 5⟩, ⟨1, [2, 1], 7⟩, ⟨4, [], 9⟩, ⟨2, [], 8⟩, ⟨6, [7], 3⟩,
        ⟨7, [6], 3⟩] [4] := by
  obtain ⟨-, -, -, steps, order⟩ := ofCommits_greedy [⟨4, [1, 1, 9], 5⟩, ⟨1, [2, 1], 7⟩,
    ⟨4, [], 9⟩, ⟨2, [], 8⟩, ⟨6, [7], 3⟩, ⟨7, [6], 3⟩] [4]
  have kept : closeParents (distinct [⟨4, [1, 1, 9], 5⟩, ⟨1, [2, 1], 7⟩, ⟨4, [], 9⟩, ⟨2, [], 8⟩,
      ⟨6, [7], 3⟩, ⟨7, [6], 3⟩]) =
      [⟨4, [1, 1], 5⟩, ⟨1, [2, 1], 7⟩, ⟨2, [], 8⟩, ⟨6, [7], 3⟩, ⟨7, [6], 3⟩] := by
    simp [closeParents, distinct, keep, table]
  refine ⟨steps _ (kept ▸ by decide), order _ fun n => ?_⟩
  simp only [List.filter_cons, List.filter_nil]
  grind

end PermanentGraph

end CommitLog
