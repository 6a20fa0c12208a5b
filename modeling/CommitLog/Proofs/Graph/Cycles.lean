import CommitLog.Proofs.Graph.Topological

/-!
# Topological order and cycles

Parents of commits may lead in a circle.  Permanent order keeps such commits, and so does a view by
date; topological order never comes to a row on a cycle, nor to one that a cycle leads to
(`BelowCycle`), and has all others (`mem_topologicalOrder`).  Whenever the stack of a `LineWalk` is
empty, every row that is left has a child that is left.

    rows differ → parents are rows → (i is a row of topologicalOrder rows ↔
      i is a row ∧ ¬ BelowCycle rows i)

So the two orders of a view show the same commits exactly when its rows have no cycle
(`PermanentGraph.rows_topological_iff`).
-/

namespace CommitLog

/-- The commit of a row and one of its parents. -/
def IsRowParent (rows : List VisibleRow) (child parent : CommitIndex) : Prop :=
  ∃ r ∈ rows, r.commit = child ∧ parent ∈ r.parents

/-- Rows lead from a cycle to the commit. -/
def BelowCycle (rows : List VisibleRow) (i : CommitIndex) : Prop :=
  ∃ j, Relation.TransGen (IsRowParent rows) j j ∧ Relation.ReflTransGen (IsRowParent rows) j i

variable {rows rest left : List VisibleRow} {i : CommitIndex}

/-- What children lead to only finitely often is below no cycle. -/
theorem not_belowCycle_of_acc (acc : Acc (IsRowParent rows) i) : ¬ BelowCycle rows i := by
  have irrefl (k : CommitIndex) (acc : Acc (Relation.TransGen (IsRowParent rows)) k) :
      ¬ Relation.TransGen (IsRowParent rows) k k :=
    acc.recOn fun k _ ih cycle => ih k cycle cycle
  rintro ⟨j, cycle, leads⟩
  have accCycle : Acc (Relation.TransGen (IsRowParent rows)) j := by
    induction leads with
    | refl => exact acc.transGen
    | tail _ link ih => exact ih (acc.inv link)
  exact irrefl j accCycle cycle

/-- When each of some rows is a parent of one of them, a cycle leads to them. -/
theorem belowCycle_of_children (sub : ∀ r ∈ left, r ∈ rows)
    (children : ∀ r ∈ left, r.commit ∈ left.flatMap (·.parents)) {r : VisibleRow} (mem : r ∈ left) :
    BelowCycle rows r.commit := by
  by_contra free
  -- otherwise some of the rows that lead to this one has no child that does
  let Above (s : VisibleRow) : Prop := Relation.ReflTransGen (IsRowParent rows) s.commit r.commit
  let up (a b : {s // s ∈ left ∧ Above s}) : Prop :=
    Relation.TransGen (IsRowParent rows) a.1.commit b.1.commit
  have : Finite {s // s ∈ left ∧ Above s} :=
    Set.Finite.to_subtype ((List.finite_toSet left).subset fun _ h => h.1)
  have : IsTrans _ up := ⟨fun _ _ _ => Relation.TransGen.trans⟩
  have : Std.Irrefl up := ⟨fun a cycle => free ⟨a.1.commit, cycle, a.2.2⟩⟩
  have wf : WellFounded up := Finite.wellFounded_of_trans_of_irrefl up
  obtain ⟨⟨top, htop, leads⟩, -, least⟩ := wf.has_min Set.univ ⟨⟨r, mem, .refl⟩, trivial⟩
  obtain ⟨child, hchild, parent⟩ := List.mem_flatMap.1 (children top htop)
  have link : IsRowParent rows child.commit top.commit := ⟨child, sub child hchild, rfl, parent⟩
  exact least ⟨child, hchild, leads.head link⟩ trivial (.single link)

namespace LineWalk

variable {pending : List CommitIndex} {walk : LineWalk}

/-- A run brings rows that children lead to only finitely often, and what it leaves are parents of
rows that it leaves. -/
theorem run_left (distinct : DistinctRows rows)
    (known : ∀ r ∈ rows, ∀ p ∈ r.parents, ∃ s ∈ rows, s.commit = p) (count : Nat)
    (length : rest.length ≤ count) (settled : Settled rows rest (rest.flatMap (·.parents)) walk)
    (come : ∀ r ∈ rows, r ∉ rest → Acc (IsRowParent rows) r.commit) :
    ∃ left, (run count walk ++ left).Perm rest ∧
      (∀ r ∈ left, r.commit ∈ left.flatMap (·.parents)) ∧
      ∀ r ∈ run count walk, Acc (IsRowParent rows) r.commit := by
  refine run_induction (P := fun rest _ run =>
      (∀ r ∈ rows, r ∉ rest → Acc (IsRowParent rows) r.commit) → ∃ left, (run ++ left).Perm rest ∧
        (∀ r ∈ left, r.commit ∈ left.flatMap (·.parents)) ∧
        ∀ r ∈ run, Acc (IsRowParent rows) r.commit) distinct known
    (fun rest walk settled empty _ => ?_) (fun rest row walk stack next below hrow free _ _ _ _ ih
      come => ?_) count length settled come
  · refine ⟨rest, .refl _, fun r mem => ?_, by simp⟩
    by_contra free
    have : r.commit ∈ walk.stack := (settled.mem_stack r.commit).2 ⟨⟨r, mem, rfl⟩, free⟩
    rw [empty] at this
    cases this
  · have perm : rest.Perm (row :: rest.erase row) := List.perm_cons_erase hrow
    -- all children of the row have come before it
    have acc : Acc (IsRowParent rows) row.commit := by
      refine .intro _ ?_
      rintro _ ⟨child, hchild, rfl, parent⟩
      exact come child hchild fun later => free (List.mem_flatMap.2 ⟨child, later, parent⟩)
    obtain ⟨left, hperm, children, all⟩ := ih fun r hr gone => by
      by_cases same : r = row
      · exact same ▸ acc
      · exact come r hr fun mem => gone ((List.mem_erase_of_ne same).2 mem)
    refine ⟨left, (hperm.cons row).trans perm.symm, children, fun r mem => ?_⟩
    rcases List.mem_cons.1 mem with rfl | mem
    · exact acc
    · exact all r mem

end LineWalk

/-- Topological order has the rows that no cycle leads to, once each. -/
theorem mem_topologicalOrder (distinct : DistinctRows rows)
    (known : ∀ r ∈ rows, ∀ p ∈ r.parents, ∃ s ∈ rows, s.commit = p) :
    DistinctRows (topologicalOrder rows) ∧
      ∀ r, r ∈ topologicalOrder rows ↔ r ∈ rows ∧ ¬ BelowCycle rows r.commit := by
  obtain ⟨left, perm, children, come⟩ := LineWalk.run_left distinct known rows.length le_rfl
    (LineWalk.settled_start distinct) fun r mem absent => absurd mem absent
  have both : DistinctRows (topologicalOrder rows ++ left) :=
    (perm.map _).nodup_iff.2 distinct
  refine ⟨both.sublist ((List.sublist_append_left _ _).map _), fun r => ⟨fun mem => ?_, ?_⟩⟩
  · exact ⟨perm.mem_iff.1 (List.mem_append_left _ mem), not_belowCycle_of_acc (come r mem)⟩
  · rintro ⟨mem, free⟩
    refine (List.mem_append.1 (perm.mem_iff.2 mem)).resolve_right fun isLeft => free ?_
    exact belowCycle_of_children (fun s hs => perm.mem_iff.1 (List.mem_append_right _ hs)) children
      isLeft

/-- No cycle leads anywhere when parents are later rows. -/
theorem not_belowCycle_of_parentsLater (distinct : DistinctRows rows) (later : ParentsLater rows) :
    ¬ BelowCycle rows i := by
  rintro ⟨j, cycle, -⟩
  obtain ⟨_, ⟨r, mem, rfl, -⟩, -⟩ := Relation.TransGen.head'_iff.1 cycle
  have sorted : r ∈ topologicalOrder rows := (topologicalOrder_spec distinct later).1.mem_iff.2 mem
  exact (((mem_topologicalOrder distinct later.known).2 r).1 sorted).2 ⟨r.commit, cycle, .refl⟩

namespace PermanentGraph

variable {graph : PermanentGraph}

/-- What holds of all the commits that a sweep has listed as parents or as nearest. -/
structure Sweep.Lists (p : CommitIndex → Prop) (sweep : Sweep) : Prop where
  parents : ∀ r ∈ sweep.rows, ∀ v ∈ r.parents, p v
  nearest : ∀ j, ∀ v ∈ sweep.nearest.getD j [], p v

/-- The parents that are gathered for a row are its visible ones and the nearest of the others. -/
theorem Sweep.Lists.gather {p : CommitIndex → Prop} {isVisible : CommitIndex → Bool}
    {sweep : Sweep} (lists : sweep.Lists p) (qs us : List CommitIndex)
    (parents : ∀ q ∈ qs, isVisible q = true → p q) (start : ∀ v ∈ us, p v) :
    ∀ v ∈ qs.foldl (fun us q =>
      addNew us (if isVisible q then [q] else sweep.nearest.getD q [])) us, p v := by
  induction qs generalizing us with
  | nil => exact start
  | cons q qs ih =>
    refine ih _ (fun q' h => parents q' (List.mem_cons_of_mem _ h)) fun v hv => ?_
    rcases mem_addNew.1 hv with hv | hv
    · exact start v hv
    · split at hv
      · next visible =>
        rw [List.mem_singleton.1 hv]
        exact parents q List.mem_cons_self visible
      · exact lists.nearest q v hv

/-- A sweep lists commits that it takes for visible. -/
theorem Sweep.Lists.add {p : CommitIndex → Prop} {isReached isVisible : CommitIndex → Bool}
    {sweep : Sweep} {c : GraphCommit} (lists : sweep.Lists p)
    (own : isVisible c.index = true → p c.index)
    (parents : ∀ q ∈ c.parents, isVisible q = true → p q) :
    (Sweep.add isReached isVisible c sweep).Lists p := by
  have gathered := lists.gather c.parents [] parents (by simp)
  have inserted {vs : List CommitIndex} (hvs : ∀ v ∈ vs, p v) :
      ∀ j, ∀ v ∈ (sweep.nearest.insert c.index vs).getD j [], p v := by
    intro j v hv
    rw [Std.HashMap.getD_insert] at hv
    split at hv
    · exact hvs v hv
    · exact lists.nearest j v hv
  unfold Sweep.add
  split
  · exact lists
  dsimp only
  split
  · next visible =>
    refine ⟨fun r hr => ?_, inserted fun v hv => ?_⟩
    · rcases List.mem_cons.1 hr with rfl | hr
      · exact gathered
      · exact lists.parents r hr
    · rw [List.mem_singleton.1 hv]
      exact own visible
  · exact ⟨lists.parents, inserted gathered⟩

/-- The parents of the rows of a view are rows of the view, whatever the order of the commits. -/
theorem known_visibleRows (wellFormed : graph.WellFormed) (heads commits : Option CommitSet) :
    ∀ r ∈ graph.visibleRows heads commits, ∀ p ∈ r.parents,
      ∃ s ∈ graph.visibleRows heads commits, s.commit = p := by
  obtain ⟨isReached, isVisible, -, -, hrows, hvisible⟩ := visibleRows_eq wellFormed heads commits
  have lists : ∀ rows : List GraphCommit, (∀ c ∈ rows, c ∈ graph.rows) →
      (rows.foldr (Sweep.add isReached isVisible) ⟨[], ∅⟩).Lists (graph.Shows heads commits) := by
    intro rows
    induction rows with
    | nil => exact fun _ => ⟨by simp, by simp⟩
    | cons c rows ih =>
      intro sub
      have hc := sub c List.mem_cons_self
      refine (ih fun d hd => sub d (List.mem_cons_of_mem _ hd)).add ?_ fun q hq visible => ?_
      · exact (hvisible c.index ⟨c, hc, rfl⟩).1
      · exact (hvisible q (wellFormed.known c hc q hq)).1 visible
  intro r hr p hp
  rw [hrows] at hr
  have shows := (lists graph.rows fun _ h => h).parents r hr p hp
  exact List.mem_map.1 (((map_commit_visibleRows wellFormed heads commits).2 p).2 shows)

/-- A view has the commits to be shown, once each; in topological order it lacks those that a cycle
of rows leads to. -/
theorem commits_visible_iff (wellFormed : graph.WellFormed) (sort : SortOrder)
    (heads commits : Option CommitSet) :
    (graph.visible sort heads commits).commits.Nodup ∧
      ∀ i, i ∈ (graph.visible sort heads commits).commits ↔ graph.Shows heads commits i ∧
        (sort = .topological → ¬ BelowCycle (graph.visible .date heads commits).rows i) := by
  obtain ⟨nodup, shows⟩ := commits_visible wellFormed (.inl rfl) heads commits
  cases sort with
  | date => exact ⟨nodup, fun i => by simp [shows i]⟩
  | topological =>
    obtain ⟨nodup', mem⟩ :=
      mem_topologicalOrder nodup (known_visibleRows wellFormed heads commits)
    refine ⟨nodup', fun i => ?_⟩
    rw [← shows i]
    constructor
    · intro h
      obtain ⟨r, hr, rfl⟩ := List.mem_map.1 h
      obtain ⟨known, free⟩ := (mem r).1 hr
      exact ⟨List.mem_map_of_mem known, fun _ => free⟩
    · rintro ⟨h, free⟩
      obtain ⟨r, known, rfl⟩ := List.mem_map.1 h
      exact List.mem_map_of_mem ((mem r).2 ⟨known, free rfl⟩)

/-- **Topological order shows the rows of the view by date that no cycle of its rows leads to**,
once each.  The orders show the same commits exactly when the rows by date have no cycle. -/
theorem rows_topological_iff (commits : List GraphCommit) (tips : List CommitIndex)
    (heads set : Option CommitSet) :
    let byDate := (ofCommits commits tips).visible .date heads set
    let byLine := (ofCommits commits tips).visible .topological heads set
    byLine.commits.Nodup ∧
      (∀ row, row ∈ byLine.rows ↔ row ∈ byDate.rows ∧ ¬ BelowCycle byDate.rows row.commit) ∧
      ((∀ i, i ∈ byLine.commits ↔ i ∈ byDate.commits) ↔
        ∀ i, ¬ Relation.TransGen (IsRowParent byDate.rows) i i) := by
  intro byDate byLine
  have wellFormed := wellFormed_ofCommits commits tips
  have distinct : byDate.commits.Nodup := (commits_visible_iff wellFormed .date heads set).1
  obtain ⟨nodup, mem⟩ := mem_topologicalOrder distinct (known_visibleRows wellFormed heads set)
  refine ⟨nodup, mem, fun same i cycle => ?_, fun acyclic i => ?_⟩
  · -- a commit on a cycle has a row by date, which is below the cycle
    obtain ⟨_, ⟨row, hrow, rfl, -⟩, -⟩ := Relation.TransGen.head'_iff.1 cycle
    obtain ⟨shown, hshown, commit⟩ :=
      List.mem_map.1 ((same row.commit).2 (List.mem_map_of_mem hrow))
    refine ((mem shown).1 hshown).2 ⟨row.commit, cycle, ?_⟩
    rw [commit]
  · have free (j : CommitIndex) : ¬ BelowCycle byDate.rows j :=
      fun ⟨k, cycle, _⟩ => acyclic k cycle
    constructor
    · intro h
      obtain ⟨row, hrow, rfl⟩ := List.mem_map.1 h
      exact List.mem_map_of_mem ((mem row).1 hrow).1
    · intro h
      obtain ⟨row, hrow, rfl⟩ := List.mem_map.1 h
      exact List.mem_map_of_mem ((mem row).2 ⟨hrow, free row.commit⟩)

/-- A commit that is its own parent has a row by date, and none in topological order. -/
theorem self_parent_lost :
    ¬ ∀ (commits : List GraphCommit) (tips : List CommitIndex) (heads set : Option CommitSet) (i),
      i ∈ ((ofCommits commits tips).visible .topological heads set).commits ↔
        i ∈ ((ofCommits commits tips).visible .date heads set).commits := by
  intro same
  have byDate : ((ofCommits [⟨0, [0], 5⟩] []).visible .date none none).commits = [0] := by
    decide +kernel
  have byLine : ((ofCommits [⟨0, [0], 5⟩] []).visible .topological none none).commits = [] := by
    decide +kernel
  have iff := same [⟨0, [0], 5⟩] [] none none 0
  rw [byDate, byLine] at iff
  exact List.not_mem_nil (iff.2 (List.mem_singleton_self 0))

end PermanentGraph

end CommitLog
