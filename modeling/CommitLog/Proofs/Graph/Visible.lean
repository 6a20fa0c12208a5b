import CommitLog.Proofs.Graph.Reachability

/-!
# What a view shows

A view lists the commits that are to be shown as a subsequence of permanent order.  The parents of a
row are what the depth-first expansion of its hidden parents gives (`Expands`), without repetitions:
the shown commits that a chain of hidden ones leads to (`Bridge`).  One pass from the last row to
the first carries this (`Sweep.Covers`), since the parents of a row are later rows.

    Acyclic commits → IsView (ofCommits commits tips) heads set (visible … .date heads set)
-/

namespace CommitLog

open GraphCommit

def ParentsLater (rows : List VisibleRow) : Prop :=
  ∀ above row below, rows = above ++ row :: below → ∀ v ∈ row.parents, ∃ r ∈ below, r.commit = v

theorem parentsLater_nil : ParentsLater [] := by
  intro above row below split
  simp at split

theorem parentsLater_cons {row : VisibleRow} {rest : List VisibleRow} :
    ParentsLater (row :: rest) ↔
      (∀ v ∈ row.parents, ∃ r ∈ rest, r.commit = v) ∧ ParentsLater rest := by
  constructor
  · intro later
    refine ⟨later [] row rest rfl, fun above r below split => ?_⟩
    exact later (row :: above) r below (by rw [split, List.cons_append])
  · rintro ⟨first, later⟩ above r below split
    rcases above with _ | ⟨_, above⟩
    · obtain ⟨rfl, rfl⟩ := List.cons.inj split
      exact first
    · exact later above r below (List.cons.inj split).2

theorem ParentsLater.known {rows : List VisibleRow} (later : ParentsLater rows) :
    ∀ row ∈ rows, ∀ v ∈ row.parents, ∃ r ∈ rows, r.commit = v := by
  intro row hrow v hv
  obtain ⟨above, below, rfl⟩ := List.append_of_mem hrow
  obtain ⟨r, hr, same⟩ := later above row below rfl v hv
  exact ⟨r, by simp [hr], same⟩

/-- The only row there is has no parents. -/
theorem ParentsLater.eq_singleton {rows : List VisibleRow} (later : ParentsLater rows)
    {i : CommitIndex} (single : rows.map (·.commit) = [i]) : rows = [⟨i, []⟩] := by
  obtain ⟨row, rfl, rfl⟩ := List.map_eq_singleton_iff.1 single
  have none := (parentsLater_cons.1 later).1
  obtain ⟨commit, parents⟩ := row
  have empty : parents = [] := List.eq_nil_iff_forall_not_mem.2 fun v mem => by
    obtain ⟨r, hr, -⟩ := none v mem
    exact List.not_mem_nil hr
  rw [empty]

namespace PermanentGraph

/-- The commits to be shown: some head leads to them and they belong to the set.  A missing set is
no constraint. -/
def Shows (graph : PermanentGraph) (heads commits : Option CommitSet) (i : CommitIndex) : Prop :=
  (∃ c ∈ graph.rows, c.index = i) ∧ (∀ hs, heads = some hs → ∃ h ∈ hs, graph.Leads h i) ∧
    ∀ set, commits = some set → i ∈ set

/-- A chain of links from a commit through hidden commits only. -/
inductive Bridge (graph : PermanentGraph) (shown : CommitIndex → Prop) :
    CommitIndex → CommitIndex → Prop
  | link {c p : CommitIndex} : p ∈ graph.parents c → Bridge graph shown c p
  | through {c p v : CommitIndex} :
      p ∈ graph.parents c → ¬ shown p → Bridge graph shown p v → Bridge graph shown c v

/-- Replaces every hidden commit of a list by its parents, depth first, until only shown commits are
left. -/
inductive Expands (graph : PermanentGraph) (shown : CommitIndex → Prop) :
    List CommitIndex → List CommitIndex → Prop
  | nil : Expands graph shown [] []
  | shown {p : CommitIndex} {rest vs : List CommitIndex} :
      shown p → Expands graph shown rest vs → Expands graph shown (p :: rest) (p :: vs)
  | hidden {p : CommitIndex} {rest us vs : List CommitIndex} :
      ¬ shown p → Expands graph shown (graph.parents p) us → Expands graph shown rest vs →
      Expands graph shown (p :: rest) (us ++ vs)

/-- What a view of a graph is. -/
structure IsView (graph : PermanentGraph) (heads commits : Option CommitSet)
    (view : VisibleGraph) : Prop where
  order : view.commits.Sublist (graph.rows.map (·.index))
  nodup : view.commits.Nodup
  mem_commits : ∀ i, i ∈ view.commits ↔ graph.Shows heads commits i
  nodup_parents : ∀ row ∈ view.rows, row.parents.Nodup
  mem_parents : ∀ row ∈ view.rows, ∀ v,
    v ∈ row.parents ↔ v ∈ view.commits ∧ graph.Bridge (· ∈ view.commits) row.commit v
  /-- The parents stand in the order in which the expansion first meets them. -/
  expansion : ∀ row ∈ view.rows, ∃ vs,
    graph.Expands (· ∈ view.commits) (graph.parents row.commit) vs ∧ row.parents = vs.eraseDups
  parents_later : ParentsLater view.rows
  rowOf_iff : ∀ i n, view.rowOf? i = some n ↔ view.commitAt? n = some i

/-! ## Expansions -/

variable {graph : PermanentGraph} {shown : CommitIndex → Prop}

theorem bridge_iff {c v : CommitIndex} : graph.Bridge shown c v ↔
    ∃ p ∈ graph.parents c, p = v ∨ (¬ shown p ∧ graph.Bridge shown p v) := by
  constructor
  · rintro (hp | ⟨hp, hidden, bridge⟩)
    · exact ⟨_, hp, .inl rfl⟩
    · exact ⟨_, hp, .inr ⟨hidden, bridge⟩⟩
  · rintro ⟨p, hp, rfl | ⟨hidden, bridge⟩⟩
    · exact .link hp
    · exact .through hp hidden bridge

theorem Expands.mem_iff {ps vs : List CommitIndex} (expands : graph.Expands shown ps vs)
    (v : CommitIndex) :
    v ∈ vs ↔ shown v ∧ ∃ p ∈ ps, p = v ∨ (¬ shown p ∧ graph.Bridge shown p v) := by
  induction expands with
  | nil => simp
  | @shown p rest vs hp _ ih =>
    rw [List.mem_cons, ih]
    constructor
    · rintro (rfl | ⟨hv, q, hq, h⟩)
      · exact ⟨hp, v, List.mem_cons_self, .inl rfl⟩
      · exact ⟨hv, q, List.mem_cons_of_mem _ hq, h⟩
    · rintro ⟨hv, q, hq, h⟩
      rcases List.mem_cons.1 hq with rfl | hq
      · exact .inl (h.resolve_right fun hidden => hidden.1 hp).symm
      · exact .inr ⟨hv, q, hq, h⟩
  | @hidden p rest us vs hp _ _ ihParents ih =>
    rw [List.mem_append, ihParents, ih, ← bridge_iff]
    constructor
    · rintro (⟨hv, bridge⟩ | ⟨hv, q, hq, h⟩)
      · exact ⟨hv, p, List.mem_cons_self, .inr ⟨hp, bridge⟩⟩
      · exact ⟨hv, q, List.mem_cons_of_mem _ hq, h⟩
    · rintro ⟨hv, q, hq, h⟩
      rcases List.mem_cons.1 hq with rfl | hq
      · rcases h with rfl | ⟨-, bridge⟩
        · exact absurd hv hp
        · exact .inl ⟨hv, bridge⟩
      · exact .inr ⟨hv, q, hq, h⟩

/-- There is only one expansion. -/
theorem Expands.unique {ps us vs : List CommitIndex} (hus : graph.Expands shown ps us)
    (hvs : graph.Expands shown ps vs) : us = vs := by
  induction hus generalizing vs with
  | nil => cases hvs; rfl
  | shown hp _ ih =>
    cases hvs with
    | shown _ rest => rw [ih rest]
    | hidden hidden => exact absurd hp hidden
  | hidden hp _ _ ihParents ih =>
    cases hvs with
    | shown hp' => exact absurd hp' hp
    | hidden _ parents rest => rw [ihParents parents, ih rest]

/-- An expansion looks at rows only. -/
theorem Expands.congr (wellFormed : graph.WellFormed) {shown' : CommitIndex → Prop}
    (same : ∀ i, (∃ c ∈ graph.rows, c.index = i) → (shown i ↔ shown' i)) {ps vs : List CommitIndex}
    (expands : graph.Expands shown ps vs) (known : ∀ p ∈ ps, ∃ c ∈ graph.rows, c.index = p) :
    graph.Expands shown' ps vs := by
  induction expands with
  | nil => exact .nil
  | @shown p _ _ hp _ ih =>
    exact .shown ((same p (known p List.mem_cons_self)).1 hp)
      (ih fun q hq => known q (List.mem_cons_of_mem _ hq))
  | @hidden p _ _ _ hp _ _ ihParents ih =>
    exact .hidden (fun hp' => hp ((same p (known p List.mem_cons_self)).2 hp'))
      (ihParents fun q hq => wellFormed.known_parent hq)
      (ih fun q hq => known q (List.mem_cons_of_mem _ hq))

/-! ## Lists without repetitions -/

theorem addNew_cons (ps : List CommitIndex) (c : CommitIndex) (cs : List CommitIndex) :
    addNew ps (c :: cs) = addNew (if ps.contains c then ps else ps ++ [c]) cs := rfl

theorem mem_addNew {ps cs : List CommitIndex} {v : CommitIndex} :
    v ∈ addNew ps cs ↔ v ∈ ps ∨ v ∈ cs := by
  induction cs generalizing ps with
  | nil => simp [addNew]
  | cons c cs ih =>
    rw [addNew_cons, ih, List.mem_cons]
    split
    · next known =>
      have := List.contains_iff_mem.1 known
      constructor
      · exact Or.imp_right .inr
      · rintro (h | rfl | h)
        · exact .inl h
        · exact .inl this
        · exact .inr h
    · rw [List.mem_append, List.mem_singleton, or_assoc]

theorem nodup_addNew {ps : List CommitIndex} (nodup : ps.Nodup) (cs : List CommitIndex) :
    (addNew ps cs).Nodup := by
  induction cs generalizing ps with
  | nil => exact nodup
  | cons c cs ih =>
    rw [addNew_cons]
    split
    · exact ih nodup
    · next fresh =>
      have added : (c :: ps).Nodup := List.nodup_cons.2 ⟨by simpa using fresh, nodup⟩
      exact ih ((List.perm_append_singleton c ps).nodup_iff.2 added)

/-- The candidates before which nothing has been added are added once each. -/
theorem addNew_eq (ps cs : List CommitIndex) :
    addNew ps cs = ps ++ (cs.removeAll ps).eraseDups := by
  induction cs generalizing ps with
  | nil => simp [addNew, List.removeAll]
  | cons c cs ih =>
    rw [addNew_cons]
    split
    · next known =>
      rw [ih, List.cons_removeAll, if_neg (by simpa using known)]
    · next fresh =>
      rw [ih, List.cons_removeAll, if_pos (by simpa using fresh), List.eraseDups_cons,
        List.append_assoc, List.singleton_append]
      congr 3
      simp only [List.removeAll, List.filter_filter]
      refine List.filter_congr fun d _ => ?_
      by_cases same : d = c <;> simp [same]

theorem nodup_eraseDups (cs : List CommitIndex) : cs.eraseDups.Nodup := by
  have := nodup_addNew .nil cs
  rwa [addNew_eq, List.nil_append, List.removeAll_nil] at this

theorem addNew_append (ps xs ys : List CommitIndex) :
    addNew ps (xs ++ ys) = addNew (addNew ps xs) ys :=
  List.foldl_append

theorem addNew_addNew (ps xs ys : List CommitIndex) :
    addNew ps (addNew xs ys) = addNew (addNew ps xs) ys := by
  induction ys generalizing xs with
  | nil => rfl
  | cons y ys ih =>
    rw [addNew_cons, ih, addNew_cons]
    congr 1
    by_cases known : y ∈ xs
    · have : y ∈ addNew ps xs := mem_addNew.2 (.inr known)
      simp [known, this]
    · simp [known, addNew]

/-- Lists may be rid of their repetitions before one is added to the other. -/
theorem addNew_eraseDups (xs ys : List CommitIndex) :
    addNew xs.eraseDups ys.eraseDups = (xs ++ ys).eraseDups := by
  have key (zs : List CommitIndex) : zs.eraseDups = addNew [] zs := by
    rw [addNew_eq, List.nil_append, List.removeAll_nil]
  rw [key, key, key, addNew_addNew, addNew_append]
  rfl

/-! ## The sweep -/

/-- What has been gathered from some of the rows. -/
structure Sweep.Covers (graph : PermanentGraph) (isReached isVisible : CommitIndex → Bool)
    (rows : List GraphCommit) (sweep : Sweep) : Prop where
  closed : ∀ c ∈ rows, ∀ p ∈ graph.parents c.index, ∃ d ∈ rows, d.index = p
  commits : sweep.rows.map (·.commit) = (rows.map (·.index)).filter isVisible
  expansion : ∀ row ∈ sweep.rows, ∃ vs,
    graph.Expands (isVisible ·) (graph.parents row.commit) vs ∧ row.parents = vs.eraseDups
  parents_later : ParentsLater sweep.rows
  nearest : ∀ c ∈ rows, isReached c.index = true → isVisible c.index = false → ∃ vs,
    graph.Expands (isVisible ·) (graph.parents c.index) vs ∧
      sweep.nearest.getD c.index [] = vs.eraseDups

variable {isReached isVisible : CommitIndex → Bool} {rows : List GraphCommit} {sweep : Sweep}

/-- Whatever the order of the rows, the sweep keeps the visible ones. -/
theorem Sweep.map_commit_foldr (sub : ∀ i, isVisible i = true → isReached i = true) :
    (rows.foldr (Sweep.add isReached isVisible) ⟨[], ∅⟩).rows.map (·.commit) =
      (rows.map (·.index)).filter isVisible := by
  induction rows with
  | nil => rfl
  | cons c rows ih =>
    rw [List.foldr_cons, List.map_cons, List.filter_cons, ← ih]
    unfold Sweep.add
    by_cases visible : isVisible c.index = true
    · simp [sub c.index visible, visible]
    · by_cases reached : isReached c.index = true <;> simp [reached, visible]

/-- A chain of links does not leave the rows. -/
theorem Sweep.Covers.known_of_bridge (covers : Sweep.Covers graph isReached isVisible rows sweep)
    {p v : CommitIndex} (bridge : graph.Bridge shown p v) (known : ∃ c ∈ rows, c.index = p) :
    ∃ d ∈ rows, d.index = v := by
  induction bridge with
  | link hp =>
    obtain ⟨c, hc, rfl⟩ := known
    exact covers.closed c hc _ hp
  | through hp _ _ ih =>
    obtain ⟨c, hc, rfl⟩ := known
    exact ih (covers.closed c hc _ hp)

theorem Sweep.Covers.mem_commits (covers : Sweep.Covers graph isReached isVisible rows sweep)
    {v : CommitIndex} :
    (∃ r ∈ sweep.rows, r.commit = v) ↔ (∃ c ∈ rows, c.index = v) ∧ isVisible v = true := by
  rw [← List.mem_map, ← List.mem_map, covers.commits, List.mem_filter]

/-- The parents of a row are gathered from the rows below. -/
theorem Sweep.Covers.gather (covers : Sweep.Covers graph isReached isVisible rows sweep)
    (ps : List CommitIndex) (known : ∀ p ∈ ps, ∃ c ∈ rows, c.index = p)
    (reached : ∀ p ∈ ps, isReached p = true) :
    ∃ vs, graph.Expands (isVisible ·) ps vs ∧ ps.foldl (fun ps p =>
      addNew ps (if isVisible p then [p] else sweep.nearest.getD p [])) [] = vs.eraseDups := by
  -- what has been gathered so far is the expansion of the first parents
  have run : ∀ ps us : List CommitIndex, (∀ p ∈ ps, ∃ c ∈ rows, c.index = p) →
      (∀ p ∈ ps, isReached p = true) → ∃ vs, graph.Expands (isVisible ·) ps vs ∧
        ps.foldl (fun ps p =>
          addNew ps (if isVisible p then [p] else sweep.nearest.getD p [])) us.eraseDups =
            (us ++ vs).eraseDups := by
    intro ps
    induction ps with
    | nil => exact fun us _ _ => ⟨[], .nil, by simp⟩
    | cons p ps ih =>
      intro us known reached
      obtain ⟨ws, first, hws⟩ : ∃ ws, (∀ vs, graph.Expands (isVisible ·) ps vs →
          graph.Expands (isVisible ·) (p :: ps) (ws ++ vs)) ∧
          (if isVisible p then [p] else sweep.nearest.getD p []) = ws.eraseDups := by
        by_cases visible : isVisible p = true
        · exact ⟨[p], fun vs h => .shown visible h, by simp [visible, List.eraseDups_cons]⟩
        · obtain ⟨c, hc, rfl⟩ := known p List.mem_cons_self
          obtain ⟨ws, expands, hws⟩ :=
            covers.nearest c hc (reached c.index List.mem_cons_self) (by simpa using visible)
          exact ⟨ws, fun vs h => .hidden visible expands h, by rw [if_neg visible, hws]⟩
      obtain ⟨vs, rest, hvs⟩ := ih (us ++ ws) (fun q hq => known q (List.mem_cons_of_mem _ hq))
        fun q hq => reached q (List.mem_cons_of_mem _ hq)
      refine ⟨ws ++ vs, first vs rest, ?_⟩
      rw [List.foldl_cons, hws, addNew_eraseDups, hvs, List.append_assoc]
  obtain ⟨vs, expands, hvs⟩ := run ps [] known reached
  exact ⟨vs, expands, hvs⟩

theorem Sweep.Covers.add (covers : Sweep.Covers graph isReached isVisible rows sweep)
    {c : GraphCommit} (sub : ∀ i, isVisible i = true → isReached i = true)
    (fresh : ∀ d ∈ rows, d.index ≠ c.index) (own : graph.parents c.index = c.parents)
    (known : ∀ p ∈ c.parents, ∃ d ∈ rows, d.index = p)
    (reached : isReached c.index = true → ∀ p ∈ c.parents, isReached p = true) :
    Sweep.Covers graph isReached isVisible (c :: rows) (Sweep.add isReached isVisible c sweep) := by
  have closed : ∀ d ∈ c :: rows, ∀ p ∈ graph.parents d.index, ∃ e ∈ c :: rows, e.index = p := by
    intro d hd p hp
    obtain ⟨e, he, same⟩ : ∃ e ∈ rows, e.index = p := by
      rcases List.mem_cons.1 hd with rfl | hd
      · exact known p (own ▸ hp)
      · exact covers.closed d hd p hp
    exact ⟨e, List.mem_cons_of_mem _ he, same⟩
  unfold Sweep.add
  by_cases hc : isReached c.index = true
  swap
  · have hidden : isVisible c.index = false := by
      rw [← Bool.not_eq_true]
      exact fun visible => hc (sub _ visible)
    rw [if_pos (by simp [hc])]
    refine ⟨closed, ?_, covers.expansion, covers.parents_later, fun d hd hd' => ?_⟩
    · rw [covers.commits, List.map_cons, List.filter_cons_of_neg (by simp [hidden])]
    · rcases List.mem_cons.1 hd with rfl | hd
      · exact absurd hd' hc
      · exact covers.nearest d hd hd'
  rw [if_neg (by simp [hc])]
  obtain ⟨vs, expands, hvs⟩ := covers.gather c.parents known (reached hc)
  rw [← own] at expands
  have others : ∀ d ∈ rows, ∀ ns : List CommitIndex,
      (sweep.nearest.insert c.index ns).getD d.index [] = sweep.nearest.getD d.index [] := by
    intro d hd ns
    rw [Std.HashMap.getD_insert]
    simp [Ne.symm (fresh d hd)]
  simp only [hvs]
  by_cases visible : isVisible c.index = true
  · rw [if_pos visible]
    refine ⟨closed, ?_, ?_, ?_, ?_⟩
    · simp [covers.commits, visible]
    · intro row hrow
      rcases List.mem_cons.1 hrow with rfl | hrow
      · exact ⟨vs, expands, rfl⟩
      · exact covers.expansion row hrow
    · refine parentsLater_cons.2 ⟨fun v hv => ?_, covers.parents_later⟩
      obtain ⟨visible, p, hp, h⟩ := (expands.mem_iff v).1 (List.mem_eraseDups.1 hv)
      refine covers.mem_commits.2 ⟨?_, visible⟩
      rcases h with rfl | ⟨-, bridge⟩
      · exact known p (own ▸ hp)
      · exact covers.known_of_bridge bridge (known p (own ▸ hp))
    · intro d hd hd' hidden
      rcases List.mem_cons.1 hd with rfl | hd
      · rw [visible] at hidden; cases hidden
      · obtain ⟨us, hus⟩ := covers.nearest d hd hd' hidden
        exact ⟨us, by rwa [others d hd]⟩
  · rw [if_neg visible]
    refine ⟨closed, ?_, covers.expansion, covers.parents_later, fun d hd hd' hidden => ?_⟩
    · simp [covers.commits, visible]
    · rcases List.mem_cons.1 hd with rfl | hd
      · exact ⟨vs, expands, by simp⟩
      · obtain ⟨us, hus⟩ := covers.nearest d hd hd' hidden
        exact ⟨us, by rwa [others d hd]⟩

/-- The sweep over all rows. -/
theorem Sweep.covers_foldr (wellFormed : graph.WellFormed) (ordered : ChildrenFirst graph.rows)
    (sub : ∀ i, isVisible i = true → isReached i = true)
    (reached : ∀ i, isReached i = true → ∀ p ∈ graph.parents i, isReached p = true) :
    Sweep.Covers graph isReached isVisible graph.rows
      (graph.rows.foldr (Sweep.add isReached isVisible) ⟨[], ∅⟩) := by
  have run : ∀ below above, graph.rows = above ++ below →
      Sweep.Covers graph isReached isVisible below
        (below.foldr (Sweep.add isReached isVisible) ⟨[], ∅⟩) := by
    intro below
    induction below with
    | nil => exact fun _ _ => ⟨by simp, by simp, by simp, parentsLater_nil, by simp⟩
    | cons c below ih =>
      intro above split
      have covers := ih (above ++ [c]) (by simpa using split)
      have hc : c ∈ graph.rows := by simp [split]
      have own := wellFormed.parents hc
      have hnodup : (graph.rows.map (·.index)).Nodup := wellFormed.numbered
      have horder := ordered.2
      rw [split, List.pairwise_append] at horder
      rw [split, List.map_append, List.map_cons, List.nodup_append, List.nodup_cons] at hnodup
      refine covers.add sub (fun d hd same => ?_) own (fun p hp => ?_) fun h p hp => ?_
      · exact hnodup.2.1.1 (same ▸ List.mem_map_of_mem hd)
      · obtain ⟨d, hd, rfl⟩ := wellFormed.known c hc p hp
        rw [split, List.mem_append, List.mem_cons] at hd
        rcases hd with hd | rfl | hd
        · exact absurd hp (horder.2.2 d hd c List.mem_cons_self)
        · exact absurd hp (ordered.1 d hc)
        · exact ⟨d, hd, rfl⟩
      · exact reached c.index h p (own ▸ hp)
  exact run graph.rows [] rfl

/-! ## Rows and commits -/

theorem rowOf?_eq_some {view : VisibleGraph} (nodup : view.commits.Nodup) (i : CommitIndex)
    (n : Nat) : view.rowOf? i = some n ↔ view.commitAt? n = some i := by
  have rowOf_eq : view.rowOf? i =
      (view.commits.zipIdx.reverse.find? fun pair => pair.1 == i).map (·.2) := rfl
  simp only [rowOf_eq, VisibleGraph.commitAt?, Option.map_eq_some_iff]
  constructor
  · rintro ⟨⟨c, m⟩, found, rfl⟩
    have mem := List.mem_reverse.1 (List.mem_of_find?_eq_some found)
    have same : c = i := by simpa using List.find?_some found
    exact same ▸ List.mk_mem_zipIdx_iff_getElem?.1 mem
  · intro at_n
    have mem : (i, n) ∈ view.commits.zipIdx.reverse :=
      List.mem_reverse.2 (List.mk_mem_zipIdx_iff_getElem?.2 at_n)
    cases found : view.commits.zipIdx.reverse.find? fun pair => pair.1 == i with
    | none => exact absurd (List.find?_eq_none.1 found _ mem) (by simp)
    | some q =>
      obtain ⟨c, m⟩ := q
      have same : c = i := by simpa using List.find?_some found
      have at_m := List.mk_mem_zipIdx_iff_getElem?.1
        (List.mem_reverse.1 (List.mem_of_find?_eq_some found))
      obtain ⟨hm, -⟩ := List.getElem?_eq_some_iff.1 at_m
      exact ⟨(c, m), rfl, (List.getElem?_inj hm nodup).1 (by rw [at_m, at_n, same])⟩

/-! ## Views -/

/-- The sweep that makes a view, and what it takes for reached and for visible. -/
theorem visibleRows_eq (wellFormed : graph.WellFormed) (heads commits : Option CommitSet) :
    ∃ isReached isVisible : CommitIndex → Bool, (∀ i, isVisible i = true → isReached i = true) ∧
      (∀ i, isReached i = true → ∀ p ∈ graph.parents i, isReached p = true) ∧
      graph.visibleRows heads commits =
        (graph.rows.foldr (Sweep.add isReached isVisible) ⟨[], ∅⟩).rows ∧
      ∀ i, (∃ c ∈ graph.rows, c.index = i) →
        (isVisible i = true ↔ graph.Shows heads commits i) := by
  let isReached : CommitIndex → Bool :=
    heads.elim (fun _ => true) fun heads => (graph.reachable heads).contains
  let isVisible (i : CommitIndex) : Bool := isReached i && commits.all (·.contains i)
  have reached : ∀ i, (∃ c ∈ graph.rows, c.index = i) →
      (isReached i = true ↔ ∀ hs, heads = some hs → ∃ h ∈ hs, graph.Leads h i) := by
    intro i known
    cases heads with
    | none => simp [isReached]
    | some hs => simp [isReached, contains_reachable wellFormed, known]
  have closed : ∀ i, isReached i = true → ∀ p ∈ graph.parents i, isReached p = true := by
    intro i hi p hp
    cases heads with
    | none => rfl
    | some hs =>
      obtain ⟨-, h, hh, leads⟩ := (contains_reachable wellFormed hs i).1 hi
      exact (contains_reachable wellFormed hs p).2
        ⟨wellFormed.known_parent hp, h, hh, leads.tail hp⟩
  have sub : ∀ i, isVisible i = true → isReached i = true := fun i h => (Bool.and_eq_true_iff.1 h).1
  refine ⟨isReached, isVisible, sub, closed, ?_, ?_⟩
  · cases heads <;> rfl
  · intro i known
    have belongs : commits.all (·.contains i) = true ↔ ∀ set, commits = some set → i ∈ set := by
      cases commits <;> simp
    rw [Bool.and_eq_true, reached i known, belongs, Shows]
    simp [known]

theorem covers_visibleRows (wellFormed : graph.WellFormed) (ordered : ChildrenFirst graph.rows)
    (heads commits : Option CommitSet) : ∃ isReached isVisible sweep,
      Sweep.Covers graph isReached isVisible graph.rows sweep ∧
      graph.visibleRows heads commits = sweep.rows ∧
      ∀ i, (∃ c ∈ graph.rows, c.index = i) →
        (isVisible i = true ↔ graph.Shows heads commits i) := by
  obtain ⟨isReached, isVisible, sub, closed, hrows, hvisible⟩ :=
    visibleRows_eq wellFormed heads commits
  exact ⟨isReached, isVisible, _, Sweep.covers_foldr wellFormed ordered sub closed, hrows, hvisible⟩

/-- The rows of a view list the commits to be shown in permanent order. -/
theorem map_commit_visibleRows (wellFormed : graph.WellFormed)
    (heads commits : Option CommitSet) :
    ((graph.visibleRows heads commits).map (·.commit)).Sublist (graph.rows.map (·.index)) ∧
      ∀ i, i ∈ (graph.visibleRows heads commits).map (·.commit) ↔ graph.Shows heads commits i := by
  obtain ⟨isReached, isVisible, sub, -, hrows, hvisible⟩ :=
    visibleRows_eq wellFormed heads commits
  rw [hrows, Sweep.map_commit_foldr sub]
  refine ⟨List.filter_sublist, fun i => ?_⟩
  rw [List.mem_filter, List.mem_map]
  constructor
  · rintro ⟨known, visible⟩
    exact (hvisible i known).1 visible
  · intro shows
    exact ⟨shows.1, (hvisible i shows.1).2 shows⟩

/-- The view of a graph whose rows stand with children first. -/
theorem isView_visible (wellFormed : graph.WellFormed) (ordered : ChildrenFirst graph.rows)
    (heads commits : Option CommitSet) :
    IsView graph heads commits (graph.visible .date heads commits) := by
  obtain ⟨order, mem⟩ := map_commit_visibleRows wellFormed heads commits
  obtain ⟨isReached, isVisible, sweep, covers, hrows, hvisible⟩ :=
    covers_visibleRows wellFormed ordered heads commits
  let view := graph.visible .date heads commits
  have hview : view.rows = sweep.rows := hrows
  have expansion : ∀ row ∈ view.rows, ∃ vs,
      graph.Expands (· ∈ view.commits) (graph.parents row.commit) vs ∧
        row.parents = vs.eraseDups := by
    intro row hrow
    obtain ⟨vs, expands, hvs⟩ := covers.expansion row (hview ▸ hrow)
    refine ⟨vs, expands.congr wellFormed (fun i known => ?_) fun p hp =>
      wellFormed.known_parent hp, hvs⟩
    rw [hvisible i known]
    exact (mem i).symm
  have nodup : view.commits.Nodup := wellFormed.numbered.sublist order
  refine ⟨order, nodup, mem, fun row hrow => ?_, fun row hrow v => ?_, expansion, ?_,
    rowOf?_eq_some nodup⟩
  · obtain ⟨vs, -, hvs⟩ := expansion row hrow
    exact hvs ▸ nodup_eraseDups vs
  · obtain ⟨vs, expands, hvs⟩ := expansion row hrow
    rw [hvs, List.mem_eraseDups, expands.mem_iff, bridge_iff]
  · exact hview ▸ covers.parents_later

/-- A view of acyclic commits by date. -/
theorem isView_visible_ofCommits {commits : List GraphCommit} (tips : List CommitIndex)
    (acyclic : Acyclic commits) (heads set : Option CommitSet) :
    IsView (ofCommits commits tips) heads set ((ofCommits commits tips).visible .date heads set) :=
  isView_visible (wellFormed_ofCommits commits tips) (childrenFirst_ofCommits tips acyclic) heads set

/-- Two branches and their merge, of which the branches are hidden. -/
theorem isView_merge : IsView (ofCommits [⟨0, [1, 2, 1], 30⟩, ⟨1, [3], 20⟩, ⟨2, [3], 10⟩, ⟨3, [], 0⟩] [0])
    (some (.ofList [0])) (some (.ofList [0, 3, 7]))
    ((ofCommits [⟨0, [1, 2, 1], 30⟩, ⟨1, [3], 20⟩, ⟨2, [3], 10⟩, ⟨3, [], 0⟩] [0]).visible .date
      (some (.ofList [0])) (some (.ofList [0, 3, 7]))) :=
  isView_visible_ofCommits [0] (acyclic_of_rank id (by decide)) _ _

end PermanentGraph

end CommitLog
