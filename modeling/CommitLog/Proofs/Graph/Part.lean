import CommitLog.Proofs.Graph.Greedy
import CommitLog.Proofs.Graph.Topological

/-!
# Parts of a graph

No link leads into a part of a graph or out of it (`PermanentGraph.IsPart`).  Then nothing else in
the graph makes a difference to the part: its rows have the order and the parents that they have in
a graph of their own, where all numbers are smaller by a constant, and so do the rows of its views.

    IsPart own k whole part → (the same commits are to be shown) →
      (whole.visible sort …).rows.filter own = (part.visible sort …).rows.map (raise k)
-/

namespace CommitLog

def GraphCommit.raise (k : Nat) (c : GraphCommit) : GraphCommit :=
  ⟨k + c.index, c.parents.map (k + ·), c.time⟩

def VisibleRow.raise (k : Nat) (row : VisibleRow) : VisibleRow :=
  ⟨k + row.commit, row.parents.map (k + ·)⟩

theorem add_injective (k : Nat) : Function.Injective (k + ·) := fun _ _ => Nat.add_left_cancel

theorem mem_map_add {k n : Nat} {ns : List CommitIndex} : k + n ∈ ns.map (k + ·) ↔ n ∈ ns :=
  List.mem_map_of_injective (add_injective k)

variable {own : CommitIndex → Bool} {k : Nat}

/-! ## Greedy order -/

namespace GraphCommit

variable {rows rest : List GraphCommit} {c : GraphCommit}

/-- What is free in a part is free in the whole. -/
theorem isFree_filter (closed : ∀ c ∈ rest, ∀ p ∈ c.parents, own p = own c.index) :
    IsFree (rest.filter (own ·.index)) c ↔ own c.index = true ∧ IsFree rest c := by
  constructor
  · rintro ⟨mem, free⟩
    obtain ⟨mem, isOwn⟩ := List.mem_filter.1 mem
    refine ⟨isOwn, mem, fun d hd link => ?_⟩
    have same := closed d hd _ link
    exact free d (List.mem_filter.2 ⟨hd, same.symm.trans isOwn⟩) link
  · rintro ⟨isOwn, mem, free⟩
    exact ⟨List.mem_filter.2 ⟨mem, isOwn⟩, fun d hd => free d (List.mem_filter.1 hd).1⟩

/-- A part of a greedy order is one. -/
theorem GreedyOrder.filter (greedy : GreedyOrder rows)
    (closed : ∀ c ∈ rows, ∀ p ∈ c.parents, own p = own c.index) :
    GreedyOrder (rows.filter (own ·.index)) := by
  induction greedy with
  | @next c rest free first _ ih =>
    have tail := ih fun d hd => closed d (List.mem_cons_of_mem _ hd)
    by_cases isOwn : own c.index = true
    · have split : (c :: rest).filter (own ·.index) = c :: rest.filter (own ·.index) :=
        List.filter_cons_of_pos isOwn
      have free' := (isFree_filter closed).2 ⟨isOwn, free⟩
      have first' := fun d (h : IsFree ((c :: rest).filter (own ·.index)) d) =>
        first d ((isFree_filter closed).1 h).2
      rw [split] at free' first' ⊢
      exact .next free' first' tail
    · have split : (c :: rest).filter (own ·.index) = rest.filter (own ·.index) :=
        List.filter_cons_of_neg isOwn
      rwa [split]
  | stuck none sorted =>
    exact .stuck (fun d h => none d ((isFree_filter closed).1 h).2) (sorted.filter _)

theorem goesBefore_raise {a b : GraphCommit} :
    (a.raise k).goesBefore (b.raise k) = a.goesBefore b := by
  rw [Bool.eq_iff_iff, goesBefore_iff, goesBefore_iff]
  simp [raise]

theorem raise_injective : Function.Injective (raise k) := by
  rintro ⟨i, ps, t⟩ ⟨j, qs, u⟩ same
  obtain ⟨index, parents, time⟩ := GraphCommit.mk.inj same
  obtain rfl : i = j := Nat.add_left_cancel index
  obtain rfl : ps = qs := List.map_injective_iff.2 (add_injective k) parents
  obtain rfl : t = u := time
  rfl

theorem isFree_raise : IsFree (rest.map (raise k)) (c.raise k) ↔ IsFree rest c := by
  unfold IsFree
  simp only [List.mem_map_of_injective raise_injective, List.forall_mem_map]
  refine and_congr_right fun _ => forall₂_congr fun d _ => not_congr ?_
  exact mem_map_add

theorem exists_of_isFree_raise {d : GraphCommit} (h : IsFree (rest.map (raise k)) d) :
    ∃ c, IsFree rest c ∧ c.raise k = d := by
  obtain ⟨c, hc, rfl⟩ := List.mem_map.1 h.1
  exact ⟨c, isFree_raise.1 h, rfl⟩

/-- Greater numbers do not change the order. -/
theorem GreedyOrder.raise (greedy : GreedyOrder rows) (k : Nat) :
    GreedyOrder (rows.map (raise k)) := by
  induction greedy with
  | @next c rest free first _ ih =>
    refine .next (isFree_raise.2 free) (fun d raised => ?_) ih
    rw [← List.map_cons] at raised
    obtain ⟨d, h, rfl⟩ := exists_of_isFree_raise raised
    rw [goesBefore_raise]
    exact first d h
  | stuck none sorted =>
    refine .stuck (fun d raised => ?_) (List.pairwise_map.2 (sorted.imp fun {a b} h => ?_))
    · obtain ⟨d, h, rfl⟩ := exists_of_isFree_raise raised
      exact none d h
    · rwa [goesBefore_raise]

end GraphCommit

open GraphCommit

namespace PermanentGraph

variable {whole part : PermanentGraph}

/-- The own rows of a graph are those of another one with smaller numbers, and no link leads into
them or out of them. -/
structure IsPart (own : CommitIndex → Bool) (k : Nat) (whole part : PermanentGraph) : Prop where
  rows : whole.rows.filter (own ·.index) = part.rows.map (raise k)
  closed : ∀ c ∈ whole.rows, ∀ p ∈ c.parents, own p = own c.index

/-- Greedy orders of a graph and of a part of it agree, so it is enough to compare the rows. -/
theorem isPart_of_mem (numbered : Numbered whole.rows) (order : GreedyOrder whole.rows)
    (numbered' : Numbered part.rows) (order' : GreedyOrder part.rows)
    (closed : ∀ c ∈ whole.rows, ∀ p ∈ c.parents, own p = own c.index)
    (mem : ∀ c, c ∈ whole.rows ∧ own c.index = true ↔ ∃ d ∈ part.rows, d.raise k = c) :
    IsPart own k whole part := by
  have numberedOwn : Numbered (whole.rows.filter (own ·.index)) :=
    numbered.sublist (List.filter_sublist.map _)
  refine ⟨(order.filter closed).unique (order'.raise k) numberedOwn ?_, closed⟩
  refine (List.perm_ext_iff_of_nodup numberedOwn.nodup
    (numbered'.nodup.map raise_injective)).2 fun c => ?_
  rw [List.mem_filter, List.mem_map, mem]

namespace IsPart

/-- The rows of the part are own rows of the whole. -/
theorem known_iff (isPart : IsPart own k whole part) {j : CommitIndex} :
    (∃ d ∈ part.rows, d.index = j) ↔
      own (k + j) = true ∧ ∃ c ∈ whole.rows, c.index = k + j := by
  constructor
  · rintro ⟨d, hd, rfl⟩
    have mem : d.raise k ∈ whole.rows.filter (own ·.index) := by
      rw [isPart.rows]
      exact List.mem_map_of_mem hd
    obtain ⟨mem, isOwn⟩ := List.mem_filter.1 mem
    exact ⟨isOwn, d.raise k, mem, rfl⟩
  · rintro ⟨isOwn, c, hc, same⟩
    have mem : c ∈ part.rows.map (raise k) := by
      rw [← isPart.rows]
      exact List.mem_filter.2 ⟨hc, by rwa [same]⟩
    obtain ⟨d, hd, rfl⟩ := List.mem_map.1 mem
    exact ⟨d, hd, Nat.add_left_cancel same⟩

theorem parents (isPart : IsPart own k whole part) (wellFormed : whole.WellFormed)
    (wellFormed' : part.WellFormed) {j : CommitIndex} (known : ∃ d ∈ part.rows, d.index = j) :
    whole.parents (k + j) = (part.parents j).map (k + ·) := by
  obtain ⟨d, hd, rfl⟩ := known
  have mem : d.raise k ∈ whole.rows.filter (own ·.index) := by
    rw [isPart.rows]
    exact List.mem_map_of_mem hd
  rw [wellFormed'.parents hd, show k + d.index = (d.raise k).index from rfl,
    wellFormed.parents (List.mem_filter.1 mem).1]
  rfl

/-! ## Views -/

/-- Hidden commits are expanded in the part as in the whole. -/
theorem expands (isPart : IsPart own k whole part) (wellFormed : whole.WellFormed)
    (wellFormed' : part.WellFormed) {shown shown' : CommitIndex → Prop}
    (same : ∀ j, (∃ d ∈ part.rows, d.index = j) → (shown (k + j) ↔ shown' j))
    {ps vs : List CommitIndex} (expands : part.Expands shown' ps vs)
    (known : ∀ p ∈ ps, ∃ d ∈ part.rows, d.index = p) :
    whole.Expands shown (ps.map (k + ·)) (vs.map (k + ·)) := by
  induction expands with
  | nil => exact .nil
  | @shown p rest vs hp _ ih =>
    exact .shown ((same p (known p List.mem_cons_self)).2 hp)
      (ih fun q hq => known q (List.mem_cons_of_mem _ hq))
  | @hidden p rest us vs hp _ _ ihParents ih =>
    have isKnown := known p List.mem_cons_self
    have parents := ihParents fun q hq => wellFormed'.known_parent hq
    rw [← isPart.parents wellFormed wellFormed' isKnown] at parents
    rw [List.map_cons, List.map_append]
    exact .hidden (fun h => hp ((same p isKnown).1 h)) parents
      (ih fun q hq => known q (List.mem_cons_of_mem _ hq))

/-- A chain of links does not leave the part, nor does one lead into it. -/
theorem own_of_bridge (isPart : IsPart own k whole part) {shown : CommitIndex → Prop}
    {c v : CommitIndex} (bridge : whole.Bridge shown c v) : own v = own c := by
  have link {child parent : CommitIndex} (h : parent ∈ whole.parents child) :
      own parent = own child := by
    obtain ⟨c, found, hp⟩ := mem_parents_iff.1 h
    have same : c.index = child := by simpa using List.find?_some found
    exact same ▸ isPart.closed c (List.mem_of_find?_eq_some found) parent hp
  induction bridge with
  | link hp => exact link hp
  | through hp _ _ ih => exact ih.trans (link hp)

end IsPart

theorem addNew_map (ps cs : List CommitIndex) :
    addNew (ps.map (k + ·)) (cs.map (k + ·)) = (addNew ps cs).map (k + ·) := by
  induction cs generalizing ps with
  | nil => rfl
  | cons c cs ih =>
    have same : (ps.map (k + ·)).contains (k + c) = ps.contains c := by
      rw [Bool.eq_iff_iff, List.contains_iff_mem, List.contains_iff_mem, mem_map_add]
    rw [List.map_cons, addNew_cons, addNew_cons, same, ← ih]
    split <;> simp

theorem eraseDups_map (cs : List CommitIndex) :
    (cs.map (k + ·)).eraseDups = cs.eraseDups.map (k + ·) := by
  have eraseDups_eq (zs : List CommitIndex) : zs.eraseDups = addNew [] zs := by
    rw [addNew_eq, List.nil_append, List.removeAll_nil]
  rw [eraseDups_eq, eraseDups_eq, ← addNew_map]
  rfl

/-- Rows are the same when their commits are and no two rows of one commit differ. -/
theorem eq_of_map_commit {as bs : List VisibleRow}
    (same : as.map (·.commit) = bs.map (·.commit))
    (rows : ∀ a ∈ as, ∀ b ∈ bs, a.commit = b.commit → a = b) : as = bs := by
  induction as generalizing bs with
  | nil => exact (List.map_eq_nil_iff.1 same.symm).symm
  | cons a as ih =>
    cases bs with
    | nil => cases same
    | cons b bs =>
      obtain ⟨first, rest⟩ := List.cons.inj same
      rw [rows a List.mem_cons_self b List.mem_cons_self first, ih rest fun a ha b hb =>
        rows a (List.mem_cons_of_mem _ ha) b (List.mem_cons_of_mem _ hb)]

/-- A view by date lists the rows to be shown. -/
theorem map_commit_visibleRows_eq {graph : PermanentGraph} (wellFormed : graph.WellFormed)
    (heads commits : Option CommitSet) : ∃ isShown : CommitIndex → Bool,
      (graph.visibleRows heads commits).map (·.commit) =
        (graph.rows.map (·.index)).filter isShown ∧
      ∀ i, (∃ c ∈ graph.rows, c.index = i) →
        (isShown i = true ↔ graph.Shows heads commits i) := by
  obtain ⟨isReached, isVisible, sub, -, hrows, hvisible⟩ :=
    visibleRows_eq wellFormed heads commits
  exact ⟨isVisible, by rw [hrows, Sweep.map_commit_foldr sub], hvisible⟩

variable {heads commits heads' commits' : Option CommitSet}

/-- The own rows of a view by date are those of a view of the part. -/
theorem IsPart.visibleRows (isPart : IsPart own k whole part) (wellFormed : whole.WellFormed)
    (wellFormed' : part.WellFormed) (ordered : ChildrenFirst whole.rows)
    (ordered' : ChildrenFirst part.rows)
    (shows : ∀ j, (∃ d ∈ part.rows, d.index = j) →
      (whole.Shows heads commits (k + j) ↔ part.Shows heads' commits' j)) :
    (whole.visibleRows heads commits).filter (own ·.commit) =
      (part.visibleRows heads' commits').map (VisibleRow.raise k) := by
  have view := isView_visible wellFormed ordered heads commits
  have view' := isView_visible wellFormed' ordered' heads' commits'
  refine eq_of_map_commit ?_ fun row hrow raisedRow hraised same => ?_
  · obtain ⟨isShown, map_commit, shown⟩ := map_commit_visibleRows_eq wellFormed heads commits
    obtain ⟨isShown', map_commit', shown'⟩ :=
      map_commit_visibleRows_eq wellFormed' heads' commits'
    have agree : ∀ j ∈ part.rows.map (·.index), isShown (k + j) = isShown' j := by
      intro j hj
      have known := List.mem_map.1 hj
      rw [Bool.eq_iff_iff, shown' j known, ← shows j known, shown]
      exact (isPart.known_iff.1 known).2
    calc ((whole.visibleRows heads commits).filter (own ·.commit)).map (·.commit)
        = ((whole.visibleRows heads commits).map (·.commit)).filter own := by
          rw [List.filter_map]; rfl
      _ = ((whole.rows.filter (own ·.index)).map (·.index)).filter isShown := by
          rw [map_commit, List.filter_filter, List.filter_map, List.filter_map, List.filter_filter]
          simp only [Function.comp_def, Bool.and_comm]
      _ = ((part.rows.map (·.index)).map (k + ·)).filter isShown := by
          rw [isPart.rows, List.map_map, List.map_map]
          rfl
      _ = ((part.rows.map (·.index)).filter isShown').map (k + ·) := by
          rw [List.filter_map]
          exact congrArg _ (List.filter_congr agree)
      _ = ((part.visibleRows heads' commits').map (VisibleRow.raise k)).map (·.commit) := by
          rw [← map_commit', List.map_map, List.map_map]
          rfl
  · obtain ⟨row', hrow', rfl⟩ := List.mem_map.1 hraised
    obtain ⟨hrow, -⟩ := List.mem_filter.1 hrow
    -- the parents of both rows are what the hidden ones are replaced by
    obtain ⟨vs, expands, hvs⟩ := view.expansion row hrow
    obtain ⟨us, expands', hus⟩ := view'.expansion row' hrow'
    have known : ∃ d ∈ part.rows, d.index = row'.commit :=
      ((view'.mem_commits _).1 (List.mem_map_of_mem hrow')).1
    have raised := isPart.expands wellFormed wellFormed' (fun j hj =>
      (view.mem_commits (k + j)).trans ((shows j hj).trans (view'.mem_commits j).symm)) expands'
      fun p hp => wellFormed'.known_parent hp
    have same : row.commit = k + row'.commit := same
    rw [← isPart.parents wellFormed wellFormed' known, ← same] at raised
    obtain ⟨commit, parents⟩ := row
    dsimp only at same hvs expands raised
    rw [VisibleRow.raise, ← same, hvs, hus, expands.unique raised, eraseDups_map]

end PermanentGraph

end CommitLog
