import CommitLog.Graph.Permanent
import Mathlib.Data.List.Nodup
import Mathlib.Data.Set.Finite.List
import Mathlib.Logic.Relation
import Mathlib.Order.WellFounded

/-!
# Links between commits

`GraphCommit.IsParent` relates a commit of a list to its parents; of several commits with one number
the first counts.  A list is `Acyclic` when no commit leads back to itself.

    Acyclic commits → rest ⊆ commits → rest ≠ [] → ∃ d ∈ rest, ∀ e ∈ rest, d.index ∉ e.parents
-/

namespace CommitLog.GraphCommit

/-- A commit and one of its parents. -/
def IsParent (commits : List GraphCommit) (child parent : CommitIndex) : Prop :=
  ∃ c, commits.find? (·.index == child) = some c ∧ parent ∈ c.parents

/-- No commit leads back to itself. -/
def Acyclic (commits : List GraphCommit) : Prop :=
  ∀ index, ¬ Relation.TransGen (IsParent commits) index index

/-! ## Lists without repeated numbers -/

/-- The numbers of the commits differ. -/
def Numbered (commits : List GraphCommit) : Prop := (commits.map (·.index)).Nodup

theorem Numbered.eq {commits : List GraphCommit} (numbered : Numbered commits)
    {a b : GraphCommit} (ha : a ∈ commits) (hb : b ∈ commits) (h : a.index = b.index) : a = b :=
  List.inj_on_of_nodup_map numbered ha hb h

theorem Numbered.perm {a b : List GraphCommit} (numbered : Numbered a) (perm : b.Perm a) :
    Numbered b :=
  (perm.map _).nodup_iff.2 numbered

theorem Numbered.nodup {commits : List GraphCommit} (numbered : Numbered commits) :
    commits.Nodup :=
  List.Nodup.of_map _ numbered

theorem Numbered.find? {commits : List GraphCommit} (numbered : Numbered commits)
    {index : CommitIndex} {c : GraphCommit} :
    commits.find? (·.index == index) = some c ↔ c ∈ commits ∧ c.index = index := by
  constructor
  · intro h
    exact ⟨List.mem_of_find?_eq_some h, by simpa using List.find?_some h⟩
  · rintro ⟨mem, rfl⟩
    cases h : commits.find? (·.index == c.index) with
    | none => exact absurd (List.find?_eq_none.1 h c mem) (by simp)
    | some d =>
      have hd : d.index = c.index := by simpa using List.find?_some h
      rw [numbered.eq (List.mem_of_find?_eq_some h) mem hd]

theorem Numbered.isParent {commits : List GraphCommit} (numbered : Numbered commits)
    {child parent : CommitIndex} :
    IsParent commits child parent ↔ ∃ c ∈ commits, c.index = child ∧ parent ∈ c.parents := by
  simp only [IsParent, numbered.find?, and_assoc]

theorem Numbered.isParent_congr {a b : List GraphCommit} (numbered : Numbered a)
    (perm : b.Perm a) : IsParent b = IsParent a := by
  funext child parent
  simp only [numbered.isParent, (numbered.perm perm).isParent, perm.mem_iff]

/-! ## Acyclic lists -/

/-- A list is acyclic when its links go up in some rank. -/
theorem acyclic_of_rank {commits : List GraphCommit} (rank : CommitIndex → Nat)
    (up : ∀ c ∈ commits, ∀ p ∈ c.parents, rank c.index < rank p) : Acyclic commits := by
  have step {child parent : CommitIndex} (link : IsParent commits child parent) :
      rank child < rank parent := by
    obtain ⟨c, found, hp⟩ := link
    have same : c.index = child := by simpa using List.find?_some found
    exact same ▸ up c (List.mem_of_find?_eq_some found) parent hp
  have chain : ∀ child parent, Relation.TransGen (IsParent commits) child parent →
      rank child < rank parent := by
    intro child parent path
    induction path with
    | single link => exact step link
    | tail _ link ih => exact ih.trans (step link)
  exact fun index cycle => (chain index index cycle).false

/-- Among some commits of an acyclic list there is always one that is no parent of the others. -/
theorem exists_childless {commits rest : List GraphCommit} (numbered : Numbered commits)
    (acyclic : Acyclic commits) (sub : ∀ c ∈ rest, c ∈ commits) (ne : rest ≠ []) :
    ∃ d ∈ rest, ∀ e ∈ rest, d.index ∉ e.parents := by
  let below (a b : {c // c ∈ rest}) : Prop :=
    Relation.TransGen (IsParent commits) a.1.index b.1.index
  have : Finite {c // c ∈ rest} := List.finite_toSet rest
  have : IsTrans _ below := ⟨fun _ _ _ => Relation.TransGen.trans⟩
  have : Std.Irrefl below := ⟨fun a => acyclic a.1.index⟩
  have wf : WellFounded below := Finite.wellFounded_of_trans_of_irrefl below
  obtain ⟨c, hc⟩ := List.exists_mem_of_ne_nil rest ne
  obtain ⟨⟨d, hd⟩, -, least⟩ := wf.has_min Set.univ ⟨⟨c, hc⟩, trivial⟩
  refine ⟨d, hd, fun e he parent => least ⟨e, he⟩ trivial ?_⟩
  exact .single (numbered.isParent.2 ⟨e, sub e he, rfl, parent⟩)

end CommitLog.GraphCommit
