import CommitLog.Filter.Basic
import CommitLog.Proofs.Filter.Structure

/-!
# Filters of details

What the filters of users, dates, texts and paths together ask of a commit.  The name `me` stands
for the current user (`UserFilter.Names`).  Different filters may ask the same of the commits of one
repository (`Filters.AgreeAt`).
-/

namespace CommitLog

namespace UserFilter

variable {filter : UserFilter} {metadata : Metadata}

/-- Whether one of the names is that of an author, when `me` is the current user. -/
def Names (filter : UserFilter) (me : Option String) (author : Author) : Prop :=
  ∃ name ∈ filter.names, ∃ wanted, (if isMe name then me = some wanted else wanted = name) ∧
    lowered (Text.trimmed wanted) ∈ candidates author

theorem currentUser?_congr {a b : Path} (same : (a == b) = true) :
    filter.currentUser? a = filter.currentUser? b := by
  have same : (fun entry : Path × String => entry.1 == a) = fun entry => entry.1 == b := by
    funext entry
    exact BEq.congr_right same
  unfold currentUser?
  rw [same]

theorem userNames_congr {a b : Path} (same : (a == b) = true) :
    filter.userNames a = filter.userNames b := by
  unfold userNames
  rw [currentUser?_congr same]

theorem mem_userNames {root : Path} {wanted : String} : wanted ∈ filter.userNames root ↔
    ∃ name ∈ filter.names,
      if isMe name then filter.currentUser? root = some wanted else wanted = name := by
  unfold userNames
  rw [List.mem_filterMap]
  refine exists_congr fun name => and_congr_right fun _ => ?_
  split
  · exact Iff.rfl
  · rw [Option.some.injEq, eq_comm]

theorem names_iff {root : Path} {author : Author} :
    filter.Names (filter.currentUser? root) author ↔
      ∃ wanted ∈ filter.userNames root, lowered (Text.trimmed wanted) ∈ candidates author := by
  simp only [Names, mem_userNames]
  constructor
  · rintro ⟨name, mem, wanted, h, found⟩
    exact ⟨wanted, ⟨name, mem, h⟩, found⟩
  · rintro ⟨wanted, ⟨name, mem, h⟩, found⟩
    exact ⟨name, mem, wanted, h, found⟩

theorem accepts_iff : filter.accepts metadata = true ↔
    filter.Names (filter.currentUser? metadata.root) metadata.author := by
  rw [names_iff, accepts, List.any_eq_true]
  simp only [List.contains_iff_mem]

/-- A filter that lets a commit through has names. -/
theorem userNames_ne_nil {root : Path} {author : Author}
    (h : filter.Names (filter.currentUser? root) author) :
    (filter.userNames root).isEmpty = false := by
  obtain ⟨wanted, mem, -⟩ := names_iff.1 h
  cases names : filter.userNames root with
  | nil =>
    rw [names] at mem
    cases mem
  | cons _ _ => rfl

theorem currentUser?_withCurrentUser (root other : Path) (name : String) :
    (filter.withCurrentUser root name).currentUser? other =
      if root == other then some name else filter.currentUser? other := by
  show (((root, name) :: filter.currentUsers.filter fun user => !(user.1 == root)).find?
    fun user => user.1 == other).map (·.2) = if root == other then some name else
      (filter.currentUsers.find? fun user => user.1 == other).map (·.2)
  rw [List.find?_cons]
  by_cases same : (root == other) = true
  · simp [same]
  · -- what has been dropped is not about the other repository
    have kept : (filter.currentUsers.filter fun user => !(user.1 == root)).find?
        (fun user => user.1 == other) = filter.currentUsers.find? fun user => user.1 == other := by
      rw [List.find?_filter]
      congr 1
      funext entry
      by_cases found : (entry.1 == other) = true
      · have differ : (entry.1 == root) = false := by
          rw [BEq.congr_left found, BEq.comm]
          exact Bool.eq_false_iff.2 same
        simp [found, differ]
      · simp [found]
    simp [same, kept]

/-- The filter with the current user of some repositories. -/
theorem currentUser?_foldl (roots : List Path) (name : String) (root : Path) :
    (roots.foldl (·.withCurrentUser · name) filter).currentUser? root =
      if roots.contains root then some name else filter.currentUser? root := by
  induction roots generalizing filter with
  | nil => rfl
  | cons r roots ih =>
    rw [List.foldl_cons, ih, currentUser?_withCurrentUser, List.contains_cons, BEq.comm]
    by_cases later : roots.contains root = true <;> by_cases same : (root == r) = true <;>
      simp [later, same]

theorem names_foldl (roots : List Path) (name : String) :
    (roots.foldl (·.withCurrentUser · name) filter).names = filter.names := by
  induction roots generalizing filter with
  | nil => rfl
  | cons root roots ih => exact ih

end UserFilter

/-- The filters of details ask the same of a commit one by one. -/
theorem Filters.acceptsDetails_iff {filters : Filters} {metadata : Metadata} :
    filters.acceptsDetails metadata = true ↔
      (∀ filter, filters.user = some filter → filter.accepts metadata = true) ∧
      (∀ filter, filters.date = some filter → filter.accepts metadata = true) ∧
      (∀ filter, filters.text = some filter → filter.accepts metadata = true) ∧
      ∀ filter, filters.paths = some filter → filter.accepts metadata = true := by
  obtain ⟨branch, root, paths, hash, user, date, text⟩ := filters
  simp only [acceptsDetails, details, List.all_eq_true, List.mem_append, or_imp, forall_and,
    and_assoc]
  refine and_congr ?_ (and_congr ?_ (and_congr ?_ ?_))
  all_goals
    constructor
    · rintro h filter rfl
      exact h _ (List.mem_singleton.2 rfl)
    · intro h filter mem
      simp only [Option.mem_toList, Option.map_eq_some_iff] at mem
      obtain ⟨own, same, rfl⟩ := mem
      exact h own same

theorem Filters.details_eq_nil {filters : Filters} (h : filters.details = []) :
    filters.user = Option.none ∧ filters.date = Option.none ∧ filters.text = Option.none ∧
      filters.paths = Option.none := by
  simpa [details, and_assoc] using h

/-! ## Filters that ask the same -/

theorem forall_some_congr {α β : Type} {f : α → β} {x y : Option α} {P Q : α → Prop}
    (same : x.map f = y.map f) (h : ∀ s t, f s = f t → (P s ↔ Q t)) :
    (∀ s, x = some s → P s) ↔ ∀ t, y = some t → Q t := by
  cases x with
  | none =>
    obtain rfl : y = none := Option.map_eq_none_iff.1 same.symm
    exact iff_of_true (fun s h => nomatch h) fun t h => nomatch h
  | some s =>
    obtain ⟨t, rfl, equal⟩ := Option.map_eq_some_iff.1 same.symm
    simp only [Option.some.injEq, forall_eq', h s t equal.symm]

/-- Two collections of filters ask the same of the commits of a repository. -/
structure Filters.AgreeAt (root : Path) (a b : Filters) : Prop where
  branch : a.branch = b.branch
  date : a.date = b.date
  text : a.text = b.text
  user : a.user.map (·.userNames root) = b.user.map (·.userNames root)
  paths : a.paths.map (fun filter => (filter.filesForRoot root).map Path.components) =
    b.paths.map fun filter => (filter.filesForRoot root).map Path.components

namespace Filters

variable {root : Path} {a b : Filters} {m n : Metadata}

theorem AgreeAt.refl (root : Path) (filters : Filters) : AgreeAt root filters filters :=
  ⟨rfl, rfl, rfl, rfl, rfl⟩

/-- Only the author, the message, the repository and the changes count. -/
theorem AgreeAt.acceptsDetails (agree : AgreeAt root a b) (hm : (m.root == root) = true)
    (hn : (n.root == root) = true) (author : m.author = n.author) (message : m.message = n.message)
    (changes : a.paths = Option.none ∨ m.changedPaths = n.changedPaths) :
    a.acceptsDetails m = b.acceptsDetails n := by
  rw [Bool.eq_iff_iff, acceptsDetails_iff, acceptsDetails_iff]
  refine and_congr ?_ (and_congr ?_ (and_congr ?_ ?_))
  · refine forall_some_congr agree.user fun s t names => ?_
    unfold UserFilter.accepts
    rw [UserFilter.userNames_congr hm, UserFilter.userNames_congr hn, names, author]
  · rw [agree.date]
    refine forall₂_congr fun filter _ => ?_
    unfold DateFilter.accepts
    rw [author]
  · rw [agree.text]
    refine forall₂_congr fun filter _ => ?_
    unfold TextFilter.accepts
    rw [message]
  · rcases changes with none | changes
    · have none' : b.paths = Option.none := by
        have same := agree.paths
        rw [none] at same
        exact Option.map_eq_none_iff.1 same.symm
      rw [none, none']
      exact forall₂_congr fun filter h => nomatch h
    · refine forall_some_congr agree.paths fun s t files => ?_
      have below (filter : StructureFilter) (path : Path) :
          (filter.filesForRoot root).any path.startsWith =
            ((filter.filesForRoot root).map Path.components).any
              (·.isPrefixOf path.components) := by
        rw [List.any_map]
        rfl
      unfold StructureFilter.accepts
      rw [StructureFilter.filesForRoot_congr hm, StructureFilter.filesForRoot_congr hn, changes]
      simp only [below, files]

/-- Without a filter of paths only the author, the message and the repository count. -/
theorem acceptsDetails_congr {filters : Filters} (paths : filters.paths = Option.none)
    (author : m.author = n.author) (message : m.message = n.message)
    (root : (m.root == n.root) = true) : filters.acceptsDetails m = filters.acceptsDetails n :=
  (AgreeAt.refl n.root filters).acceptsDetails root BEq.rfl author message (.inl paths)

end Filters

end CommitLog
