import CommitLog.Proofs.Path.Trie

/-!
# Tries of the same paths

A trie that is made by insertions is canonical: its children stand in order, below a node that
matches there is nothing, and every trie below another leads to a path that is held
(`Trie.Canonical`).  So the allowed names are those that some held path starts with, and two such
tries that hold the same paths are equal.

    (ofPaths paths).containsSingle name ↔ ∃ p, contains p (ofPaths paths) ∧ [name] <+: p
    same (ofPaths a) (ofPaths b) ↔ ∀ p, contains p (ofPaths a) = contains p (ofPaths b)
-/

namespace CommitLog

namespace Trie

variable {trie a b child : Trie} {cs ds : List (String × Trie)} {name : String}
  {p names : List String}

/-! ## Canonical tries -/

/-- Nothing in the trie is idle. -/
inductive Canonical : Trie → Prop
  | full : Canonical (node true [])
  | branch {cs : List (String × Trie)} (ascending : Entries.Ascending cs)
      (below : ∀ entry ∈ cs, Canonical entry.2) (alive : ∀ entry ∈ cs, entry.2 ≠ empty) :
      Canonical (node false cs)

theorem canonical_empty : Canonical empty := .branch .nil nofun nofun

/-- A canonical trie is empty or holds something. -/
theorem Canonical.exists_contains (canonical : Canonical trie) (ne : trie ≠ empty) :
    ∃ p, contains p trie = true := by
  induction canonical with
  | full => exact ⟨[], rfl⟩
  | @branch cs ascending below alive ih =>
    cases cs with
    | nil => exact absurd rfl ne
    | cons first rest =>
      obtain ⟨name, child⟩ := first
      obtain ⟨p, held⟩ := ih (name, child) List.mem_cons_self (alive _ List.mem_cons_self)
      refine ⟨name :: p, ?_⟩
      rw [contains]
      simpa using held

/-! ### Narrowing and insertion -/

theorem Canonical.getD_lookup (below : ∀ entry ∈ cs, Canonical entry.2) (name : String) :
    Canonical ((cs.lookup name).getD empty) := by
  cases found : cs.lookup name with
  | none => exact canonical_empty
  | some child => exact below _ (Entries.mem_of_lookup found)

theorem Canonical.narrow (canonical : Canonical trie) (name : String) :
    Canonical (trie.narrow name) := by
  cases canonical with
  | full => exact .full
  | branch _ below _ => exact getD_lookup below name

theorem insert_ne_empty (p : List String) (trie : Trie) : insert p trie ≠ empty := by
  intro same
  have held : contains p (insert p trie) = true :=
    (contains_insert p p trie).mpr (.inr List.prefix_rfl)
  rw [same, contains_empty] at held
  cases held

/-- An insertion that ends early, goes down into a child or clears what is below leaves nothing
idle behind. -/
theorem Canonical.insert (canonical : Canonical trie) (p : List String) :
    Canonical (insert p trie) := by
  induction p generalizing trie with
  | nil => exact .full
  | cons name rest ih =>
    cases canonical with
    | full => exact .full
    | @branch cs ascending below alive =>
      have child : Canonical (Trie.insert rest ((cs.lookup name).getD empty)) :=
        ih (getD_lookup below name)
      show Canonical (node false (setChild name _ cs))
      rw [setChild_eq_put]
      refine .branch ascending.put ?_ ?_
      · rintro ⟨other, t⟩ mem
        rw [ascending.mem_put] at mem
        split at mem
        · rw [mem]
          exact child
        · exact below _ mem
      · rintro ⟨other, t⟩ mem
        rw [ascending.mem_put] at mem
        split at mem
        · rw [mem]
          exact insert_ne_empty rest _
        · exact alive _ mem

theorem canonical_ofPaths (paths : List (List String)) : Canonical (ofPaths paths) := by
  have run : ∀ (paths : List (List String)) (trie : Trie), Canonical trie →
      Canonical (paths.foldl (fun trie p => trie.insert p) trie) := by
    intro paths
    induction paths with
    | nil => exact fun _ canonical => canonical
    | cons p paths ih => exact fun trie canonical => ih _ (canonical.insert p)
  exact run paths empty canonical_empty

/-! ### What the paths say about the trie -/

/-- Every allowed name leads to something. -/
theorem Canonical.containsSingle_iff (canonical : Canonical trie) :
    trie.containsSingle name = true ↔ ∃ p, contains p trie = true ∧ [name] <+: p := by
  constructor
  · intro allowed
    cases canonical with
    | full => exact ⟨[name], rfl, List.prefix_rfl⟩
    | @branch cs ascending below alive =>
      obtain ⟨child, found⟩ : ∃ child, cs.lookup name = some child :=
        Option.isSome_iff_exists.mp allowed
      have mem : (name, child) ∈ cs := Entries.mem_of_lookup found
      obtain ⟨p, held⟩ := (below _ mem).exists_contains (alive _ mem)
      refine ⟨name :: p, ?_, ⟨p, rfl⟩⟩
      rw [contains_cons]
      show contains p ((cs.lookup name).getD empty) = true
      rwa [found]
  · rintro ⟨_, held, rest, rfl⟩
    exact containsSingle_of_contains held

theorem Canonical.containsSingle_congr (ha : Canonical a) (hb : Canonical b)
    (same : ∀ p, contains p a = contains p b) (name : String) :
    a.containsSingle name = b.containsSingle name := by
  rw [Bool.eq_iff_iff, ha.containsSingle_iff, hb.containsSingle_iff]
  simp only [same]

/-- Canonical tries that hold the same paths are equal. -/
theorem Canonical.ext (ha : Canonical a) (hb : Canonical b)
    (same : ∀ p, contains p a = contains p b) : a = b := by
  have allowed := ha.containsSingle_congr hb same
  induction ha generalizing b with
  | full =>
    cases hb with
    | full => rfl
    | branch => cases same []
  | @branch cs ascending below alive ih =>
    cases hb with
    | full => cases same []
    | @branch ds ascending' below' alive' =>
      suffices cs = ds by rw [this]
      apply ascending.ext ascending'
      intro name
      have both : (cs.lookup name).isSome = (ds.lookup name).isSome := allowed name
      cases left : cs.lookup name with
      | none =>
        rw [left] at both
        exact (Option.isNone_iff_eq_none.mp (by simpa using both.symm)).symm
      | some t =>
        obtain ⟨u, right⟩ : ∃ u, ds.lookup name = some u :=
          Option.isSome_iff_exists.mp (by rw [← both, left]; rfl)
        have ht : (name, t) ∈ cs := Entries.mem_of_lookup left
        have hu : (name, u) ∈ ds := Entries.mem_of_lookup right
        have rest : ∀ p, contains p t = contains p u := by
          intro p
          have step := same (name :: p)
          rw [contains, contains, left, right] at step
          exact step
        have equal : t = u :=
          ih _ ht (below' _ hu) rest ((below _ ht).containsSingle_congr (below' _ hu) rest)
        rw [right, equal]

/-! ### Equality -/

mutual

theorem same_iff : ∀ {a b : Trie}, same a b = true ↔ a = b
  | .node m cs, .node n ds => by
    rw [same, Bool.and_eq_true, beq_iff_eq, sameChildren_iff, node.injEq]

theorem sameChildren_iff : ∀ {cs ds : List (String × Trie)}, sameChildren cs ds = true ↔ cs = ds
  | [], [] => by simp [sameChildren]
  | [], _ :: _ => by simp [sameChildren]
  | _ :: _, [] => by simp [sameChildren]
  | (n, t) :: cs, (m, u) :: ds => by
    rw [sameChildren, Bool.and_eq_true, Bool.and_eq_true, beq_iff_eq, same_iff, sameChildren_iff,
      List.cons.injEq, Prod.mk.injEq]

end

/-- Tries of paths are equal when none has a path that the other does not have or lead to. -/
theorem same_ofPaths_iff {a b : List (List String)} :
    same (ofPaths a) (ofPaths b) = true ↔
      ∀ p, contains p (ofPaths a) = contains p (ofPaths b) := by
  rw [same_iff]
  constructor
  · intro equal p
    rw [equal]
  · exact (canonical_ofPaths a).ext (canonical_ofPaths b)

/-- Paths at or below others make no difference. -/
theorem contains_ofPaths_congr_iff {a b : List (List String)} :
    (∀ p, contains p (ofPaths a) = contains p (ofPaths b)) ↔
      (∀ q ∈ a, ∃ r ∈ b, r <+: q) ∧ ∀ q ∈ b, ∃ r ∈ a, r <+: q := by
  have each (p : List String) : contains p (ofPaths a) = contains p (ofPaths b) ↔
      ((∃ q ∈ a, q <+: p) ↔ ∃ q ∈ b, q <+: p) := by
    rw [Bool.eq_iff_iff, contains_ofPaths, contains_ofPaths]
  simp only [each]
  constructor
  · intro same
    exact ⟨fun q hq => (same q).mp ⟨q, hq, List.prefix_rfl⟩,
      fun q hq => (same q).mpr ⟨q, hq, List.prefix_rfl⟩⟩
  · rintro ⟨hab, hba⟩ p
    constructor
    · rintro ⟨q, hq, front⟩
      obtain ⟨r, hr, above⟩ := hab q hq
      exact ⟨r, hr, above.trans front⟩
    · rintro ⟨q, hq, front⟩
      obtain ⟨r, hr, above⟩ := hba q hq
      exact ⟨r, hr, above.trans front⟩

end Trie

/-! ## Selections -/

namespace PathSelection

variable {selection : PathSelection} {names : List String} {name : String}

/-- The selections that can be made. -/
inductive Made : PathSelection → Prop
  | all : Made everything
  | given (paths : List Path) : Made (ofPaths paths)
  | narrowed {selection : PathSelection} (made : Made selection) (name : String) :
      Made (selection.below name)

theorem Made.canonical (made : selection.Made) : selection.trie.Canonical := by
  induction made with
  | all => exact .full
  | given paths => exact Trie.canonical_ofPaths _
  | narrowed _ name ih => exact ih.narrow name

theorem made_foldl_below (made : selection.Made) (names : List String) :
    (names.foldl below selection).Made := by
  induction names generalizing selection with
  | nil => exact made
  | cons name rest ih => exact ih (made.narrowed name)

theorem isMatching_foldl_below : (names.foldl below selection).isMatching = true ↔
    Trie.contains names selection.trie = true := by
  have ends := Trie.contains_append names [] selection.trie
  rw [List.append_nil] at ends
  rw [isMatching, trie_foldl_below, Trie.isMatching_eq_contains, ends]

theorem allows_foldl_below (made : selection.Made) :
    (names.foldl below selection).allows name = true ↔
      ∃ p, Trie.contains p selection.trie = true ∧ names ++ [name] <+: p := by
  rw [allows, (made_foldl_below made names).canonical.containsSingle_iff, trie_foldl_below]
  constructor
  · rintro ⟨p, held, front⟩
    refine ⟨names ++ p, ?_, (List.prefix_append_right_inj names).mpr front⟩
    rw [Trie.contains_append]
    exact held
  · rintro ⟨_, held, rest, rfl⟩
    rw [List.append_assoc, Trie.contains_append] at held
    exact ⟨[name] ++ rest, held, List.prefix_append _ _⟩

/-- **A trie of paths holds what lies at or below one of them, and nothing else tells two of them
apart.**  It allows the names that held paths start with, and is equal to another when the two hold
the same paths, which is so when every path of one lies at or below a path of the other.  A
selection that is narrowed by names holds and allows what it did below these. -/
theorem holds_exactly :
    (∀ paths : List (List String),
      (∀ p, Trie.contains p (.ofPaths paths) = true ↔ ∃ q ∈ paths, q <+: p) ∧
      ∀ name, (Trie.ofPaths paths).containsSingle name = true ↔
        ∃ p, Trie.contains p (.ofPaths paths) = true ∧ [name] <+: p) ∧
    (∀ a b : List (List String),
      (Trie.same (.ofPaths a) (.ofPaths b) = true ↔
        ∀ p, Trie.contains p (.ofPaths a) = Trie.contains p (.ofPaths b)) ∧
      (Trie.same (.ofPaths a) (.ofPaths b) = true ↔
        (∀ q ∈ a, ∃ r ∈ b, r <+: q) ∧ ∀ q ∈ b, ∃ r ∈ a, r <+: q)) ∧
    ∀ selection : PathSelection, selection.Made → ∀ names : List String,
      ((names.foldl below selection).isMatching = true ↔
        Trie.contains names selection.trie = true) ∧
      ∀ name, (names.foldl below selection).allows name = true ↔
        ∃ p, Trie.contains p selection.trie = true ∧ names ++ [name] <+: p := by
  refine ⟨?_, ?_, ?_⟩
  · intro paths
    exact ⟨Trie.contains_ofPaths paths,
      fun name => (Trie.canonical_ofPaths paths).containsSingle_iff⟩
  · intro a b
    exact ⟨Trie.same_ofPaths_iff, Trie.same_ofPaths_iff.trans Trie.contains_ofPaths_congr_iff⟩
  · intro selection made names
    exact ⟨isMatching_foldl_below, fun name => allows_foldl_below made⟩

/-- The paths `src/log/mod.rs` and `src/lib.rs`, seen from `src`. -/
def sources : PathSelection := (ofPaths [⟨"src/log/mod.rs"⟩, ⟨"src/lib.rs"⟩]).below "src"

/-- A path on the way, one at the end of the way and one behind it. -/
theorem holds_exactly_sources : sources.Made ∧
    (["log"].foldl below sources).isMatching = false ∧
    (["log"].foldl below sources).allows "mod.rs" = true ∧
    (["lib.rs", "deep"].foldl below sources).isMatching = true ∧
    (["lib.rs", "deep"].foldl below sources).allows "deeper" = true := by
  obtain ⟨-, -, narrowed⟩ := holds_exactly
  have made : sources.Made := .narrowed (.given _) _
  obtain ⟨way, next⟩ := narrowed sources made ["log"]
  obtain ⟨behind, deep⟩ := narrowed sources made ["lib.rs", "deep"]
  refine ⟨made, Bool.eq_false_iff.mpr ?_, ?_, ?_, ?_⟩
  · rw [ne_eq, way]
    decide +kernel
  · exact (next "mod.rs").mpr ⟨["log", "mod.rs"], by decide +kernel, List.prefix_rfl⟩
  · exact behind.mpr (by decide +kernel)
  · exact (deep "deeper").mpr ⟨["lib.rs", "deep", "deeper"], by decide +kernel, List.prefix_rfl⟩

end PathSelection

end CommitLog
