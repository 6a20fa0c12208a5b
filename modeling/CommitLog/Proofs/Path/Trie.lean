import CommitLog.Path.Selection
import CommitLog.Proofs.Entries
import Mathlib.Tactic.Tauto

/-!
# What tries and selections hold

A trie of some paths holds what lies at or below one of them.  A walk down the trie goes on as long
as it is on the way to one of them, or below one (`Trie.leads`).  A selection narrowed by names
holds what it held below these.

    Trie.contains p (Trie.ofPaths paths) ↔ ∃ q ∈ paths, q <+: p
    Trie.leads p (Trie.ofPaths paths) ↔ p = [] ∨ ∃ q ∈ paths, p <+: q ∨ q <+: p
-/

namespace CommitLog

namespace Trie

theorem setChild_eq_put (name : String) (child : Trie) (cs : List (String × Trie)) :
    setChild name child cs = Entries.put name child cs :=
  Entries.eq_put (setChild name child) rfl (fun _ _ _ => rfl) cs

theorem lookup_setChild (name other : String) (child : Trie) (cs : List (String × Trie)) :
    (setChild name child cs).lookup other =
      if other = name then some child else cs.lookup other := by
  rw [setChild_eq_put, Entries.lookup_put]

@[simp]
theorem contains_empty (p : List String) : contains p empty = false := by
  cases p <;> simp [contains, empty]

@[simp]
theorem contains_full (p : List String) : contains p full = true := by
  cases p <;> simp [contains, full]

theorem contains_cons (name : String) (rest : List String) (trie : Trie) :
    contains (name :: rest) trie = contains rest (trie.narrow name) := by
  obtain ⟨m, cs⟩ := trie
  rw [contains]
  cases m with
  | true => cases rest <;> simp [contains, narrow, isMatching]
  | false => cases h : cs.lookup name <;> simp [narrow, isMatching, children, h]

/-- Going down by names, a trie holds what it held below these. -/
theorem contains_append (front p : List String) (trie : Trie) :
    contains (front ++ p) trie = contains p (front.foldl narrow trie) := by
  induction front generalizing trie with
  | nil => rfl
  | cons name front ih =>
    rw [List.cons_append, contains_cons, ih]
    rfl

theorem isMatching_eq_contains (trie : Trie) : trie.isMatching = contains [] trie := by
  cases trie
  rfl

/-- A trie with one more path holds what lies below the path, too. -/
theorem contains_insert (q p : List String) (trie : Trie) :
    contains p (insert q trie) = true ↔ contains p trie = true ∨ q <+: p := by
  induction q generalizing p trie with
  | nil => simp [insert]
  | cons name rest ih =>
    obtain ⟨m, cs⟩ := trie
    cases m with
    | true => cases p <;> simp [insert, contains]
    | false =>
      cases p with
      | nil => simp [insert, contains]
      | cons other p =>
        by_cases same : other = name
        · subst same
          cases h : cs.lookup other <;>
            simp [insert, contains, lookup_setChild, h, ih, List.cons_prefix_cons]
        · simp [insert, contains, lookup_setChild, same, List.cons_prefix_cons, Ne.symm same]

theorem contains_ofPaths (paths : List (List String)) (p : List String) :
    contains p (ofPaths paths) = true ↔ ∃ q ∈ paths, q <+: p := by
  have run : ∀ (paths : List (List String)) (trie : Trie),
      contains p (paths.foldl (fun trie q => trie.insert q) trie) = true ↔
        contains p trie = true ∨ ∃ q ∈ paths, q <+: p := by
    intro paths
    induction paths with
    | nil => simp
    | cons q paths ih =>
      intro trie
      rw [List.foldl_cons, ih, contains_insert]
      simp only [List.mem_cons, exists_eq_or_imp, or_assoc]
  rw [ofPaths, run]
  simp

/-- Nothing is held below a name that is not allowed. -/
theorem containsSingle_of_contains {name : String} {rest : List String} {trie : Trie}
    (h : contains (name :: rest) trie = true) : trie.containsSingle name = true := by
  obtain ⟨m, cs⟩ := trie
  rw [contains] at h
  cases found : cs.lookup name <;> simp_all [containsSingle, isMatching, children]

/-! ### Walks -/

/-- Whether a walk down the names finds each of them allowed. -/
def leads : List String → Trie → Bool
  | [], _ => true
  | name :: rest, trie => trie.containsSingle name && leads rest (trie.narrow name)

theorem leads_of_isMatching {trie : Trie} (matching : trie.isMatching = true)
    (names : List String) : leads names trie = true := by
  induction names with
  | nil => rfl
  | cons name rest ih => simp [leads, containsSingle, narrow, matching, ih]

theorem narrow_eq_empty {name : String} {trie : Trie} (h : trie.containsSingle name = false) :
    trie.narrow name = empty := by
  obtain ⟨matching, absent⟩ : trie.isMatching = false ∧ trie.children.lookup name = none := by
    simpa [containsSingle] using h
  simp [narrow, matching, absent]

theorem leads_empty {names : List String} : leads names empty = true ↔ names = [] := by
  cases names with
  | nil => simp [leads]
  | cons name rest => simp [leads, containsSingle, isMatching, children, empty]

theorem foldl_narrow_empty (names : List String) : names.foldl narrow empty = empty := by
  induction names with
  | nil => rfl
  | cons name rest ih => exact ih

/-- With one more path, a walk can go to the path and below it, too. -/
theorem leads_insert (q names : List String) (trie : Trie) :
    leads names (insert q trie) = true ↔
      leads names trie = true ∨ names <+: q ∨ q <+: names := by
  induction q generalizing names trie with
  | nil =>
    have everywhere : leads names (insert [] trie) = true := leads_of_isMatching rfl names
    simp [everywhere]
  | cons name rest ih =>
    obtain ⟨m, cs⟩ := trie
    cases m with
    | true =>
      have everywhere : leads names (node true cs) = true := leads_of_isMatching rfl names
      simp [insert, everywhere]
    | false =>
      cases names with
      | nil => simp [leads]
      | cons other names =>
        by_cases same : other = name
        · -- the walk follows the path into the child, which may be new
          subst same
          have inserted : leads (other :: names) (insert (other :: rest) (node false cs)) =
              leads names (insert rest ((cs.lookup other).getD empty)) := by
            simp [leads, insert, containsSingle, narrow, isMatching, children, lookup_setChild]
          rw [inserted, ih]
          simp only [List.cons_prefix_cons, true_and]
          cases found : cs.lookup other with
          | some child =>
            simp [leads, containsSingle, narrow, isMatching, children, found]
          | none =>
            have turned : leads (other :: names) (node false cs) = false := by
              simp [leads, containsSingle, isMatching, children, found]
            rw [turned, Option.getD_none, leads_empty]
            constructor
            · rintro (rfl | h)
              · exact .inr (.inl List.nil_prefix)
              · exact .inr h
            · rintro (h | h)
              · cases h
              · exact .inr h
        · -- the walk goes on beside the path
          have beside : leads (other :: names) (insert (name :: rest) (node false cs)) =
              leads (other :: names) (node false cs) := by
            simp [leads, insert, containsSingle, narrow, isMatching, children, lookup_setChild,
              same]
          simp [beside, List.cons_prefix_cons, same, Ne.symm same]

theorem leads_ofPaths (paths : List (List String)) (names : List String) :
    leads names (ofPaths paths) = true ↔
      names = [] ∨ ∃ q ∈ paths, names <+: q ∨ q <+: names := by
  have run : ∀ (paths : List (List String)) (trie : Trie),
      leads names (paths.foldl (fun trie q => trie.insert q) trie) = true ↔
        leads names trie = true ∨ ∃ q ∈ paths, names <+: q ∨ q <+: names := by
    intro paths
    induction paths with
    | nil => simp
    | cons q paths ih =>
      intro trie
      rw [List.foldl_cons, ih, leads_insert]
      simp only [List.mem_cons, exists_eq_or_imp, or_assoc]
  rw [ofPaths, run, leads_empty]

/-- A walk goes on where its first part has ended.  Past a name that is not allowed there is
nothing. -/
theorem leads_append {front names : List String} (ne : names ≠ []) (trie : Trie) :
    leads (front ++ names) trie = leads names (front.foldl narrow trie) := by
  induction front generalizing trie with
  | nil => rfl
  | cons name front ih =>
    rw [List.cons_append, leads, ih, List.foldl_cons]
    cases allowed : trie.containsSingle name with
    | true => rw [Bool.true_and]
    | false =>
      have turned : leads names empty = false := Bool.eq_false_iff.2 fun h => ne (leads_empty.1 h)
      rw [narrow_eq_empty allowed, foldl_narrow_empty, turned, Bool.false_and]

end Trie

theorem PathSelection.trie_foldl_below (names : List String) (selection : PathSelection) :
    (names.foldl below selection).trie = names.foldl Trie.narrow selection.trie := by
  induction names generalizing selection with
  | nil => rfl
  | cons name rest ih => exact ih (selection.below name)

end CommitLog
