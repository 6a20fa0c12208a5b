import CommitLog.Filter.Branch
import CommitLog.Proofs.Pattern.Wildcards
import CommitLog.Proofs.Steps

/-!
# Filters of branches

What the specs of a filter ask of a name, without patterns: a spec selects a name by its wildcards,
or, where it has none, by being the name (`Selects`).  A filter lets a name through when an
including spec selects it, or there is none, and no excluding spec does.

    ofSpecs specs = .ok filter → '\n' ∉ name.toList → (filter.accepts name ↔
      ((∀ spec ∈ specs, IsExcluding spec) ∨ ∃ spec ∈ specs, ¬IsExcluding spec ∧ Selects spec name) ∧
        ¬∃ rest, "-" ++ rest ∈ specs ∧ Selects rest name)
-/

namespace CommitLog

namespace BranchSelector

variable {spec name : String} {selector : BranchSelector}

/-- Whether a spec without its hyphen selects a name. -/
def Selects (spec name : String) : Prop :=
  if '*' ∈ spec.toList ∨ '?' ∈ spec.toList then Pattern.Describes spec.toList name.toList
  else name = if spec = "@" then BranchName.headText else spec

instance : Decidable (Selects spec name) :=
  inferInstanceAs (Decidable (if '*' ∈ spec.toList ∨ '?' ∈ spec.toList then
    Pattern.Describes spec.toList name.toList
  else name = if spec = "@" then BranchName.headText else spec))

theorem hasWildcards_iff :
    hasWildcards spec = true ↔ '*' ∈ spec.toList ∨ '?' ∈ spec.toList := by
  simp only [hasWildcards, List.any_eq_true, Bool.or_eq_true, beq_iff_eq]
  constructor
  · rintro ⟨c, mem, rfl | rfl⟩
    · exact .inl mem
    · exact .inr mem
  · rintro (mem | mem)
    · exact ⟨'*', mem, .inl rfl⟩
    · exact ⟨'?', mem, .inr rfl⟩

/-- The word for the head is no pattern, and neither is the head. -/
theorem hasWildcards_alias :
    hasWildcards (if spec = "@" then BranchName.headText else spec) = hasWildcards spec := by
  split
  · next head =>
    rw [head]
    rfl
  · rfl

theorem parse_eq_ok : parse spec = .ok selector ↔
    (hasWildcards spec = true ∧ ∃ pattern, Pattern.ofWildcards? spec = some pattern ∧
      selector = .wildcards pattern) ∨
    (hasWildcards spec = false ∧
      selector = .exact (if spec = "@" then BranchName.headText else spec)) := by
  unfold parse
  dsimp only
  rw [hasWildcards_alias]
  cases wild : hasWildcards spec with
  | false =>
    simp [eq_comm]
  | true =>
    have own : (if spec = "@" then BranchName.headText else spec) = spec := by
      split
      · next head =>
        rw [head] at wild
        cases wild
      · rfl
    rw [own]
    cases Pattern.ofWildcards? spec with
    | none => simp
    | some pattern => simp [eq_comm]

/-- **What is read from a spec selects what the spec selects.** -/
theorem selects_iff (read : parse spec = .ok selector) (line : '\n' ∉ name.toList) :
    selector.selects name = true ↔ Selects spec name := by
  obtain ⟨wild, pattern, made, rfl⟩ | ⟨plain, rfl⟩ := parse_eq_ok.1 read
  · rw [Selects, if_pos (hasWildcards_iff.1 wild)]
    exact Pattern.occursIn_ofWildcards line made rfl
  · rw [Selects, if_neg fun wild => Bool.eq_false_iff.1 plain (hasWildcards_iff.2 wild), selects,
      beq_iff_eq, eq_comm]

/-- Every spec that is not too long can be read. -/
theorem exists_parse (short : spec.toList.length ≤ 7900) :
    ∃ selector, parse spec = .ok selector := by
  cases wild : hasWildcards spec with
  | true =>
    obtain ⟨pattern, made⟩ := Pattern.exists_ofWildcards short
    exact ⟨_, parse_eq_ok.2 (.inl ⟨wild, pattern, made, rfl⟩)⟩
  | false => exact ⟨_, parse_eq_ok.2 (.inr ⟨wild, rfl⟩)⟩

end BranchSelector

namespace BranchFilter

open BranchSelector (Selects)

variable {specs : List String} {spec name : String} {filter after : BranchFilter}

/-- Whether a spec starts with a hyphen. -/
def IsExcluding (spec : String) : Prop := ∃ rest : String, spec = "-" ++ rest

theorem eq_hyphen_append {rest : List Char} (own : spec.toList = '-' :: rest) :
    spec = "-" ++ String.ofList rest := by
  rw [← String.toList_inj, String.toList_append, String.toList_ofList, String.toList_ofList]
  exact own

theorem isExcluding_iff : IsExcluding spec ↔ spec.toList.head? = some '-' := by
  constructor
  · rintro ⟨rest, rfl⟩
    rw [String.toList_append]
    rfl
  · intro hyphen
    obtain ⟨rest, own⟩ := List.head?_eq_some_iff.1 hyphen
    exact ⟨_, eq_hyphen_append own⟩

/-- A filter has a selector for each of the specs. -/
structure Stands (specs : List String) (filter : BranchFilter) : Prop where
  includes : List.Forall₂ (fun spec selector => BranchSelector.parse spec = .ok selector)
    (specs.filter fun spec => spec.toList.head? != some '-') filter.includes
  excludes : List.Forall₂ (fun spec selector => ∃ rest, spec = "-" ++ rest ∧
      BranchSelector.parse rest = .ok selector)
    (specs.filter fun spec => spec.toList.head? == some '-') filter.excludes

/-- One more spec adds one selector. -/
theorem Stands.add (stands : Stands specs filter) (added : filter.add spec = .ok after) :
    Stands (specs ++ [spec]) after := by
  obtain ⟨includes, excludes⟩ := stands
  unfold BranchFilter.add at added
  split at added
  · next rest hyphen =>
    obtain ⟨selector, read, same⟩ := bind_eq_ok.1 added
    obtain rfl := Except.ok.inj same
    have first : spec.toList.head? = some '-' := by rw [hyphen, List.head?_cons]
    constructor
    · simpa [List.filter_append, first] using includes
    · rw [List.filter_append, List.filter_singleton, first]
      exact List.rel_append excludes (.cons ⟨_, eq_hyphen_append hyphen, read⟩ .nil)
  · next plain =>
    obtain ⟨selector, read, same⟩ := bind_eq_ok.1 added
    obtain rfl := Except.ok.inj same
    have first : spec.toList.head? ≠ some '-' := by
      intro hyphen
      obtain ⟨rest, own⟩ := List.head?_eq_some_iff.1 hyphen
      exact plain rest own
    constructor
    · rw [List.filter_append, List.filter_singleton, bne_iff_ne.2 first]
      exact List.rel_append includes (.cons read .nil)
    · simpa [List.filter_append, first] using excludes

theorem stands_ofSpecs (made : ofSpecs specs = .ok filter) : Stands specs filter :=
  foldlM_induction Stands made ⟨.nil, .nil⟩ fun _ _ _ _ stands _ added => stands.add added

namespace Stands

variable (stands : Stands specs filter) (line : '\n' ∉ name.toList)

include stands

theorem includes_eq_nil : filter.includes.isEmpty = true ↔ ∀ spec ∈ specs, IsExcluding spec := by
  rw [List.isEmpty_iff_length_eq_zero, ← stands.includes.length_eq, List.length_eq_zero_iff,
    List.filter_eq_nil_iff]
  simp [isExcluding_iff]

include line

theorem includes_select : filter.includes.any (·.selects name) = true ↔
    ∃ spec ∈ specs, ¬IsExcluding spec ∧ Selects spec name := by
  simp only [List.any_eq_true, isExcluding_iff]
  constructor
  · rintro ⟨selector, mem, selects⟩
    obtain ⟨spec, own, read⟩ := exists_of_mem_right stands.includes mem
    rw [List.mem_filter, bne_iff_ne] at own
    exact ⟨spec, own.1, own.2, (BranchSelector.selects_iff read line).1 selects⟩
  · rintro ⟨spec, mem, plain, selects⟩
    obtain ⟨selector, own, read⟩ := exists_of_mem_left stands.includes
      (List.mem_filter.2 ⟨mem, bne_iff_ne.2 plain⟩)
    exact ⟨selector, own, (BranchSelector.selects_iff read line).2 selects⟩

theorem excludes_select : filter.excludes.any (·.selects name) = true ↔
    ∃ rest, "-" ++ rest ∈ specs ∧ Selects rest name := by
  rw [List.any_eq_true]
  constructor
  · rintro ⟨selector, mem, selects⟩
    obtain ⟨_, own, rest, rfl, read⟩ := exists_of_mem_right stands.excludes mem
    exact ⟨rest, (List.mem_filter.1 own).1, (BranchSelector.selects_iff read line).1 selects⟩
  · rintro ⟨rest, mem, selects⟩
    have hyphen := isExcluding_iff.1 ⟨rest, rfl⟩
    obtain ⟨selector, own, rest', same, read⟩ := exists_of_mem_left stands.excludes
      (List.mem_filter.2 ⟨mem, beq_iff_eq.2 hyphen⟩)
    rw [String.append_right_inj] at same
    obtain rfl := same
    exact ⟨selector, own, (BranchSelector.selects_iff read line).2 selects⟩

end Stands

/-- Specs that are not too long make a filter. -/
theorem exists_ofSpecs (short : ∀ spec ∈ specs, spec.toList.length ≤ 7900) :
    ∃ filter, ofSpecs specs = .ok filter := by
  refine exists_foldlM (fun _ _ => True) trivial fun _ spec filter _ _ mem => ?_
  have own := short spec mem
  unfold BranchFilter.add
  split
  · next rest hyphen =>
    have less : (String.ofList rest).toList.length ≤ 7900 := by
      rw [hyphen, List.length_cons] at own
      rw [String.toList_ofList]
      omega
    obtain ⟨selector, read⟩ := BranchSelector.exists_parse less
    exact ⟨_, bind_eq_ok.2 ⟨selector, read, rfl⟩, trivial⟩
  · obtain ⟨selector, read⟩ := BranchSelector.exists_parse own
    exact ⟨_, bind_eq_ok.2 ⟨selector, read, rfl⟩, trivial⟩

/-- **What the specs of a filter ask of a name.** -/
theorem accepts_ofSpecs (made : ofSpecs specs = .ok filter) (line : '\n' ∉ name.toList) :
    filter.accepts name = true ↔
      ((∀ spec ∈ specs, IsExcluding spec) ∨
        ∃ spec ∈ specs, ¬IsExcluding spec ∧ Selects spec name) ∧
      ¬∃ rest, "-" ++ rest ∈ specs ∧ Selects rest name := by
  have stands := stands_ofSpecs made
  rw [accepts, Bool.and_eq_true, Bool.or_eq_true, stands.includes_eq_nil,
    stands.includes_select line, Bool.not_eq_true', Bool.eq_false_iff, ne_eq,
    stands.excludes_select line]

/-- A dot stands for itself, a star for slashes too, and a hyphen excludes. -/
theorem accepts_wildcards : ∃ filter, ofSpecs ["v1.*", "-v1.?"] = .ok filter ∧
    filter.accepts "v1.0/a" = true ∧ filter.accepts "v110" = false ∧
    filter.accepts "v1.0" = false := by
  obtain ⟨filter, made⟩ : ∃ filter, ofSpecs ["v1.*", "-v1.?"] = .ok filter :=
    exists_ofSpecs (by decide)
  have plain : ¬IsExcluding "v1.*" := fun hyphen => absurd (isExcluding_iff.1 hyphen) (by decide)
  refine ⟨filter, made, (accepts_ofSpecs made (by decide)).2 ⟨.inr ?_, ?_⟩, ?_, ?_⟩
  · exact ⟨"v1.*", by decide, plain, by decide⟩
  · rintro ⟨rest, mem, selects⟩
    obtain own | own : "-" ++ rest = "v1.*" ∨ "-" ++ rest = "-" ++ "v1.?" := by simpa using mem
    · exact plain ⟨rest, own.symm⟩
    · rw [String.append_right_inj] at own
      exact absurd (own ▸ selects) (by decide)
  · rw [Bool.eq_false_iff, ne_eq, accepts_ofSpecs made (by decide)]
    rintro ⟨all | ⟨spec, mem, -, selects⟩, -⟩
    · exact plain (all "v1.*" (by decide))
    · have none : ∀ spec ∈ ["v1.*", "-v1.?"], ¬Selects spec "v110" := by decide
      exact none spec mem selects
  · rw [Bool.eq_false_iff, ne_eq, accepts_ofSpecs made (by decide)]
    rintro ⟨-, none⟩
    exact none ⟨"v1.?", by decide, by decide⟩

end BranchFilter

end CommitLog
