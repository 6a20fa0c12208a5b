import CommitLog.Proofs.Disk.Lookup

/-!
# Paths of texts between slashes

An absolute path is made of the texts between its slashes.  The path of a place is made of its
names, and the directory that holds what a path names is made of the texts before the last name.

    ofSegment? last = some (.normal name) →
      (slashed (front ++ [last])).directory? = some (slashed (Path.dropSilentEnd front))
-/

namespace CommitLog.Disk

/-- The absolute path of the texts between slashes. -/
def slashed (segments : List (List Char)) : Path := Path.assemble (some .root) segments

variable {segments front : List (List Char)} {last : List Char} {name : String} {place : Place}

theorem toList_slashed (segments : List (List Char)) :
    (slashed segments).text.toList = '/' :: ['/'].intercalate segments := by
  simp [slashed, Path.assemble, Component.text]

theorem slashed_map (place : Place) : slashed (place.map String.toList) = pathOf place := by
  simp [slashed, Path.assemble, pathOf, Component.text, ← String.toList_inj]

theorem segments_slashed (noSlash : ∀ segment ∈ segments, '/' ∉ segment) (ne : segments ≠ []) :
    (slashed segments).split.1 = some .root ∧ (slashed segments).segments = segments := by
  have split : (slashed segments).split = (some .root, ['/'].intercalate segments) := by
    unfold Path.split
    rw [toList_slashed]
    rfl
  rw [Path.segments, split]
  exact ⟨rfl, Text.splitAll_intercalate ne noSlash⟩

theorem components_slashed (noSlash : ∀ segment ∈ segments, '/' ∉ segment) :
    (slashed segments).components = .root :: segments.filterMap Component.ofSegment? := by
  by_cases none : segments = []
  · rw [none]
    rfl
  · obtain ⟨head, own⟩ := segments_slashed noSlash none
    rw [Path.components, head, own]
    rfl

theorem dropSilentEnd_concat (component : Component.ofSegment? last = some (.normal name)) :
    Path.dropSilentEnd (front ++ [last]) = front ++ [last] := by
  have heard : ¬ Path.isSilent last = true := by
    rw [Path.isSilent, component]
    exact Bool.false_ne_true
  rw [Path.dropSilentEnd, List.reverse_concat, List.dropWhile_cons_of_neg heard,
    ← List.reverse_concat, List.reverse_reverse]

theorem directory?_slashed (noSlash : ∀ segment ∈ front ++ [last], '/' ∉ segment)
    (component : Component.ofSegment? last = some (.normal name)) :
    (slashed (front ++ [last])).directory? = some (slashed (Path.dropSilentEnd front)) := by
  have ne : front ++ [last] ≠ [] := by simp
  obtain ⟨head, own⟩ := segments_slashed noSlash ne
  have final : (slashed (front ++ [last])).components.getLast? = some (.normal name) := by
    rw [components_slashed noSlash, List.filterMap_append, List.filterMap_cons_some component,
      List.filterMap_nil, ← List.cons_append, List.getLast?_concat]
  unfold Path.directory?
  rw [final, own, dropSilentEnd_concat component, head]
  obtain ⟨first, rest, cut⟩ := List.exists_cons_of_ne_nil ne
  rw [cut]
  dsimp only
  rw [← cut, List.dropLast_concat]
  rfl

theorem dropSilentEnd_pathOf (names : ∀ name ∈ place, IsFileName name) :
    Path.dropSilentEnd (place.map String.toList) = place.map String.toList := by
  rcases List.eq_nil_or_concat' place with rfl | ⟨above, last, rfl⟩
  · rfl
  · rw [List.map_append]
    exact dropSilentEnd_concat (names last (by simp)).ofSegment?.1

/-- The directory of a place. -/
theorem directory?_pathOf (names : ∀ other ∈ place ++ [name], IsFileName other) :
    (pathOf (place ++ [name])).directory? = some (pathOf place) := by
  have noSlash : ∀ segment ∈ place.map String.toList ++ [name.toList], '/' ∉ segment := by
    intro segment mem
    rw [← List.map_singleton, ← List.map_append] at mem
    obtain ⟨own, known, rfl⟩ := List.mem_map.1 mem
    exact (names own known).ofSegment?.2
  rw [← slashed_map, ← slashed_map, List.map_append, List.map_singleton,
    directory?_slashed noSlash (names name (by simp)).ofSegment?.1,
    dropSilentEnd_pathOf fun other mem => names other (List.mem_append_left _ mem)]

end CommitLog.Disk
