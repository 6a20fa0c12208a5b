import CommitLog.Proofs.Disk.Writing

/-!
# Repeated slashes

Slashes that are repeated, and single dots, count for nothing on the way to a name: whatever is
looked up, made or written by such a path is what it is by the path without them.

    Steps (front ++ [last]) → Component.ofSegment? last = some (.normal name) →
      disk.find (slashed (loud (front ++ [last]))) = disk.find (slashed (front ++ [last]))
    Steps segments → EndsInName segments →
      makeDirectories (slashed (loud segments)) disk = makeDirectories (slashed segments) disk
-/

namespace CommitLog.Disk

/-- The texts that stand for something. -/
def loud (segments : List (List Char)) : List (List Char) :=
  segments.filter fun segment => !Path.isSilent segment

/-- Texts between slashes of a path that leads forward and is not too long. -/
structure Steps (segments : List (List Char)) : Prop where
  noSlash : ∀ segment ∈ segments, '/' ∉ segment
  noNull : ∀ segment ∈ segments, '\x00' ∉ segment
  forward : ∀ segment ∈ segments, Component.ofSegment? segment ≠ some .parent
  short : (slashed segments).text.utf8ByteSize < longestPath

variable {disk : Disk} {segments front : List (List Char)} {last : List Char} {name : String}

theorem loud_append (front back : List (List Char)) :
    loud (front ++ back) = loud front ++ loud back := List.filter_append ..

/-! ## Fewer texts -/

theorem sublist_intercalate {c : Char} {fewer all : List (List Char)} (h : fewer.Sublist all) :
    ([c].intercalate fewer).Sublist ([c].intercalate all) := by
  induction h with
  | slnil => exact .refl _
  | @cons fewer all part h ih =>
    cases all with
    | nil =>
      rw [List.sublist_nil.1 h]
      exact List.nil_sublist _
    | cons next all =>
      rw [List.intercalate_cons_cons]
      exact ih.trans (List.sublist_append_right _ _)
  | @cons_cons fewer all part h ih =>
    cases fewer with
    | nil =>
      rw [List.intercalate_singleton]
      cases all with
      | nil => simp
      | cons next all =>
        rw [List.intercalate_cons_cons, List.append_assoc]
        exact List.sublist_append_left _ _
    | cons own fewer =>
      obtain ⟨next, all, rfl⟩ := List.exists_cons_of_ne_nil (l := all) (by
        rintro rfl
        cases h)
      rw [List.intercalate_cons_cons, List.intercalate_cons_cons]
      exact (List.Sublist.refl _).append ih

theorem utf8ByteSize_le_of_sublist {fewer all : List Char} (h : fewer.Sublist all) :
    (String.ofList fewer).utf8ByteSize ≤ (String.ofList all).utf8ByteSize := by
  induction h with
  | slnil => exact Nat.le_refl _
  | cons c h ih =>
    rw [String.ofList_cons, String.utf8ByteSize_append]
    omega
  | cons_cons c h ih =>
    rw [String.ofList_cons, String.ofList_cons, String.utf8ByteSize_append,
      String.utf8ByteSize_append]
    omega

theorem Steps.sublist {fewer : List (List Char)} (steps : Steps segments)
    (h : fewer.Sublist segments) : Steps fewer := by
  refine ⟨fun s mem => steps.noSlash s (h.subset mem), fun s mem => steps.noNull s (h.subset mem),
    fun s mem => steps.forward s (h.subset mem), ?_⟩
  have size := utf8ByteSize_le_of_sublist ((sublist_intercalate (c := '/') h).cons_cons '/')
  rw [← toList_slashed, ← toList_slashed, String.ofList_toList, String.ofList_toList] at size
  exact Nat.lt_of_le_of_lt size steps.short

theorem segmentsOf_slashed (steps : Steps segments) (ne : segments ≠ []) :
    segmentsOf (slashed segments) = .ok ([] :: segments) := by
  have noNull : (slashed segments).text.contains '\x00' = false := by
    rw [String.contains_char_eq, toList_slashed, decide_eq_false_iff_not, List.mem_cons, not_or]
    exact ⟨by decide, not_mem_intercalate (by decide) steps.noNull⟩
  have full : ¬ (slashed segments).text.isEmpty = true := by
    rw [String.isEmpty_iff, ← String.toList_eq_nil_iff, toList_slashed]
    exact List.cons_ne_nil _ _
  have split : Text.splitAll '/' (slashed segments).text.toList = [] :: segments := by
    rw [toList_slashed, Text.splitAll, if_pos rfl, Text.splitAll_intercalate ne steps.noSlash]
  unfold segmentsOf
  rw [noNull, if_neg Bool.false_ne_true, if_neg full, if_neg (Nat.not_le_of_lt steps.short), split]

/-! ## Following texts -/

/-- From a file on everything fails. -/
theorem foldlM_enter_file {α : Type} (place : Place) (content : List UInt8)
    {rest : Place × Node → Except Fault α}
    (stops : rest (place, .file content) = .error .notDirectory) (segments : List (List Char)) :
    segments.foldlM disk.enter (place, .file content) >>= rest = .error .notDirectory := by
  cases segments with
  | nil => exact stops
  | cons segment segments => rfl

/-- Silent texts do not matter to what fails on a file. -/
theorem foldlM_enter_loud {α : Type} {rest : Place × Node → Except Fault α}
    (stops : ∀ place content, rest (place, .file content) = .error .notDirectory)
    (segments : List (List Char)) (start : Place × Node) :
    segments.foldlM disk.enter start >>= rest =
      (loud segments).foldlM disk.enter start >>= rest := by
  induction segments generalizing start with
  | nil => rfl
  | cons segment segments ih =>
    by_cases silent : Path.isSilent segment = true
    · have fewer : loud (segment :: segments) = loud segments := by
        rw [loud, List.filter_cons_of_neg (by simp [silent])]
        rfl
      rw [fewer]
      obtain ⟨place, node⟩ := start
      cases node with
      | file content =>
        rw [foldlM_enter_file place content (stops place content),
          foldlM_enter_file place content (stops place content)]
      | directory =>
        have stays : disk.enter (place, .directory) segment = .ok (place, .directory) := by
          unfold enter
          rw [Path.isSilent_iff.1 silent]
        rw [List.foldlM_cons, stays]
        exact ih (place, .directory)
    · have same : loud (segment :: segments) = segment :: loud segments := by
        rw [loud, List.filter_cons_of_pos (by simpa using silent)]
        rfl
      rw [same, List.foldlM_cons, List.foldlM_cons, bind_assoc, bind_assoc]
      exact congrArg _ (funext ih)

/-! ## One way, with and without repeated slashes -/

theorem loud_sublist (segments : List (List Char)) : (loud segments).Sublist segments :=
  List.filter_sublist

theorem loud_concat (component : Component.ofSegment? last = some (.normal name)) :
    loud (front ++ [last]) = loud front ++ [last] := by
  have heard : Path.isSilent last = false := by rw [Path.isSilent, component]; rfl
  rw [loud_append, loud, loud, List.filter_singleton, heard]
  rfl

theorem start_slashed (segments : List (List Char)) :
    disk.start (slashed segments) = .ok ([], .directory) := by
  rw [start, if_pos (isAbsolute_of_slash (toList_slashed segments))]

section Named

variable (steps : Steps (front ++ [last]))
  (component : Component.ofSegment? last = some (.normal name))

include steps component

theorem find_loud :
    disk.find (slashed (loud (front ++ [last]))) = disk.find (slashed (front ++ [last])) := by
  have lead (front : List (List Char)) (steps : Steps (front ++ [last])) :
      disk.find (slashed (front ++ [last])) =
        front.foldlM disk.enter ([], .directory) >>= (disk.enter · last) := by
    unfold find follow
    rw [segmentsOf_slashed steps (by simp), start_slashed]
    show (([] :: front) ++ [last]).foldlM disk.enter ([], .directory) = _
    rw [List.foldlM_append]
    show front.foldlM disk.enter ([], .directory) >>= _ = _
    simp
  have fewer := steps.sublist (loud_sublist _)
  rw [loud_concat component] at fewer ⊢
  rw [lead _ fewer, lead _ steps]
  exact (foldlM_enter_loud (fun _ _ => rfl) _ _).symm

theorem ending_loud :
    disk.ending (slashed (loud (front ++ [last]))) = disk.ending (slashed (front ++ [last])) := by
  have named : last ≠ [] := by
    rintro rfl
    cases component
  have lead (front : List (List Char)) (steps : Steps (front ++ [last])) :
      disk.ending (slashed (front ++ [last])) =
        front.foldlM disk.enter ([], .directory) >>= fun found =>
          (disk.enter found []).map fun found => .name found.1 name false := by
    have silent : ([] :: front).foldlM disk.enter ([], .directory) =
        front.foldlM disk.enter ([], .directory) := rfl
    have kept := @dropEmptyEnd_append ([] :: front) [] last (by simp) named
    unfold ending follow
    rw [segmentsOf_slashed steps (by simp), start_slashed]
    dsimp only [bind, Except.bind]
    rw [← List.cons_append, kept, List.getLast?_concat, Option.bind_some, component,
      List.dropLast_concat, decide_eq_false (Nat.lt_irrefl _)]
    dsimp only
    rw [silent]
    rcases front.foldlM disk.enter ([], .directory) with fault | ⟨place, _ | content⟩ <;> rfl
  have fewer := steps.sublist (loud_sublist _)
  rw [loud_concat component] at fewer ⊢
  rw [lead _ fewer, lead _ steps]
  exact (foldlM_enter_loud (fun _ _ => rfl) _ _).symm

theorem makeDirectory_loud : disk.makeDirectory (slashed (loud (front ++ [last]))) =
    disk.makeDirectory (slashed (front ++ [last])) := by
  unfold makeDirectory
  rw [ending_loud steps component]

theorem isDirectory_loud : disk.isDirectory (slashed (loud (front ++ [last]))) =
    disk.isDirectory (slashed (front ++ [last])) := by
  unfold isDirectory
  rw [find_loud steps component]

theorem writeFile_loud (content : List UInt8) :
    disk.writeFile (slashed (loud (front ++ [last]))) content =
      disk.writeFile (slashed (front ++ [last])) content := by
  unfold writeFile
  rw [ending_loud steps component]

end Named

/-! ## Directories, with and without repeated slashes -/

/-- The texts end in a name, or there are none. -/
def EndsInName (segments : List (List Char)) : Prop :=
  segments = [] ∨ ∃ front last name, segments = front ++ [last] ∧
    Component.ofSegment? last = some (.normal name)

theorem endsInName_dropSilentEnd
    (forward : ∀ segment ∈ segments, Component.ofSegment? segment ≠ some .parent) :
    EndsInName (Path.dropSilentEnd segments) := by
  rcases List.eq_nil_or_concat' (Path.dropSilentEnd segments) with none | ⟨front, last, whole⟩
  · exact .inl none
  have ne : segments.rdropWhile Path.isSilent ≠ [] := by
    show Path.dropSilentEnd segments ≠ []
    simp [whole]
  have heard : ¬ Path.isSilent last = true := by
    have final := List.rdropWhile_last_not Path.isSilent segments ne
    have same : segments.rdropWhile Path.isSilent = front ++ [last] := whole
    simpa only [same, List.getLast_concat] using final
  have mem : last ∈ segments :=
    (Path.dropSilentEnd_front segments).subset (by simp [whole])
  obtain ⟨component, own⟩ :=
    Option.ne_none_iff_exists'.1 fun none => heard (Path.isSilent_iff.2 none)
  refine .inr ⟨front, last, String.ofList last, whole, ?_⟩
  rw [own, Component.eq_normal_of_ofSegment? own fun parent => forward last mem (parent ▸ own)]

theorem dropSilentEnd_loud (segments : List (List Char)) :
    Path.dropSilentEnd (loud segments) = loud segments := by
  refine List.rdropWhile_eq_self_iff.2 fun ne silent => ?_
  have heard := (List.mem_filter.1 (List.getLast_mem ne)).2
  rw [silent] at heard
  cases heard

theorem loud_dropSilentEnd (segments : List (List Char)) :
    loud (Path.dropSilentEnd segments) = loud segments := by
  have whole : Path.dropSilentEnd segments ++ segments.rtakeWhile Path.isSilent = segments :=
    List.rdropWhile_append_rtakeWhile
  have none : loud (segments.rtakeWhile Path.isSilent) = [] := by
    refine List.filter_eq_nil_iff.2 fun segment mem => ?_
    simp [List.mem_rtakeWhile_imp mem]
  conv_rhs => rw [← whole, loud_append, none, List.append_nil]

/-- The directory of a path has the names of the path but for the last. -/
theorem exists_directory?_loud (steps : Steps (front ++ [last]))
    (component : Component.ofSegment? last = some (.normal name)) :
    ∃ above, (slashed (front ++ [last])).directory? = some (slashed above) ∧
      (slashed (loud (front ++ [last]))).directory? = some (slashed (loud above)) ∧
      Steps above ∧ EndsInName above := by
  have shorter : (Path.dropSilentEnd front).Sublist (front ++ [last]) :=
    (Path.dropSilentEnd_front front).sublist.trans (List.sublist_append_left _ _)
  have fewer := (steps.sublist (loud_sublist _)).noSlash
  rw [loud_concat component] at fewer ⊢
  refine ⟨Path.dropSilentEnd front, directory?_slashed steps.noSlash component, ?_,
    steps.sublist shorter, endsInName_dropSilentEnd fun segment mem => ?_⟩
  · rw [directory?_slashed fewer component, dropSilentEnd_loud, loud_dropSilentEnd]
  · exact steps.forward segment (List.mem_append_left _ mem)

theorem makeDirectoriesUpTo_loud (count : Nat) (steps : Steps segments)
    (ends : EndsInName segments) (disk : Disk) :
    makeDirectoriesUpTo count (slashed (loud segments)) disk =
      makeDirectoriesUpTo count (slashed segments) disk := by
  induction count generalizing segments disk with
  | zero => rfl
  | succ count ih =>
    obtain rfl | ⟨front, last, name, rfl, component⟩ := ends
    · rfl
    obtain ⟨above, directory, directoryLoud, stepsAbove, endsAbove⟩ :=
      exists_directory?_loud steps component
    rw [makeDirectoriesUpTo, makeDirectoriesUpTo, directoryLoud, directory]
    simp only [makeDirectory_loud steps component, isDirectory_loud steps component,
      ih stepsAbove endsAbove]

theorem components_loud (noSlash : ∀ segment ∈ segments, '/' ∉ segment) :
    (slashed (loud segments)).components = (slashed segments).components := by
  have fewer : ∀ segment ∈ loud segments, '/' ∉ segment :=
    fun segment mem => noSlash segment (List.mem_of_mem_filter mem)
  rw [components_slashed fewer, components_slashed noSlash, loud, List.filterMap_filter]
  congr 1
  refine List.filterMap_congr fun segment _ => ?_
  rw [Path.isSilent]
  cases Component.ofSegment? segment <;> rfl

/-- Directories are made by a path as by the path without repeated slashes. -/
theorem makeDirectories_loud (steps : Steps segments) (ends : EndsInName segments) (disk : Disk) :
    makeDirectories (slashed (loud segments)) disk = makeDirectories (slashed segments) disk := by
  have full (segments : List (List Char)) : ¬ (slashed segments).text.isEmpty = true := by
    rw [String.isEmpty_iff, ← String.toList_eq_nil_iff, toList_slashed]
    exact List.cons_ne_nil _ _
  rw [makeDirectories, makeDirectories, if_neg (full _), if_neg (full _),
    makeDirectoriesUpTo_loud _ steps ends, components_loud steps.noSlash]

end CommitLog.Disk
