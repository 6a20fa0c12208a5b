import CommitLog.Proofs.Disk.Lead
import Std.Data.HashMap.Lemmas

/-!
# Files below a directory

A path that goes on from a directory by plain names leads to a file if and only if the file is among
those below the directory (`Disk.exists_below_of_isFile`).
-/

namespace CommitLog.Disk

variable {disk : Disk} {path directory : Path} {base place : Place} {found : Place × Node}
  {segments : List (List Char)}

theorem mem_filesBelow (h : disk.find directory = .ok (base, .directory)) :
    place ∈ disk.filesBelow directory ↔
      ∃ content, disk.nodes[base ++ place]? = some (.file content) := by
  unfold filesBelow
  rw [h]
  simp only [List.mem_mergeSort, List.mem_filterMap, Prod.exists,
    Std.HashMap.mem_toList_iff_getElem?_eq_some]
  constructor
  · rintro ⟨_, node, known, keeps⟩
    cases node with
    | directory => cases keeps
    | file content =>
      dsimp only at keeps
      split at keeps
      · next front =>
        obtain ⟨rest, rfl⟩ := List.isPrefixOf_iff_prefix.1 front
        rw [List.drop_left, Option.some.injEq] at keeps
        exact ⟨content, keeps ▸ known⟩
      · cases keeps
  · rintro ⟨content, known⟩
    refine ⟨base ++ place, .file content, known, ?_⟩
    simp

/-- What a path begins with is a path, too. -/
theorem segmentsOf_front (ne : directory.text.toList ≠ []) {rest : List Char}
    (text : path.text.toList = directory.text.toList ++ rest) (h : segmentsOf path = .ok segments) :
    segmentsOf directory = .ok (Text.splitAll '/' directory.text.toList) := by
  have whole : path.text = directory.text ++ String.ofList rest := by
    rw [← String.toList_inj, text, String.toList_append, String.toList_ofList]
  unfold segmentsOf at h ⊢
  split at h
  · cases h
  next noNull =>
  split at h
  · cases h
  split at h
  · cases h
  next short =>
  rw [whole, String.utf8ByteSize_append] at short
  rw [String.contains_char_eq, decide_eq_true_iff, text, List.mem_append, not_or] at noNull
  rw [String.contains_char_eq, if_neg (by simpa using noNull.1), if_neg, if_neg (by omega)]
  rwa [String.isEmpty_iff, ← String.toList_eq_nil_iff]

theorem start_congr (same : path.isAbsolute = directory.isAbsolute) :
    disk.start path = disk.start directory := by
  unfold start
  rw [same]

/-- A path that goes on after a slash is followed to the slash first. -/
theorem find_of_append (ne : directory.text.toList ≠ []) {rest : List Char}
    (text : path.text.toList = directory.text.toList ++ '/' :: rest)
    (h : disk.find path = .ok found) : ∃ middle, disk.find directory = .ok middle ∧
      (Text.splitAll '/' rest).foldlM disk.enter middle = .ok found := by
  obtain ⟨segments, hsegments, run⟩ := bind_eq_ok.1 h
  obtain ⟨start, hstart, run⟩ := bind_eq_ok.1 run
  have own := segmentsOf_front ne text hsegments
  have absolute : path.isAbsolute = directory.isAbsolute := by
    unfold Path.isAbsolute
    rw [Path.split_of_append rest ne text]
  rw [segmentsOf_eq_ok hsegments, text, Text.splitAll_append, List.foldlM_append] at run
  obtain ⟨middle, front, back⟩ := bind_eq_ok.1 run
  rw [start_congr absolute] at hstart
  exact ⟨middle, bind_eq_ok.2 ⟨_, own, bind_eq_ok.2 ⟨start, hstart, front⟩⟩, back⟩

/-- No way leads on from a file. -/
theorem eq_directory_of_foldlM {node : Node} {text : List Char}
    (run : (Text.splitAll '/' text).foldlM disk.enter (base, node) = .ok found) :
    node = .directory := by
  cases node with
  | directory => rfl
  | file own =>
    obtain ⟨first, rest, cut⟩ := List.exists_cons_of_ne_nil (Text.splitAll_ne_nil '/' text)
    rw [cut] at run
    cases run

/-- The place of a file is an own entry of the disk. -/
theorem getElem?_of_node?_file {content : List UInt8}
    (known : disk.node? place = some (.file content)) :
    disk.nodes[place]? = some (.file content) := by
  unfold node? at known
  split at known
  · cases known
  · exact known

/-- The parts between slashes put together again. -/
theorem intercalate_splitAll (text : String) :
    "/".intercalate ((Text.splitAll '/' text.toList).map String.ofList) = text := by
  rw [← String.toList_inj, String.toList_intercalate, List.map_map]
  simpa [Function.comp_def] using Text.intercalate_splitAll '/' text.toList

theorem exists_file_of_isFile (h : disk.isFile path = true) :
    ∃ place content, disk.find path = .ok (place, .file content) := by
  unfold isFile at h
  split at h
  · next place content run => exact ⟨place, content, run⟩
  · cases h

/-- A file that plain names lead to from a directory is one of the files below it. -/
theorem exists_below_of_isFile {name : String} {c : Char}
    (last : directory.text.toList.getLast? = some c) (noSlash : c ≠ '/')
    (plain : ∀ part ∈ Text.splitAll '/' name.toList,
      Component.ofSegment? part = some (.normal (String.ofList part)))
    (h : disk.isFile (directory.child name) = true) :
    ∃ place ∈ disk.filesBelow directory, "/".intercalate place = name := by
  have relative : ∀ rest, (⟨name⟩ : Path).text.toList ≠ '/' :: rest := by
    intro rest slash
    have empty := plain [] (by rw [show name.toList = _ from slash]; simp [Text.splitAll])
    cases empty
  have ne : directory.text.toList ≠ [] := by
    intro empty
    rw [empty] at last
    cases last
  have text : (directory.child name).text.toList = directory.text.toList ++ '/' :: name.toList := by
    rw [Path.child, Path.join_of_ne_slash relative last noSlash]
    simp
  obtain ⟨place, content, hfind⟩ := exists_file_of_isFile h
  obtain ⟨⟨base, node⟩, hbase, run⟩ := find_of_append ne text hfind
  set parts := Text.splitAll '/' name.toList
  have components : parts.filterMap Component.ofSegment? =
      (parts.map String.ofList).map .normal := by
    rw [List.map_map, ← List.filterMap_eq_map]
    exact List.filterMap_congr plain
  have lead : place = base ++ parts.map String.ofList := by
    rw [← foldl_lead_normal, ← components]
    exact place_of_foldlM run
  obtain ⟨front, part, split⟩ :=
    (List.eq_nil_or_concat' parts).resolve_left (Text.splitAll_ne_nil _ _)
  have known : disk.node? place = some (.file content) := by
    refine @node?_of_foldlM disk _ _ _ (String.ofList part) run ?_
    rw [components, split]
    simp
  rw [eq_directory_of_foldlM run] at hbase
  refine ⟨parts.map String.ofList, (mem_filesBelow hbase).2 ⟨content, ?_⟩, ?_⟩
  · rw [← lead]
    exact getElem?_of_node?_file known
  · exact intercalate_splitAll name

end CommitLog.Disk
