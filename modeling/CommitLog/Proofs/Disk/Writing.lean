import CommitLog.Proofs.Disk.Growth
import CommitLog.Proofs.Disk.Segments

/-!
# Writing on a rooted disk

Making directories and writing files keeps everything in directories.  Made directories hold no
files (`Disk.AddsDirectories`), and a written file lies at the place of its path, with everything
beside it as before (`Disk.Placed`).  Nothing but a file on the way, a long name or a long path
stands against making directories (`Disk.exists_makeDirectories`).

    disk.AddsDirectories (makeDirectories path disk).2
    disk.Rooted → IsPlace place → no file is on the way to the place →
      (makeDirectories (pathOf place) disk).1 = .ok ()
-/

namespace CommitLog.Disk

variable {disk after : Disk} {place target : Place} {node : Node} {path : Path} {name : String}
  {found next : Place × Node} {segment : List Char} {segments : List (List Char)}

/-! ## Following paths -/

theorem node?_of_enter (rooted : disk.Rooted) (here : disk.node? found.1 = some found.2)
    (h : disk.enter found segment = .ok next) : disk.node? next.1 = some next.2 := by
  unfold enter at h
  split at h
  · cases h
  next directory =>
  rw [directory] at here
  split at h
  · cases h
    rw [here, directory]
  · cases h
    rcases List.eq_nil_or_concat' found.1 with root | ⟨above, last, whole⟩
    · rw [root]
      rfl
    · rw [whole] at here ⊢
      rw [List.dropLast_concat]
      exact rooted above last .directory here
  · exact (node?_of_child h).2

theorem node?_of_follow (rooted : disk.Rooted) (h : disk.follow path segments = .ok found) :
    disk.node? found.1 = some found.2 := by
  obtain ⟨start, hstart, run⟩ := bind_eq_ok.mp h
  have here : disk.node? start.1 = some start.2 := by
    unfold Disk.start at hstart
    split at hstart
    · cases hstart
      rfl
    · split at hstart
      next node own =>
        cases hstart
        exact own
      · cases hstart
  clear h hstart
  induction segments generalizing start with
  | nil =>
    cases run
    exact here
  | cons segment segments ih =>
    obtain ⟨middle, entered, run⟩ := bind_eq_ok.mp run
    exact ih middle run (node?_of_enter rooted here entered)

/-- What a path leads to is there. -/
theorem Rooted.node?_of_find (rooted : disk.Rooted) (h : disk.find path = .ok found) :
    disk.node? found.1 = some found.2 := by
  obtain ⟨_, -, run⟩ := bind_eq_ok.mp h
  exact node?_of_follow rooted run

theorem short_of_segmentsOf (h : segmentsOf path = .ok segments) :
    path.text.utf8ByteSize < longestPath := by
  unfold segmentsOf at h
  split at h
  · cases h
  split at h
  · cases h
  split at h
  · cases h
  next short => exact Nat.lt_of_not_le short

/-- The last name of a path is asked for in a directory. -/
theorem directory_of_ending (rooted : disk.Rooted) {slash : Bool}
    (h : disk.ending path = .ok (.name place name slash)) : disk.node? place = some .directory := by
  obtain ⟨front, last, silent, -, -, -, -, directory⟩ := of_ending h
  exact node?_of_follow rooted directory

/-- The names on an absolute path are names that files can have. -/
theorem names_of_ending (absolute : path.isAbsolute = true) {slash : Bool}
    (h : disk.ending path = .ok (.name place name slash))
    (fits : name.utf8ByteSize ≤ longestName) : ∀ other ∈ place ++ [name], IsFileName other := by
  obtain ⟨front, last, silent, hsegments, -, -, component, directory⟩ := of_ending h
  have parts := parts_of_segmentsOf hsegments
  obtain ⟨start, hstart, run⟩ := bind_eq_ok.mp directory
  unfold Disk.start at hstart
  rw [if_pos absolute] at hstart
  obtain rfl := Except.ok.inj hstart
  have above := names_of_foldlM (by simp) (fun part mem => parts part (by simp [mem])) run
  intro other mem
  rcases List.mem_append.mp mem with mem | mem
  · exact above other mem
  · rw [List.mem_singleton.mp mem]
    obtain ⟨noSlash, noNull⟩ := parts last (by simp)
    obtain ⟨text, isName⟩ := Path.isName_of_ofSegment? noSlash component
    exact ⟨isName, text ▸ noNull, fits⟩

/-! ## What changes keep -/

/-- A disk has the nodes that it had, and new directories in directories. -/
structure AddsDirectories (disk after : Disk) : Prop where
  kept : ∀ place node, disk.node? place = some node → after.node? place = some node
  files : ∀ place content, after.node? place = some (.file content) →
    disk.node? place = some (.file content)
  rooted : disk.Rooted → after.Rooted

theorem AddsDirectories.refl (disk : Disk) : disk.AddsDirectories disk :=
  ⟨fun _ _ h => h, fun _ _ h => h, id⟩

theorem AddsDirectories.trans {middle : Disk} (first : disk.AddsDirectories middle)
    (second : middle.AddsDirectories after) : disk.AddsDirectories after where
  kept place node h := second.kept place node (first.kept place node h)
  files place content h := first.files place content (second.files place content h)
  rooted h := second.rooted (first.rooted h)

theorem addsDirectories_makeDirectory (h : disk.makeDirectory path = .ok after) :
    disk.AddsDirectories after := by
  obtain ⟨place, name, slash, hending, absent, rfl⟩ := of_makeDirectory h
  refine ⟨(Grows.put (by simp) absent .directory).kept, fun other content file => ?_,
    fun rooted => ?_⟩
  · rw [node?_put (by simp)] at file
    split at file
    · cases Option.some.inj file
    · exact file
  · exact rooted.put (directory_of_ending rooted hending) (by rw [absent]; exact nofun)

theorem addsDirectories_makeDirectoriesUpTo (count : Nat) (path : Path) (disk : Disk) :
    disk.AddsDirectories (makeDirectoriesUpTo count path disk).2 := by
  induction count generalizing path disk with
  | zero => exact .refl disk
  | succ count ih =>
    unfold makeDirectoriesUpTo
    split
    next made => exact addsDirectories_makeDirectory made
    next =>
      split
      · exact .refl disk
      next above _ =>
        have rest := ih above disk
        split
        next run => exact run ▸ rest
        next middle run =>
          rw [run] at rest
          split
          next made => exact rest.trans (addsDirectories_makeDirectory made)
          · exact rest
    · exact .refl disk

theorem addsDirectories_makeDirectories (path : Path) (disk : Disk) :
    disk.AddsDirectories (makeDirectories path disk).2 := by
  unfold makeDirectories
  split
  · exact .refl disk
  · exact addsDirectories_makeDirectoriesUpTo _ path disk

/-! ## Written files -/

theorem isAbsolute_of_slash {rest : List Char} (h : path.text.toList = '/' :: rest) :
    path.isAbsolute = true := by
  unfold Path.isAbsolute Path.split
  rw [h]
  rfl

/-- The path of a place is absolute and leads forward to the place. -/
theorem leads_pathOf (names : ∀ name ∈ target, IsFileName name) :
    (pathOf target).isAbsolute = true ∧ .parent ∉ (pathOf target).components ∧
      ∀ here, (pathOf target).placeFrom here = target := by
  refine ⟨isAbsolute_of_slash (toList_pathOf _), ?_, fun here => placeFrom_pathOf names here⟩
  rw [components_pathOf names]
  simp

/-- A place has a file with this content; beside it there are the same files as before, no fewer
directories, and new ones only on the way to it. -/
structure Placed (disk after : Disk) (target : Place) (content : List UInt8) : Prop where
  own : after.node? target = some (.file content)
  kept : ∀ place node, place ≠ target → disk.node? place = some node →
    after.node? place = some node
  files : ∀ place other, place ≠ target → after.node? place = some (.file other) →
    disk.node? place = some (.file other)
  folders : ∀ place, after.node? place = some .directory →
    disk.node? place = some .directory ∨ place <+: target
  rooted : after.Rooted

/-- A file is written at the place of an absolute path. -/
theorem placed_of_writeFile (rooted : disk.Rooted) (absolute : path.isAbsolute = true)
    (leads : ∀ here, path.placeFrom here = target) {content : List UInt8}
    (written : disk.writeFile path content = .ok after) :
    Placed disk after target content ∧ (∀ name ∈ target, IsFileName name) ∧
      path.text.utf8ByteSize < longestPath := by
  obtain ⟨place, name, hending, fits, free, rfl⟩ := of_writeFile written
  obtain rfl : place ++ [name] = target := (place_of_ending hending).trans (leads disk.here)
  obtain ⟨_, _, _, hsegments, -⟩ := of_ending hending
  have ne : place ++ [name] ≠ [] := by simp
  have beside {other : Place} (differ : other ≠ place ++ [name]) :
      (disk.put (place ++ [name]) (.file content)).node? other = disk.node? other := by
    rw [node?_put ne, if_neg (Ne.symm differ)]
  refine ⟨⟨?own, fun other node differ h => ?_, fun other content' differ h => ?_,
    fun other h => ?_, rooted.put (directory_of_ending rooted hending) free⟩,
    names_of_ending absolute hending fits, short_of_segmentsOf hsegments⟩
  case own => rw [node?_put ne, if_pos rfl]
  · rwa [beside differ]
  · rwa [beside differ] at h
  · by_cases same : other = place ++ [name]
    · exact .inr (same ▸ List.prefix_rfl)
    · rw [beside same] at h
      exact .inl h

/-! ## Making the directories of a place -/

theorem foldlM_enter_missing {names : Place} (areNames : ∀ name ∈ names, IsFileName name)
    (directory : disk.node? place = some .directory) (absent : disk.node? (place ++ names) = none)
    (free : ∀ front content, front <+: names →
      disk.node? (place ++ front) ≠ some (.file content)) :
    (names.map String.toList).foldlM disk.enter (place, .directory) = .error .notFound := by
  induction names generalizing place with
  | nil =>
    rw [List.append_nil, directory] at absent
    cases absent
  | cons name names ih =>
    rw [List.map_cons, List.foldlM_cons, enter_name (areNames name List.mem_cons_self)]
    match own : disk.node? (place ++ [name]) with
    | none => rfl
    | some (.file content) => exact absurd own (free [name] content (by simp))
    | some .directory =>
      rw [List.append_cons] at absent
      refine ih (fun n hn => areNames n (List.mem_cons_of_mem _ hn)) own absent ?_
      intro front content hfront
      rw [← List.append_cons]
      exact free (name :: front) content ((List.prefix_cons_inj name).mpr hfront)

/-- Where the directory above is missing, a directory is not made. -/
theorem makeDirectory_of_missing (isPlace : IsPlace (place ++ [name]))
    (absent : disk.node? place = none)
    (free : ∀ front content, front <+: place → disk.node? front ≠ some (.file content)) :
    disk.makeDirectory (pathOf (place ++ [name])) = .error .notFound := by
  have loud : name.toList ≠ [] := (isPlace.names name (by simp)).toList_ne_nil
  have segments : segmentsOf (pathOf (place ++ [name])) =
      .ok (([] :: place.map String.toList) ++ name.toList :: []) := by
    rw [segmentsOf_pathOf isPlace (by simp), List.map_append]
    rfl
  have above : disk.follow (pathOf (place ++ [name])) ([] :: place.map String.toList) =
      .error .notFound := by
    unfold follow
    rw [start_pathOf]
    have root : disk.node? [] = some .directory := rfl
    exact foldlM_enter_missing isPlace.of_append.names root absent free
  have ending : disk.ending (pathOf (place ++ [name])) = .error .notFound := by
    unfold Disk.ending
    rw [segments]
    dsimp only [bind, Except.bind]
    rw [dropEmptyEnd_append (by simp) loud, List.getLast?_concat, Option.bind_some,
      (isPlace.names name (by simp)).ofSegment?.1, List.dropLast_concat]
    dsimp only
    rw [above]
  rw [makeDirectory, ending]
  rfl

/-- A directory is made in a directory unless it is there already. -/
theorem exists_makeDirectory (rooted : disk.Rooted) (isPlace : IsPlace (place ++ [name]))
    (directory : disk.node? place = some .directory)
    (free : ∀ content, disk.node? (place ++ [name]) ≠ some (.file content)) :
    ∃ after, after.node? (place ++ [name]) = some .directory ∧
      (disk.makeDirectory (pathOf (place ++ [name])) = .ok after ∨
        disk.makeDirectory (pathOf (place ++ [name])) = .error .exists ∧
          disk.isDirectory (pathOf (place ++ [name])) = true ∧ after = disk) := by
  match own : disk.node? (place ++ [name]) with
  | none =>
    refine ⟨disk.put (place ++ [name]) .directory, ?_,
      .inl (makeDirectory_of_absent rooted isPlace directory own)⟩
    rw [node?_put (by simp), if_pos rfl]
  | some (.file content) => exact absurd own (free content)
  | some .directory =>
    obtain ⟨refused, isDirectory⟩ := makeDirectory_of_present rooted isPlace directory own
    exact ⟨disk, own, .inr ⟨refused, isDirectory, rfl⟩⟩

theorem exists_makeDirectoriesUpTo (rooted : disk.Rooted) (isPlace : IsPlace place)
    (ne : place ≠ [])
    (free : ∀ front content, front <+: place → disk.node? front ≠ some (.file content))
    (count : Nat) (enough : place.length ≤ count) :
    ∃ after, makeDirectoriesUpTo count (pathOf place) disk = (.ok (), after) ∧
      after.node? place = some .directory := by
  induction place using List.reverseRecOn generalizing count with
  | nil => exact absurd rfl ne
  | append_singleton above name ih =>
    obtain ⟨count, rfl⟩ : ∃ n, count = n + 1 := by
      rw [List.length_append, List.length_singleton] at enough
      exact ⟨count - 1, by omega⟩
    have freeAbove (front : Place) (content : List UInt8) (hfront : front <+: above) :=
      free front content (hfront.trans (List.prefix_append _ _))
    have freeOwn (content : List UInt8) := free (above ++ [name]) content List.prefix_rfl
    match own : disk.node? above with
    | some (.file content) => exact absurd own (freeAbove above content List.prefix_rfl)
    | some .directory =>
      obtain ⟨after, present, made⟩ := exists_makeDirectory rooted isPlace own freeOwn
      refine ⟨after, ?_, present⟩
      rcases made with made | ⟨refused, isDirectory, rfl⟩
      · rw [makeDirectoriesUpTo, made]
      · rw [makeDirectoriesUpTo, refused]
        dsimp only
        rw [isDirectory, if_pos rfl]
    | none =>
      -- the directory above is made first
      have root : above ≠ [] := by
        rintro rfl
        cases own
      obtain ⟨middle, madeAbove, presentAbove⟩ := ih isPlace.of_append root freeAbove count (by
        rw [List.length_append, List.length_singleton] at enough
        omega)
      have adds := addsDirectories_makeDirectoriesUpTo count (pathOf above) disk
      rw [madeAbove] at adds
      obtain ⟨after, present, made⟩ := exists_makeDirectory (adds.rooted rooted) isPlace
        presentAbove fun content file => freeOwn content (adds.files _ content file)
      refine ⟨after, ?_, present⟩
      rw [makeDirectoriesUpTo, makeDirectory_of_missing isPlace own freeAbove]
      dsimp only
      rw [directory?_pathOf isPlace.names]
      dsimp only
      rw [madeAbove]
      dsimp only
      rcases made with made | ⟨refused, isDirectory, rfl⟩
      · rw [made]
      · rw [refused]
        dsimp only
        rw [isDirectory, if_pos rfl]

/-- The directories of a place can be made when no file is on the way to it. -/
theorem exists_makeDirectories (rooted : disk.Rooted) (isPlace : IsPlace place) (ne : place ≠ [])
    (free : ∀ front content, front <+: place → disk.node? front ≠ some (.file content)) :
    ∃ after, makeDirectories (pathOf place) disk = (.ok (), after) ∧
      after.node? place = some .directory ∧ disk.AddsDirectories after ∧
      disk.Grows after (· <+: place) := by
  obtain ⟨after, made, present⟩ := exists_makeDirectoriesUpTo rooted isPlace ne free
    ((pathOf place).components.length + 1) (by
      rw [components_pathOf isPlace.names, List.length_cons, List.length_map]
      omega)
  have run : makeDirectories (pathOf place) disk = (.ok (), after) := by
    rw [makeDirectories, if_neg (text_pathOf_ne_empty _), made]
  have adds := addsDirectories_makeDirectories (pathOf place) disk
  have grows := grows_makeDirectories (pathOf place) disk
  rw [run] at adds grows
  refine ⟨after, run, present, adds, grows.mono fun other passes => ?_⟩
  have front := passes.prefix_placeFrom (by simp [components_pathOf isPlace.names])
  rwa [placeFrom_pathOf isPlace.names] at front

/-- On the way to a place below one where nothing lies there is no file. -/
theorem ne_file_of_absent (rooted : disk.Rooted) (directory : disk.node? place = some .directory)
    (absent : disk.node? (place ++ [name]) = none) {rest front : Place} {content : List UInt8}
    (h : front <+: place ++ name :: rest) : disk.node? front ≠ some (.file content) := by
  intro file
  obtain ⟨behind, whole⟩ := h
  rcases List.append_eq_append_iff.1 whole with ⟨more, rfl, -⟩ | ⟨more, rfl, below⟩
  · rw [rooted.directory_of_prefix (List.prefix_append _ _) directory] at file
    cases file
  · cases more with
    | nil =>
      rw [List.append_nil, directory] at file
      cases file
    | cons next more =>
      obtain ⟨rfl, -⟩ := List.cons.inj below
      rw [List.append_cons, rooted.absent_below absent] at file
      cases file

end CommitLog.Disk
