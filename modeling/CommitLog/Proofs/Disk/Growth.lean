import CommitLog.Proofs.Disk.Lead

/-!
# Disks that grow

A disk has grown when it keeps whatever it held (`Disk.Grows`); paths that led somewhere still do.
Directories are made on the way to a path only, and a file is written at the place of its path.

    disk.Grows (makeDirectories path disk).2 (path.Passes disk.here)
    disk.writeFile path content = .ok after → disk.node? (path.placeFrom disk.here) = none →
      after.find path = .ok (path.placeFrom disk.here, .file content)
-/

namespace CommitLog.Disk

/-- What a disk holds, and where it is seen from, stays; what is new lies where it may. -/
structure Grows (disk after : Disk) (mayBe : Place → Prop) : Prop where
  here : after.here = disk.here
  kept : ∀ place node, disk.node? place = some node → after.node? place = some node
  fresh : ∀ place node, after.node? place = some node →
    disk.node? place = some node ∨ mayBe place

variable {disk middle after : Disk} {place : Place} {node : Node} {path : Path}
  {mayBe mayBe' : Place → Prop} {found next : Place × Node} {segment : List Char}
  {segments : List (List Char)} {name : String}

namespace Grows

theorem refl (disk : Disk) (mayBe : Place → Prop) : disk.Grows disk mayBe :=
  ⟨rfl, fun _ _ h => h, fun _ _ h => .inl h⟩

theorem trans (first : disk.Grows middle mayBe) (second : middle.Grows after mayBe) :
    disk.Grows after mayBe where
  here := second.here.trans first.here
  kept place node h := second.kept place node (first.kept place node h)
  fresh place node h := (second.fresh place node h).elim (first.fresh place node) .inr

theorem mono (grows : disk.Grows after mayBe) (h : ∀ place, mayBe place → mayBe' place) :
    disk.Grows after mayBe' :=
  ⟨grows.here, grows.kept, fun place node own => (grows.fresh place node own).imp_right (h place)⟩

/-- Something where nothing was. -/
theorem put (ne : place ≠ []) (absent : disk.node? place = none) (node : Node) :
    disk.Grows (disk.put place node) (· = place) where
  here := rfl
  kept other own h := by
    have differ : place ≠ other := by
      rintro rfl
      rw [absent] at h
      cases h
    rw [node?_put ne, if_neg differ, h]
  fresh other own h := by
    by_cases same : place = other
    · exact .inr same.symm
    · rw [node?_put ne, if_neg same] at h
      exact .inl h

/-! ## Paths that led somewhere -/

theorem child (grows : disk.Grows after mayBe) (h : disk.child place name = .ok found) :
    after.child place name = .ok found := by
  unfold Disk.child at h ⊢
  split at h
  · cases h
  next fits =>
    rw [if_neg fits]
    split at h
    next node own =>
      rw [grows.kept _ node own]
      exact h
    · cases h

theorem enter (grows : disk.Grows after mayBe) (h : disk.enter found segment = .ok next) :
    after.enter found segment = .ok next := by
  unfold Disk.enter at h ⊢
  split at h
  · cases h
  split at h
  · exact h
  · exact h
  · exact grows.child h

theorem foldlM_enter (grows : disk.Grows after mayBe)
    (h : segments.foldlM disk.enter found = .ok next) :
    segments.foldlM after.enter found = .ok next := by
  induction segments generalizing found with
  | nil => exact h
  | cons segment segments ih =>
    obtain ⟨middle, entered, rest⟩ := bind_eq_ok.mp h
    exact bind_eq_ok.mpr ⟨middle, grows.enter entered, ih rest⟩

theorem start (grows : disk.Grows after mayBe) (h : disk.start path = .ok found) :
    after.start path = .ok found := by
  unfold Disk.start at h ⊢
  split at h
  next absolute => exact (if_pos absolute).trans h
  next relative =>
    rw [if_neg relative, grows.here]
    split at h
    next node own =>
      rw [grows.kept _ node own]
      exact h
    · cases h

theorem follow (grows : disk.Grows after mayBe) (h : disk.follow path segments = .ok found) :
    after.follow path segments = .ok found := by
  obtain ⟨first, hfirst, run⟩ := bind_eq_ok.mp h
  exact bind_eq_ok.mpr ⟨first, grows.start hfirst, grows.foldlM_enter run⟩

/-- A path that leads somewhere leads there when the disk has grown. -/
theorem find (grows : disk.Grows after mayBe) (h : disk.find path = .ok found) :
    after.find path = .ok found := by
  obtain ⟨segments, hsegments, run⟩ := bind_eq_ok.mp h
  exact bind_eq_ok.mpr ⟨segments, hsegments, grows.follow run⟩

end Grows

/-! ## The last name of a path -/

theorem dropEmptyEnd_append {front silent : List (List Char)} {last : List Char}
    (behind : ∀ segment ∈ silent, segment.isEmpty) (loud : last ≠ []) :
    ((front ++ last :: silent).reverse.dropWhile List.isEmpty).reverse = front ++ [last] := by
  have stop : ¬ last.isEmpty = true := by rwa [List.isEmpty_iff]
  rw [List.reverse_append, List.reverse_cons, List.append_assoc, List.singleton_append,
    List.dropWhile_append_of_pos (by simpa using behind), List.dropWhile_cons_of_neg stop,
    ← List.reverse_concat, List.reverse_reverse]

/-- The directory and the last name of a path, with nothing but slashes behind it. -/
theorem of_ending {slash : Bool} (h : disk.ending path = .ok (.name place name slash)) :
    ∃ front last silent, segmentsOf path = .ok (front ++ last :: silent) ∧
      (∀ segment ∈ silent, segment.isEmpty) ∧ slash = !silent.isEmpty ∧
      Component.ofSegment? last = some (.normal name) ∧
      disk.follow path front = .ok (place, .directory) := by
  obtain ⟨segments, hsegments, h⟩ := bind_eq_ok.mp h
  have whole : (segments.reverse.dropWhile List.isEmpty).reverse ++
      segments.rtakeWhile List.isEmpty = segments := List.rdropWhile_append_rtakeWhile
  generalize (segments.reverse.dropWhile List.isEmpty).reverse = kept at h whole
  dsimp only at h
  split at h
  next ends =>
    obtain ⟨last, hlast, component⟩ := Option.bind_eq_some_iff.mp ends
    obtain ⟨front, rfl⟩ := List.getLast?_eq_some_iff.mp hlast
    rw [List.dropLast_concat] at h
    obtain ⟨found, followed, h⟩ := bind_eq_ok.mp h
    split at h
    next place =>
      cases h
      refine ⟨front, last, segments.rtakeWhile List.isEmpty, ?_, ?_, ?_, component, followed⟩
      · rw [hsegments, List.append_cons, whole]
      · exact fun segment mem => List.mem_rtakeWhile_imp mem
      · have size := congrArg List.length whole
        rw [List.length_append] at size
        rw [← size]
        cases segments.rtakeWhile List.isEmpty <;> simp
    · cases h
  next =>
    obtain ⟨_, -, h⟩ := bind_eq_ok.mp h
    cases h

theorem ending_of_segments {front silent : List (List Char)} {last : List Char}
    (hsegments : segmentsOf path = .ok (front ++ last :: silent))
    (behind : ∀ segment ∈ silent, segment.isEmpty)
    (component : Component.ofSegment? last = some (.normal name))
    (directory : disk.follow path front = .ok (place, .directory)) :
    disk.ending path = .ok (.name place name (!silent.isEmpty)) := by
  have loud : last ≠ [] := by
    rintro rfl
    cases component
  refine bind_eq_ok.mpr ⟨_, hsegments, ?_⟩
  dsimp only
  rw [dropEmptyEnd_append behind loud, List.getLast?_concat, Option.bind_some, component,
    List.dropLast_concat]
  refine bind_eq_ok.mpr ⟨_, directory, ?_⟩
  cases silent <;> simp <;> rfl

theorem components_ne_nil {slash : Bool} (h : disk.ending path = .ok (.name place name slash)) :
    path.components ≠ [] := by
  obtain ⟨front, last, silent, hsegments, -, -, component, -⟩ := of_ending h
  rw [Path.components_eq, ← segmentsOf_eq_ok hsegments, List.filterMap_append,
    List.filterMap_cons_some component]
  simp

theorem filterMap_of_isEmpty (h : ∀ segment ∈ segments, segment.isEmpty) :
    segments.filterMap Component.ofSegment? = [] := by
  refine List.filterMap_eq_nil_iff.mpr fun segment mem => ?_
  rw [List.isEmpty_iff.mp (h segment mem)]
  rfl

/-- The last name completes the place of the path. -/
theorem place_of_ending {slash : Bool} (h : disk.ending path = .ok (.name place name slash)) :
    place ++ [name] = path.placeFrom disk.here := by
  obtain ⟨front, last, silent, hsegments, behind, -, component, directory⟩ := of_ending h
  have above := place_of_follow directory
  dsimp only at above
  rw [Path.placeFrom_eq, ← segmentsOf_eq_ok hsegments, List.filterMap_append,
    List.filterMap_cons_some component, filterMap_of_isEmpty behind, List.foldl_append, ← above]
  rfl

theorem Grows.ending {slash : Bool} (grows : disk.Grows after mayBe)
    (h : disk.ending path = .ok (.name place name slash)) :
    after.ending path = .ok (.name place name slash) := by
  obtain ⟨front, last, silent, hsegments, behind, hslash, component, directory⟩ :=
    of_ending h
  exact hslash ▸ ending_of_segments hsegments behind component (grows.follow directory)

/-- A path without a slash at its end leads to what its last name names. -/
theorem find_of_ending (h : disk.ending path = .ok (.name place name false)) :
    disk.find path = disk.child place name := by
  obtain ⟨front, last, silent, hsegments, -, slash, component, directory⟩ := of_ending h
  obtain rfl : silent = [] := by simpa using slash
  have entered : disk.enter (place, .directory) last = disk.child place name := by
    unfold enter
    rw [component]
    rfl
  unfold follow at directory
  obtain ⟨start, hstart, run⟩ := bind_eq_ok.mp directory
  unfold find follow
  rw [hsegments, hstart]
  show (front ++ [last]).foldlM disk.enter start = _
  rw [List.foldlM_append, run]
  show [last].foldlM disk.enter (place, .directory) = _
  rw [List.foldlM_cons, entered]
  exact bind_pure _

/-! ## Changes -/

theorem child_eq_notFound : disk.child place name = .error .notFound ↔
    name.utf8ByteSize ≤ longestName ∧ disk.node? (place ++ [name]) = none := by
  unfold child
  split
  next long =>
    refine iff_of_false (fun h => ?_) fun h => Nat.not_lt_of_le h.1 long
    cases h
  next fits =>
    rw [Nat.not_lt] at fits
    split
    next own => simp [own]
    next absent => simp [fits, absent]

theorem child_put {node : Node} (fits : name.utf8ByteSize ≤ longestName) :
    (disk.put (place ++ [name]) node).child place name = .ok (place ++ [name], node) := by
  unfold child
  rw [if_neg (Nat.not_lt_of_le fits), node?_put (by simp), if_pos rfl]

/-- A directory is made where nothing was. -/
theorem of_makeDirectory (h : disk.makeDirectory path = .ok after) : ∃ place name slash,
    disk.ending path = .ok (.name place name slash) ∧ disk.node? (place ++ [name]) = none ∧
    after = disk.put (place ++ [name]) .directory := by
  obtain ⟨ending, hending, h⟩ := bind_eq_ok.mp h
  cases ending with
  | present => cases h
  | name place name slash =>
    dsimp only at h
    split at h
    · cases h
    next absent =>
      cases h
      exact ⟨place, name, slash, hending, (child_eq_notFound.mp absent).2, rfl⟩
    · cases h

/-- A file is written where no directory was. -/
theorem of_writeFile {content : List UInt8} (h : disk.writeFile path content = .ok after) :
    ∃ place name, disk.ending path = .ok (.name place name false) ∧
      name.utf8ByteSize ≤ longestName ∧ disk.node? (place ++ [name]) ≠ some .directory ∧
      after = disk.put (place ++ [name]) (.file content) := by
  obtain ⟨ending, hending, h⟩ := bind_eq_ok.mp h
  cases ending with
  | present => cases h
  | name place name slash =>
    dsimp only at h
    split at h
    · cases h
    next noSlash =>
      obtain rfl : slash = false := Bool.eq_false_iff.mpr noSlash
      split at h
      · cases h
      next found own run =>
        cases h
        obtain ⟨same, file⟩ := node?_of_child run
        have fits : name.utf8ByteSize ≤ longestName := by
          unfold child at run
          split at run
          · cases run
          next fits => exact Nat.le_of_not_lt fits
        dsimp only at same file
        refine ⟨place, name, hending, fits, ?_, rfl⟩
        rw [← same, file]
        exact nofun
      next run =>
        cases h
        obtain ⟨fits, absent⟩ := child_eq_notFound.mp run
        refine ⟨place, name, hending, fits, ?_, rfl⟩
        rw [absent]
        exact nofun
      · cases h

/-- The new directory is at the place of its path. -/
theorem grows_makeDirectory (h : disk.makeDirectory path = .ok after) :
    disk.Grows after (path.Passes disk.here) := by
  obtain ⟨place, name, slash, hending, absent, rfl⟩ := of_makeDirectory h
  have new := Grows.put (by simp) absent .directory
  rw [place_of_ending hending] at new ⊢
  exact new.mono fun place same => same ▸ Path.passes_placeFrom (components_ne_nil hending)

theorem grows_makeDirectoriesUpTo (count : Nat) (path : Path) (disk : Disk) :
    disk.Grows (makeDirectoriesUpTo count path disk).2 (path.Passes disk.here) := by
  induction count generalizing path disk with
  | zero => exact .refl _ _
  | succ count ih =>
    unfold makeDirectoriesUpTo
    split
    next made => exact grows_makeDirectory made
    next =>
      split
      · exact .refl _ _
      next above directory =>
        have front := Path.components_directory? directory
        have rest := (ih above disk).mono fun place passes => passes.of_prefix front
        split
        next run => exact run ▸ rest
        next middle run =>
          rw [run] at rest
          split
          next made => exact rest.trans (rest.here ▸ grows_makeDirectory made)
          · exact rest
    · exact .refl _ _

theorem grows_makeDirectories (path : Path) (disk : Disk) :
    disk.Grows (makeDirectories path disk).2 (path.Passes disk.here) := by
  unfold makeDirectories
  split
  · exact .refl _ _
  · exact grows_makeDirectoriesUpTo _ _ _

/-- A file is written at the place of its path; a path that led nowhere leads to it then. -/
theorem writeFile_eq_ok {content : List UInt8} (h : disk.writeFile path content = .ok after)
    (absent : disk.node? (path.placeFrom disk.here) = none) :
    disk.Grows after (· = path.placeFrom disk.here) ∧
      after.find path = .ok (path.placeFrom disk.here, .file content) := by
  obtain ⟨place, name, hending, fits, -, rfl⟩ := of_writeFile h
  rw [← place_of_ending hending] at absent ⊢
  have grows := Grows.put (by simp) absent (.file content)
  have directory := grows.ending hending
  refine ⟨grows, ?_⟩
  rw [find_of_ending directory, child_put fits]

/-! ## Changes that happen -/

section Places

variable (rooted : disk.Rooted) (isPlace : IsPlace (place ++ [name]))
  (directory : disk.node? place = some .directory)

include rooted isPlace directory

theorem ending_pathOf : disk.ending (pathOf (place ++ [name])) = .ok (.name place name false) := by
  have isName := isPlace.names name (by simp)
  have segments : segmentsOf (pathOf (place ++ [name])) =
      .ok (([] :: place.map String.toList) ++ name.toList :: []) := by
    rw [segmentsOf_pathOf isPlace (by simp), List.map_append]
    rfl
  have above : disk.follow (pathOf (place ++ [name])) ([] :: place.map String.toList) =
      .ok (place, .directory) := by
    refine bind_eq_ok.mpr ⟨_, start_pathOf _, ?_⟩
    exact (foldlM_enter rooted isPlace.of_append.names rfl).mpr ⟨rfl, directory⟩
  exact ending_of_segments segments nofun isName.ofSegment?.1 above

/-- A file is written into a directory, in place of nothing or of another file. -/
theorem writeFile_pathOf (free : disk.node? (place ++ [name]) ≠ some .directory)
    (content : List UInt8) : disk.writeFile (pathOf (place ++ [name])) content =
      .ok (disk.put (place ++ [name]) (.file content)) := by
  have fits := (isPlace.names name (by simp)).2.2
  refine bind_eq_ok.mpr ⟨_, ending_pathOf rooted isPlace directory, ?_⟩
  dsimp only
  rw [child, if_neg (Nat.not_lt_of_le fits)]
  match own : disk.node? (place ++ [name]) with
  | none => rfl
  | some (.file _) => rfl
  | some .directory => exact absurd own free

/-- A directory is made in a directory. -/
theorem makeDirectory_of_absent (absent : disk.node? (place ++ [name]) = none) :
    disk.makeDirectory (pathOf (place ++ [name])) =
      .ok (disk.put (place ++ [name]) .directory) := by
  have missing : disk.child place name = .error .notFound :=
    child_eq_notFound.mpr ⟨(isPlace.names name (by simp)).2.2, absent⟩
  refine bind_eq_ok.mpr ⟨_, ending_pathOf rooted isPlace directory, ?_⟩
  dsimp only
  rw [missing]
  rfl

/-- A directory that is there is not made. -/
theorem makeDirectory_of_present (present : disk.node? (place ++ [name]) = some .directory) :
    disk.makeDirectory (pathOf (place ++ [name])) = .error .exists ∧
      disk.isDirectory (pathOf (place ++ [name])) = true := by
  have isName := isPlace.names name (by simp)
  have found : disk.child place name = .ok (place ++ [name], .directory) := by
    rw [child, if_neg (Nat.not_lt_of_le isName.2.2), present]
  refine ⟨?_, (isDirectory_pathOf rooted isPlace (by simp)).mpr present⟩
  rw [makeDirectory, ending_pathOf rooted isPlace directory]
  dsimp only [bind, Except.bind]
  rw [found]
  rfl

theorem makeDirectories_of_absent (absent : disk.node? (place ++ [name]) = none) :
    makeDirectories (pathOf (place ++ [name])) disk =
      (.ok (), disk.put (place ++ [name]) .directory) := by
  rw [makeDirectories, if_neg (text_pathOf_ne_empty _), makeDirectoriesUpTo,
    makeDirectory_of_absent rooted isPlace directory absent]

/-- A directory that is there is as good as made. -/
theorem makeDirectories_of_present (present : disk.node? (place ++ [name]) = some .directory) :
    makeDirectories (pathOf (place ++ [name])) disk = (.ok (), disk) := by
  obtain ⟨refused, isDirectory⟩ := makeDirectory_of_present rooted isPlace directory present
  rw [makeDirectories, if_neg (text_pathOf_ne_empty _), makeDirectoriesUpTo, refused]
  dsimp only
  rw [isDirectory, if_pos rfl]

end Places

end CommitLog.Disk
