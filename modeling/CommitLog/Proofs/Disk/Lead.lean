import CommitLog.Proofs.Disk.Lookup

/-!
# Where paths lead

The components of a path lead from place to place, whatever a disk holds there.  The disk decides
whether one gets to the end, and a path that does get there has led to its place.

    disk.find path = .ok (place, node) → place = path.placeFrom disk.here
-/

namespace CommitLog

/-- Where a component leads from a place. -/
def Component.lead (place : Place) : Component → Place
  | .root => []
  | .current => place
  | .parent => place.dropLast
  | .normal name => place ++ [name]

namespace Path

/-- The place that a path names, seen from a directory. -/
def placeFrom (path : Path) (here : Place) : Place := path.components.foldl Component.lead here

/-- The places that the components of a path lead to, one after the other. -/
def Passes (path : Path) (here place : Place) : Prop :=
  ∃ front, front ≠ [] ∧ front <+: path.components ∧ place = front.foldl Component.lead here

variable {path above : Path} {here place : Place}

theorem passes_placeFrom (ne : path.components ≠ []) : path.Passes here (path.placeFrom here) :=
  ⟨path.components, ne, List.prefix_rfl, rfl⟩

theorem Passes.of_prefix (h : above.Passes here place)
    (front : above.components <+: path.components) : path.Passes here place := by
  obtain ⟨own, ne, hown, rfl⟩ := h
  exact ⟨own, ne, hown.trans front, rfl⟩

/-- An absolute path starts from the root; the texts between its slashes do the rest. -/
theorem placeFrom_eq (path : Path) (here : Place) : path.placeFrom here =
    ((Text.splitAll '/' path.text.toList).filterMap Component.ofSegment?).foldl Component.lead
      (if path.isAbsolute then [] else here) := by
  have heads : ∀ head ∈ [none, some Component.root, some Component.current],
      head.toList.foldl Component.lead here = if head == some .root then [] else here := by
    simp [Component.lead]
  rw [placeFrom, components_eq, List.foldl_append, heads _ path.head_mem]
  rfl

/-- When the last component is a name, it stands after the last slash but for silent texts. -/
theorem getLast?_segments {name : String} (h : path.components.getLast? = some (.normal name)) :
    ((Text.splitAll '/' path.text.toList).filterMap Component.ofSegment?).getLast? =
      some (.normal name) := by
  have heads : ∀ head ∈ [none, some Component.root, some Component.current],
      head.toList.getLast? ≠ some (.normal name) := by simp
  rw [components_eq, List.getLast?_append] at h
  cases last : ((Text.splitAll '/' path.text.toList).filterMap Component.ofSegment?).getLast? with
  | none =>
    rw [last, Option.none_or] at h
    exact absurd h (heads _ path.head_mem)
  | some component => rwa [last, Option.some_or] at h

/-- Only the first component can be the root. -/
theorem root_not_mem_tail (path : Path) : .root ∉ path.components.tail := by
  have names : .root ∉ (Text.splitAll '/' path.text.toList).filterMap Component.ofSegment? := by
    intro mem
    obtain ⟨segment, -, component⟩ := List.mem_filterMap.mp mem
    cases Component.eq_normal_of_ofSegment? component (by simp)
  rw [components_eq]
  cases path.split.1 with
  | none => exact fun mem => names (List.mem_of_mem_tail mem)
  | some head => exact names

theorem prefix_foldl_lead {components : List Component} (noRoot : .root ∉ components)
    (forward : .parent ∉ components) : place <+: components.foldl Component.lead place := by
  induction components generalizing place with
  | nil => exact List.prefix_rfl
  | cons component components ih =>
    obtain ⟨notRoot, noRoot⟩ := List.ne_and_not_mem_of_not_mem_cons noRoot
    obtain ⟨notParent, forward⟩ := List.ne_and_not_mem_of_not_mem_cons forward
    have next : place <+: Component.lead place component := by
      cases component with
      | root => exact absurd rfl notRoot
      | parent => exact absurd rfl notParent
      | current => exact List.prefix_rfl
      | normal name => exact List.prefix_append _ _
    exact next.trans (ih noRoot forward)

/-- A path without two dots never leads back. -/
theorem Passes.prefix_placeFrom (h : path.Passes here place) (forward : .parent ∉ path.components) :
    place <+: path.placeFrom here := by
  obtain ⟨front, ne, ⟨more, whole⟩, rfl⟩ := h
  have noRoot := path.root_not_mem_tail
  obtain ⟨first, front, rfl⟩ := List.exists_cons_of_ne_nil ne
  rw [placeFrom, ← whole, List.foldl_append]
  rw [← whole] at noRoot forward
  exact prefix_foldl_lead (fun mem => noRoot (List.mem_append_right _ mem))
    fun mem => forward (List.mem_append_right _ mem)

end Path

namespace Disk

variable {disk : Disk} {path : Path} {found next : Place × Node} {segment : List Char}
  {segments : List (List Char)}

/-! ## Following a path -/

/-- Going on by a text leads where its component leads. -/
theorem place_of_enter (h : disk.enter found segment = .ok next) :
    next.1 = (Component.ofSegment? segment).toList.foldl Component.lead found.1 := by
  unfold enter at h
  split at h
  · cases h
  split at h
  next silent =>
    cases h
    rw [silent]
    rfl
  next parent =>
    cases h
    rw [parent]
    rfl
  next component notParent some =>
    obtain rfl := Component.eq_normal_of_ofSegment? some notParent
    unfold child at h
    split at h
    · cases h
    split at h
    · cases h
      rw [some]
      rfl
    · cases h

theorem place_of_foldlM (h : segments.foldlM disk.enter found = .ok next) :
    next.1 = (segments.filterMap Component.ofSegment?).foldl Component.lead found.1 := by
  induction segments generalizing found with
  | nil =>
    cases h
    rfl
  | cons segment segments ih =>
    obtain ⟨middle, entered, rest⟩ := bind_eq_ok.mp h
    rw [ih rest, place_of_enter entered]
    cases component : Component.ofSegment? segment with
    | none => rw [List.filterMap_cons_none component]; rfl
    | some c => rw [List.filterMap_cons_some component]; rfl

theorem place_of_start (h : disk.start path = .ok found) :
    found.1 = if path.isAbsolute then [] else disk.here := by
  unfold start at h
  split at h
  next absolute =>
    cases h
    rw [if_pos absolute]
  next relative =>
    split at h
    · cases h
      rw [if_neg relative]
    · cases h

theorem place_of_follow (h : disk.follow path segments = .ok found) :
    found.1 = (segments.filterMap Component.ofSegment?).foldl Component.lead
      (if path.isAbsolute then [] else disk.here) := by
  obtain ⟨start, hstart, run⟩ := bind_eq_ok.mp h
  rw [place_of_foldlM run, place_of_start hstart]

theorem segmentsOf_eq_ok (h : segmentsOf path = .ok segments) :
    segments = Text.splitAll '/' path.text.toList := by
  unfold segmentsOf at h
  split at h
  · cases h
  split at h
  · cases h
  split at h
  · cases h
  exact (Except.ok.inj h).symm

/-- A path leads to its place. -/
theorem place_of_find (h : disk.find path = .ok found) :
    found.1 = path.placeFrom disk.here := by
  obtain ⟨segments, hsegments, run⟩ := bind_eq_ok.mp h
  rw [place_of_follow run, Path.placeFrom_eq, segmentsOf_eq_ok hsegments]

/-- Names lead on from a place. -/
theorem foldl_lead_normal (place names : Place) :
    (names.map Component.normal).foldl Component.lead place = place ++ names := by
  induction names generalizing place with
  | nil => simp
  | cons name names ih =>
    rw [List.map_cons, List.foldl_cons, ih, Component.lead, List.append_assoc]
    rfl

/-- The path of a place names the place, wherever it is seen from. -/
theorem placeFrom_pathOf {place : Place} (names : ∀ name ∈ place, IsFileName name) (here : Place) :
    (pathOf place).placeFrom here = place := by
  rw [Path.placeFrom, components_pathOf names, List.foldl_cons]
  exact foldl_lead_normal [] place

/-! ## What is found -/

theorem node?_of_child {place : Place} {name : String} (h : disk.child place name = .ok found) :
    found.1 = place ++ [name] ∧ disk.node? found.1 = some found.2 := by
  unfold child at h
  split at h
  · cases h
  split at h
  next node here =>
    cases h
    exact ⟨rfl, here⟩
  · cases h

theorem node?_of_foldlM {name : String} (h : segments.foldlM disk.enter found = .ok next)
    (last : (segments.filterMap Component.ofSegment?).getLast? = some (.normal name)) :
    disk.node? next.1 = some next.2 := by
  induction segments using List.reverseRecOn generalizing next with
  | nil => cases last
  | append_singleton segments segment ih =>
    rw [List.foldlM_append, bind_eq_ok] at h
    obtain ⟨middle, front, h⟩ := h
    rw [List.foldlM_cons, bind_eq_ok] at h
    obtain ⟨_, entered, h⟩ := h
    cases h
    rw [List.filterMap_append] at last
    unfold enter at entered
    split at entered
    · cases entered
    split at entered
    next silent =>
      cases entered
      rw [List.filterMap_cons_none silent, List.filterMap_nil, List.append_nil] at last
      exact ih front last
    next parent =>
      rw [List.filterMap_cons_some parent, List.filterMap_nil, List.getLast?_concat] at last
      cases last
    next => exact (node?_of_child entered).2

/-- A path that ends in a name leads to what its place holds. -/
theorem node?_of_find {name : String} (h : disk.find path = .ok found)
    (last : path.components.getLast? = some (.normal name)) :
    disk.node? found.1 = some found.2 := by
  obtain ⟨segments, hsegments, run⟩ := bind_eq_ok.mp h
  obtain ⟨start, -, run⟩ := bind_eq_ok.mp run
  have last := Path.getLast?_segments last
  rw [← segmentsOf_eq_ok hsegments] at last
  exact node?_of_foldlM run last

end Disk

end CommitLog
