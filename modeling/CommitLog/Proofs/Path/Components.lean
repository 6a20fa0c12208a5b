import CommitLog.Path.Basic
import CommitLog.Proofs.Text.Parts

/-!
# Components of paths

What joining paths and taking a base away do to components.  The text of a path is split at its
slashes, and splitting goes piece by piece.

    other does not start with a slash or a dot →
      (base.join other).components = base.components ++ other.components
    path.startsWith base ↔ base.components <+: path.components
    (path.afterComponents n).components = path.components.drop n
-/

namespace CommitLog

/-- What stands for something, and not for two dots, stands for a name. -/
theorem Component.eq_normal_of_ofSegment? {segment : List Char} {component : Component}
    (h : ofSegment? segment = some component) (notParent : component ≠ .parent) :
    component = .normal (String.ofList segment) := by
  unfold ofSegment? at h
  split at h
  · cases h
  split at h
  · exact absurd (Option.some.inj h).symm notParent
  · exact (Option.some.inj h).symm

namespace Path

variable {path base other : Path}

/-! ## Joining -/

/-- A name that stands for itself as a path. -/
def IsName (name : String) : Prop := components ⟨name⟩ = [.normal name]

instance (name : String) : Decidable (IsName name) :=
  inferInstanceAs (Decidable (components ⟨name⟩ = [.normal name]))

/-- A text whose first part is neither empty nor a dot starts with neither. -/
theorem split_of_head {part : List Char} {parts : List (List Char)}
    (h : Text.splitAll '/' path.text.toList = part :: parts)
    (loud : Component.ofSegment? part ≠ none) : path.split = (none, path.text.toList) := by
  unfold split
  split
  · next rest same =>
    rw [same] at h
    simp [Text.splitAll] at h
    simp [← h.1, Component.ofSegment?] at loud
  · next same =>
    rw [same] at h
    simp [Text.splitAll] at h
    simp [← h.1, Component.ofSegment?] at loud
  · next rest same =>
    rw [same] at h
    simp [Text.splitAll] at h
    simp [← h.1, Component.ofSegment?] at loud
  · rfl

/-- A text that goes on after a slash keeps its beginning. -/
theorem split_of_append (rest : List Char) (ne : base.text.toList ≠ [])
    (h : path.text.toList = base.text.toList ++ '/' :: rest) :
    path.split = (base.split.1, base.split.2 ++ '/' :: rest) := by
  unfold split
  rw [h]
  generalize base.text.toList = text at ne
  rcases text with _ | ⟨c, _ | ⟨d, text⟩⟩
  · exact absurd rfl ne
  · by_cases slash : c = '/'
    · simp [slash]
    · by_cases dot : c = '.' <;> simp [slash, dot]
  · by_cases slash : c = '/'
    · simp [slash]
    · by_cases dot : c = '.'
      · by_cases again : d = '/' <;> simp [dot, again]
      · simp [slash, dot]

theorem components_of_append (rest : List Char) (ne : base.text.toList ≠ [])
    (h : path.text.toList = base.text.toList ++ '/' :: rest) :
    path.components =
      base.components ++ (Text.splitAll '/' rest).filterMap Component.ofSegment? := by
  unfold components segments
  rw [split_of_append rest ne h, Text.splitAll_append, List.filterMap_append, List.append_assoc]

theorem components_of_slash {rest : List Char} (h : path.text.toList = '/' :: rest) :
    path.components = .root :: (Text.splitAll '/' rest).filterMap Component.ofSegment? := by
  unfold components segments split
  rw [h]
  rfl

/-- What a path starts with apart from names. -/
theorem head_mem (path : Path) : path.split.1 ∈ [none, some .root, some .current] := by
  unfold split
  split <;> simp

/-- The components are the leading slash or dot and what stands between the slashes. -/
theorem components_eq (path : Path) : path.components = path.split.1.toList ++
    (Text.splitAll '/' path.text.toList).filterMap Component.ofSegment? := by
  unfold components segments split
  split <;> simp_all [Text.splitAll, Component.ofSegment?]

theorem components_ne_nil_of_isAbsolute (h : path.isAbsolute = true) : path.components ≠ [] := by
  have head : path.split.1 = some .root := beq_iff_eq.1 h
  rw [components, head]
  exact List.cons_ne_nil _ _

def OfNames (path : Path) : Prop := ∃ names : List String, path.components = names.map .normal

/-- A path of names starts with neither a slash nor a dot. -/
theorem OfNames.split (h : path.OfNames) : path.split.1 = none := by
  obtain ⟨names, all⟩ := h
  cases head : path.split.1 with
  | none => rfl
  | some c =>
    have first : c ∈ path.components := by
      rw [components, head]
      exact List.mem_cons_self
    rw [all] at first
    obtain ⟨name, -, rfl⟩ := List.mem_map.1 first
    have := path.head_mem
    rw [head] at this
    simp at this

theorem split_of_split_none (h : path.split.1 = none) : path.split = (none, path.text.toList) := by
  unfold split at h ⊢
  split at h <;> simp_all

theorem components_of_split_none (h : path.split.1 = none) :
    path.components = (Text.splitAll '/' path.text.toList).filterMap Component.ofSegment? := by
  unfold components segments
  rw [split_of_split_none h]
  rfl

/-- A text with a slash at its end has the components of what stands before the slash. -/
theorem components_of_append_slash (other : Path) {front : List Char}
    (h : base.text.toList = front ++ ['/'])
    (hpath : path.text.toList = base.text.toList ++ other.text.toList) : path.components =
      base.components ++ (Text.splitAll '/' other.text.toList).filterMap Component.ofSegment? := by
  rw [h, List.append_assoc] at hpath
  by_cases ne : front = []
  · subst ne
    rw [components_of_slash h, components_of_slash hpath]
    rfl
  · have hfront : (⟨String.ofList front⟩ : Path).text.toList = front := by simp
    rw [← hfront] at ne h hpath
    rw [components_of_append _ ne h, components_of_append _ ne hpath]
    simp [Text.splitAll, Component.ofSegment?]

theorem join_of_slash (relative : ∀ rest, other.text.toList ≠ '/' :: rest)
    (last : base.text.toList.getLast? = some '/') : base.join other = ⟨base.text ++ other.text⟩ := by
  unfold join
  split <;> simp_all

theorem join_of_ne_slash (relative : ∀ rest, other.text.toList ≠ '/' :: rest) {c : Char}
    (last : base.text.toList.getLast? = some c) (differ : c ≠ '/') :
    base.join other = ⟨base.text ++ "/" ++ other.text⟩ := by
  unfold join
  rw [last]
  split
  · exact absurd ‹other.text.toList = _› (relative _)
  · cases ‹some c = none›
  · exact absurd (Option.some.inj ‹some c = some '/'›) differ
  · rfl

theorem components_join (h : other.split.1 = none) :
    (base.join other).components = base.components ++ other.components := by
  have hother := components_of_split_none h
  unfold join
  split
  · next rest same =>
    rw [split, same] at h
    simp at h
  · next last _ =>
    have : base = ⟨""⟩ := by
      rw [List.getLast?_eq_none_iff, String.toList_eq_nil_iff] at last
      rw [← last]
    rw [this]
    rfl
  · next last _ =>
    obtain ⟨front, hfront⟩ := List.getLast?_eq_some_iff.1 last
    rw [hother, components_of_append_slash other hfront (by simp)]
  · next last _ =>
    have ne : base.text.toList ≠ [] := by
      rintro empty
      rw [empty] at last
      cases last
    rw [hother, components_of_append other.text.toList ne (by simp)]

theorem split_of_isName {name : String} (h : IsName name) : split ⟨name⟩ = (none, name.toList) := by
  refine split_of_split_none ?_
  unfold IsName components at h
  cases head : (split ⟨name⟩).1 with
  | none => rfl
  | some c =>
    rw [head] at h
    obtain rfl : c = .normal name := (List.cons.inj h).1
    unfold split at head
    split at head <;> cases head

theorem components_child {name : String} (h : IsName name) :
    (base.child name).components = base.components ++ [.normal name] := by
  rw [child, components_join (by rw [split_of_isName h]), h]

/-- A text between slashes that stands for a name is that name. -/
theorem isName_of_ofSegment? {segment : List Char} (noSlash : '/' ∉ segment) {name : String}
    (h : Component.ofSegment? segment = some (.normal name)) :
    name.toList = segment ∧ IsName name := by
  have text : name.toList = segment := by
    unfold Component.ofSegment? at h
    split at h
    · cases h
    · split at h
      · cases h
      · obtain rfl := Component.normal.inj (Option.some.inj h)
        exact String.toList_ofList
  have segments : Text.splitAll '/' (⟨name⟩ : Path).text.toList = [segment] := by
    rw [text, Text.splitAll_of_not_mem noSlash]
  have split := split_of_head segments (by rw [h]; exact Option.some_ne_none _)
  refine ⟨text, ?_⟩
  rw [IsName, components, Path.segments, split, segments]
  simp [h]

/-! ## Taking a base away -/

theorem startsWith_iff : path.startsWith base = true ↔ base.components <+: path.components := by
  rw [startsWith, List.isPrefixOf_iff_prefix]

theorem isSilent_iff {segment : List Char} :
    isSilent segment = true ↔ Component.ofSegment? segment = none := by
  rw [isSilent, Option.isNone_iff_eq_none]

theorem filterMap_dropWhile_isSilent (segments : List (List Char)) :
    (segments.dropWhile isSilent).filterMap Component.ofSegment? =
      segments.filterMap Component.ofSegment? := by
  induction segments with
  | nil => rfl
  | cons segment rest ih =>
    by_cases silent : isSilent segment = true
    · rw [List.dropWhile_cons_of_pos silent, ih, List.filterMap_cons_none (isSilent_iff.1 silent)]
    · rw [List.dropWhile_cons_of_neg silent]

theorem filterMap_dropSilentEnd (segments : List (List Char)) :
    (dropSilentEnd segments).filterMap Component.ofSegment? =
      segments.filterMap Component.ofSegment? := by
  rw [dropSilentEnd, List.filterMap_reverse, filterMap_dropWhile_isSilent, List.filterMap_reverse,
    List.reverse_reverse]

theorem filterMap_dropComponents (count : Nat) (segments : List (List Char)) :
    (dropComponents count segments).filterMap Component.ofSegment? =
      (segments.filterMap Component.ofSegment?).drop count := by
  fun_induction dropComponents count segments with
  | case1 => rfl
  | case2 => rfl
  | case3 count segment rest silent ih =>
    rw [ih, List.filterMap_cons_none (isSilent_iff.1 silent)]
  | case4 count segment rest loud ih =>
    obtain ⟨c, hc⟩ := Option.ne_none_iff_exists'.1 fun h => loud (isSilent_iff.2 h)
    rw [ih, List.filterMap_cons_some hc, List.drop_succ_cons]

theorem dropComponents_sublist (count : Nat) (segments : List (List Char)) :
    (dropComponents count segments).Sublist segments := by
  fun_induction dropComponents count segments with
  | case1 | case2 => exact .refl _
  | case3 _ _ _ _ ih | case4 _ _ _ _ ih => exact ih.cons _

theorem dropSilentEnd_front (segments : List (List Char)) :
    dropSilentEnd segments <+: segments := by
  have := List.reverse_prefix.2 (List.dropWhile_suffix isSilent (l := segments.reverse))
  rwa [List.reverse_reverse] at this

/-- Segments of which the first counts are put together to a relative path. -/
theorem assemble_none {segments : List (List Char)} (noSlash : ∀ s ∈ segments, '/' ∉ s)
    (loud : ∀ s ∈ segments.head?, isSilent s = false) :
    (assemble none segments).split.1 = none ∧
      (assemble none segments).components = segments.filterMap Component.ofSegment? := by
  have text : (assemble none segments).text.toList = ['/'].intercalate segments := by
    simp [assemble]
  cases segments with
  | nil =>
    have : assemble none [] = ⟨""⟩ := rfl
    rw [this]
    exact ⟨rfl, rfl⟩
  | cons first rest =>
    have parts : Text.splitAll '/' (assemble none (first :: rest)).text.toList = first :: rest := by
      rw [text, Text.splitAll_intercalate (List.cons_ne_nil _ _) noSlash]
    have hsplit := split_of_head parts fun silent => by
      have := loud first rfl
      rw [isSilent_iff.2 silent] at this
      cases this
    have relative : (assemble none (first :: rest)).split.1 = none := by rw [hsplit]
    exact ⟨relative, by rw [components_of_split_none relative, parts]⟩

theorem assemble_rest {segments : List (List Char)} (noSlash : ∀ s ∈ segments, '/' ∉ s) :
    (assemble none (dropSilentEnd (segments.dropWhile isSilent))).split.1 = none ∧
      (assemble none (dropSilentEnd (segments.dropWhile isSilent))).components =
        segments.filterMap Component.ofSegment? := by
  have front := dropSilentEnd_front (segments.dropWhile isSilent)
  have assembled := assemble_none
    (fun s hs => noSlash s ((List.dropWhile_sublist _).subset (front.subset hs))) fun s hs => by
      have first : (segments.dropWhile isSilent).head? = some s := by
        obtain ⟨rest, hrest⟩ := front
        rw [← hrest, List.head?_append, Option.mem_def.1 hs]
        rfl
      have := List.head?_dropWhile_not isSilent segments
      rw [first] at this
      exact this
  rwa [filterMap_dropSilentEnd, filterMap_dropWhile_isSilent] at assembled

/-- What is left of a path after some components. -/
theorem components_afterComponents (path : Path) (count : Nat) :
    (path.afterComponents (count + 1)).split.1 = none ∧
      (path.afterComponents (count + 1)).components = path.components.drop (count + 1) := by
  have noSlash (n : Nat) : ∀ s ∈ dropComponents n path.segments, '/' ∉ s := fun s hs =>
    Text.not_mem_of_mem_splitAll ((dropComponents_sublist n _).subset hs)
  have hpath : path.components =
      path.split.1.toList ++ path.segments.filterMap Component.ofSegment? := rfl
  unfold afterComponents
  rw [hpath]
  cases head : path.split.1 with
  | none =>
    obtain ⟨relative, rest⟩ := assemble_rest (noSlash (count + 1))
    exact ⟨relative, by rw [rest, filterMap_dropComponents]; rfl⟩
  | some c =>
    obtain ⟨relative, rest⟩ := assemble_rest (noSlash count)
    exact ⟨relative, by rw [rest, filterMap_dropComponents]; rfl⟩

/-- A path relative to a base that is not empty has the components after those of the base. -/
theorem stripBase?_eq_some {rest : Path} (ne : base.components ≠ [])
    (h : path.stripBase? base = some rest) :
    rest.split.1 = none ∧ path.components = base.components ++ rest.components := by
  unfold stripBase? at h
  split at h
  · next starts =>
    obtain ⟨tail, htail⟩ := startsWith_iff.1 starts
    obtain ⟨count, hcount⟩ := Nat.exists_eq_succ_of_ne_zero (mt List.length_eq_zero_iff.1 ne)
    obtain rfl := Option.some.inj h
    rw [hcount]
    obtain ⟨relative, rest⟩ := components_afterComponents path count
    refine ⟨relative, ?_⟩
    rw [rest, ← Nat.succ_eq_add_one, ← hcount, ← htail, List.drop_left]
  · cases h

theorem isSome_stripBase? : (path.stripBase? base).isSome = path.startsWith base := by
  unfold stripBase?
  split <;> simp_all

/-! ## The way to a path -/

theorem assemble_segments (path : Path) : assemble path.split.1 path.segments = path := by
  have text : (path.split.1.map Component.text).getD "" ++ String.ofList path.split.2 =
      path.text := by
    rw [← String.toList_inj, String.toList_append, String.toList_ofList]
    unfold split
    split <;> simp_all [Component.text]
  rw [assemble, segments, Text.intercalate_splitAll, text]

theorem components_assemble_nil (path : Path) :
    (assemble path.split.1 []).components = path.split.1.toList := by
  have heads : ∀ head ∈ [none, some .root, some .current],
      (assemble head []).components = head.toList := by decide
  exact heads _ path.head_mem

/-- The first segments behind the head stand for the first components. -/
theorem components_assemble_front {front : List (List Char)} (h : front <+: path.segments) :
    (assemble path.split.1 front).components <+: path.components := by
  obtain ⟨more, whole⟩ := h
  by_cases noFront : front = []
  · rw [noFront, components_assemble_nil]
    exact List.prefix_append _ _
  by_cases noMore : more = []
  · rw [noMore, List.append_nil] at whole
    have same : assemble path.split.1 front = path := by rw [whole, assemble_segments]
    simp only [same, List.prefix_rfl]
  have text : path.text.toList = (assemble path.split.1 front).text.toList ++
      '/' :: ['/'].intercalate more := by
    calc path.text.toList = (assemble path.split.1 (front ++ more)).text.toList := by
          rw [whole, assemble_segments]
      _ = _ := by simp [assemble, Text.intercalate_append noFront noMore]
  by_cases empty : (assemble path.split.1 front).text.toList = []
  · have : assemble path.split.1 front = ⟨""⟩ := by
      rw [← String.toList_eq_nil_iff.mp empty]
    rw [this]
    exact List.nil_prefix
  · rw [components_of_append _ empty text]
    exact List.prefix_append _ _

/-- The directory that holds what a path names is on the way to it. -/
theorem components_directory? {above : Path} (h : path.directory? = some above) :
    above.components <+: path.components := by
  unfold directory? at h
  split at h
  · cases h
  · cases h
  · cases h
    exact List.nil_prefix
  · obtain rfl := Option.some.inj h
    refine components_assemble_front ?_
    exact ((dropSilentEnd_front _).trans (List.dropLast_prefix _)).trans (dropSilentEnd_front _)

end Path

end CommitLog
