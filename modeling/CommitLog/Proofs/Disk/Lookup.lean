import CommitLog.Disk.Change
import CommitLog.Proofs.Path.Components
import CommitLog.Proofs.Path.Order
import CommitLog.Proofs.Steps
import Mathlib.Data.List.Nodup

/-!
# Looking up places

Everything on a disk lies in directories (`Disk.Rooted`), so the path of a place leads to what the
place holds.  A new node in a directory keeps this.

    disk.Rooted → (disk.find (pathOf place) = .ok (found, node) ↔
      found = place ∧ disk.node? place = some node)
-/

namespace CommitLog.Disk

/-- Whatever lies somewhere lies in a directory. -/
def Rooted (disk : Disk) : Prop :=
  ∀ place name node, disk.node? (place ++ [name]) = some node → disk.node? place = some .directory

/-- A name that a file can have. -/
def IsFileName (name : String) : Prop :=
  Path.IsName name ∧ '\x00' ∉ name.toList ∧ name.utf8ByteSize ≤ longestName

instance (name : String) : Decidable (IsFileName name) :=
  inferInstanceAs (Decidable (_ ∧ _ ∧ _))

/-- Names that lead somewhere, by a path that is not too long. -/
structure IsPlace (place : Place) : Prop where
  names : ∀ name ∈ place, IsFileName name
  short : (pathOf place).text.utf8ByteSize < longestPath

instance (place : Place) : Decidable (IsPlace place) :=
  decidable_of_iff ((∀ name ∈ place, IsFileName name) ∧
    (pathOf place).text.utf8ByteSize < longestPath) ⟨fun h => ⟨h.1, h.2⟩, fun h => ⟨h.1, h.2⟩⟩

variable {disk : Disk} {place : Place} {name : String} {node : Node}

/-! ## Nodes -/

theorem node?_empty : empty.node? place = if place.isEmpty then some .directory else none := by
  unfold node? empty
  simp

theorem node?_put {other : Place} (ne : place ≠ []) :
    (disk.put place node).node? other = if place = other then some node else disk.node? other := by
  unfold node? put
  by_cases same : place = other
  · subst same
    simp [ne]
  · simp [Std.HashMap.getElem?_insert, same]

/-- Something in a directory, where no directory was. -/
theorem Rooted.put (rooted : disk.Rooted) (directory : disk.node? place = some .directory)
    (free : disk.node? (place ++ [name]) ≠ some .directory) :
    (disk.put (place ++ [name]) node).Rooted := by
  have ne : place ++ [name] ≠ [] := by simp
  intro above own found h
  rw [node?_put ne] at h ⊢
  by_cases below : place ++ [name] = above
  · -- nothing lies below a place that held no directory
    subst below
    rw [if_neg (by simp)] at h
    exact absurd (rooted _ _ _ h) free
  · rw [if_neg below]
    by_cases same : place ++ [name] = above ++ [own]
    · obtain ⟨rfl, -⟩ := List.append_inj' same rfl
      exact directory
    · rw [if_neg same] at h
      exact rooted _ _ _ h

/-- Whatever lies below a place lies in it as a directory. -/
theorem Rooted.above (rooted : disk.Rooted) {rest : Place} (ne : rest ≠ [])
    (h : disk.node? (place ++ rest) = some node) : disk.node? place = some .directory := by
  induction rest generalizing place with
  | nil => exact absurd rfl ne
  | cons name rest ih =>
    cases rest with
    | nil => exact rooted _ _ _ h
    | cons next rest =>
      rw [List.append_cons] at h
      exact rooted _ _ _ (ih (List.cons_ne_nil _ _) h)

theorem Rooted.directory_of_prefix (rooted : disk.Rooted) {front : Place} (h : front <+: place)
    (directory : disk.node? place = some .directory) : disk.node? front = some .directory := by
  obtain ⟨rest, rfl⟩ := h
  cases rest with
  | nil => rwa [List.append_nil] at directory
  | cons name rest => exact rooted.above (List.cons_ne_nil _ _) directory

/-- Nothing lies below a place where nothing lies. -/
theorem Rooted.absent_below (rooted : disk.Rooted) (absent : disk.node? place = none)
    (rest : Place) : disk.node? (place ++ rest) = none := by
  cases rest with
  | nil => rwa [List.append_nil]
  | cons name rest =>
    refine Option.eq_none_iff_forall_ne_some.2 fun node h => ?_
    rw [rooted.above (List.cons_ne_nil _ _) h] at absent
    cases absent

/-! ## Disks made of nodes -/

def ofNodes (nodes : List (Place × Node)) : Disk :=
  nodes.foldr (fun (place, node) disk => disk.put place node) empty

variable {nodes : List (Place × Node)}

/-- What a disk made of nodes holds at a place. -/
theorem node?_ofNodes (proper : ∀ entry ∈ nodes, entry.1 ≠ []) (ne : place ≠ []) :
    (ofNodes nodes).node? place = (nodes.find? (·.1 == place)).map (·.2) := by
  induction nodes with
  | nil =>
    rw [show ofNodes [] = empty from rfl, node?_empty, if_neg (by simpa using ne)]
    rfl
  | cons entry nodes ih =>
    have hentry := proper entry List.mem_cons_self
    show ((ofNodes nodes).put entry.1 entry.2).node? place = _
    rw [node?_put hentry, ih fun e he => proper e (List.mem_cons_of_mem _ he)]
    by_cases same : entry.1 = place
    · simp [same]
    · simp [same]

theorem node?_of_mem (proper : ∀ entry ∈ nodes, entry.1 ≠ [])
    (distinct : (nodes.map (·.1)).Nodup) (mem : (place, node) ∈ nodes) :
    (ofNodes nodes).node? place = some node := by
  rw [node?_ofNodes proper (proper _ mem)]
  cases found : nodes.find? (·.1 == place) with
  | none =>
    have := List.find?_eq_none.1 found _ mem
    simp at this
  | some entry =>
    have same : entry.1 = place := by simpa using List.find?_some found
    have whole := List.inj_on_of_nodup_map distinct (List.mem_of_find?_eq_some found) mem same
    rw [whole]
    rfl

theorem node?_of_not_mem (proper : ∀ entry ∈ nodes, entry.1 ≠ []) (ne : place ≠ [])
    (absent : place ∉ nodes.map (·.1)) : (ofNodes nodes).node? place = none := by
  rw [node?_ofNodes proper ne, Option.map_eq_none_iff, List.find?_eq_none]
  intro entry mem same
  exact absent (List.mem_map.2 ⟨entry, mem, by simpa using same⟩)

/-- Everything lies in directories when every node does. -/
theorem rooted_ofNodes (proper : ∀ entry ∈ nodes, entry.1 ≠ [])
    (distinct : (nodes.map (·.1)).Nodup)
    (above : ∀ entry ∈ nodes, entry.1.dropLast = [] ∨ (entry.1.dropLast, .directory) ∈ nodes) :
    (ofNodes nodes).Rooted := by
  intro place name node h
  rw [node?_ofNodes proper (by simp)] at h
  obtain ⟨entry, found, -⟩ := Option.map_eq_some_iff.1 h
  have key : entry.1 = place ++ [name] := by simpa using List.find?_some found
  have directory := above entry (List.mem_of_find?_eq_some found)
  rw [key, List.dropLast_concat] at directory
  rcases directory with rfl | mem
  · rfl
  · exact node?_of_mem proper distinct mem

/-! ## Paths of places -/

theorem toList_pathOf (place : Place) :
    (pathOf place).text.toList = '/' :: ['/'].intercalate (place.map String.toList) := by
  simp [pathOf]

theorem text_pathOf_ne_empty (place : Place) : ¬ (pathOf place).text.isEmpty = true := by
  rw [String.isEmpty_iff, ← String.toList_eq_nil_iff, toList_pathOf]
  exact List.cons_ne_nil _ _

theorem text_pathOf_append {names : Place} (hplace : place ≠ []) (hnames : names ≠ []) :
    (pathOf (place ++ names)).text = (pathOf place).text ++ "/" ++ "/".intercalate names := by
  unfold pathOf
  rw [String.intercalate_append_of_ne_nil hplace hnames]
  simp only [String.append_assoc]

/-- The way to a place leads through places. -/
theorem IsPlace.of_append {names : Place} (isPlace : IsPlace (place ++ names)) : IsPlace place := by
  refine ⟨fun name mem => isPlace.names name (List.mem_append_left _ mem), ?_⟩
  have short := isPlace.short
  by_cases hplace : place = []
  · rw [hplace]
    decide
  by_cases hnames : names = []
  · rwa [hnames, List.append_nil] at short
  · rw [text_pathOf_append hplace hnames, String.utf8ByteSize_append, String.utf8ByteSize_append]
      at short
    omega

theorem IsFileName.ofSegment? (h : IsFileName name) :
    Component.ofSegment? name.toList = some (.normal name) ∧ '/' ∉ name.toList := by
  have split := Path.split_of_isName h.1
  have components := h.1
  unfold Path.IsName Path.components Path.segments at components
  rw [split] at components
  -- one of the parts of the name has its text, so the name has no slash
  have part : .normal name ∈ (Text.splitAll '/' name.toList).filterMap Component.ofSegment? := by
    rw [show (Text.splitAll '/' name.toList).filterMap Component.ofSegment? = [.normal name] from
      components]
    exact List.mem_singleton_self _
  obtain ⟨segment, mem, same⟩ := List.mem_filterMap.1 part
  have text : segment = name.toList := by
    unfold Component.ofSegment? at same
    split at same
    · cases same
    · split at same
      · cases same
      · obtain rfl := Component.normal.inj (Option.some.inj same)
        simp
  subst text
  exact ⟨same, Text.not_mem_of_mem_splitAll mem⟩

theorem not_mem_intercalate {c d : Char} (differ : c ≠ d) {parts : List (List Char)}
    (h : ∀ part ∈ parts, c ∉ part) : c ∉ [d].intercalate parts := by
  induction parts with
  | nil => simp
  | cons part parts ih =>
    have hpart := h part List.mem_cons_self
    have hparts := ih fun p hp => h p (List.mem_cons_of_mem _ hp)
    cases parts with
    | nil => simpa using hpart
    | cons next parts =>
      rw [List.intercalate_cons_cons]
      simp [hpart, hparts, differ]

/-- The path of a place asks for its names, one after the other. -/
theorem segmentsOf_pathOf (isPlace : IsPlace place) (ne : place ≠ []) :
    segmentsOf (pathOf place) = .ok ([] :: place.map String.toList) := by
  have parts (c : Char) (h : ∀ name ∈ place, c ∉ name.toList) :
      ∀ part ∈ place.map String.toList, c ∉ part := by
    intro part mem
    obtain ⟨name, hname, rfl⟩ := List.mem_map.1 mem
    exact h name hname
  have noNull : (pathOf place).text.contains '\x00' = false := by
    rw [String.contains_char_eq, toList_pathOf, decide_eq_false_iff_not, List.mem_cons, not_or]
    refine ⟨by decide, not_mem_intercalate (by decide) (parts _ ?_)⟩
    exact fun name hname => (isPlace.names name hname).2.1
  have split : Text.splitAll '/' (pathOf place).text.toList = [] :: place.map String.toList := by
    rw [toList_pathOf, Text.splitAll, if_pos rfl, Text.splitAll_intercalate (by simpa using ne)]
    exact parts _ fun name hname => (isPlace.names name hname).ofSegment?.2
  unfold segmentsOf
  rw [noNull, if_neg Bool.false_ne_true, if_neg (text_pathOf_ne_empty place),
    if_neg (Nat.not_le_of_lt isPlace.short), split]

/-! ## Following names -/

theorem enter_name (isName : IsFileName name) : disk.enter (place, .directory) name.toList =
    match disk.node? (place ++ [name]) with
    | some node => .ok (place ++ [name], node)
    | none => .error .notFound := by
  unfold enter
  rw [isName.ofSegment?.1]
  exact if_neg (Nat.not_lt_of_le isName.2.2)

/-- Names lead to what the place holds, and nowhere else. -/
theorem foldlM_enter (rooted : disk.Rooted) {names above : Place}
    (areNames : ∀ name ∈ names, IsFileName name) {start : Node} (h : disk.node? above = some start)
    {found : Place × Node} : (names.map String.toList).foldlM disk.enter (above, start) = .ok found ↔
      found.1 = above ++ names ∧ disk.node? (above ++ names) = some found.2 := by
  induction names generalizing above start with
  | nil =>
    rw [List.map_nil, List.append_nil, h]
    constructor
    · intro same
      cases same
      exact ⟨rfl, rfl⟩
    · rintro ⟨same, node⟩
      obtain rfl := Option.some.inj node
      rw [← same]
      rfl
  | cons name names ih =>
    have isName := areNames name List.mem_cons_self
    have next (node : Node) (hnode : disk.node? (above ++ [name]) = some node) :=
      ih (fun n hn => areNames n (List.mem_cons_of_mem _ hn)) hnode
    rw [List.map_cons, List.foldlM_cons, bind_eq_ok]
    cases start with
    | file content =>
      -- no name leads on from a file
      refine iff_of_false ?_ ?_
      · rintro ⟨_, failed, -⟩
        cases failed
      · rintro ⟨-, below⟩
        rw [rooted.above (List.cons_ne_nil _ _) below] at h
        cases h
    | directory =>
      rw [enter_name isName, List.append_cons above name names]
      cases hnode : disk.node? (above ++ [name]) with
      | none =>
        refine iff_of_false ?_ ?_
        · rintro ⟨_, failed, -⟩
          cases failed
        · rintro ⟨-, below⟩
          by_cases last : names = []
          · rw [last, List.append_nil, hnode] at below
            cases below
          · rw [rooted.above last below] at hnode
            cases hnode
      | some node =>
        rw [← next node hnode]
        constructor
        · rintro ⟨_, entered, rest⟩
          obtain rfl := Except.ok.inj entered
          exact rest
        · exact fun rest => ⟨_, rfl, rest⟩

theorem start_pathOf (place : Place) : disk.start (pathOf place) = .ok ([], .directory) := by
  have absolute : (pathOf place).isAbsolute = true := by
    unfold Path.isAbsolute Path.split
    rw [toList_pathOf]
    rfl
  rw [start, if_pos absolute]

/-- The path of a place leads to what the place holds. -/
theorem find_pathOf (rooted : disk.Rooted) (isPlace : IsPlace place) (ne : place ≠ [])
    {found : Place × Node} : disk.find (pathOf place) = .ok found ↔
      found.1 = place ∧ disk.node? place = some found.2 := by
  have root : disk.node? [] = some .directory := rfl
  unfold find follow
  rw [segmentsOf_pathOf isPlace ne, start_pathOf]
  exact foldlM_enter rooted isPlace.names root

theorem find_of_node? (rooted : disk.Rooted) (isPlace : IsPlace place) (ne : place ≠ [])
    (h : disk.node? place = some node) : disk.find (pathOf place) = .ok (place, node) :=
  (find_pathOf rooted isPlace ne).2 ⟨rfl, h⟩

theorem isPresent_iff {path : Path} :
    disk.isPresent path = true ↔ ∃ found, disk.find path = .ok found := by
  unfold isPresent
  cases disk.find path <;> simp [Except.isOk, Except.toBool]

theorem isFile_pathOf (rooted : disk.Rooted) (isPlace : IsPlace place) (ne : place ≠ []) :
    disk.isFile (pathOf place) = true ↔ ∃ content, disk.node? place = some (.file content) := by
  unfold isFile
  constructor
  · intro h
    split at h
    · next found content run =>
      exact ⟨content, ((find_pathOf rooted isPlace ne).1 run).2⟩
    · cases h
  · rintro ⟨content, h⟩
    rw [find_of_node? rooted isPlace ne h]

theorem isDirectory_pathOf (rooted : disk.Rooted) (isPlace : IsPlace place) (ne : place ≠ []) :
    disk.isDirectory (pathOf place) = true ↔ disk.node? place = some .directory := by
  unfold isDirectory
  constructor
  · intro h
    split at h
    · next found run => exact ((find_pathOf rooted isPlace ne).1 run).2
    · cases h
  · intro h
    rw [find_of_node? rooted isPlace ne h]

theorem readFile_pathOf (rooted : disk.Rooted) (isPlace : IsPlace place) (ne : place ≠ [])
    {content : List UInt8} :
    disk.readFile (pathOf place) = .ok content ↔ disk.node? place = some (.file content) := by
  unfold readFile
  rw [bind_eq_ok]
  constructor
  · rintro ⟨found, run, h⟩
    split at h
    · next own same =>
      cases h
      rw [((find_pathOf rooted isPlace ne).1 run).2, same]
    · cases h
  · intro h
    exact ⟨_, find_of_node? rooted isPlace ne h, rfl⟩

/-- A place that holds something has its own path. -/
theorem canonical_pathOf (rooted : disk.Rooted) (isPlace : IsPlace place) (ne : place ≠ [])
    (h : disk.node? place = some node) : disk.canonical (pathOf place) = .ok (pathOf place) := by
  unfold canonical
  rw [find_of_node? rooted isPlace ne h]
  rfl

/-- No files lie below a place that holds nothing. -/
theorem filesBelow_pathOf (rooted : disk.Rooted) (isPlace : IsPlace place) (ne : place ≠ [])
    (h : disk.node? place = none) : disk.filesBelow (pathOf place) = [] := by
  cases run : disk.find (pathOf place) with
  | error fault =>
    unfold filesBelow
    rw [run]
  | ok found =>
    rw [((find_pathOf rooted isPlace ne).1 run).2] at h
    cases h

/-! ## Paths below a place -/

theorem IsFileName.toList_ne_nil (h : IsFileName name) : name.toList ≠ [] := by
  intro empty
  have part := h.ofSegment?.1
  rw [empty] at part
  cases part

/-- The path of a place does not end in a slash, unless it is the root. -/
theorem getLast?_pathOf (areNames : ∀ name ∈ place, IsFileName name) (ne : place ≠ []) :
    ∃ c, (pathOf place).text.toList.getLast? = some c ∧ c ≠ '/' := by
  obtain ⟨above, last, rfl⟩ := (List.eq_nil_or_concat' place).resolve_left ne
  have isName := areNames last (by simp)
  obtain ⟨front, c, text⟩ :=
    (List.eq_nil_or_concat' last.toList).resolve_left isName.toList_ne_nil
  have ends : ∃ start, (pathOf (above ++ [last])).text.toList = start ++ last.toList := by
    by_cases root : above = []
    · refine ⟨['/'], ?_⟩
      rw [root, toList_pathOf]
      simp
    · refine ⟨(pathOf above).text.toList ++ ['/'], ?_⟩
      rw [text_pathOf_append root (List.cons_ne_nil _ _)]
      simp
  obtain ⟨start, hstart⟩ := ends
  refine ⟨c, ?_, ?_⟩
  · rw [hstart, text, ← List.append_assoc, List.getLast?_concat]
  · rintro rfl
    exact isName.ofSegment?.2 (by rw [text]; simp)

/-- Names below a place. -/
theorem child_pathOf {names : Place} (above : ∀ name ∈ place, IsFileName name)
    (areNames : ∀ name ∈ names, IsFileName name) (ne : names ≠ []) :
    (pathOf place).child ("/".intercalate names) = pathOf (place ++ names) := by
  have relative : ∀ rest, ("/".intercalate names).toList ≠ '/' :: rest := by
    intro rest same
    obtain ⟨name, names, rfl⟩ := List.exists_cons_of_ne_nil ne
    have isName := areNames name List.mem_cons_self
    obtain ⟨c, text, hname⟩ := List.exists_cons_of_ne_nil isName.toList_ne_nil
    have head : ∃ more, ("/".intercalate (name :: names)).toList = c :: more := by
      cases names with
      | nil => exact ⟨text, by rw [String.intercalate_singleton, hname]⟩
      | cons next names =>
        exact ⟨_, by rw [String.intercalate_cons_cons, String.append_assoc, String.toList_append,
          hname, List.cons_append]⟩
    obtain ⟨more, hmore⟩ := head
    rw [hmore] at same
    refine isName.ofSegment?.2 ?_
    rw [hname, (List.cons.inj same).1]
    exact List.mem_cons_self
  unfold Path.child
  by_cases root : place = []
  · subst root
    have last : (pathOf []).text.toList.getLast? = some '/' := by decide
    rw [@Path.join_of_slash _ ⟨"/".intercalate names⟩ relative last]
    simp [pathOf]
  · obtain ⟨c, last, differ⟩ := getLast?_pathOf above root
    rw [@Path.join_of_ne_slash _ ⟨"/".intercalate names⟩ relative c last differ,
      ← text_pathOf_append root ne]

theorem child_name (above : ∀ name ∈ place, IsFileName name) (isName : IsFileName name) :
    (pathOf place).child name = pathOf (place ++ [name]) := by
  have names : ∀ n ∈ [name], IsFileName n := by
    intro n hn
    exact List.mem_singleton.1 hn ▸ isName
  have child := child_pathOf above names (List.cons_ne_nil _ _)
  rwa [String.intercalate_singleton] at child

/-! ## Paths that have been followed -/

theorem components_pathOf (names : ∀ name ∈ place, IsFileName name) :
    (pathOf place).components = .root :: place.map .normal := by
  rw [Path.components_of_slash (toList_pathOf place)]
  cases place with
  | nil => rfl
  | cons first rest =>
    have noSlash : ∀ part ∈ (first :: rest).map String.toList, '/' ∉ part := by
      intro part mem
      obtain ⟨name, hname, rfl⟩ := List.mem_map.1 mem
      exact (names name hname).ofSegment?.2
    rw [Text.splitAll_intercalate (by simp) noSlash, List.filterMap_map]
    congr 1
    rw [← List.filterMap_eq_map]
    exact List.filterMap_congr fun name mem => (names name mem).ofSegment?.1

/-- Places with the same path are the same. -/
theorem eq_of_beq_pathOf {other : Place} (names : ∀ name ∈ place, IsFileName name)
    (others : ∀ name ∈ other, IsFileName name) (same : (pathOf place == pathOf other) = true) :
    place = other := by
  rw [Path.beq_iff, components_pathOf names, components_pathOf others] at same
  exact List.map_injective_iff.2 (fun _ _ => Component.normal.inj) (List.cons.inj same).2

theorem names_of_enter {found next : Place × Node} {segment : List Char}
    (names : ∀ name ∈ found.1, IsFileName name) (noSlash : '/' ∉ segment)
    (noNull : '\x00' ∉ segment) (h : disk.enter found segment = .ok next) :
    ∀ name ∈ next.1, IsFileName name := by
  unfold enter at h
  split at h
  · cases h
  split at h
  · cases h
    exact names
  · cases h
    exact fun name mem => names name (List.dropLast_subset _ mem)
  · next component notParent hcomponent =>
    obtain rfl := Component.eq_normal_of_ofSegment? hcomponent notParent
    obtain ⟨text, isName⟩ := Path.isName_of_ofSegment? noSlash hcomponent
    unfold child at h
    split at h
    · cases h
    next fits =>
    split at h
    · cases h
      intro other mem
      rcases List.mem_append.1 mem with mem | mem
      · exact names other mem
      · rw [List.mem_singleton.1 mem]
        exact ⟨isName, by rwa [Component.text, text], Nat.le_of_not_lt fits⟩
    · cases h

theorem names_of_foldlM {segments : List (List Char)} {start found : Place × Node}
    (names : ∀ name ∈ start.1, IsFileName name)
    (parts : ∀ segment ∈ segments, '/' ∉ segment ∧ '\x00' ∉ segment)
    (run : segments.foldlM disk.enter start = .ok found) : ∀ name ∈ found.1, IsFileName name := by
  induction segments generalizing start with
  | nil =>
    cases run
    exact names
  | cons segment segments ih =>
    obtain ⟨next, entered, run⟩ := bind_eq_ok.1 run
    obtain ⟨noSlash, noNull⟩ := parts segment List.mem_cons_self
    exact ih (names_of_enter names noSlash noNull entered)
      (fun s hs => parts s (List.mem_cons_of_mem _ hs)) run

/-- What the texts between the slashes of a path are free of. -/
theorem parts_of_segmentsOf {path : Path} {segments : List (List Char)}
    (h : segmentsOf path = .ok segments) :
    ∀ segment ∈ segments, '/' ∉ segment ∧ '\x00' ∉ segment := by
  unfold segmentsOf at h
  split at h
  · cases h
  next noNull =>
  split at h
  · cases h
  split at h
  · cases h
  cases h
  intro segment mem
  refine ⟨Text.not_mem_of_mem_splitAll mem, fun null => noNull ?_⟩
  rw [String.contains_char_eq, decide_eq_true_iff]
  exact Text.mem_of_mem_splitAll mem null

/-- Paths lead to places whose names files can have. -/
theorem names_of_find (names : ∀ name ∈ disk.here, IsFileName name) {path : Path}
    {found : Place × Node} (h : disk.find path = .ok found) :
    ∀ name ∈ found.1, IsFileName name := by
  obtain ⟨segments, hsegments, hfollow⟩ := bind_eq_ok.1 h
  obtain ⟨start, hstart, run⟩ := bind_eq_ok.1 hfollow
  refine names_of_foldlM ?_ (parts_of_segmentsOf hsegments) run
  unfold Disk.start at hstart
  split at hstart
  · cases hstart
    simp
  · split at hstart
    · cases hstart
      exact names
    · cases hstart

end CommitLog.Disk
