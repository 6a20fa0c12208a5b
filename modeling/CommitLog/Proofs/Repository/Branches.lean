import CommitLog.Proofs.Disk.Below
import CommitLog.Proofs.Entries
import CommitLog.Proofs.Repository.Places
import CommitLog.Proofs.Text.Separators

/-!
# The list of branches

A branch is listed with the object that its file leads to, or else with its packed one
(`Refs.mem_branches`).  Of the files below the directory of branches only the one of its name
counts.

    refs.branches disk = .ok found →
      ((name, id) ∈ found ↔ loose.or (findPacked? lines (branchRef name.text)) = some id)
-/

namespace CommitLog

/-! ## Names of branches -/

namespace BranchName

theorem occurs_iff {part text : List Char} : occurs part text = true ↔ part <:+: text := by
  induction text with
  | nil => simp [occurs]
  | cons c rest ih =>
    rw [occurs, Bool.or_eq_true, ih, List.isPrefixOf_iff_prefix, List.infix_cons_iff]

theorem parse_eq_ok {text : String} {name : BranchName} : parse text = .ok name ↔
    text ≠ "" ∧ isForbidden text.toList = false ∧ name = ⟨text⟩ := by
  unfold parse
  constructor
  · intro h
    split at h
    · cases h
    next ne =>
    split at h
    · cases h
    next allowed =>
    exact ⟨fun empty => ne (String.isEmpty_iff.2 empty), by simpa using allowed,
      (Except.ok.inj h).symm⟩
  · rintro ⟨ne, allowed, rfl⟩
    rw [if_neg fun empty => ne (String.isEmpty_iff.1 empty), allowed, if_neg Bool.false_ne_true]

/-- The parts of a name that are not empty are names of files. -/
theorem ofSegment?_of_parse {text : String} {name : BranchName} (parsed : parse text = .ok name)
    {part : List Char} (mem : part ∈ Text.splitAll '/' text.toList) (ne : part ≠ []) :
    Component.ofSegment? part = some (.normal (String.ofList part)) := by
  obtain ⟨-, allowed, -⟩ := parse_eq_ok.1 parsed
  simp only [isForbidden, Bool.or_eq_false_iff] at allowed
  obtain ⟨⟨⟨⟨⟨⟨⟨noDot, noInner⟩, -⟩, -⟩, -⟩, -⟩, -⟩, -⟩ := allowed
  have noHead : ∀ rest, part ≠ '.' :: rest := by
    rintro rest rfl
    have dot : ['.'] <+: '.' :: rest := by simp
    obtain ⟨first, parts, cut⟩ := List.exists_cons_of_ne_nil (Text.splitAll_ne_nil '/' text.toList)
    rw [cut] at mem
    rcases List.mem_cons.1 mem with rfl | mem
    · rw [List.isPrefixOf_iff_prefix.2 (dot.trans (Text.prefix_of_splitAll cut))] at noDot
      cases noDot
    · have inner : '/' :: '.' :: rest <:+: text.toList :=
        Text.infix_of_mem_tail (by rw [cut]; exact mem)
      have : occurs ['/', '.'] text.toList = true :=
        occurs_iff.2 (((List.prefix_cons_inj '/').2 dot).isInfix.trans inner)
      rw [this] at noInner
      cases noInner
  unfold Component.ofSegment?
  rw [if_neg, if_neg]
  · exact noHead _
  · rintro (empty | dot)
    · exact ne empty
    · exact noHead _ dot

end BranchName

namespace Refs

variable {refs : Refs} {disk : Disk} {name other : String} {id i : ObjectId}
  {list : List (String × ObjectId)} {lines : List (String × ObjectId)}

/-! ## Lists of refs -/

/-- The names stand in ascending order, each once. -/
def Ascending (list : List (String × ObjectId)) : Prop :=
  list.Pairwise fun a b => compare a.1 b.1 = .lt

theorem insertRef_eq_put (name : String) (id : ObjectId) (list : List (String × ObjectId)) :
    insertRef name id list = Entries.put name id list :=
  Entries.eq_put (insertRef name id) rfl (fun _ _ _ => rfl) list

theorem mem_insertRef_of_ne (differ : other ≠ name) :
    (other, i) ∈ insertRef name id list ↔ (other, i) ∈ list := by
  rw [insertRef_eq_put]
  exact Entries.mem_put_of_ne differ

theorem ascending_insertRef (ascending : Ascending list) : Ascending (insertRef name id list) := by
  rw [insertRef_eq_put]
  exact Entries.Ascending.put ascending

theorem mem_insertRef_self (ascending : Ascending list) :
    (name, i) ∈ insertRef name id list ↔ i = id := by
  rw [insertRef_eq_put, Entries.Ascending.mem_put ascending, if_pos rfl]

/-! ## Packed branches -/

def branchRef (name : String) : String := String.ofList headsPrefix ++ name

theorem branchRef_eq (name : String) : branchRef name = "refs/heads/" ++ name :=
  congrArg (· ++ name) String.ofList_toList

theorem findPacked?_concat : findPacked? (lines ++ [(name, id)]) other =
    if other = name then some id else findPacked? lines other := by
  unfold findPacked?
  rw [List.reverse_append, List.reverse_singleton, List.singleton_append]
  exact lookup_cons_ite other name id lines.reverse

/-- A packed branch is one of the packed refs. -/
theorem packedBranches_spec (lines : List (String × ObjectId)) :
    Ascending (packedBranches lines) ∧ ∀ name id, (name, id) ∈ packedBranches lines ↔
      findPacked? lines (branchRef name) = some id := by
  induction lines using List.reverseRecOn with
  | nil => exact ⟨.nil, fun name id => by simp [packedBranches, findPacked?]⟩
  | append_singleton lines line ih =>
    obtain ⟨n, own⟩ := line
    obtain ⟨ascending, members⟩ := ih
    have next : packedBranches (lines ++ [(n, own)]) =
        if headsPrefix.isPrefixOf n.toList then
          insertRef (String.ofList (n.toList.drop headsPrefix.length)) own (packedBranches lines)
        else packedBranches lines := by
      unfold packedBranches
      rw [List.foldl_append]
      rfl
    rw [next]
    split
    · next front =>
      obtain ⟨rest, hrest⟩ := List.isPrefixOf_iff_prefix.1 front
      have name_eq : n = branchRef (String.ofList rest) := by
        rw [branchRef, ← String.toList_inj, String.toList_append, String.toList_ofList,
          String.toList_ofList, hrest]
      have drop_eq : n.toList.drop headsPrefix.length = rest := by
        rw [← hrest, List.drop_left]
      rw [drop_eq]
      refine ⟨ascending_insertRef ascending, fun name id => ?_⟩
      rw [findPacked?_concat, name_eq]
      by_cases same : name = String.ofList rest
      · subst same
        simp [mem_insertRef_self ascending, eq_comm]
      · have differ : branchRef name ≠ branchRef (String.ofList rest) := by
          simpa [branchRef] using same
        rw [mem_insertRef_of_ne same, members, if_neg differ]
    · next other =>
      refine ⟨ascending, fun name id => ?_⟩
      have differ : branchRef name ≠ n := by
        rintro rfl
        refine other (List.isPrefixOf_iff_prefix.2 ?_)
        simp [branchRef]
      rw [findPacked?_concat, if_neg differ, members]

/-! ## Files of branches -/

def objectAt (refs : Refs) (disk : Disk) (path : Path) : Except Fault (Option ObjectId) := do
  match ← readFile disk path with
  | some (.object id) => return some id
  | some (.symbolic target) => refs.resolve disk longestChain target
  | none => return none

def looseBranch (refs : Refs) (disk : Disk) (name : String) : Except Fault (Option ObjectId) :=
  refs.objectAt disk (refs.headsPath.child name)

/-- The list after a file is the list before with the object that the file leads to, if any. -/
theorem addBranchFile_eq (refs : Refs) (disk : Disk) (list : List (String × ObjectId))
    (place : Place) : refs.addBranchFile disk list place =
      (refs.objectAt disk (if place.isEmpty then refs.headsPath
        else refs.headsPath.child ("/".intercalate place))).map
        fun loose => loose.elim list (insertRef ("/".intercalate place) · list) := by
  unfold addBranchFile objectAt
  dsimp only
  cases readFile disk (if place.isEmpty = true then refs.headsPath
    else refs.headsPath.child ("/".intercalate place)) with
  | error fault => rfl
  | ok target =>
    match target with
    | none => rfl
    | some (.object id) => rfl
    | some (.symbolic target) =>
      simp only [bind, Except.bind]
      cases refs.resolve disk longestChain target with
      | error fault => rfl
      | ok loose => cases loose <;> rfl

theorem addBranchFile_eq_ok {place : Place} {next : List (String × ObjectId)}
    (h : refs.addBranchFile disk list place = .ok next) : ∃ loose : Option ObjectId,
      (place ≠ [] → refs.looseBranch disk ("/".intercalate place) = .ok loose) ∧
      next = loose.elim list (insertRef ("/".intercalate place) · list) := by
  rw [addBranchFile_eq] at h
  obtain ⟨loose, own, rfl⟩ := map_eq_ok.1 h
  refine ⟨loose, fun ne => ?_, rfl⟩
  rwa [if_neg (by simpa using ne)] at own

/-- The object of a ref in a list is the given one, if there is one. -/
def Gives (list : List (String × ObjectId)) (name : String) (object : Option ObjectId) : Prop :=
  ∀ id, (name, id) ∈ list ↔ object = some id

/-- A file counts for its own branch and before what was there. -/
theorem Gives.addBranchFile {place : Place} {next : List (String × ObjectId)}
    {object : Option ObjectId} (ascending : Ascending list) (gives : Gives list name object)
    (nonempty : name ≠ "") (h : refs.addBranchFile disk list place = .ok next) :
    Ascending next ∧ ("/".intercalate place ≠ name → Gives next name object) ∧
      ("/".intercalate place = name → ∃ loose, refs.looseBranch disk name = .ok loose ∧
        Gives next name (loose.or object)) := by
  obtain ⟨loose, own, rfl⟩ := addBranchFile_eq_ok h
  refine ⟨?_, fun differ => ?_, ?_⟩
  · cases loose with
    | none => exact ascending
    | some id => exact ascending_insertRef ascending
  · cases loose with
    | none => exact gives
    | some id => exact fun i => (mem_insertRef_of_ne (Ne.symm differ)).trans (gives i)
  · rintro rfl
    have ne : place ≠ [] := by
      rintro rfl
      exact nonempty rfl
    refine ⟨loose, own ne, ?_⟩
    cases loose with
    | none => exact gives
    | some id =>
      intro i
      change _ ∈ insertRef _ _ _ ↔ _
      rw [mem_insertRef_self ascending, Option.some_or, Option.some.injEq, eq_comm]

/-- With the files taken in, a branch has the object that its file leads to, or else the one it had
before. -/
theorem Gives.foldlM_addBranchFile {places : List Place} {final : List (String × ObjectId)}
    {object loose : Option ObjectId} (ascending : Ascending list) (gives : Gives list name object)
    (nonempty : name ≠ "") (own : refs.looseBranch disk name = .ok loose)
    (h : places.foldlM (refs.addBranchFile disk) list = .ok final) :
    Gives final name (if ∃ place ∈ places, "/".intercalate place = name then loose.or object
      else object) := by
  have kept := foldlM_induction (fun done b => Ascending b ∧ Gives b name
      (if ∃ place ∈ done, "/".intercalate place = name then loose.or object else object)) h
    ⟨ascending, by simpa using gives⟩ ?_
  · exact kept.2
  rintro done place b next ⟨asc, before⟩ - step
  obtain ⟨asc', others, self⟩ := before.addBranchFile asc nonempty step
  refine ⟨asc', ?_⟩
  by_cases same : "/".intercalate place = name
  · obtain ⟨again, same_loose, after⟩ := self same
    obtain rfl : again = loose := Except.ok.inj (same_loose.symm.trans own)
    have done_eq : again.or (if ∃ place ∈ done, "/".intercalate place = name then
        again.or object else object) = again.or object := by
      split <;> cases again <;> rfl
    rw [done_eq] at after
    rwa [if_pos ⟨place, by simp, same⟩]
  · have done_eq : (∃ p ∈ done ++ [place], "/".intercalate p = name) ↔
        ∃ p ∈ done, "/".intercalate p = name := by
      simp [same, or_and_right, exists_or]
    rw [if_congr done_eq rfl rfl]
    exact others same

/-- What the file of a branch leads to is known when the file has been taken in. -/
theorem exists_looseBranch {places : List Place} {final : List (String × ObjectId)}
    (nonempty : name ≠ "") (h : places.foldlM (refs.addBranchFile disk) list = .ok final)
    (visited : ∃ place ∈ places, "/".intercalate place = name) :
    ∃ loose, refs.looseBranch disk name = .ok loose := by
  refine foldlM_induction (fun done _ => (∃ place ∈ done, "/".intercalate place = name) →
    ∃ loose, refs.looseBranch disk name = .ok loose) h (by simp) ?_ visited
  rintro done place b next before - step ⟨p, mem, rfl⟩
  rcases List.mem_append.1 mem with mem | mem
  · exact before ⟨p, mem, rfl⟩
  · obtain rfl := List.mem_singleton.1 mem
    obtain ⟨loose, own, -⟩ := addBranchFile_eq_ok step
    refine ⟨loose, own ?_⟩
    rintro rfl
    exact nonempty rfl

/-! ## The list of branches -/

/-- Reading the names of refs keeps them. -/
theorem map_text_of_mapM_parse {found : List (BranchName × ObjectId)}
    (h : list.mapM (fun (name, id) => return (← BranchName.parse name, id)) = .ok found) :
    found.map (fun branch => (branch.1.text, branch.2)) = list := by
  have each := mapM_eq_ok.1 h
  clear h
  induction each with
  | nil => rfl
  | cons step _ ih =>
    obtain ⟨own, parsed, same⟩ := bind_eq_ok.1 step
    obtain ⟨-, -, rfl⟩ := BranchName.parse_eq_ok.1 parsed
    rw [List.map_cons, ih, ← Except.ok.inj same]

theorem mem_mapM_parse {name : BranchName} {found : List (BranchName × ObjectId)}
    (h : list.mapM (fun (name, id) => return (← BranchName.parse name, id)) = .ok found) :
    (name, id) ∈ found ↔ (name.text, id) ∈ list := by
  have injective :
      Function.Injective fun branch : BranchName × ObjectId => (branch.1.text, branch.2) := by
    rintro ⟨⟨a⟩, i⟩ ⟨⟨b⟩, j⟩ same
    cases same
    rfl
  rw [← map_text_of_mapM_parse h]
  exact (List.mem_map_of_injective injective).symm

/-- Relative paths follow a directory behind one text, whatever they are. -/
theorem exists_front (base : Path) : ∃ front, ∀ name : String,
    (∀ rest, name.toList ≠ '/' :: rest) → base.child name = ⟨front ++ name⟩ := by
  cases last : base.text.toList.getLast? with
  | none =>
    refine ⟨"", fun name relative => ?_⟩
    unfold Path.child Path.join
    rw [last]
    split <;> simp_all
  | some c =>
    by_cases slash : c = '/'
    · subst slash
      exact ⟨base.text, fun name relative => @Path.join_of_slash _ ⟨name⟩ relative last⟩
    · exact ⟨base.text ++ "/", fun name relative =>
        @Path.join_of_ne_slash _ ⟨name⟩ relative c last slash⟩

/-- The directory of the branches does not end in a slash. -/
theorem exists_headsPath (refs : Refs) : ∃ front, refs.headsPath = ⟨front ++ "refs/heads"⟩ ∧
    ∀ name : String, (∀ rest, name.toList ≠ '/' :: rest) →
      refs.directory.child name = ⟨front ++ name⟩ := by
  obtain ⟨front, child⟩ := exists_front refs.directory
  refine ⟨front, ?_, child⟩
  have own : refs.directory.child "refs" = ⟨front ++ "refs"⟩ := child "refs" (by simp)
  have last : (⟨front ++ "refs"⟩ : Path).text.toList.getLast? = some 's' := by simp
  have heads : (⟨front ++ "refs"⟩ : Path).child "heads" = ⟨front ++ "refs" ++ "/" ++ "heads"⟩ :=
    @Path.join_of_ne_slash _ ⟨"heads"⟩ (by simp) 's' last (by decide)
  rw [headsPath, own, heads, Path.mk.injEq]
  simp only [String.append_assoc]
  rfl

theorem getLast?_headsPath (refs : Refs) :
    refs.headsPath.text.toList.getLast? = some 's' := by
  obtain ⟨front, heads, -⟩ := exists_headsPath refs
  rw [heads]
  simp

/-- The file of a branch is that of the ref of its name. -/
theorem child_branchRef (refs : Refs) (relative : ∀ rest, name.toList ≠ '/' :: rest) :
    refs.directory.child (branchRef name) = refs.headsPath.child name := by
  obtain ⟨front, heads, child⟩ := exists_headsPath refs
  have last := getLast?_headsPath refs
  have own : refs.headsPath.child name = ⟨refs.headsPath.text ++ "/" ++ name⟩ :=
    @Path.join_of_ne_slash _ ⟨name⟩ relative 's' last (by decide)
  rw [branchRef_eq, child _ (by simp), own, heads, Path.mk.injEq]
  simp only [String.append_assoc]
  rfl

/-- Where there is no file, the name leads to nothing. -/
theorem looseBranch_of_absent {name : BranchName}
    (parsed : BranchName.parse name.text = .ok name)
    (whole : [] ∉ Text.splitAll '/' name.text.toList)
    (absent : ¬ ∃ place ∈ disk.filesBelow refs.headsPath, "/".intercalate place = name.text) :
    refs.looseBranch disk name.text = .ok none := by
  have noFile : ¬ disk.isFile (refs.headsPath.child name.text) = true := by
    intro isFile
    refine absent (Disk.exists_below_of_isFile (getLast?_headsPath refs) (by decide) ?_ isFile)
    intro part mem
    exact BranchName.ofSegment?_of_parse parsed mem fun empty => whole (empty ▸ mem)
  unfold looseBranch objectAt readFile
  rw [if_neg noFile]
  rfl

/-- **A branch is listed with the object that its file leads to, or else with its packed one.** -/
theorem mem_branches {name : BranchName} {found : List (BranchName × ObjectId)}
    (parsed : BranchName.parse name.text = .ok name)
    (whole : [] ∉ Text.splitAll '/' name.text.toList) (listed : refs.branches disk = .ok found) :
    ∃ lines loose, refs.packed disk = .ok lines ∧ refs.looseBranch disk name.text = .ok loose ∧
      ∀ id, (name, id) ∈ found ↔ loose.or (findPacked? lines (branchRef name.text)) = some id := by
  obtain ⟨lines, packed, h⟩ := bind_eq_ok.1 listed
  obtain ⟨all, files, h⟩ := bind_eq_ok.1 h
  have nonempty := (BranchName.parse_eq_ok.1 parsed).1
  have own : ∃ loose, refs.looseBranch disk name.text = .ok loose := by
    by_cases visited : ∃ place ∈ disk.filesBelow refs.headsPath, "/".intercalate place = name.text
    · exact exists_looseBranch nonempty files visited
    · exact ⟨none, looseBranch_of_absent parsed whole visited⟩
  obtain ⟨loose, own⟩ := own
  obtain ⟨ascending, members⟩ := packedBranches_spec lines
  have gives := Gives.foldlM_addBranchFile ascending (members name.text) nonempty own files
  refine ⟨lines, loose, packed, own, fun id => ?_⟩
  rw [mem_mapM_parse h, gives id]
  split
  · rfl
  · next absent =>
    rw [looseBranch_of_absent parsed whole absent] at own
    rw [← Except.ok.inj own, Option.none_or]

/-- Branches are listed in ascending order of names, each once. -/
theorem ascending_branches {found : List (BranchName × ObjectId)}
    (listed : refs.branches disk = .ok found) :
    found.Pairwise fun a b => compare a.1.text b.1.text = .lt := by
  obtain ⟨lines, -, h⟩ := bind_eq_ok.1 listed
  obtain ⟨all, files, h⟩ := bind_eq_ok.1 h
  have ascending : Ascending all := by
    refine foldlM_induction (fun _ list => Ascending list) files (packedBranches_spec lines).1 ?_
    intro _ place list next ascending _ step
    obtain ⟨loose, -, rfl⟩ := addBranchFile_eq_ok step
    cases loose with
    | none => exact ascending
    | some id => exact ascending_insertRef ascending
  rw [← map_text_of_mapM_parse h] at ascending
  exact List.pairwise_map.1 ascending

/-- A branch that is listed is packed, or its file has been taken in. -/
theorem name_of_mem_branches {name : BranchName} {found : List (BranchName × ObjectId)}
    (packed : refs.packed disk = .ok lines) (listed : refs.branches disk = .ok found)
    (mem : (name, id) ∈ found) : (∃ i, findPacked? lines (branchRef name.text) = some i) ∨
      ∃ place ∈ disk.filesBelow refs.headsPath, "/".intercalate place = name.text := by
  obtain ⟨_, same, h⟩ := bind_eq_ok.1 listed
  obtain rfl := Except.ok.inj (packed.symm.trans same)
  obtain ⟨all, files, h⟩ := bind_eq_ok.1 h
  have from_packed (ref : String × ObjectId) (mem : ref ∈ packedBranches lines) :
      ∃ i, findPacked? lines (branchRef ref.1) = some i :=
    ⟨ref.2, ((packedBranches_spec lines).2 ref.1 ref.2).1 mem⟩
  refine foldlM_induction (fun done list => ∀ ref ∈ list,
      (∃ i, findPacked? lines (branchRef ref.1) = some i) ∨
        ∃ place ∈ done, "/".intercalate place = ref.1) files
    (fun ref mem => .inl (from_packed ref mem)) ?_ (name.text, id) ((mem_mapM_parse h).1 mem)
  rintro done place list next before - step ⟨n, i⟩ mem
  obtain ⟨loose, -, rfl⟩ := addBranchFile_eq_ok step
  by_cases same : n = "/".intercalate place
  · exact .inr ⟨place, by simp, same.symm⟩
  · have old : (n, i) ∈ list := by
      cases loose with
      | none => exact mem
      | some id => exact (mem_insertRef_of_ne same).1 mem
    rcases before (n, i) old with packed | ⟨p, hp, same⟩
    · exact .inl packed
    · exact .inr ⟨p, List.mem_append_left _ hp, same⟩

/-- The names of all refs in a list are names of branches. -/
def Named (list : List (String × ObjectId)) : Prop :=
  ∀ ref ∈ list, ∃ name, BranchName.parse ref.1 = .ok name

/-- A file that can be read is taken in. -/
theorem Named.addBranchFile {place : Place} {loose : Option ObjectId} (named : Named list)
    (ne : place ≠ []) (own : refs.looseBranch disk ("/".intercalate place) = .ok loose)
    (parses : ∃ name, BranchName.parse ("/".intercalate place) = .ok name) :
    ∃ next, refs.addBranchFile disk list place = .ok next ∧ Named next := by
  refine ⟨loose.elim list (insertRef ("/".intercalate place) · list), ?_, ?_⟩
  · rw [addBranchFile_eq, if_neg (by simpa using ne)]
    exact map_eq_ok.2 ⟨loose, own, rfl⟩
  · cases loose with
    | none => exact named
    | some id =>
      rintro ⟨n, i⟩ mem
      by_cases same : n = "/".intercalate place
      · exact same ▸ parses
      · exact named (n, i) ((mem_insertRef_of_ne same).1 mem)

theorem Named.exists_mapM_parse (named : Named list) : ∃ found : List (BranchName × ObjectId),
    list.mapM (fun (name, id) => return (← BranchName.parse name, id)) =
      (.ok found : Except Fault _) := by
  refine (exists_mapM (fun _ _ => True) fun ref mem => ?_).imp fun _ h => h.1
  obtain ⟨name, parsed⟩ := named ref mem
  exact ⟨(name, ref.2), bind_eq_ok.2 ⟨name, parsed, rfl⟩, trivial⟩

/-- The branches can be listed when all packed refs and all files can be read and the names are
names of branches. -/
theorem exists_branches (packed : refs.packed disk = .ok lines)
    (names : Named (packedBranches lines))
    (files : ∀ place ∈ disk.filesBelow refs.headsPath, place ≠ [] ∧
      (∃ loose, refs.looseBranch disk ("/".intercalate place) = .ok loose) ∧
      ∃ name, BranchName.parse ("/".intercalate place) = .ok name) :
    ∃ list, refs.branches disk = .ok list := by
  obtain ⟨all, taken⟩ := exists_foldlM (fun _ list => Named list) (f := refs.addBranchFile disk)
    names fun _ place list named _ mem => by
      obtain ⟨ne, ⟨loose, own⟩, parses⟩ := files place mem
      exact named.addBranchFile ne own parses
  have named : Named all := by
    refine foldlM_induction (fun _ list => Named list) taken names ?_
    intro _ place list next named mem step
    obtain ⟨ne, ⟨loose, own⟩, parses⟩ := files place mem
    obtain ⟨again, same, named'⟩ := named.addBranchFile ne own parses
    rwa [Except.ok.inj (step.symm.trans same)]
  obtain ⟨found, listed⟩ := named.exists_mapM_parse
  exact ⟨found, bind_eq_ok.2 ⟨lines, packed, bind_eq_ok.2 ⟨all, taken, listed⟩⟩⟩

end Refs

end CommitLog
