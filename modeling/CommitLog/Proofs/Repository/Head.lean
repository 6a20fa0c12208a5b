import CommitLog.Proofs.Repository.Branches
import CommitLog.Proofs.Text.Utf8

/-!
# The head and the branches

A head that names a branch leads to the object that the branch is listed with, unless the file of
the branch names a ref that does not exist: then there is no head, but a packed branch is still
listed (`Refs.readHead_eq`, `Refs.readHead_dangling`).

    refs.branches disk = .ok list → refs.readHead disk = .ok found → HEAD names the branch →
      ¬ refs.Dangles disk name.text → (found = some id ↔ (name, id) ∈ list)
-/

namespace CommitLog

namespace Refs

variable {refs : Refs} {disk : Disk} {name : String} {lines : List (String × ObjectId)}

/-! ## Following refs -/

/-- With more links allowed, a ref leads to the same object. -/
theorem resolve_succ {links : Nat} {object : Option ObjectId}
    (h : refs.resolve disk links name = .ok object) :
    refs.resolve disk (links + 1) name = .ok object := by
  induction links generalizing name with
  | zero => cases h
  | succ links ih =>
    obtain ⟨target, read, h⟩ := bind_eq_ok.1 h
    refine bind_eq_ok.2 ⟨target, read, ?_⟩
    match target with
    | none => exact h
    | some (.object _) => exact h
    | some (.symbolic _) => exact ih h

/-- The file of a branch names a ref that does not exist. -/
def Dangles (refs : Refs) (disk : Disk) (name : String) : Prop :=
  ∃ target, readFile disk (refs.headsPath.child name) = .ok (some (.symbolic target)) ∧
    refs.resolve disk longestChain target = .ok none

/-- Where the ref of a branch leads: to what its file does, or else to the packed object, but
nowhere if the file names a ref that does not exist. -/
theorem resolve_branchRef {loose object : Option ObjectId}
    (relative : ∀ rest, name.toList ≠ '/' :: rest) (packed : refs.packed disk = .ok lines)
    (own : refs.looseBranch disk name = .ok loose)
    (h : refs.resolve disk longestChain (branchRef name) = .ok object) :
    (¬ refs.Dangles disk name → object = loose.or (findPacked? lines (branchRef name))) ∧
      (refs.Dangles disk name → object = none ∧ loose = none) := by
  obtain ⟨target, read, h⟩ := bind_eq_ok.1 h
  rw [child_branchRef refs relative] at read
  obtain ⟨again, same, own⟩ := bind_eq_ok.1 own
  obtain rfl := Except.ok.inj (same.symm.trans read)
  have dangling (h : refs.Dangles disk name) : ∃ ref, again = some (.symbolic ref) ∧
      refs.resolve disk longestChain ref = .ok none := by
    obtain ⟨ref, hread, resolved⟩ := h
    exact ⟨ref, Except.ok.inj (read.symm.trans hread), resolved⟩
  match again with
  | none =>
    obtain ⟨_, hlines, h⟩ := bind_eq_ok.1 h
    obtain rfl := Except.ok.inj (hlines.symm.trans packed)
    obtain rfl := Except.ok.inj h
    obtain rfl := Except.ok.inj own
    exact ⟨fun _ => rfl, fun h => nomatch dangling h⟩
  | some (.object id) =>
    obtain rfl := Except.ok.inj h
    obtain rfl := Except.ok.inj own
    exact ⟨fun _ => rfl, fun h => nomatch dangling h⟩
  | some (.symbolic ref) =>
    -- the head leads to the ref through one more link than the file
    obtain rfl := Except.ok.inj ((resolve_succ h).symm.trans own)
    refine ⟨fun notDangling => ?_, fun h => ?_⟩
    · cases object with
      | none => exact absurd ⟨ref, read, own⟩ notDangling
      | some id => rfl
    · obtain ⟨_, same, resolved⟩ := dangling h
      cases same
      exact and_self_iff.2 (Except.ok.inj (own.symm.trans resolved))

/-- **A head that names a branch leads to the object that the branch is listed with, and to none if
the branch is not listed.**  When the file of the branch names a ref that does not exist, there is
no head, but the packed branch is listed. -/
theorem readHead_eq {name : BranchName} {list : List (BranchName × ObjectId)}
    {found : Option ObjectId} (parsed : BranchName.parse name.text = .ok name)
    (whole : [] ∉ Text.splitAll '/' name.text.toList)
    (head : readFile disk refs.headPath = .ok (some (.symbolic (branchRef name.text))))
    (listed : refs.branches disk = .ok list) (read : refs.readHead disk = .ok found) :
    (¬ refs.Dangles disk name.text → ∀ id, found = some id ↔ (name, id) ∈ list) ∧
      (refs.Dangles disk name.text → found = none ∧ ∃ lines, refs.packed disk = .ok lines ∧
        ∀ id, (name, id) ∈ list ↔ findPacked? lines (branchRef name.text) = some id) := by
  obtain ⟨lines, loose, packed, own, members⟩ := mem_branches parsed whole listed
  have relative : ∀ rest, name.text.toList ≠ '/' :: rest := by
    intro rest slash
    refine whole ?_
    rw [slash]
    simp [Text.splitAll]
  have branch : refs.resolve disk longestChain (branchRef name.text) = .ok found := by
    obtain ⟨target, own, h⟩ := bind_eq_ok.1 read
    obtain rfl := Except.ok.inj (own.symm.trans head)
    exact h
  obtain ⟨leads, dangles⟩ := resolve_branchRef relative packed own branch
  refine ⟨fun notDangling id => ?_, fun dangling => ⟨(dangles dangling).1, lines, packed, ?_⟩⟩
  · rw [leads notDangling, members id]
  · intro id
    rw [members id, (dangles dangling).2, Option.none_or]

/-! ## An example -/

namespace Tagged

open Disk Repository

def place : Place := ["a", ".git"]

def sampleRefs : Refs := ⟨pathOf place⟩

def branch : BranchName := ⟨"main"⟩

def branchId : ObjectId := ⟨List.replicate 20 0xAA, rfl⟩

def tagId : ObjectId := ⟨List.replicate 20 0xBB, rfl⟩

def packedRefs : List (String × ObjectId) :=
  [("refs/heads/main", branchId), ("refs/tags/v1", tagId)]

def packedText : String :=
  branchId.text ++ " refs/heads/main\n" ++ tagId.text ++ " refs/tags/v1\n"

/-- What the file of the branch holds. -/
def branchText (tag : String) : String := "ref: refs/tags/" ++ tag ++ "\n"

/-- The head names the branch, which is packed and whose own file names a tag. -/
def nodes (tag : String) : List (Place × Node) :=
  [(["a"], .directory), (place, .directory),
    (place ++ ["HEAD"], .file (Utf8.ofString "ref: refs/heads/main\n")),
    (place ++ ["packed-refs"], .file (Utf8.ofString packedText)),
    (place ++ ["refs"], .directory), (place ++ ["refs", "heads"], .directory),
    (place ++ ["refs", "heads", "main"], .file (Utf8.ofString (branchText tag)))]

def diskOf (tag : String) : Disk := .ofNodes (nodes tag)

variable {tag : String} {node : Node} {names : Place}

theorem proper : ∀ entry ∈ nodes tag, entry.1 ≠ [] := by
  simp [nodes, place]

theorem distinct : ((nodes tag).map (·.1)).Nodup := by
  simp [nodes, place]

theorem rooted : (diskOf tag).Rooted :=
  rooted_ofNodes proper distinct (by simp [nodes, place])

theorem node?_diskOf (mem : (names, node) ∈ nodes tag) : (diskOf tag).node? names = some node :=
  node?_of_mem proper distinct mem

theorem isPlace : ∀ names ∈ [["HEAD"], ["packed-refs"], ["refs", "heads"],
    ["refs", "heads", "main"], ["refs", "tags", "v1"], ["refs", "tags", "v2"]],
    IsPlace (place ++ names) := by
  decide

theorem packed_diskOf : sampleRefs.packed (diskOf tag) = .ok packedRefs := by
  have own := isPlace ["packed-refs"] (by simp)
  have file : (diskOf tag).node? (place ++ ["packed-refs"]) =
      some (.file (Utf8.ofString packedText)) := node?_diskOf (by simp [nodes])
  have parsed : (parsePacked packedText.toList).toOption = some packedRefs := by
    decide +kernel
  have there : (diskOf tag).isFile (pathOf (place ++ ["packed-refs"])) = true :=
    (isFile_pathOf rooted own (by simp)).2 ⟨_, file⟩
  unfold packed sampleRefs
  rw [child_name own.of_append.names (by decide), if_pos there,
    readText_pathOf rooted own (by simp) file (Utf8.decode_ofString _)]
  exact toOption_eq_some.1 parsed

theorem headsPath_eq : sampleRefs.headsPath = pathOf (place ++ ["refs", "heads"]) :=
  headsPath_pathOf (isPlace _ (by simp))

/-- The only file below the branches is that of the branch. -/
theorem eq_of_mem_filesBelow (h : names ∈ (diskOf tag).filesBelow sampleRefs.headsPath) :
    names = ["main"] := by
  have found : (diskOf tag).find sampleRefs.headsPath =
      .ok (place ++ ["refs", "heads"], .directory) := by
    rw [headsPath_eq]
    exact find_of_node? rooted (isPlace _ (by simp)) (by simp) (node?_diskOf (by simp [nodes]))
  obtain ⟨content, known⟩ := (mem_filesBelow found).1 h
  have file : (diskOf tag).node? (place ++ ["refs", "heads"] ++ names) = some (.file content) := by
    rw [node?, if_neg (by simp [place]), known]
  unfold diskOf at file
  rw [node?_ofNodes proper (by simp [place]), Option.map_eq_some_iff] at file
  obtain ⟨⟨own, node⟩, found, rfl⟩ := file
  have mem := List.mem_of_find?_eq_some found
  have same : own = place ++ ["refs", "heads"] ++ names := by simpa using List.find?_some found
  have both : names = ["main"] ∧ content = Utf8.ofString (branchText tag) := by
    simpa [nodes, place, same] using mem
  exact both.1

theorem readFile_head :
    readFile (diskOf tag) sampleRefs.headPath = .ok (some (.symbolic (branchRef branch.text))) := by
  have own := isPlace ["HEAD"] (by simp)
  have path : sampleRefs.headPath = pathOf (place ++ ["HEAD"]) :=
    child_name own.of_append.names (by decide)
  rw [path, readFile_ref rooted own (by simp) (node?_diskOf (by simp [nodes]))
    (Utf8.decode_ofString "ref: refs/heads/main\n")]
  rfl

theorem readFile_branch (known : tag ∈ ["v1", "v2"]) :
    readFile (diskOf tag) (sampleRefs.headsPath.child "main") =
      .ok (some (.symbolic ("refs/tags/" ++ tag))) := by
  have own := isPlace ["refs", "heads", "main"] (by simp)
  have parsed : ∀ tag ∈ ["v1", "v2"], (RefTarget.parse (branchText tag).toList).toOption =
      some (some (.symbolic ("refs/tags/" ++ tag))) := by
    decide
  have path : sampleRefs.headsPath.child "main" = pathOf (place ++ ["refs", "heads", "main"]) := by
    rw [headsPath_eq]
    exact child_name (isPlace ["refs", "heads"] (by simp)).names (by decide)
  rw [path, readFile_ref rooted own (by simp) (node?_diskOf (by simp [nodes]))
    (Utf8.decode_ofString (branchText tag))]
  exact toOption_eq_some.1 (parsed tag known)

/-- The tag that the file of the branch names is looked up among the packed refs. -/
theorem resolve_tag (known : tag ∈ ["v1", "v2"]) (links : Nat) :
    sampleRefs.resolve (diskOf tag) (links + 1) ("refs/tags/" ++ tag) =
      .ok (findPacked? packedRefs ("refs/tags/" ++ tag)) := by
  have noFile : readFile (diskOf tag) (sampleRefs.directory.child ("refs/tags/" ++ tag)) =
      .ok none := by
    have own : IsPlace (place ++ ["refs", "tags", tag]) := by
      refine isPlace _ ?_
      simpa using known
    have path : sampleRefs.directory.child ("refs/tags/" ++ tag) =
        pathOf (place ++ ["refs", "tags", tag]) := by
      have text : "refs/tags/" ++ tag = "/".intercalate ["refs", "tags", tag] := by
        simp only [String.intercalate_cons_cons, String.intercalate_singleton, String.append_assoc]
        rfl
      rw [text]
      exact child_pathOf own.of_append.names
        (fun name mem => own.names name (List.mem_append_right _ mem)) (List.cons_ne_nil _ _)
    have absent : (diskOf tag).node? (place ++ ["refs", "tags", tag]) = none :=
      node?_of_not_mem proper (by simp) (by simp [nodes, place])
    unfold readFile
    rw [path, if_neg]
    rw [isFile_pathOf rooted own (by simp), absent]
    simp
  exact bind_eq_ok.2 ⟨_, noFile, bind_eq_ok.2 ⟨_, packed_diskOf, rfl⟩⟩

theorem parse_branch : BranchName.parse branch.text = .ok branch := rfl

theorem looseBranch_diskOf (known : tag ∈ ["v1", "v2"]) :
    sampleRefs.looseBranch (diskOf tag) branch.text =
      .ok (findPacked? packedRefs ("refs/tags/" ++ tag)) :=
  bind_eq_ok.2 ⟨_, readFile_branch known, resolve_tag known 7⟩

theorem exists_branches_diskOf (known : tag ∈ ["v1", "v2"]) :
    ∃ list, sampleRefs.branches (diskOf tag) = .ok list := by
  refine exists_branches packed_diskOf ?_ fun place mem => ?_
  · have packed : packedBranches packedRefs = [("main", branchId)] := rfl
    rw [packed]
    intro ref mem
    rw [List.mem_singleton.1 mem]
    exact ⟨branch, parse_branch⟩
  · rw [eq_of_mem_filesBelow mem]
    exact ⟨List.cons_ne_nil _ _, ⟨_, looseBranch_diskOf known⟩, branch, parse_branch⟩

theorem readHead_diskOf (known : tag ∈ ["v1", "v2"]) : sampleRefs.readHead (diskOf tag) =
    .ok (findPacked? packedRefs ("refs/tags/" ++ tag)) := by
  have file : readFile (diskOf tag) (sampleRefs.directory.child (branchRef branch.text)) =
      .ok (some (.symbolic ("refs/tags/" ++ tag))) := by
    rw [child_branchRef _ (by simp [branch])]
    exact readFile_branch known
  exact bind_eq_ok.2 ⟨_, readFile_head, bind_eq_ok.2 ⟨_, file, resolve_tag known 6⟩⟩

end Tagged

open Tagged

/-- The file of the branch leads to the tag, and so does the head. -/
theorem readHead_eq_tag : ∃ list, sampleRefs.branches (diskOf "v1") = .ok list ∧
    sampleRefs.readHead (diskOf "v1") = .ok (some tagId) ∧ (branch, tagId) ∈ list := by
  have known : "v1" ∈ ["v1", "v2"] := by simp
  have packed : findPacked? packedRefs "refs/tags/v1" = some tagId := rfl
  obtain ⟨list, listed⟩ := exists_branches_diskOf known
  have read : sampleRefs.readHead (diskOf "v1") = .ok (some tagId) :=
    (readHead_diskOf known).trans (congrArg _ packed)
  have leads : ¬ sampleRefs.Dangles (diskOf "v1") branch.text := by
    rintro ⟨target, file, nothing⟩
    cases (readFile_branch known).symm.trans file
    have resolved := (resolve_tag known 7).symm.trans nothing
    rw [show "refs/tags/" ++ "v1" = "refs/tags/v1" from rfl, packed] at resolved
    cases resolved
  obtain ⟨agree, -⟩ := readHead_eq parse_branch (by decide) readFile_head listed read
  exact ⟨list, listed, read, (agree leads tagId).1 rfl⟩

/-- The file of the branch names a tag that does not exist: there is no head, but the branch is
listed. -/
theorem readHead_dangling : ∃ (refs : Refs) (disk : Disk) (name : BranchName)
    (list : List (BranchName × ObjectId)) (found : Option ObjectId),
    BranchName.parse name.text = .ok name ∧ [] ∉ Text.splitAll '/' name.text.toList ∧
    readFile disk refs.headPath = .ok (some (.symbolic (branchRef name.text))) ∧
    refs.branches disk = .ok list ∧ refs.readHead disk = .ok found ∧
    ¬ ∀ id, found = some id ↔ (name, id) ∈ list := by
  have known : "v2" ∈ ["v1", "v2"] := by simp
  have unknown : findPacked? packedRefs "refs/tags/v2" = none := rfl
  have packed : findPacked? packedRefs (branchRef branch.text) = some branchId := rfl
  obtain ⟨list, listed⟩ := exists_branches_diskOf known
  obtain ⟨lines, loose, same, own, members⟩ := mem_branches parse_branch (by decide) listed
  obtain rfl := Except.ok.inj (same.symm.trans packed_diskOf)
  obtain rfl : none = loose :=
    unknown.symm.trans (Except.ok.inj ((looseBranch_diskOf known).symm.trans own))
  refine ⟨sampleRefs, diskOf "v2", branch, list, none, parse_branch, by decide, readFile_head,
    listed, (readHead_diskOf known).trans (congrArg _ unknown), fun agree => ?_⟩
  exact nomatch (agree branchId).2 ((members branchId).2 packed)

end Refs

end CommitLog
