import CommitLog.Proofs.Disk.Lookup
import CommitLog.Session.Source

/-!
# Where a repository keeps what it has

A repository at a place keeps its objects and refs at places below.  An object can be read when its
place holds a file with it (`Repository.read_eq_ok`).
-/

namespace CommitLog

namespace Repository

open Disk

def gitPlace (root : Place) : Place := root ++ [".git"]

def objectPlace (root : Place) (id : ObjectId) : Place :=
  gitPlace root ++ ["objects"] ++
    [String.ofList (id.digits.take 2), String.ofList (id.digits.drop 2)]

variable {disk : Disk} {root place : Place} {id : ObjectId}

theorem gitPath_pathOf (names : ∀ name ∈ root, IsFileName name) :
    gitPath (pathOf root) = pathOf (gitPlace root) := by
  unfold gitPath gitPlace
  exact child_name names (by decide)

/-- A place with a directory for objects and refs is that of a repository. -/
theorem openAt_pathOf (rooted : disk.Rooted) (ne : root ≠ []) (isPlace : IsPlace (gitPlace root))
    (git : disk.node? (gitPlace root) = some .directory) :
    openAt (pathOf root) disk = .ok ⟨pathOf root⟩ := by
  have above : IsPlace root := isPlace.of_append
  have directory : disk.node? root = some .directory := rooted root ".git" .directory git
  have found : disk.isDirectory (gitPath (pathOf root)) = true := by
    rw [gitPath_pathOf above.names]
    exact (isDirectory_pathOf rooted isPlace (by simp [gitPlace])).2 git
  refine bind_eq_ok.2 ⟨pathOf root, ?_, ?_⟩
  · exact mapError_eq_ok.2 (canonical_pathOf rooted above ne directory)
  · rw [found]
    rfl

/-! ## Objects -/

/-- The file of an object in a store at a place. -/
theorem pathOf_store (isPlace : IsPlace (place ++
    [String.ofList (id.digits.take 2), String.ofList (id.digits.drop 2)])) :
    (⟨pathOf place⟩ : ObjectStore).pathOf id = pathOf (place ++
      [String.ofList (id.digits.take 2), String.ofList (id.digits.drop 2)]) := by
  have own : ∀ name ∈ [String.ofList (id.digits.take 2), String.ofList (id.digits.drop 2)],
      IsFileName name := fun name mem => isPlace.names name (List.mem_append_right _ mem)
  have fileName : id.fileName =
      "/".intercalate [String.ofList (id.digits.take 2), String.ofList (id.digits.drop 2)] := by
    rw [String.intercalate_cons_cons, String.intercalate_singleton]
    rfl
  unfold ObjectStore.pathOf
  rw [fileName]
  exact child_pathOf isPlace.of_append.names own (List.cons_ne_nil _ _)

/-- The file of an object. -/
theorem pathOf_object (isPlace : IsPlace (objectPlace root id)) :
    (objects ⟨pathOf root⟩).pathOf id = pathOf (objectPlace root id) := by
  have above : IsPlace (gitPlace root ++ ["objects"]) := isPlace.of_append
  have git : IsPlace (gitPlace root) := above.of_append
  unfold objects
  rw [gitPath_pathOf git.of_append.names, child_name git.names (by decide)]
  exact pathOf_store isPlace

theorem openContent_of_header {content : List UInt8} {object : RawObject}
    (header : parseHeader content = .ok (object.kind, object.body.length, object.body)) :
    ObjectStore.openContent id content = .ok object := by
  refine bind_eq_ok.2 ⟨_, header, ?_⟩
  exact if_neg fun differ => differ rfl

theorem read_eq_ok (rooted : disk.Rooted) (isPlace : IsPlace (objectPlace root id))
    {object : RawObject} : (objects ⟨pathOf root⟩).read disk id = .ok object ↔
      ∃ file content, disk.node? (objectPlace root id) = some (.file file) ∧
        Compression.decompress? file = some content ∧
        ObjectStore.openContent id content = .ok object := by
  have ne : objectPlace root id ≠ [] := by simp [objectPlace]
  unfold ObjectStore.read
  dsimp only
  rw [pathOf_object isPlace, bind_eq_ok]
  constructor
  · rintro ⟨file, read, h⟩
    have node := (readFile_pathOf rooted isPlace ne).1 (mapError_eq_ok.1 read)
    cases content : Compression.decompress? file with
    | none =>
      rw [content] at h
      cases h
    | some bytes =>
      rw [content] at h
      exact ⟨file, bytes, node, content, h⟩
  · rintro ⟨file, content, node, decompressed, h⟩
    refine ⟨file, mapError_eq_ok.2 ((readFile_pathOf rooted isPlace ne).2 node), ?_⟩
    rw [decompressed]
    exact h

section Kinds

variable {store : ObjectStore} {object : RawObject} (read : store.read disk id = .ok object)

include read

theorem readCommit_of_read {commit : Commit} (kind : object.kind = .commit)
    (parsed : Commit.parse object.body = .ok commit) : store.readCommit disk id = .ok commit := by
  refine bind_eq_ok.2 ⟨object, read, ?_⟩
  rw [kind]
  exact mapError_eq_ok.2 parsed

theorem readTree_of_read {tree : Tree} (kind : object.kind = .tree)
    (parsed : Tree.parse object.body = .ok tree) : store.readTree disk id = .ok tree := by
  refine bind_eq_ok.2 ⟨object, read, ?_⟩
  rw [kind]
  exact mapError_eq_ok.2 parsed

/-- An object of another kind is not read as a commit. -/
theorem readCommit_of_ne (differ : object.kind ≠ .commit) :
    store.readCommit disk id = .error (.otherKind id object.kind .commit) := by
  rw [ObjectStore.readCommit, read]
  dsimp only [bind, Except.bind]
  cases kind : object.kind with
  | commit => exact absurd kind differ
  | blob | tree => rfl

/-- An object of another kind is not read as a tree. -/
theorem readTree_of_ne (differ : object.kind ≠ .tree) :
    store.readTree disk id = .error (.otherKind id object.kind .tree) := by
  rw [ObjectStore.readTree, read]
  dsimp only [bind, Except.bind]
  cases kind : object.kind with
  | tree => exact absurd kind differ
  | blob | commit => rfl

end Kinds

/-! ## Refs -/

section Refs

variable {directory : Place}

/-- Without their file there are no packed refs. -/
theorem packed_eq_nil (rooted : disk.Rooted) (isPlace : IsPlace (directory ++ ["packed-refs"]))
    (absent : disk.node? (directory ++ ["packed-refs"]) = none) :
    (⟨pathOf directory⟩ : Refs).packed disk = .ok [] := by
  have noFile : ¬ disk.isFile (pathOf (directory ++ ["packed-refs"])) = true := by
    rw [isFile_pathOf rooted isPlace (by simp), absent]
    rintro ⟨_, h⟩
    cases h
  unfold Refs.packed
  rw [child_name isPlace.of_append.names (by decide)]
  exact if_neg noFile

theorem headsPath_pathOf (isPlace : IsPlace (directory ++ ["refs", "heads"])) :
    (⟨pathOf directory⟩ : Refs).headsPath = pathOf (directory ++ ["refs", "heads"]) := by
  have split : directory ++ ["refs", "heads"] = directory ++ ["refs"] ++ ["heads"] := by simp
  rw [split] at isPlace ⊢
  have above : IsPlace (directory ++ ["refs"]) := isPlace.of_append
  unfold Refs.headsPath
  rw [child_name above.of_append.names (by decide), child_name above.names (by decide)]

/-- Without packed refs and the directory of branches there are no branches. -/
theorem branches_eq_nil (rooted : disk.Rooted)
    (packed : (⟨pathOf directory⟩ : Refs).packed disk = .ok [])
    (isPlace : IsPlace (directory ++ ["refs", "heads"]))
    (absent : disk.node? (directory ++ ["refs", "heads"]) = none) :
    (⟨pathOf directory⟩ : Refs).branches disk = .ok [] := by
  unfold Refs.branches
  rw [packed, headsPath_pathOf isPlace, filesBelow_pathOf rooted isPlace (by simp) absent]
  rfl

theorem readText_pathOf (rooted : disk.Rooted) (isPlace : IsPlace place) (ne : place ≠ [])
    {content : List UInt8} {text : List Char} (file : disk.node? place = some (.file content))
    (decoded : Utf8.decode content = .ok text) : disk.readText (pathOf place) = .ok text := by
  refine bind_eq_ok.2 ⟨content, mapError_eq_ok.2 ?_, mapError_eq_ok.2 decoded⟩
  exact (readFile_pathOf rooted isPlace ne).2 file

theorem readFile_of_find {path : Path} {content : List UInt8} {text : List Char}
    (found : disk.find path = .ok (place, .file content))
    (decoded : Utf8.decode content = .ok text) :
    Refs.readFile disk path = RefTarget.parse text := by
  have there : disk.isFile path = true := by rw [isFile, found]
  have bytes : disk.readFile path = .ok content := bind_eq_ok.2 ⟨_, found, rfl⟩
  have read : disk.readText path = .ok text :=
    bind_eq_ok.2 ⟨content, mapError_eq_ok.2 bytes, mapError_eq_ok.2 decoded⟩
  unfold Refs.readFile
  rw [if_pos there, read]
  rfl

/-- What the file of a ref holds. -/
theorem readFile_ref (rooted : disk.Rooted) (isPlace : IsPlace place) (ne : place ≠ [])
    {content : List UInt8} {text : List Char} (file : disk.node? place = some (.file content))
    (decoded : Utf8.decode content = .ok text) :
    Refs.readFile disk (pathOf place) = RefTarget.parse text :=
  readFile_of_find (find_of_node? rooted isPlace ne file) decoded

end Refs

/-- A repository without branches, whose head names a commit. -/
theorem tips_of_head (rooted : disk.Rooted)
    (isPlace : ∀ names ∈ [["packed-refs"], ["refs", "heads"], [BranchName.headText]],
      IsPlace (gitPlace root ++ names))
    (packed : disk.node? (gitPlace root ++ ["packed-refs"]) = none)
    (heads : disk.node? (gitPlace root ++ ["refs", "heads"]) = none)
    {content : List UInt8} {text : List Char}
    (file : disk.node? (gitPlace root ++ [BranchName.headText]) = some (.file content))
    (decoded : Utf8.decode content = .ok text)
    (parsed : RefTarget.parse text = .ok (some (.object id))) :
    (⟨pathOf root⟩ : Repository).tips disk none = .ok [(.head, id)] := by
  have placePacked := isPlace ["packed-refs"] (by simp)
  have placeHeads := isPlace ["refs", "heads"] (by simp)
  have placeHead := isPlace [BranchName.headText] (by simp)
  have git : IsPlace (gitPlace root) := placePacked.of_append
  have names : IsPlace root := git.of_append
  have branches := branches_eq_nil rooted (packed_eq_nil rooted placePacked packed) placeHeads heads
  have head : (⟨pathOf (gitPlace root)⟩ : Refs).readHead disk = .ok (some id) := by
    have target : Refs.readFile disk ((pathOf (gitPlace root)).child BranchName.headText) =
        .ok (some (.object id)) := by
      rw [child_name git.names (by decide), readFile_ref rooted placeHead (by simp) file decoded,
        parsed]
    exact bind_eq_ok.2 ⟨_, target, rfl⟩
  unfold Repository.tips Repository.refs
  rw [gitPath_pathOf names.names, branches, head]
  rfl

end Repository

end CommitLog
