import CommitLog.Proofs.Repository.ObjectStore

/-!
# Only whole objects are read

The header of an object says how long its body is.  So a content that lost its end, or has more
behind it, is not read as an object: its header is bad or its length is not the declared one
(`ObjectStore.Misframed`).

    content ≠ object.serialize → content <+: object.serialize ∨ object.serialize <+: content →
      ∃ fault, openContent id content = .error fault
-/

namespace CommitLog

namespace ObjectStore

variable {store : ObjectStore} {disk : Disk} {object : RawObject} {id : ObjectId}
  {content file : List UInt8} {fault : Fault}

/-- The faults of a content that is cut off or goes on too long. -/
inductive Misframed (id : ObjectId) (declared : Nat) : Fault → Prop
  | header {fault : Fault} (bad : fault.OfHeader) : Misframed id declared fault
  | length {held : Nat} (differ : held ≠ declared) :
      Misframed id declared (.objectSize id declared held)

theorem openContent_of_bad_header (bad : parseHeader content = .error fault) :
    openContent id content = .error fault := by
  rw [openContent, bad]
  rfl

/-- A body that is not as long as its header says. -/
theorem openContent_of_length (id : ObjectId) (kind : ObjectKind) {size : Nat} {held : List UInt8}
    (differ : held.length ≠ size) :
    ∃ fault, openContent id (Utf8.ofString (kind.header size) ++ held) = .error fault ∧
      Misframed id size fault := by
  have header := parseHeader_append kind size held
  by_cases fits : size < 2 * Text.bound63
  · rw [if_pos fits] at header
    refine ⟨.objectSize id size held.length, ?_, .length differ⟩
    rw [openContent, header]
    exact if_pos differ
  · rw [if_neg fits] at header
    exact ⟨.headerSize, openContent_of_bad_header header, .header .size⟩

/-- A serialized object that lost its end is not read. -/
theorem openContent_of_prefix (front : content <+: object.serialize)
    (differ : content ≠ object.serialize) :
    ∃ fault, openContent id content = .error fault ∧ Misframed id object.body.length fault := by
  unfold RawObject.serialize at front differ
  by_cases inBody : Utf8.ofString (object.kind.header object.body.length) <+: content
  · -- a header with too little behind it
    obtain ⟨held, rfl⟩ := inBody
    rw [List.prefix_append_right_inj] at front
    apply openContent_of_length
    intro same
    exact differ (by rw [front.eq_of_length same])
  · have inHeader : content <+: Utf8.ofString (object.kind.header object.body.length) :=
      (List.prefix_or_prefix_of_prefix front (List.prefix_append _ _)).resolve_right inBody
    have cut : content ≠ Utf8.ofString (object.kind.header object.body.length) := by
      rintro rfl
      exact inBody List.prefix_rfl
    obtain ⟨fault, bad, ofHeader⟩ := parseHeader_of_prefix inHeader cut
    exact ⟨fault, openContent_of_bad_header bad, .header ofHeader⟩

/-- Nor is one with more behind it. -/
theorem openContent_of_extension (front : object.serialize <+: content)
    (differ : content ≠ object.serialize) :
    ∃ fault, openContent id content = .error fault ∧ Misframed id object.body.length fault := by
  obtain ⟨more, rfl⟩ := front
  unfold RawObject.serialize at differ ⊢
  rw [List.append_assoc]
  apply openContent_of_length
  rw [List.length_append]
  have : more ≠ [] := by
    rintro rfl
    exact differ (List.append_nil _)
  have := List.length_pos_of_ne_nil this
  omega

/-! ## Files of objects -/

theorem read_of_content (found : disk.readFile (store.pathOf id) = .ok file)
    (decompressed : Compression.decompress? file = some content) :
    store.read disk id = openContent id content := by
  rw [read, found]
  dsimp only [bind, Except.bind, Except.mapError]
  rw [decompressed]

theorem readCommit_of_error (bad : store.read disk id = .error fault) :
    store.readCommit disk id = .error fault := by
  rw [readCommit, bad]
  rfl

theorem readTree_of_error (bad : store.read disk id = .error fault) :
    store.readTree disk id = .error fault := by
  rw [readTree, bad]
  rfl

/-- **An object is read only as a whole.**  The header of a serialized object gives its kind and
length and leaves its body, for every length of 64 bits.  A content that lost some of its end, or
has something behind it, is read neither as an object, nor as a commit, nor as a tree. -/
theorem read_whole (object : RawObject) :
    (parseHeader object.serialize = .ok (object.kind, object.body.length, object.body) ↔
      object.body.length < 2 ^ 64) ∧
    ∀ content, content ≠ object.serialize →
      content <+: object.serialize ∨ object.serialize <+: content →
      ∀ (store : ObjectStore) (disk : Disk) (id : ObjectId) (file : List UInt8),
        disk.readFile (store.pathOf id) = .ok file →
        Compression.decompress? file = some content →
        ∃ fault, Misframed id object.body.length fault ∧
          store.read disk id = .error fault ∧ store.readCommit disk id = .error fault ∧
          store.readTree disk id = .error fault := by
  constructor
  · rw [RawObject.serialize, parseHeader_append]
    have bound : 2 * Text.bound63 = 2 ^ 64 := rfl
    rw [bound]
    by_cases fits : object.body.length < 2 ^ 64
    · rw [if_pos fits]
      exact iff_of_true rfl fits
    · rw [if_neg fits]
      refine iff_of_false ?_ fits
      intro read
      cases read
  · intro content differ part store disk id file found decompressed
    have bad : ∃ fault, openContent id content = .error fault ∧
        Misframed id object.body.length fault := by
      rcases part with front | front
      · exact openContent_of_prefix front differ
      · exact openContent_of_extension front differ
    obtain ⟨fault, bad, misframed⟩ := bad
    rw [← read_of_content found decompressed] at bad
    exact ⟨fault, misframed, bad, readCommit_of_error bad, readTree_of_error bad⟩

namespace Sample

/-- The tree with one file, cut off inside its length of 33 bytes: a shorter length remains. -/
def cut : List UInt8 := Utf8.ofString "tree 3"

/-- A directory for objects with a file that holds such a content. -/
def cutNodes : List (Place × Disk.Node) :=
  [(["objects"], .directory), (["objects", ObjectId.zero.folderName], .directory),
    (["objects", ObjectId.zero.folderName, ObjectId.zero.ownName],
      .file (Compression.compress cut))]

theorem proper_cutNodes : ∀ entry ∈ cutNodes, entry.1 ≠ [] := by decide

theorem distinct_cutNodes : (cutNodes.map (·.1)).Nodup := by decide +kernel

theorem readFile_cutNodes : (Disk.ofNodes cutNodes).readFile
    ((atPlace ["objects"]).pathOf .zero) = .ok (Compression.compress cut) := by
  have isPlace : Disk.IsPlace (["objects"] ++
      [ObjectId.zero.folderName, ObjectId.zero.ownName]) := by decide +kernel
  have rooted : (Disk.ofNodes cutNodes).Rooted :=
    Disk.rooted_ofNodes proper_cutNodes distinct_cutNodes (by decide +kernel)
  rw [show (atPlace ["objects"]).pathOf .zero = _ from Repository.pathOf_store isPlace]
  apply (Disk.readFile_pathOf rooted isPlace (by simp)).2
  exact Disk.node?_of_mem proper_cutNodes distinct_cutNodes (by simp [cutNodes])

/-- A tree that lost most of its file is not taken for a smaller one. -/
theorem read_cut : ∃ fault, Misframed .zero 33 fault ∧
    (atPlace ["objects"]).read (.ofNodes cutNodes) .zero = .error fault ∧
    (atPlace ["objects"]).readCommit (.ofNodes cutNodes) .zero = .error fault ∧
    (atPlace ["objects"]).readTree (.ofNodes cutNodes) .zero = .error fault := by
  have length : folder.toRaw.body.length = 33 := by decide +kernel
  rw [← length]
  exact (read_whole folder.toRaw).2 cut (by decide +kernel) (.inl (by decide +kernel)) _ _ _ _
    readFile_cutNodes (Compression.decompress?_compress _)

end Sample

end ObjectStore

end CommitLog
