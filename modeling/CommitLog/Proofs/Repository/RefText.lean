import CommitLog.Proofs.Repository.Branches
import CommitLog.Proofs.Text.Number
import CommitLog.Proofs.Text.Utf8

/-!
# What ref files say

The name of a branch is *plain* when its parts between slashes are names of files and it does not
end in a blank (`BranchName.IsPlain`): then the file of a ref names the branch, and the branch has a
place of its own.  Packed refs are lines with an id, a space and a name, beside comments and the
lines of peeled tags (`Refs.PackedLine`).

    name.IsPlain → RefTarget.parse ("ref: refs/heads/" ++ name.text ++ "\n") =
      .ok (some (.symbolic (branchRef name.text)))
    List.Forall₂ PackedLine (Text.lines text) refs → parsePacked text = .ok (refs.filterMap id)
-/

namespace CommitLog

/-! ## Plain names -/

namespace BranchName

variable {name other : BranchName}

/-- The name of a branch with no empty part between slashes and no blank at its end. -/
structure IsPlain (name : BranchName) : Prop where
  parsed : parse name.text = .ok name
  whole : [] ∉ Text.splitAll '/' name.text.toList
  ending : ∀ c ∈ name.text.toList.getLast?, Text.isBlank c = false

def names (name : BranchName) : Place := (Text.splitAll '/' name.text.toList).map String.ofList

theorem intercalate_names (name : BranchName) : "/".intercalate name.names = name.text :=
  Disk.intercalate_splitAll name.text

theorem eq_of_intercalate (same : "/".intercalate name.names = other.text) : name = other := by
  rw [intercalate_names] at same
  cases name
  cases other
  exact congrArg _ same

theorem names_inj : name.names = other.names ↔ name = other := by
  refine ⟨fun same => eq_of_intercalate ?_, congrArg names⟩
  rw [same, intercalate_names]

theorem names_ne_nil (name : BranchName) : name.names ≠ [] := by
  unfold names
  simpa using Text.splitAll_ne_nil '/' name.text.toList

namespace IsPlain

variable (plain : name.IsPlain)

include plain

theorem ofSegment? {part : List Char} (mem : part ∈ Text.splitAll '/' name.text.toList) :
    Component.ofSegment? part = some (.normal (String.ofList part)) :=
  ofSegment?_of_parse plain.parsed mem fun empty => plain.whole (empty ▸ mem)

theorem relative (rest : List Char) : name.text.toList ≠ '/' :: rest := by
  intro slash
  refine plain.whole ?_
  rw [slash]
  simp [Text.splitAll]

end IsPlain

theorem isForbiddenChar_of_mem (parsed : parse name.text = .ok name) {c : Char}
    (mem : c ∈ name.text.toList) : isForbiddenChar c = false := by
  obtain ⟨-, allowed, -⟩ := parse_eq_ok.1 parsed
  rw [isForbidden, Bool.or_eq_false_iff] at allowed
  exact Bool.eq_false_iff.2 (List.any_eq_false.1 allowed.2 c mem)

theorem noLineFeed (parsed : parse name.text = .ok name) : '\n' ∉ name.text.toList := fun mem =>
  absurd (isForbiddenChar_of_mem parsed mem) (by decide)

end BranchName

/-! ## The texts of refs -/

theorem RefFile.decode_written (text : String) :
    Utf8.decode (RefFile.written (Utf8.ofString text)) = .ok (text.toList ++ ['\n']) := by
  have whole : RefFile.written (Utf8.ofString text) = Utf8.encode (text.toList ++ ['\n']) := by
    rw [Utf8.encode_append]
    rfl
  rw [whole, Utf8.decode_encode]

namespace ObjectId

theorem isBlank_of_mem_digits {id : ObjectId} {c : Char} (mem : c ∈ id.digits) :
    Text.isBlank c = false := by
  have hex : ∀ n < 16, Text.isBlank (Text.hexChar n) = false := by decide
  obtain ⟨n, hn, rfl⟩ := Text.mem_hex mem
  exact hex n hn

theorem not_mem_digits {id : ObjectId} {c : Char} (differ : ∀ n < 16, c ≠ Text.hexChar n) :
    c ∉ id.digits := by
  intro mem
  obtain ⟨n, hn, same⟩ := Text.mem_hex mem
  exact differ n hn same

end ObjectId

namespace RefTarget

/-- The text of a ref in a line of its own. -/
theorem parse_line {text : List Char} (first : ∀ c ∈ text.head?, Text.isBlank c = false)
    (last : ∀ c ∈ text.getLast?, Text.isBlank c = false) (ne : text ≠ []) :
    parse (text ++ ['\n']) = match symbolicName? text with
      | some name => .ok (some (.symbolic (String.ofList name)))
      | none => ((ObjectId.parse (String.ofList text)).mapError .objectId).map
        fun id => some (.object id) := by
  unfold parse
  rw [Text.trim_append_blank (by decide), Text.trim_eq_self_iff.mpr ⟨first, last⟩]
  exact if_neg (by simpa using ne)

theorem symbolicName?_eq {name : List Char} (ne : name ≠ []) (oneLine : '\n' ∉ name) :
    symbolicName? (marker ++ name) = some name := by
  have begins : marker.isPrefixOf (marker ++ name) = true :=
    List.isPrefixOf_iff_prefix.2 (List.prefix_append _ _)
  unfold symbolicName?
  rw [begins, List.drop_left]
  simp [ne, oneLine]

theorem parse_object (id : ObjectId) :
    parse (id.text.toList ++ ['\n']) = .ok (some (.object id)) := by
  rw [ObjectId.text, String.toList_ofList]
  have ne : id.digits ≠ [] := List.ne_nil_of_length_eq_add_one id.length_digits
  have noMarker : symbolicName? id.digits = none := by
    have other : marker.isPrefixOf id.digits = false := by
      rw [Bool.eq_false_iff, ne_eq, List.isPrefixOf_iff_prefix]
      intro front
      exact ObjectId.not_mem_digits (by decide) (front.subset (show 'r' ∈ marker by decide))
    unfold symbolicName?
    simp [other]
  rw [parse_line (fun c mem => ObjectId.isBlank_of_mem_digits (List.mem_of_mem_head? mem))
    (fun c mem => ObjectId.isBlank_of_mem_digits (List.mem_of_mem_getLast? mem)) ne, noMarker]
  have parsed : ObjectId.parse (String.ofList id.digits) = .ok id := id.parse_text
  rw [parsed]
  rfl

/-- The text that names a branch, of which blanks at the end are lost. -/
theorem parse_branch {name : List Char} (oneLine : '\n' ∉ name) :
    parse (marker ++ Refs.headsPrefix ++ name ++ ['\n']) =
      .ok (some (.symbolic (Refs.branchRef (String.ofList (Text.trimEnd name))))) := by
  have start : ∀ c ∈ (marker ++ Refs.headsPrefix ++ name).head?, Text.isBlank c = false := by
    rw [List.append_assoc, List.head?_append_of_ne_nil _ (by decide)]
    intro c mem
    obtain rfl : 'r' = c := Option.some.inj mem
    decide
  have ending : ∀ c ∈ (marker ++ Refs.headsPrefix).getLast?, Text.isBlank c = false := by
    rintro c ⟨⟩
    decide
  have trimmed : Text.trim (marker ++ Refs.headsPrefix ++ name) =
      marker ++ (Refs.headsPrefix ++ Text.trimEnd name) := by
    rw [Text.trim, Text.trimStart_eq_self_iff.2 start,
      Text.trimEnd_append (by decide) ending, List.append_assoc]
  have named : symbolicName? (marker ++ (Refs.headsPrefix ++ Text.trimEnd name)) =
      some (Refs.headsPrefix ++ Text.trimEnd name) := by
    refine symbolicName?_eq (List.append_ne_nil_of_left_ne_nil (by decide) _) ?_
    rw [List.mem_append, not_or]
    refine ⟨by decide, fun feed => oneLine ?_⟩
    exact (List.rdropWhile_prefix Text.isBlank name).subset feed
  have full : ¬ (marker ++ (Refs.headsPrefix ++ Text.trimEnd name)).isEmpty = true := by
    rw [List.isEmpty_iff]
    exact List.append_ne_nil_of_left_ne_nil (by decide) _
  unfold parse
  rw [Text.trim_append_blank (by decide), trimmed]
  dsimp only
  rw [if_neg full, named]
  dsimp only
  rw [String.ofList_append]
  rfl

end RefTarget

/-! ## Packed refs -/

namespace Refs

/-- A line of packed refs and the ref in it: none in a comment and in the line of a peeled tag. -/
inductive PackedLine : List Char → Option (String × ObjectId) → Prop
  | comment (text : List Char) : PackedLine ('#' :: text) none
  | peeled (text : List Char) : PackedLine ('^' :: text) none
  | ref (id : ObjectId) (name : String) (trimmed : Text.trim name.toList = name.toList) :
      PackedLine (id.digits ++ ' ' :: name.toList) (some (name, id))

theorem parsePackedLine_eq {line : List Char} {ref : Option (String × ObjectId)}
    (h : PackedLine line ref) : parsePackedLine line = .ok ref := by
  cases h with
  | comment text => rfl
  | peeled text => rfl
  | ref id name trimmed =>
    obtain ⟨c, digits, hdigits⟩ : ∃ c digits, id.digits = c :: digits :=
      List.exists_cons_of_length_eq_add_one id.length_digits
    have mark (d : Char) (differ : ∀ n < 16, d ≠ Text.hexChar n) : c ≠ d := by
      rintro rfl
      exact ObjectId.not_mem_digits differ (by rw [hdigits]; exact List.mem_cons_self)
    have noComment : ¬ ((id.digits ++ ' ' :: name.toList).head? = some '#' ∨
        (id.digits ++ ' ' :: name.toList).head? = some '^') := by
      rw [hdigits]
      simp [mark '#' (by decide), mark '^' (by decide)]
    have cut : Text.splitOnce ' ' (id.digits ++ ' ' :: name.toList) =
        some (id.digits, name.toList) :=
      Text.splitOnce_eq_some_iff.2 ⟨rfl, ObjectId.not_mem_digits (by decide)⟩
    have parsed : ObjectId.parse (String.ofList id.digits) = .ok id := id.parse_text
    unfold parsePackedLine
    rw [if_neg noComment, cut]
    dsimp only
    rw [parsed, trimmed, String.ofList_toList]
    rfl

theorem mem_of_findPacked? {lines : List (String × ObjectId)} {name : String} {id : ObjectId}
    (found : findPacked? lines name = some id) : (name, id) ∈ lines := by
  obtain ⟨front, back, whole, -⟩ := List.lookup_eq_some_iff.1 found
  rw [← List.mem_reverse, whole]
  simp

/-- Packed refs are read in the order of their lines. -/
theorem parsePacked_eq {text : List Char} {refs : List (Option (String × ObjectId))}
    (h : List.Forall₂ PackedLine (Text.lines text) refs) :
    parsePacked text = .ok (refs.filterMap id) := by
  refine bind_eq_ok.2 ⟨refs, mapM_eq_ok.2 (h.imp fun _ _ => parsePackedLine_eq), rfl⟩

end Refs

end CommitLog
