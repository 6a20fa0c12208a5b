import CommitLog.Object.Commit
import CommitLog.Proofs.Object.Author
import CommitLog.Proofs.Text.Utf8

/-!
# The body of a commit

Writing a commit and reading the body again loses nothing, for every commit that was read from some
body and for every new one.

    parse body = .ok commit → parse commit.content = .ok commit

Header and message are told apart by the first blank line, and no line of the header is blank
(`parse_content`).
-/

namespace CommitLog

/-- An author whose line is one line. -/
structure Author.OneLine (author : Author) : Prop where
  printable : author.Printable
  unbroken : '\n' ∉ author.display.toList

theorem Author.OneLine.of_parse {author : Author} {text : String}
    (h : Author.parse text = .ok author) (unbroken : '\n' ∉ text.toList) : author.OneLine := by
  have printable := Author.Printable.of_parse h
  refine ⟨printable, fun mem => ?_⟩
  rcases printable.mem_display mem with mem | mem | mem | mem
  · exact unbroken (Author.mem_of_parse h (.inl mem))
  · exact unbroken (Author.mem_of_parse h (.inr mem))
  · revert mem
    decide
  · cases mem

/-- The line of an author ends with a digit of the time zone. -/
theorem Author.OneLine.whole {author : Author} (h : author.OneLine) :
    Text.Whole author.display.toList := by
  have zone : Text.Whole (' ' :: (Time.offsetText author.offset).toList) := by
    refine .of_not_mem (List.cons_ne_nil _ _) ?_ ?_ <;>
    · intro mem
      rcases List.mem_cons.mp mem with mem | mem
      · cases mem
      · rcases Time.mem_offsetText h.printable.offset mem with mem | mem | mem <;> cases mem
  rw [toList_display, ← List.cons_append, ← List.append_assoc]
  refine zone.append fun mem => h.unbroken ?_
  rw [toList_display, ← List.cons_append, ← List.append_assoc]
  exact List.mem_append_left _ mem

namespace Commit

variable {commit : Commit} {headers headers' : Headers} {line : List Char}
  {lines : List (List Char)}

/-! ## The header of a commit -/

def headerLines (commit : Commit) : List (List Char) :=
  ("tree " ++ commit.tree.text).toList ::
    (commit.parents.map fun parent => ("parent " ++ parent.text).toList) ++
      [("author " ++ commit.author.display).toList,
        ("committer " ++ commit.committer.display).toList]

theorem headerLines_ne_nil (commit : Commit) : commit.headerLines ≠ [] := List.cons_ne_nil _ _

theorem content_eq (commit : Commit) : commit.content = Utf8.encode
    (['\n'].intercalate commit.headerLines ++ '\n' :: '\n' :: commit.message.toList) := by
  have lines : commit.contentLines.map String.toList =
      commit.headerLines ++ [[], commit.message.toList] := by
    simp [contentLines, headerLines, Function.comp_def]
  have feed : "\n".toList = ['\n'] := rfl
  rw [content, Utf8.ofString, String.toList_intercalate, lines, feed,
    Text.intercalate_append_blank commit.headerLines_ne_nil]

theorem whole_text (id : ObjectId) : Text.Whole id.text.toList := by
  have absent : '\n' ∉ id.text.toList ∧ '\r' ∉ id.text.toList := by
    have all : ∀ n : Fin 16, '\n' ≠ Text.hexChar n ∧ '\r' ≠ Text.hexChar n := by decide
    rw [ObjectId.text, String.toList_ofList]
    refine ⟨fun mem => ?_, fun mem => ?_⟩ <;> obtain ⟨n, small, same⟩ := Text.mem_hex mem
    · exact (all ⟨n, small⟩).1 same
    · exact (all ⟨n, small⟩).2 same
  refine .of_not_mem (fun empty => ?_) absent.1 absent.2
  have := id.length_digits
  rw [ObjectId.text, String.toList_ofList] at empty
  rw [empty] at this
  cases this

theorem headerLines_whole (author : commit.author.OneLine) (committer : commit.committer.OneLine)
    (mem : line ∈ commit.headerLines) : Text.Whole line := by
  simp only [headerLines, List.cons_append, List.mem_cons, List.mem_append, List.mem_map,
    List.not_mem_nil, or_false, String.toList_append] at mem
  rcases mem with rfl | ⟨parent, -, rfl⟩ | rfl | rfl
  · exact (whole_text commit.tree).append (by decide)
  · exact (whole_text parent).append (by decide)
  · exact author.whole.append (by decide)
  · exact committer.whole.append (by decide)

/-! ## Reading the header -/

theorem splitOnce_key (key value : String) (h : ' ' ∉ key.toList) :
    Text.splitOnce ' ' ((key ++ " ").toList ++ value.toList) =
      some (key.toList, value.toList) := by
  rw [Text.splitOnce_eq_some_iff]
  exact ⟨by simp, h⟩

theorem add_tree (headers : Headers) (id : ObjectId) :
    headers.add ("tree " ++ id.text).toList = .ok { headers with tree := some id } := by
  have parts := splitOnce_key "tree" id.text (by decide)
  rw [String.toList_append, Headers.add, if_neg (by simp), show "tree " = "tree" ++ " " from rfl,
    parts]
  simp [ObjectId.parse_text, Except.mapError]

theorem add_parent (headers : Headers) (id : ObjectId) :
    headers.add ("parent " ++ id.text).toList =
      .ok { headers with parents := headers.parents ++ [id] } := by
  have parts := splitOnce_key "parent" id.text (by decide)
  rw [String.toList_append, Headers.add, if_neg (by simp),
    show "parent " = "parent" ++ " " from rfl, parts]
  simp [ObjectId.parse_text, Except.mapError]

theorem add_author (headers : Headers) {author : Author} (h : author.OneLine) :
    headers.add ("author " ++ author.display).toList =
      .ok { headers with author := some author } := by
  have parts := splitOnce_key "author" author.display (by decide)
  rw [String.toList_append, Headers.add, if_neg (by simp),
    show "author " = "author" ++ " " from rfl, parts]
  simp [h.printable.parse_display]

theorem add_committer (headers : Headers) {author : Author} (h : author.OneLine) :
    headers.add ("committer " ++ author.display).toList =
      .ok { headers with committer := some author } := by
  have parts := splitOnce_key "committer" author.display (by decide)
  rw [String.toList_append, Headers.add, if_neg (by simp),
    show "committer " = "committer" ++ " " from rfl, parts]
  simp [h.printable.parse_display]

theorem foldlM_parents (headers : Headers) (parents : List ObjectId) :
    (parents.map fun parent => ("parent " ++ parent.text).toList).foldlM Headers.add headers =
      .ok { headers with parents := headers.parents ++ parents } := by
  induction parents generalizing headers with
  | nil =>
    rw [List.append_nil]
    rfl
  | cons parent parents ih =>
    rw [List.map_cons, List.foldlM_cons, add_parent]
    refine (ih _).trans ?_
    rw [List.append_assoc, List.singleton_append]

theorem foldlM_headerLines (author : commit.author.OneLine)
    (committer : commit.committer.OneLine) :
    commit.headerLines.foldlM Headers.add Headers.empty =
      .ok ⟨some commit.tree, commit.parents, some commit.author, some commit.committer⟩ := by
  rw [headerLines, List.cons_append, List.foldlM_cons, add_tree]
  change List.foldlM Headers.add _ _ = _
  rw [List.foldlM_append, foldlM_parents]
  change List.foldlM Headers.add _ _ = _
  rw [List.foldlM_cons, add_author _ author]
  change List.foldlM Headers.add _ _ = _
  rw [List.foldlM_cons, add_committer _ committer]
  rfl

/-- What a body must be for a commit to be read from it. -/
theorem parse_eq_ok_iff {body : List UInt8} : parse body = .ok commit ↔
    ∃ text head message headers, body = Utf8.encode text ∧
      (Text.splitParagraph text).getD (text, []) = (head, message) ∧
      (Text.lines head).foldlM Headers.add Headers.empty = .ok headers ∧
      headers.finish (String.ofList message) = .ok commit := by
  simp only [parse, bind_eq_ok, mapError_eq_ok, Utf8.decode_eq_ok_iff]
  constructor
  · rintro ⟨text, bytes, headers, read, finished⟩
    exact ⟨text, _, _, headers, bytes, rfl, read, finished⟩
  · rintro ⟨text, head, message, headers, bytes, cut, read, finished⟩
    refine ⟨text, bytes, headers, ?_, ?_⟩
    · rw [cut]
      exact read
    · rw [cut]
      exact finished

/-- A commit whose people fit on their lines is read from its own body. -/
theorem parse_content (author : commit.author.OneLine) (committer : commit.committer.OneLine) :
    parse commit.content = .ok commit := by
  have whole : ∀ line ∈ commit.headerLines, Text.Whole line := fun _ mem =>
    headerLines_whole author committer mem
  refine parse_eq_ok_iff.mpr ⟨_, ['\n'].intercalate commit.headerLines, commit.message.toList,
    ⟨some commit.tree, commit.parents, some commit.author, some commit.committer⟩,
    commit.content_eq, ?_, ?_, ?_⟩
  · rw [Text.splitParagraph_intercalate commit.headerLines_ne_nil whole, Option.getD_some]
  · rw [Text.lines_intercalate commit.headerLines_ne_nil whole]
    exact foldlM_headerLines author committer
  · rw [String.ofList_toList]
    rfl

/-! ## What was read can be written -/

/-- The people read so far fit on their lines. -/
structure Headers.OneLine (headers : Headers) : Prop where
  author : ∀ author ∈ headers.author, author.OneLine
  committer : ∀ committer ∈ headers.committer, committer.OneLine

theorem Headers.OneLine.add (h : headers.OneLine) (unbroken : '\n' ∉ line)
    (added : headers.add line = .ok headers') : headers'.OneLine := by
  have value : '\n' ∉ ((Text.splitOnce ' ' line).getD (line, [])).2 := by
    cases parts : Text.splitOnce ' ' line with
    | none => simp
    | some part =>
      rw [(Text.splitOnce_eq_some_iff.mp parts).1] at unbroken
      exact fun mem => unbroken (List.mem_append_right _ (List.mem_cons_of_mem _ mem))
  unfold Headers.add at added
  split at added
  next =>
    cases added
    exact h
  next =>
    dsimp only at added
    split at added
    next tree =>
      obtain ⟨id, -, ⟨⟩⟩ := bind_eq_ok.mp added
      exact ⟨h.author, h.committer⟩
    next parent =>
      obtain ⟨id, -, ⟨⟩⟩ := bind_eq_ok.mp added
      exact ⟨h.author, h.committer⟩
    next author =>
      obtain ⟨person, read, ⟨⟩⟩ := bind_eq_ok.mp added
      have fits : person.OneLine := .of_parse read (by rwa [String.toList_ofList])
      exact ⟨fun _ same => Option.some.inj same ▸ fits, h.committer⟩
    next committer =>
      obtain ⟨person, read, ⟨⟩⟩ := bind_eq_ok.mp added
      have fits : person.OneLine := .of_parse read (by rwa [String.toList_ofList])
      exact ⟨h.author, fun _ same => Option.some.inj same ▸ fits⟩
    next unknown =>
      cases added
      exact h

theorem Headers.OneLine.foldlM (h : headers.OneLine) (unbroken : ∀ line ∈ lines, '\n' ∉ line)
    (read : lines.foldlM Headers.add headers = .ok headers') : headers'.OneLine := by
  induction lines generalizing headers with
  | nil =>
    cases read
    exact h
  | cons line lines ih =>
    rw [List.foldlM_cons, bind_eq_ok] at read
    obtain ⟨next, added, rest⟩ := read
    exact ih (h.add (unbroken line List.mem_cons_self) added)
      (fun line mem => unbroken line (List.mem_cons_of_mem _ mem)) rest

/-- The people of a commit that was read fit on their lines. -/
theorem oneLine_of_parse {body : List UInt8} (h : parse body = .ok commit) :
    commit.author.OneLine ∧ commit.committer.OneLine := by
  obtain ⟨text, head, message, headers, -, -, read, finished⟩ := parse_eq_ok_iff.mp h
  have start : Headers.empty.OneLine := ⟨nofun, nofun⟩
  have people : headers.OneLine :=
    start.foldlM (fun line mem => Text.not_mem_of_mem_lines mem) read
  unfold Headers.finish at finished
  split at finished
  case h_2 => cases finished
  next author written =>
  split at finished
  case h_2 => cases finished
  next tree =>
  cases finished
  refine ⟨people.author author written, ?_⟩
  cases committed : headers.committer with
  | none => exact people.author author written
  | some committer => exact people.committer committer committed

/-! ## Round trip -/

/-- A commit that was read from any body is read from its own one, and so is every commit of one
person whose line can be read. -/
theorem parse_content_of_parse :
    (∀ body commit, parse body = .ok commit → parse commit.content = .ok commit) ∧
      ∀ (parents : List ObjectId) (tree : ObjectId) (message line : String) (author : Author),
        '\n' ∉ line.toList → Author.parse line = .ok author →
          parse (byAuthor parents tree author message).content =
            .ok (byAuthor parents tree author message) := by
  constructor
  · intro body commit read
    obtain ⟨author, committer⟩ := oneLine_of_parse read
    exact parse_content author committer
  · intro parents tree message line author unbroken read
    have person : author.OneLine := .of_parse read unbroken
    exact parse_content person person

def writer : Author := ⟨"Ada", "a> b", 5, 5400⟩

/-- A body without committer, with a carriage return, a header of two lines and a message that
starts with a line feed. -/
def oddBody : List UInt8 := Utf8.ofString
  ("tree 0000000000000000000000000000000000000000\r\nauthor  Ada <a> b> 5 +01:30\n" ++
    "gpgsig 1\n 2\n\n\nFix\n")

/-- What is read from a body that no commit is written as, and a new commit of the same author. -/
theorem parse_content_odd :
    parse oddBody = .ok (byAuthor [] .zero writer "\nFix\n") ∧
      parse (byAuthor [] .zero writer "\nFix\n").content =
        .ok (byAuthor [] .zero writer "\nFix\n") ∧
      Author.parse "Ada<a> b> 5 +0130" = .ok writer ∧
      parse (byAuthor [.zero] .zero writer "\n\n").content =
        .ok (byAuthor [.zero] .zero writer "\n\n") := by
  have read : parse oddBody = .ok (byAuthor [] .zero writer "\nFix\n") :=
    toOption_eq_some.mp (by decide +kernel)
  have person : Author.parse "Ada<a> b> 5 +0130" = .ok writer :=
    toOption_eq_some.mp (by decide +kernel)
  exact ⟨read, parse_content_of_parse.1 _ _ read, person,
    parse_content_of_parse.2 _ _ _ _ _ (by decide) person⟩

end Commit

end CommitLog
