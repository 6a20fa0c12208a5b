import CommitLog.Proofs.Repository.RefText

/-!
# Branch names part by part

Whether a text is the name of a branch can be told from its parts between slashes
(`BranchName.parse_iff_parts`): the first and the last one are not empty, while those in between may
be.  The file of a branch lies where the parts that are not empty lead (`BranchName.parts`), and so
do those of all names with these parts, among which there is one without empty ones
(`BranchName.joined`).

    parse name.text = .ok name → parse name.joined.text = .ok name.joined
    parse name.text = .ok name → (name.joined = name ↔ [] ∉ Text.splitAll '/' name.text.toList)
-/

namespace CommitLog

/-! ## Names by their parts -/

namespace BranchName

/-- A text between the slashes of a name, which may be empty. -/
structure IsPart (part : List Char) : Prop where
  noDot : part.head? ≠ some '.'
  noDots : ¬ ['.', '.'] <:+: part
  noBrace : ¬ ['@', '\x7b'] <:+: part
  allowed : ∀ c ∈ part, isForbiddenChar c = false

variable {name other : BranchName} {text : String}

theorem isForbidden_iff {text : List Char} : isForbidden text = true ↔
    (['.'] <+: text ∨ ['/', '.'] <:+: text) ∨ ['.', '.'] <:+: text ∨ ['/'] <+: text ∨
      ['/'] <:+ text ∨ ".lock".toList <:+ text ∨ ['@', '\x7b'] <:+: text ∨
      ∃ c ∈ text, isForbiddenChar c = true := by
  rw [isForbidden]
  simp only [Bool.or_eq_true, occurs_iff, List.isPrefixOf_iff_prefix, List.isSuffixOf_iff_suffix,
    List.any_eq_true, or_assoc]

/-- A forbidden character stands in a part. -/
theorem exists_isForbiddenChar_iff {text : List Char} : (∃ c ∈ text, isForbiddenChar c = true) ↔
    ∃ part ∈ Text.splitAll '/' text, ∃ c ∈ part, isForbiddenChar c = true := by
  have each (c : Char) (forbidden : isForbiddenChar c = true) :
      c ∈ text ↔ ∃ part ∈ Text.splitAll '/' text, c ∈ part := by
    have differ : '/' ∉ [c] := by
      rw [List.mem_singleton]
      rintro rfl
      revert forbidden
      decide
    simpa [List.singleton_infix_iff] using Text.infix_iff_of_not_mem differ
  constructor
  · rintro ⟨c, mem, forbidden⟩
    obtain ⟨part, own, inner⟩ := (each c forbidden).1 mem
    exact ⟨part, own, c, inner, forbidden⟩
  · rintro ⟨part, own, c, inner, forbidden⟩
    exact ⟨c, (each c forbidden).2 ⟨part, own, inner⟩, forbidden⟩

/-- **A text is the name of a branch when its first and last parts are not empty, the last one has
no lock file ending, and every part is one that names have.** -/
theorem parse_iff_parts {front : List (List Char)} {last : List Char}
    (cut : Text.splitAll '/' text.toList = front ++ [last]) : parse text = .ok ⟨text⟩ ↔
      (front ++ [last]).head? ≠ some [] ∧ last ≠ [] ∧ ¬ ".lock".toList <:+ last ∧
        ∀ part ∈ front ++ [last], IsPart part := by
  have dots := @Text.begins_iff '/' '.' text.toList (by decide)
  have twoDots := @Text.infix_iff_of_not_mem '/' text.toList ['.', '.'] (by decide)
  have brace := @Text.infix_iff_of_not_mem '/' text.toList ['@', '\x7b'] (by decide)
  have lock : ".lock".toList <:+ text.toList ↔ ".lock".toList <:+ last :=
    Text.suffix_iff_of_not_mem (by decide) cut
  have starts := @Text.head?_splitAll_eq_nil '/' text.toList
  have ends := @Text.getLast?_splitAll_eq_nil '/' text.toList
  rw [cut, List.getLast?_concat, Option.some.injEq] at ends
  rw [parse_eq_ok, ← Bool.not_eq_true, isForbidden_iff, dots, twoDots, brace, lock,
    exists_isForbiddenChar_iff]
  rw [cut] at starts ⊢
  have empty : text = "" ↔ text.toList = [] := String.toList_eq_nil_iff.symm
  constructor
  · rintro ⟨ne, allowed, -⟩
    simp only [not_or, not_exists, not_and] at allowed
    obtain ⟨noDot, noDots, noStart, noEnd, noLock, noBrace, chars⟩ := allowed
    refine ⟨?_, ?_, noLock, fun part mem => ⟨noDot part mem, noDots part mem, noBrace part mem,
      fun c inner => Bool.eq_false_iff.2 (chars part mem c inner)⟩⟩
    · rw [ne_eq, starts, not_or, ← empty]
      exact ⟨ne, noStart⟩
    · rw [ne_eq, ends, not_or, ← empty]
      exact ⟨ne, noEnd⟩
  · rintro ⟨first, full, noLock, each⟩
    rw [ne_eq, starts, not_or, ← empty] at first
    rw [ne_eq, ends, not_or] at full
    refine ⟨first.1, ?_, rfl⟩
    simp only [not_or, not_exists, not_and]
    exact ⟨fun part mem => (each part mem).noDot, fun part mem => (each part mem).noDots, first.2,
      full.2, noLock, fun part mem => (each part mem).noBrace,
      fun part mem c inner => Bool.eq_false_iff.1 ((each part mem).allowed c inner)⟩

/-! ## The parts that are not empty -/

/-- The parts of a name that are not empty. -/
def parts (name : BranchName) : Place := name.names.filter (· ≠ "")

/-- The name made of the parts of a name that are not empty. -/
def joined (name : BranchName) : BranchName := ⟨"/".intercalate name.parts⟩

theorem parts_eq (name : BranchName) : name.parts =
    ((Text.splitAll '/' name.text.toList).filter (· ≠ [])).map String.ofList := by
  rw [parts, names, List.filter_map]
  congr 1
  refine List.filter_congr fun part _ => ?_
  simp [Function.comp]

theorem parts_eq_names_iff :
    name.parts = name.names ↔ [] ∉ Text.splitAll '/' name.text.toList := by
  rw [parts, List.filter_eq_self]
  constructor
  · intro all mem
    simpa using all "" (List.mem_map.2 ⟨[], mem, rfl⟩)
  · intro whole part mem
    obtain ⟨own, hown, rfl⟩ := List.mem_map.1 mem
    have : own ≠ [] := fun empty => whole (empty ▸ hown)
    simpa using this

section Parsed

variable (parsed : parse name.text = .ok name)

include parsed

/-- The last part of a name is not empty. -/
theorem exists_split : ∃ front last, Text.splitAll '/' name.text.toList = front ++ [last] ∧
    last ≠ [] ∧ Text.splitAll '/' name.joined.text.toList = front.filter (· ≠ []) ++ [last] := by
  obtain ⟨front, last, cut⟩ := Text.exists_splitAll_concat '/' name.text.toList
  obtain ⟨-, full, -, -⟩ := (parse_iff_parts cut).1 parsed
  refine ⟨front, last, cut, full, ?_⟩
  have loud : (front ++ [last]).filter (· ≠ []) = front.filter (· ≠ []) ++ [last] := by
    rw [List.filter_append, List.filter_singleton, decide_eq_true full]
    rfl
  have text : name.joined.text.toList = ['/'].intercalate (front.filter (· ≠ []) ++ [last]) := by
    rw [joined, parts_eq, cut, loud, String.toList_intercalate, List.map_map]
    simp [Function.comp_def]
  rw [text, Text.splitAll_intercalate (by simp)]
  intro part mem
  rw [← loud] at mem
  exact Text.not_mem_of_mem_splitAll (cut ▸ List.mem_of_mem_filter mem)

theorem names_joined : name.joined.names = name.parts := by
  obtain ⟨front, last, cut, full, own⟩ := exists_split parsed
  rw [names, own, parts_eq, cut, List.filter_append, List.filter_singleton, decide_eq_true full]
  rfl

theorem parts_ne_nil : name.parts ≠ [] := by
  rw [← names_joined parsed]
  exact name.joined.names_ne_nil

theorem whole_joined : [] ∉ Text.splitAll '/' name.joined.text.toList := by
  obtain ⟨front, last, -, full, own⟩ := exists_split parsed
  rw [own]
  simp [Ne.symm full]

/-- Without its empty parts a name is still a name. -/
theorem parse_joined : parse name.joined.text = .ok name.joined := by
  obtain ⟨front, last, cut, full, own⟩ := exists_split parsed
  obtain ⟨-, -, noLock, each⟩ := (parse_iff_parts cut).1 parsed
  refine (parse_iff_parts own).2 ⟨fun empty => ?_, full, noLock, fun part mem => each part ?_⟩
  · refine whole_joined parsed ?_
    rw [own]
    exact List.mem_of_mem_head? empty
  · rcases List.mem_append.1 mem with mem | mem
    · exact List.mem_append_left _ (List.mem_of_mem_filter mem)
    · exact List.mem_append_right _ mem

theorem joined_eq_self_iff : name.joined = name ↔ [] ∉ Text.splitAll '/' name.text.toList := by
  constructor
  · intro same
    have whole := whole_joined parsed
    rwa [same] at whole
  · intro whole
    have same : name.joined = ⟨"/".intercalate name.names⟩ := by
      rw [joined, parts_eq_names_iff.2 whole]
    rw [same, intercalate_names]

end Parsed

/-- Names lie in one place when they are the same but for empty parts. -/
theorem parts_inj (parsed : parse name.text = .ok name) (known : parse other.text = .ok other) :
    name.parts = other.parts ↔ name.joined = other.joined := by
  rw [← names_joined parsed, ← names_joined known, names_inj]

/-! ## The way that a name leads -/

/-- A text leads by its parts that are not empty when no part begins with a dot. -/
theorem components_of_noDot {text : String} (relative : ∀ rest, text.toList ≠ '/' :: rest)
    (noDot : ∀ part ∈ Text.splitAll '/' text.toList, part.head? ≠ some '.') :
    (⟨text⟩ : Path).split.1 = none ∧ (⟨text⟩ : Path).components =
      (((Text.splitAll '/' text.toList).filter (· ≠ [])).map String.ofList).map .normal := by
  have noFirst (rest : List Char) : text.toList ≠ '.' :: rest := by
    intro dot
    have front : ['.'] <+: text.toList := ⟨rest, dot.symm⟩
    obtain ⟨part, mem, head⟩ := (Text.begins_iff (c := '/') (by decide)).1 (.inl front)
    exact noDot part mem head
  have split : (⟨text⟩ : Path).split.1 = none := by
    unfold Path.split
    split
    · next rest same => exact absurd same (relative rest)
    · next same => exact absurd same (noFirst _)
    · next rest same => exact absurd same (noFirst _)
    · rfl
  have component : ∀ part ∈ Text.splitAll '/' text.toList, Component.ofSegment? part =
      (if part ≠ [] then some part else none).map fun part => .normal (String.ofList part) := by
    intro part mem
    have differ := noDot part mem
    unfold Component.ofSegment?
    by_cases empty : part = []
    · simp [empty]
    · have names : part ≠ ['.'] ∧ part ≠ ['.', '.'] := by
        constructor
        · rintro rfl
          exact differ rfl
        · rintro rfl
          exact differ rfl
      simp [empty, names.1, names.2]
  refine ⟨split, ?_⟩
  rw [Path.components_of_split_none split, List.filterMap_congr component, List.map_map]
  induction Text.splitAll '/' text.toList with
  | nil => rfl
  | cons part rest ih => by_cases empty : part = [] <;> simp_all

/-- A name begins with neither a slash nor a dot, and no dot stands behind a slash. -/
theorem exists_forward (parsed : parse name.text = .ok name) :
    (∀ rest, name.text.toList ≠ '/' :: rest) ∧
      ∀ part ∈ Text.splitAll '/' name.text.toList, part.head? ≠ some '.' := by
  obtain ⟨front, last, cut⟩ := Text.exists_splitAll_concat '/' name.text.toList
  obtain ⟨first, -, -, each⟩ := (parse_iff_parts cut).1 parsed
  rw [← cut] at first each
  refine ⟨fun rest slash => first ?_, fun part mem => (each part mem).noDot⟩
  rw [Text.head?_splitAll_eq_nil, slash]
  exact .inr ⟨rest, rfl⟩

/-- The way that a name leads. -/
theorem components_of_parse (parsed : parse name.text = .ok name) :
    (⟨name.text⟩ : Path).split.1 = none ∧
      (⟨name.text⟩ : Path).components = name.parts.map .normal := by
  obtain ⟨relative, noDot⟩ := exists_forward parsed
  rw [parts_eq]
  exact components_of_noDot relative noDot

/-! ## Blanks at the end of a name -/

/-- Whether a name ends in a blank, which then is none of the forbidden ones. -/
def endsInBlank (name : BranchName) : Bool := name.text.toList.getLast?.any Text.isBlank

/-- The name that a head leads to when it names this branch. -/
def asRead (name : BranchName) : BranchName := ⟨String.ofList (Text.trimEnd name.text.toList)⟩

theorem asRead_eq_self (whole : name.endsInBlank = false) : name.asRead = name := by
  have kept : Text.trimEnd name.text.toList = name.text.toList :=
    Text.trimEnd_eq_self_iff.2 ((Option.any_eq_false _ _).1 whole)
  rw [asRead, kept, String.ofList_toList]

theorem IsPlain.asRead_eq (plain : name.IsPlain) : name.asRead = name :=
  asRead_eq_self ((Option.any_eq_false _ _).2 plain.ending)

/-- What is left of a name, and the blanks behind it. -/
theorem exists_blanks (name : BranchName) : ∃ blanks, name.text.toList = name.asRead.text.toList ++
    blanks ∧ '/' ∉ blanks ∧ (name.endsInBlank = true → blanks ≠ []) := by
  have text : name.asRead.text.toList = name.text.toList.rdropWhile Text.isBlank :=
    String.toList_ofList
  refine ⟨name.text.toList.rtakeWhile Text.isBlank, ?_, fun slash => ?_, fun blank none => ?_⟩
  · rw [text, List.rdropWhile_append_rtakeWhile]
  · exact absurd (List.mem_rtakeWhile_imp slash) (by decide)
  · obtain ⟨c, last, hc⟩ := (Option.any_eq_true _ _).1 blank
    obtain ⟨front, whole⟩ := List.getLast?_eq_some_iff.1 last
    rw [whole, List.rtakeWhile_concat, if_pos hc] at none
    exact List.append_ne_nil_of_right_ne_nil _ (List.cons_ne_nil _ _) none

/-- The parts of a name with blanks at its end are those of what is left of it but for the last. -/
theorem exists_split_asRead (name : BranchName) : ∃ front last blanks,
    Text.splitAll '/' name.asRead.text.toList = front ++ [last] ∧
    Text.splitAll '/' name.text.toList = front ++ [last ++ blanks] ∧
    (name.endsInBlank = true → blanks ≠ []) := by
  obtain ⟨blanks, whole, noSlash, nonempty⟩ := name.exists_blanks
  obtain ⟨front, last, cut⟩ := Text.exists_splitAll_concat '/' name.asRead.text.toList
  have own := Text.splitAll_insert noSlash cut (show Text.splitAll '/' [] = [[]] from rfl)
  rw [List.append_nil, List.append_nil, ← whole] at own
  exact ⟨front, last, blanks, cut, own, nonempty⟩

/-- The way that a head leads which names a branch. -/
theorem components_asRead (parsed : parse name.text = .ok name) :
    (∀ rest, name.asRead.text.toList ≠ '/' :: rest) ∧
      (⟨name.asRead.text⟩ : Path).split.1 = none ∧
      (⟨name.asRead.text⟩ : Path).components = name.asRead.parts.map .normal := by
  obtain ⟨relative, noDot⟩ := exists_forward parsed
  obtain ⟨blanks, whole, -, -⟩ := name.exists_blanks
  obtain ⟨front, last, _, cut, own, -⟩ := name.exists_split_asRead
  have relativeRead (rest : List Char) : name.asRead.text.toList ≠ '/' :: rest := by
    intro slash
    rw [slash] at whole
    exact relative _ whole
  rw [parts_eq]
  refine ⟨relativeRead, components_of_noDot relativeRead fun part mem dot => ?_⟩
  rw [cut] at mem
  rw [own] at noDot
  rcases List.mem_append.1 mem with mem | mem
  · exact noDot part (List.mem_append_left _ mem) dot
  · obtain rfl := List.mem_singleton.1 mem
    refine noDot _ (List.mem_append_right _ List.mem_cons_self) ?_
    rw [List.head?_append, dot]
    rfl

/-- With blanks at its end a branch is not found by its head. -/
theorem parts_asRead_ne (blank : name.endsInBlank = true) : name.asRead.parts ≠ name.parts := by
  obtain ⟨front, last, blanks, cut, own, nonempty⟩ := name.exists_split_asRead
  have injective : Function.Injective String.ofList := fun _ _ => String.ofList_inj.1
  have full : last ++ blanks ≠ [] := List.append_ne_nil_of_right_ne_nil _ (nonempty blank)
  rw [parts_eq, parts_eq, (List.map_injective_iff.2 injective).ne_iff, cut, own,
    List.filter_append, List.filter_append, List.filter_singleton, List.filter_singleton,
    decide_eq_true full, ne_eq, List.append_cancel_left_eq]
  by_cases empty : last = []
  · simp [empty]
  · simp [empty, nonempty blank]

end BranchName

end CommitLog
