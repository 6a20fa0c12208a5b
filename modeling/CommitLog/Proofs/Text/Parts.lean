import CommitLog.Text.Blank
import Mathlib.Data.List.DropRight

/-!
# Parts of texts

What cutting a text does when the text was put together from parts.  A separator that does not occur
in the parts is found where it was put.  Trimming keeps a text if there are no blanks at its ends.

    splitAll c ([c].intercalate parts) = parts
    splitParagraph (header ++ '\n' :: '\n' :: message) = some (header, message)
    lines (['\n'].intercalate header) = header
-/

namespace CommitLog.Text

/-! ## At every separator -/

theorem splitAll_ne_nil (c : Char) (text : List Char) : splitAll c text ≠ [] := by
  cases text with
  | nil => simp [splitAll]
  | cons d rest =>
    unfold splitAll
    split
    · simp
    · split <;> simp

theorem splitAll_append (c : Char) (a b : List Char) :
    splitAll c (a ++ c :: b) = splitAll c a ++ splitAll c b := by
  induction a with
  | nil => simp [splitAll]
  | cons d a ih =>
    by_cases same : d = c
    · simp [splitAll, same, ih]
    · cases h : splitAll c a with
      | nil => exact absurd h (splitAll_ne_nil c a)
      | cons part parts => simp [splitAll, same, ih, h]

theorem splitAll_of_not_mem {c : Char} {text : List Char} (h : c ∉ text) :
    splitAll c text = [text] := by
  induction text with
  | nil => rfl
  | cons d rest ih =>
    obtain ⟨differ, absent⟩ := List.ne_and_not_mem_of_not_mem_cons h
    simp [splitAll, Ne.symm differ, ih absent]

theorem not_mem_of_mem_splitAll {c : Char} {text part : List Char} (h : part ∈ splitAll c text) :
    c ∉ part := by
  induction text generalizing part with
  | nil => simp_all [splitAll]
  | cons d rest ih =>
    unfold splitAll at h
    split at h
    · rcases List.mem_cons.1 h with rfl | h
      · exact List.not_mem_nil
      · exact ih h
    · next differ =>
      cases split : splitAll c rest with
      | nil => exact absurd split (splitAll_ne_nil c rest)
      | cons first parts =>
        rw [split] at h ih
        rcases List.mem_cons.1 h with rfl | h
        · exact List.not_mem_cons_of_ne_of_not_mem (Ne.symm differ) (ih List.mem_cons_self)
        · exact ih (List.mem_cons_of_mem _ h)

theorem mem_of_mem_splitAll {c d : Char} {text part : List Char} (h : part ∈ splitAll c text)
    (hd : d ∈ part) : d ∈ text := by
  induction text generalizing part with
  | nil =>
    rw [splitAll, List.mem_singleton] at h
    rwa [h] at hd
  | cons e rest ih =>
    unfold splitAll at h
    split at h
    · rcases List.mem_cons.1 h with rfl | h
      · exact absurd hd List.not_mem_nil
      · exact List.mem_cons_of_mem _ (ih h hd)
    · cases split : splitAll c rest with
      | nil => exact absurd split (splitAll_ne_nil c rest)
      | cons first parts =>
        rw [split] at h ih
        rcases List.mem_cons.1 h with rfl | h
        · rcases List.mem_cons.1 hd with rfl | hd
          · exact List.mem_cons_self
          · exact List.mem_cons_of_mem _ (ih List.mem_cons_self hd)
        · exact List.mem_cons_of_mem _ (ih (List.mem_cons_of_mem _ h) hd)

theorem splitAll_intercalate {c : Char} {parts : List (List Char)} (ne : parts ≠ [])
    (h : ∀ part ∈ parts, c ∉ part) : splitAll c ([c].intercalate parts) = parts := by
  induction parts with
  | nil => exact absurd rfl ne
  | cons part parts ih =>
    have hpart := h part List.mem_cons_self
    cases parts with
    | nil => simpa using splitAll_of_not_mem hpart
    | cons next parts =>
      have rest := ih (List.cons_ne_nil _ _) fun p hp => h p (List.mem_cons_of_mem _ hp)
      have : [c].intercalate (part :: next :: parts) =
          part ++ c :: [c].intercalate (next :: parts) := by
        simp [List.intercalate]
      rw [this, splitAll_append, splitAll_of_not_mem hpart, rest, List.singleton_append]

theorem intercalate_splitAll (c : Char) (text : List Char) :
    [c].intercalate (splitAll c text) = text := by
  induction text with
  | nil => rfl
  | cons d rest ih =>
    obtain ⟨part, parts, cut⟩ := List.exists_cons_of_ne_nil (splitAll_ne_nil c rest)
    rw [cut] at ih
    by_cases same : d = c
    · rw [splitAll, if_pos same, cut, List.intercalate_cons_cons, ih, same]
      rfl
    · rw [splitAll, if_neg same, cut]
      simp only [List.intercalate_cons_cons_left, ih]

theorem intercalate_append {c : Char} {front more : List (List Char)} (hfront : front ≠ [])
    (hmore : more ≠ []) : [c].intercalate (front ++ more) =
      [c].intercalate front ++ c :: [c].intercalate more := by
  induction front with
  | nil => exact absurd rfl hfront
  | cons part front ih =>
    cases front with
    | nil =>
      rw [List.singleton_append, List.intercalate_cons_of_ne_nil hmore,
        List.intercalate_singleton, List.append_assoc]
      rfl
    | cons next front =>
      rw [List.cons_append, List.intercalate_cons_of_ne_nil (by simp),
        ih (List.cons_ne_nil _ _), List.intercalate_cons_cons, List.append_assoc,
        List.append_assoc, List.append_assoc]

variable {c : Char} {text before after line message : List Char} {header : List (List Char)}

/-! ## At one separator -/

theorem splitOnce_eq_some_iff :
    splitOnce c text = some (before, after) ↔ text = before ++ c :: after ∧ c ∉ before := by
  induction text generalizing before after with
  | nil => simp [splitOnce]
  | cons d rest ih =>
    unfold splitOnce
    split
    next same =>
      subst same
      cases before with
      | nil => simp
      | cons e before =>
        simp only [Option.some.injEq, Prod.mk.injEq, List.cons_append, List.cons.injEq,
          List.mem_cons, not_or]
        constructor
        · rintro ⟨⟨⟩, -⟩
        · rintro ⟨⟨rfl, -⟩, differ, -⟩
          exact absurd rfl differ
    next differ =>
      cases before with
      | nil => simp [differ]
      | cons e before =>
        simp only [Option.map_eq_some_iff, Prod.exists, Prod.mk.injEq, List.cons.injEq, ih,
          List.cons_append, List.mem_cons, not_or]
        constructor
        · rintro ⟨before, after, ⟨rfl, absent⟩, ⟨rfl, rfl⟩, rfl⟩
          exact ⟨⟨rfl, rfl⟩, Ne.symm differ, absent⟩
        · rintro ⟨⟨rfl, rfl⟩, -, absent⟩
          exact ⟨_, _, ⟨rfl, absent⟩, ⟨rfl, rfl⟩, rfl⟩

theorem splitLast_eq_some_iff :
    splitLast c text = some (before, after) ↔ text = before ++ c :: after ∧ c ∉ after := by
  have mirror : text.reverse = after.reverse ++ c :: before.reverse ↔
      text = before ++ c :: after := by
    rw [← List.reverse_inj]
    simp
  simp only [splitLast, Option.map_eq_some_iff, Prod.exists, Prod.mk.injEq]
  constructor
  · rintro ⟨_, _, h, rfl, rfl⟩
    rw [splitOnce_eq_some_iff] at h
    simpa [mirror] using h
  · rintro ⟨h, absent⟩
    refine ⟨after.reverse, before.reverse, ?_, by simp, by simp⟩
    rw [splitOnce_eq_some_iff, mirror]
    exact ⟨h, by simpa using absent⟩

/-! ## Paragraphs and lines -/

/-- A line that is read as it stands: it is neither blank nor broken, and no carriage return ends
it. -/
structure Whole (line : List Char) : Prop where
  ne : line ≠ []
  unbroken : '\n' ∉ line
  ending : line.getLast? ≠ some '\r'

theorem Whole.append (h : Whole line) (unbroken : '\n' ∉ text) : Whole (text ++ line) := by
  refine ⟨by simp [h.ne], by simp [h.unbroken, unbroken], ?_⟩
  rw [List.getLast?_append_of_ne_nil _ h.ne]
  exact h.ending

theorem Whole.of_not_mem (ne : line ≠ []) (feed : '\n' ∉ line) (carriage : '\r' ∉ line) :
    Whole line :=
  ⟨ne, feed, fun ending => carriage (List.mem_of_getLast? ending)⟩

theorem splitParagraph_append (h : '\n' ∉ line) :
    splitParagraph (line ++ text) =
      (splitParagraph text).map fun (before, after) => (line ++ before, after) := by
  induction line with
  | nil => simp
  | cons c line ih =>
    obtain ⟨differ, absent⟩ := List.ne_and_not_mem_of_not_mem_cons h
    rw [List.cons_append, splitParagraph.eq_3 _ _ (by simp [Ne.symm differ]), ih absent,
      Option.map_map]
    rfl

/-- The first blank line is the one after the header. -/
theorem splitParagraph_intercalate (ne : header ≠ []) (whole : ∀ line ∈ header, Whole line) :
    splitParagraph (['\n'].intercalate header ++ '\n' :: '\n' :: message) =
      some (['\n'].intercalate header, message) := by
  induction header with
  | nil => exact absurd rfl ne
  | cons line header ih =>
    have absent := (whole line List.mem_cons_self).unbroken
    cases header with
    | nil =>
      rw [List.intercalate_singleton, splitParagraph_append absent]
      simp [splitParagraph]
    | cons next header =>
      have rest := ih (List.cons_ne_nil _ _) fun p hp => whole p (List.mem_cons_of_mem _ hp)
      have second := whole next (List.mem_cons_of_mem _ List.mem_cons_self)
      obtain ⟨d, more, rfl⟩ := List.exists_cons_of_ne_nil second.ne
      have differ : d ≠ '\n' := by
        rintro rfl
        exact second.unbroken List.mem_cons_self
      rw [List.intercalate_cons_cons_left, List.cons_append] at rest
      rw [List.intercalate_cons_cons, List.intercalate_cons_cons_left, List.append_assoc,
        List.append_assoc, splitParagraph_append absent, List.singleton_append, List.cons_append,
        splitParagraph.eq_3 _ _ (by simp [differ]), rest]
      simp

theorem intercalate_append_blank {c : Char} (ne : header ≠ []) :
    [c].intercalate (header ++ [[], message]) = [c].intercalate header ++ c :: c :: message := by
  rw [intercalate_append ne (List.cons_ne_nil _ _), List.intercalate_cons_cons,
    List.intercalate_singleton]
  rfl

theorem Whole.dropCarriageReturn_eq (h : Whole line) : dropCarriageReturn line = line := by
  unfold dropCarriageReturn
  split
  next rest ends =>
    have := h.ending
    rw [List.getLast?_eq_head?_reverse, ends] at this
    exact absurd rfl this
  next => rfl

/-- Lines that are put together are taken apart again. -/
theorem lines_intercalate (ne : header ≠ []) (whole : ∀ line ∈ header, Whole line) :
    lines (['\n'].intercalate header) = header := by
  unfold lines
  dsimp only
  rw [splitAll_intercalate ne fun line mem => (whole line mem).unbroken]
  split
  next none => exact absurd (by simpa using none) ne
  next last ended parts =>
    obtain rfl : header = ended.reverse ++ [last] := by
      rw [← List.reverse_reverse header, parts, List.reverse_cons]
    have filled : last ≠ [] := (whole last (by simp)).ne
    have complete (line : List Char) (mem : line ∈ ended.reverse) :
        dropCarriageReturn line = line :=
      (whole line (List.mem_append_left _ mem)).dropCarriageReturn_eq
    rw [if_neg (by simpa using filled), List.map_congr_left complete, List.map_id']

theorem mem_of_mem_dropCarriageReturn (h : c ∈ dropCarriageReturn line) : c ∈ line := by
  unfold dropCarriageReturn at h
  split at h
  next rest ends =>
    rw [← List.mem_reverse, ends]
    exact List.mem_cons_of_mem _ (List.mem_reverse.mp h)
  next => exact h

theorem not_mem_of_mem_lines (h : line ∈ lines text) : '\n' ∉ line := by
  unfold lines at h
  dsimp only at h
  split at h
  next => exact absurd h List.not_mem_nil
  next last ended parts =>
    have part {line : List Char} (mem : line ∈ last :: ended) : '\n' ∉ line :=
      not_mem_of_mem_splitAll (List.mem_reverse.mp (parts ▸ mem))
    have complete {line : List Char} (mem : line ∈ ended.reverse.map dropCarriageReturn) :
        '\n' ∉ line := by
      obtain ⟨whole, ended, rfl⟩ := List.mem_map.mp mem
      exact fun feed => part (List.mem_cons_of_mem _ (List.mem_reverse.mp ended))
        (mem_of_mem_dropCarriageReturn feed)
    split at h
    next => exact complete h
    next =>
      rcases List.mem_append.mp h with h | h
      · exact complete h
      · exact part (List.mem_singleton.mp h ▸ List.mem_cons_self)

/-! ## Blanks around a text -/

theorem trimEnd_append_blank (h : isBlank c) : trimEnd (text ++ [c]) = trimEnd text := by
  simp [trimEnd, h]

theorem trim_append_blank (h : isBlank c) : trim (text ++ [c]) = trim text := by
  unfold trim trimStart
  rw [List.dropWhile_append]
  split
  next blank =>
    rw [List.isEmpty_iff.mp blank]
    simp [h]
  next => exact trimEnd_append_blank h

/-- Behind a text that does not end in a blank only what follows it is trimmed. -/
theorem trimEnd_append {front : List Char} (ne : front ≠ [])
    (last : ∀ c ∈ front.getLast?, isBlank c = false) (text : List Char) :
    trimEnd (front ++ text) = front ++ trimEnd text := by
  obtain ⟨before, c, rfl⟩ := (List.eq_nil_or_concat' front).resolve_left ne
  have loud : ¬ isBlank c = true := by
    rw [last c (by rw [List.getLast?_concat]; rfl)]
    exact Bool.false_ne_true
  unfold trimEnd
  rw [List.reverse_append, List.dropWhile_append]
  split
  · next blank => simp [List.isEmpty_iff.1 blank, loud]
  · simp

theorem trimStart_eq_self_iff :
    trimStart text = text ↔ ∀ c ∈ text.head?, isBlank c = false := by
  cases text with
  | nil => simp [trimStart]
  | cons c rest => simp [trimStart, List.dropWhile_eq_self_iff]

theorem trimEnd_eq_self_iff :
    trimEnd text = text ↔ ∀ c ∈ text.getLast?, isBlank c = false := by
  rw [List.getLast?_eq_head?_reverse, ← trimStart_eq_self_iff, ← List.reverse_inj, trimEnd,
    List.reverse_reverse]
  rfl

/-- The texts that stay as they are have no blanks at their ends. -/
theorem trim_eq_self_iff : trim text = text ↔
    (∀ c ∈ text.head?, isBlank c = false) ∧ ∀ c ∈ text.getLast?, isBlank c = false := by
  rw [← trimStart_eq_self_iff, ← trimEnd_eq_self_iff, trim]
  constructor
  · intro same
    have front : trimEnd (trimStart text) <+: trimStart text :=
      List.rdropWhile_prefix isBlank (trimStart text)
    rw [same] at front
    -- a text that is not shortened as a whole is not shortened at its start
    have starts : trimStart text = text :=
      (List.dropWhile_sublist isBlank).antisymm front.sublist
    rw [starts] at same
    exact ⟨starts, same⟩
  · rintro ⟨starts, ends⟩
    rw [starts, ends]

theorem mem_of_mem_trim (h : c ∈ trim text) : c ∈ text := by
  have start := (List.dropWhile_sublist isBlank).mem (List.mem_reverse.mp h)
  exact (List.dropWhile_sublist isBlank).mem (List.mem_reverse.mp start)

theorem trim_trim (text : List Char) : trim (trim text) = trim text := by
  have ends : trimEnd (trim text) = trim text := List.rdropWhile_idempotent isBlank (trimStart text)
  have starts : trimStart (trim text) = trim text := by
    have own : trimStart (trimStart text) = trimStart text := List.dropWhile_idempotent isBlank text
    rw [trimStart, List.dropWhile_eq_self_iff] at own ⊢
    intro some_char
    have front : trim text <+: trimStart text := List.rdropWhile_prefix isBlank (trimStart text)
    rw [front.getElem some_char]
    exact own _
  rw [trim, starts, ends]

end CommitLog.Text
