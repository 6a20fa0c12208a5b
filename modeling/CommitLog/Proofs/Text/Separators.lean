import CommitLog.Proofs.Text.Parts
import Mathlib.Data.List.Infix

/-!
# What stands between separators

Where a text occurs that has no separators: within a part, at the end of the last part, or, when it
is a single character, at the beginning of a part.

    c ∉ middle → (middle <:+: text ↔ ∃ part ∈ splitAll c text, middle <:+: part)
-/

namespace CommitLog.Text

variable {c d : Char} {text part last middle before after : List Char}
  {front back parts : List (List Char)}

theorem prefix_of_splitAll (h : splitAll c text = part :: parts) : part <+: text := by
  rw [← intercalate_splitAll c text, h]
  cases parts with
  | nil => simp
  | cons next parts =>
    rw [List.intercalate_cons_cons, List.append_assoc]
    exact List.prefix_append _ _

/-- Every part but the first stands behind a separator. -/
theorem infix_of_mem_tail (h : part ∈ (splitAll c text).tail) : c :: part <:+: text := by
  induction text with
  | nil => cases h
  | cons d rest ih =>
    obtain ⟨first, parts, cut⟩ := List.exists_cons_of_ne_nil (splitAll_ne_nil c rest)
    unfold splitAll at h
    rw [cut] at h ih
    split at h
    · next same =>
      subst same
      rcases List.mem_cons.1 h with rfl | h
      · exact ((List.prefix_cons_inj d).2 (prefix_of_splitAll cut)).isInfix
      · exact (ih h).trans (List.suffix_cons d rest).isInfix
    · exact (ih h).trans (List.suffix_cons d rest).isInfix

/-- Of two texts in a row the last part of the one and the first of the other are one part. -/
theorem splitAll_append_eq (hbefore : splitAll c before = front ++ [last])
    (hafter : splitAll c after = part :: back) :
    splitAll c (before ++ after) = front ++ (last ++ part) :: back := by
  induction before generalizing front last with
  | nil =>
    have hfront : front = [] ∧ last = [] := by
      cases front with
      | nil => exact ⟨rfl, (List.cons.inj hbefore).1.symm⟩
      | cons first front => simp [splitAll] at hbefore
    rw [hfront.1, hfront.2]
    exact hafter
  | cons d before ih =>
    unfold splitAll at hbefore
    rw [List.cons_append, splitAll]
    split at hbefore
    · next same =>
      rw [if_pos same]
      cases front with
      | nil => exact absurd (List.cons.inj hbefore).2 (splitAll_ne_nil c before)
      | cons first front =>
        obtain ⟨rfl, rest⟩ := List.cons.inj hbefore
        rw [ih rest]
        rfl
    · next differ =>
      rw [if_neg differ]
      obtain ⟨next, rest, cut⟩ := List.exists_cons_of_ne_nil (splitAll_ne_nil c before)
      rw [cut] at hbefore
      cases front with
      | nil =>
        obtain ⟨rfl, rfl⟩ := List.cons.inj hbefore
        rw [ih (show splitAll c before = [] ++ [next] from cut)]
        rfl
      | cons first front =>
        obtain ⟨rfl, rfl⟩ := List.cons.inj hbefore
        rw [ih (show splitAll c before = (next :: front) ++ [last] from cut)]
        rfl

/-- A text without separators belongs to one part. -/
theorem splitAll_insert (absent : c ∉ middle) (hbefore : splitAll c before = front ++ [last])
    (hafter : splitAll c after = part :: back) :
    splitAll c (before ++ middle ++ after) = front ++ (last ++ middle ++ part) :: back := by
  have own : splitAll c middle = [] ++ [middle] := splitAll_of_not_mem absent
  rw [List.append_assoc, List.append_assoc]
  exact splitAll_append_eq hbefore (splitAll_append_eq own hafter)

theorem exists_splitAll_concat (c : Char) (text : List Char) :
    ∃ front last, splitAll c text = front ++ [last] :=
  (List.eq_nil_or_concat' (splitAll c text)).resolve_left (splitAll_ne_nil c text)

theorem infix_of_mem_splitAll (mem : part ∈ splitAll c text) : part <:+: text := by
  obtain ⟨first, parts, cut⟩ := List.exists_cons_of_ne_nil (splitAll_ne_nil c text)
  rw [cut] at mem
  rcases List.mem_cons.1 mem with rfl | mem
  · exact (prefix_of_splitAll cut).isInfix
  · have behind : c :: part <:+: text := infix_of_mem_tail (by rw [cut]; exact mem)
    exact (List.suffix_cons c part).isInfix.trans behind

theorem suffix_of_splitAll (cut : splitAll c text = front ++ [last]) : last <:+ text := by
  rw [← intercalate_splitAll c text, cut]
  by_cases only : front = []
  · rw [only, List.nil_append, List.intercalate_singleton]
  · rw [intercalate_append only (List.cons_ne_nil _ _), List.intercalate_singleton]
    exact (List.suffix_cons c last).trans (List.suffix_append _ _)

/-- A text without separators occurs in a part. -/
theorem infix_iff_of_not_mem (absent : c ∉ middle) :
    middle <:+: text ↔ ∃ part ∈ splitAll c text, middle <:+: part := by
  constructor
  · rintro ⟨before, after, rfl⟩
    obtain ⟨front, last, hbefore⟩ := exists_splitAll_concat c before
    obtain ⟨part, back, hafter⟩ := List.exists_cons_of_ne_nil (splitAll_ne_nil c after)
    rw [splitAll_insert absent hbefore hafter]
    exact ⟨_, by simp, last, part, rfl⟩
  · rintro ⟨part, mem, inner⟩
    exact inner.trans (infix_of_mem_splitAll mem)

/-- A text without separators stands at the end of the last part. -/
theorem suffix_iff_of_not_mem (absent : c ∉ middle) (cut : splitAll c text = front ++ [last]) :
    middle <:+ text ↔ middle <:+ last := by
  refine ⟨?_, fun h => h.trans (suffix_of_splitAll cut)⟩
  rintro ⟨before, rfl⟩
  obtain ⟨own, tail, hbefore⟩ := exists_splitAll_concat c before
  have whole : splitAll c (before ++ middle ++ []) = own ++ [tail ++ middle ++ []] :=
    splitAll_insert absent hbefore rfl
  rw [List.append_nil, List.append_nil, cut] at whole
  obtain ⟨-, same⟩ := List.append_inj' whole rfl
  rw [(List.cons.inj same).1]
  exact List.suffix_append _ _

/-- A character begins a part at the start of the text or behind a separator. -/
theorem begins_iff (differ : d ≠ c) :
    ([d] <+: text ∨ [c, d] <:+: text) ↔ ∃ part ∈ splitAll c text, part.head? = some d := by
  have cons (rest : List Char) : ∃ part back, splitAll c (d :: rest) = (d :: part) :: back := by
    obtain ⟨part, back, cut⟩ := List.exists_cons_of_ne_nil (splitAll_ne_nil c rest)
    exact ⟨part, back, by rw [splitAll, if_neg differ, cut]⟩
  constructor
  · rintro (⟨rest, rfl⟩ | ⟨before, after, rfl⟩)
    · obtain ⟨part, back, cut⟩ := cons rest
      exact ⟨d :: part, by rw [List.singleton_append, cut]; exact List.mem_cons_self, rfl⟩
    · obtain ⟨part, back, cut⟩ := cons after
      refine ⟨d :: part, ?_, rfl⟩
      rw [List.append_assoc, List.cons_append, List.singleton_append, splitAll_append, cut]
      simp
  · rintro ⟨part, mem, head⟩
    obtain ⟨rest, rfl⟩ := List.head?_eq_some_iff.1 head
    obtain ⟨first, parts, cut⟩ := List.exists_cons_of_ne_nil (splitAll_ne_nil c text)
    have front : [d] <+: d :: rest := ⟨rest, rfl⟩
    rw [cut] at mem
    rcases List.mem_cons.1 mem with rfl | mem
    · exact .inl (front.trans (prefix_of_splitAll cut))
    · refine .inr (.trans ((List.prefix_cons_inj c).2 front).isInfix ?_)
      exact infix_of_mem_tail (by rw [cut]; exact mem)

theorem head?_splitAll_eq_nil :
    (splitAll c text).head? = some [] ↔ text = [] ∨ [c] <+: text := by
  cases text with
  | nil => simp [splitAll]
  | cons d rest =>
    obtain ⟨part, back, cut⟩ := List.exists_cons_of_ne_nil (splitAll_ne_nil c rest)
    unfold splitAll
    split
    · next same => simp [same]
    · next differ => simp [cut, Ne.symm differ]

theorem getLast?_splitAll_eq_nil :
    (splitAll c text).getLast? = some [] ↔ text = [] ∨ [c] <:+ text := by
  constructor
  · intro last
    obtain ⟨front, cut⟩ := List.getLast?_eq_some_iff.1 last
    have whole := intercalate_splitAll c text
    rw [cut] at whole
    by_cases only : front = []
    · rw [only] at whole
      exact .inl whole.symm
    · rw [intercalate_append only (List.cons_ne_nil _ _)] at whole
      exact .inr ⟨_, whole⟩
  · rintro (rfl | ⟨before, rfl⟩)
    · rfl
    · rw [show before ++ [c] = before ++ c :: [] from rfl, splitAll_append]
      exact List.getLast?_concat

end CommitLog.Text
