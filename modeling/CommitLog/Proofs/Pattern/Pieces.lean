import CommitLog.Pattern.Basic
import CommitLog.Proofs.Pattern.Spans
import Mathlib.Data.List.Forall2
import Mathlib.Data.Option.Basic

/-!
# Patterns made of pieces

A pattern that is put together from pieces, each read as one part whatever stands around it
(`ReadsAs`), is the expressions of the pieces one after the other (`ofText?_pieces`).  A character
with a backslash before it, where it needs one, is such a piece (`readsAs_escape`), so no character
of an escaped text has a meaning of its own (`ofLiteral?_eq`).

    List.Forall₂ ReadsAs pieces parts → each part resolves to its expression →
      ofText? ignoreCase (String.ofList pieces.flatten) = ofExpr? (Expr.join es)
    ofLiteral? ignoreCase text = ofExpr? (Expr.join (text.toList.map (charExpr ignoreCase)))
-/

namespace CommitLog.Pattern

open CommitLog.Unicode (CodePoints)

/-! ## Expressions one after the other -/

def Expr.join : List Expr → Expr
  | [] => .empty
  | [e] => e
  | e :: es => .concat e (join es)

variable {text : Array Char} {e : Expr} {es : List Expr} {i j k steps : Nat} {c : Char}
  {piece rest : List Char} {pieces : List (List Char)} {names : List String} {part : Node}
  {parts alternatives : List Node} {flags : Flags} {ignoreCase : Bool}

theorem spans_join_nil : Spans text (Expr.join []) i j ↔ i = j := spans_empty

theorem spans_join_cons : Spans text (Expr.join (e :: es)) i k ↔
    ∃ j, Spans text e i j ∧ Spans text (Expr.join es) j k := by
  cases es with
  | nil =>
    simp only [spans_join_nil, exists_eq_right]
    rfl
  | cons _ _ => exact spans_concat

theorem drop_eq_cons {text rest : List Char} {i : Nat} {c : Char}
    (front : text.drop i = c :: rest) : i + 1 ≤ text.length ∧ text.drop (i + 1) = rest := by
  refine ⟨?_, by rw [← List.tail_drop, front, List.tail_cons]⟩
  have whole := congrArg List.length front
  rw [List.length_drop, List.length_cons] at whole
  omega

/-- A set and more behind it: the set takes the first character of what is left of the text. -/
theorem spans_join_chars {text : List Char} {set : CodePoints} :
    Spans text.toArray (Expr.join (.chars set :: es)) i k ↔ ∃ c rest, text.drop i = c :: rest ∧
      set.holds c = true ∧ Spans text.toArray (Expr.join es) (i + 1) k := by
  simp only [spans_join_cons, spans_chars_drop]
  constructor
  · rintro ⟨j, ⟨rfl, c, front, holds⟩, rest⟩
    exact ⟨c, _, front, holds, rest⟩
  · rintro ⟨c, rest, front, holds, spans⟩
    exact ⟨i + 1, ⟨rfl, c, (drop_eq_cons front).2.symm ▸ front, holds⟩, spans⟩

theorem Expr.isOrdered_join (h : ∀ e ∈ es, e.IsOrdered) : (Expr.join es).IsOrdered := by
  induction es with
  | nil => trivial
  | cons e es ih =>
    have first := h e List.mem_cons_self
    have rest := ih fun e mem => h e (List.mem_cons_of_mem _ mem)
    cases es with
    | nil => exact first
    | cons _ _ => exact ⟨first, rest⟩

theorem ofExpr?_eq_some {pattern : Pattern} :
    ofExpr? e = some pattern ↔ e.fits = true ∧ pattern = ⟨e⟩ := by
  rw [ofExpr?, Option.ite_none_right_eq_some, Option.some.injEq, eq_comm (a := pattern)]

/-! ## Reading pieces -/

theorem readAlternatives?_primitive (own : c ∉ [')', '|', '(', '[', '?', '*', '+', '\x7b']) :
    readAlternatives? (steps + 1) alternatives parts ⟨c :: rest, false, names⟩ =
      (readPrimitive? ⟨c :: rest, false, names⟩).bind fun (part, after) =>
        readAlternatives? steps alternatives (part :: parts) after := by
  rw [readAlternatives?]
  simp only [Reader.skip, Reader.peek?, List.head?_cons, Bool.false_eq_true, if_false]
  split
  case h_10 => rfl
  all_goals
    rename_i same
    cases same
  all_goals exact absurd (by decide) own

/-- A text is read as one part of a pattern, whatever stands around it.  A question mark behind the
text could belong to it, so no text of this kind begins with one. -/
structure ReadsAs (piece : List Char) (part : Node) : Prop where
  begins : piece ≠ [] ∧ piece.head? ≠ some '?'
  read : ∃ count ≤ piece.length, ∀ steps alternatives parts rest names, rest.head? ≠ some '?' →
    readAlternatives? (steps + count) alternatives parts ⟨piece ++ rest, false, names⟩ =
      readAlternatives? steps alternatives (part :: parts) ⟨rest, false, names⟩

theorem ReadsAs.of_primitive (own : c ∉ [')', '|', '(', '[', '?', '*', '+', '\x7b'])
    (read : ∀ rest names, readPrimitive? ⟨c :: piece ++ rest, false, names⟩ =
      some (part, ⟨rest, false, names⟩)) : ReadsAs (c :: piece) part := by
  refine ⟨⟨List.cons_ne_nil _ _, ?_⟩, 1, Nat.succ_le_succ (Nat.zero_le _), ?_⟩
  · intro same
    cases same
    exact absurd (by decide) own
  · intro steps alternatives parts rest names _
    rw [List.cons_append, readAlternatives?_primitive own, ← List.cons_append, read]
    rfl

theorem readPrimitive?_literal (plain : isMeta c = false) :
    readPrimitive? ⟨c :: rest, false, names⟩ =
      some (.literal ⟨c, false⟩, ⟨rest, false, names⟩) := by
  rw [readPrimitive?]
  simp only [Reader.peek?, List.head?_cons, Option.bind_eq_bind, Option.bind_some]
  split
  case h_5 => rfl
  all_goals exact absurd plain (by decide)

theorem readPrimitive?_escaped (special : isMeta c = true) :
    readPrimitive? ⟨'\\' :: c :: rest, false, names⟩ =
      some (.literal ⟨c, false⟩, ⟨rest, false, names⟩) := by
  have escapable : isEscapable c = true := by rw [isEscapable, special, Bool.true_or]
  show readEscape? ⟨c :: rest, false, names⟩ = _
  rw [readEscape?]
  simp only [Reader.peek?, List.head?_cons, Option.bind_eq_bind, Option.bind_some]
  split
  case h_24 => exact if_pos escapable
  all_goals exact absurd special (by decide)

/-- An escaped character stands for itself. -/
theorem readsAs_escape (c : Char) : ReadsAs (escape [c]) (.literal ⟨c, false⟩) := by
  rw [escape, List.flatMap_singleton]
  cases special : isMeta c with
  | true => exact .of_primitive (by decide) fun rest names => readPrimitive?_escaped special
  | false =>
    refine .of_primitive (fun mem => ?_) fun rest names => readPrimitive?_literal special
    have all : ∀ d ∈ [')', '|', '(', '[', '?', '*', '+', '\x7b'], isMeta d = true := by
      simp [isMeta]
    rw [all c mem] at special
    cases special

theorem readsAs_dot : ReadsAs ['.'] .dot := .of_primitive (by decide) fun _ _ => rfl

theorem readsAs_caret : ReadsAs ['^'] (.anchor .caret) := .of_primitive (by decide) fun _ _ => rfl

theorem readsAs_dollar : ReadsAs ['$'] (.anchor .dollar) := .of_primitive (by decide) fun _ _ => rfl

theorem readsAs_star : ReadsAs ['.', '*'] (.repeat 0 none .dot) := by
  refine ⟨⟨List.cons_ne_nil _ _, by decide⟩, 2, Nat.le_refl 2, ?_⟩
  intro steps alternatives parts rest names eager
  have dot := @readAlternatives?_primitive (steps + 1) '.' ('*' :: rest) names parts alternatives
    (by decide)
  have star : readAlternatives? (steps + 1) alternatives (.dot :: parts)
      ⟨'*' :: rest, false, names⟩ = readAlternatives? steps alternatives
        (.repeat 0 none .dot :: parts) (skipLazy ⟨rest, false, names⟩) := rfl
  have still : skipLazy ⟨rest, false, names⟩ = ⟨rest, false, names⟩ := if_neg eager
  rw [still] at star
  exact dot.trans star

theorem readAlternatives?_pieces (each : List.Forall₂ ReadsAs pieces parts) :
    ∃ count ≤ pieces.flatten.length, ∀ steps before,
      readAlternatives? (steps + count) [] before ⟨pieces.flatten, false, []⟩ =
        readAlternatives? steps [] (parts.reverse ++ before) ⟨[], false, []⟩ := by
  induction each with
  | nil => exact ⟨0, Nat.le_refl 0, fun steps before => rfl⟩
  | @cons piece part pieces parts first each ih =>
    obtain ⟨count, le, read⟩ := ih
    obtain ⟨own, ownLe, readFirst⟩ := first.read
    have eager : pieces.flatten.head? ≠ some '?' := by
      cases each with
      | nil => nofun
      | cons next _ =>
        rw [List.flatten_cons, List.head?_append_of_ne_nil _ next.begins.1]
        exact next.begins.2
    refine ⟨count + own, ?_, fun steps before => ?_⟩
    · rw [List.flatten_cons, List.length_append]
      omega
    · rw [← Nat.add_assoc, List.flatten_cons, readFirst _ _ _ _ _ eager, read]
      simp

/-! ## Resolving parts -/

theorem depths_le {depth : Nat} (h : ∀ part ∈ parts, part.depth ≤ depth) :
    Node.depths parts ≤ depth := by
  induction parts with
  | nil => exact Nat.zero_le _
  | cons part parts ih =>
    rw [Node.depths]
    exact Nat.max_le.2 ⟨h part List.mem_cons_self,
      ih fun part mem => h part (List.mem_cons_of_mem _ mem)⟩

theorem depth_ofParts {depth : Nat} (h : ∀ part ∈ parts, part.depth ≤ depth) :
    (Node.ofParts parts).depth ≤ depth + 1 := by
  match parts with
  | [] => exact Nat.zero_le _
  | [part] => exact Nat.le_succ_of_le (h part List.mem_cons_self)
  | part :: next :: rest => exact Nat.succ_le_succ (depths_le h)

theorem resolve?_ofParts
    (each : List.Forall₂ (fun part e => part.resolve? flags = some (e, flags)) parts es) :
    (Node.ofParts parts).resolve? flags = some (Expr.join es, flags) := by
  have whole : (Node.ofParts parts).resolve? flags = Node.resolveConcat? flags parts := by
    match parts with
    | [] => rfl
    | [_] => rfl
    | _ :: _ :: _ => rfl
  rw [whole]
  clear whole
  induction each with
  | nil => rfl
  | cons first each ih =>
    cases each with
    | nil => exact first
    | cons next rest =>
      rw [Node.resolveConcat?, first]
      · show (Node.resolveConcat? flags (_ :: _)).bind _ = _
        rw [ih]
        rfl
      · exact List.cons_ne_nil _ _

/-- **A pattern made of pieces is the expressions of the pieces one after the other.** -/
theorem ofText?_pieces (read : List.Forall₂ ReadsAs pieces parts)
    (shallow : ∀ part ∈ parts, part.depth ≤ 1)
    (resolved : List.Forall₂ (fun part e => part.resolve? (Flags.start ignoreCase) =
      some (e, Flags.start ignoreCase)) parts es) :
    ofText? ignoreCase (String.ofList pieces.flatten) = ofExpr? (Expr.join es) := by
  obtain ⟨count, le, all⟩ := readAlternatives?_pieces read
  have whole : readAlternatives? (pieces.flatten.length + 1) [] [] ⟨pieces.flatten, false, []⟩ =
      some (.ofParts parts, ⟨[], false, []⟩) := by
    have enough : pieces.flatten.length + 1 = pieces.flatten.length - count + 1 + count := by omega
    rw [enough, all, List.append_nil]
    show some (wholeOf [] parts.reverse, _) = _
    rw [wholeOf, List.reverse_reverse]
    rfl
  have depth : (Node.ofParts parts).depth ≤ greatestDepth :=
    Nat.le_trans (depth_ofParts shallow) (by decide)
  have node : readPattern? pieces.flatten = some (.ofParts parts) := by
    rw [readPattern?, whole]
    simp [depth]
  rw [ofText?, String.toList_ofList, node]
  show ((Node.ofParts parts).resolve? _).bind _ = _
  rw [resolve?_ofParts resolved]
  rfl

/-! ## Plain texts -/

/-- One character, or any that differs from it in case only. -/
def charExpr (ignoreCase : Bool) (c : Char) : Expr :=
  .chars ((Flags.start ignoreCase).close (.singleton c.toNat))

theorem resolve?_literal (ignoreCase : Bool) (c : Char) :
    (Node.literal ⟨c, false⟩).resolve? (Flags.start ignoreCase) =
      some (charExpr ignoreCase c, Flags.start ignoreCase) := rfl

/-- The expressions of some characters take as many characters off what is left of the text. -/
theorem spans_join_charExpr {text cs : List Char} :
    Spans text.toArray (Expr.join (cs.map (charExpr ignoreCase))) i j ↔
      ∃ part, part <+: text.drop i ∧ j = i + part.length ∧ List.Forall₂ (fun c d =>
        ((Flags.start ignoreCase).close (.singleton c.toNat)).holds d = true) cs part := by
  induction cs generalizing i with
  | nil =>
    rw [List.map_nil, spans_join_nil]
    constructor
    · rintro rfl
      exact ⟨[], List.nil_prefix, rfl, .nil⟩
    · rintro ⟨part, -, rfl, ⟨⟩⟩
      rfl
  | cons c cs ih =>
    simp only [List.map_cons, charExpr, spans_join_chars]
    constructor
    · rintro ⟨d, rest, front, holds, spans⟩
      obtain ⟨part, inside, rfl, each⟩ := ih.1 spans
      rw [(drop_eq_cons front).2] at inside
      refine ⟨d :: part, ?_, ?_, .cons holds each⟩
      · rw [front]
        exact List.cons_prefix_cons.2 ⟨rfl, inside⟩
      · rw [List.length_cons]
        omega
    · rintro ⟨_, ⟨rest, front⟩, rfl, all⟩
      obtain ⟨d, part, holds, each, rfl⟩ := List.forall₂_cons_left_iff.1 all
      rw [List.cons_append, eq_comm] at front
      refine ⟨d, _, front, holds, ih.2 ⟨part, ⟨rest, (drop_eq_cons front).2.symm⟩, ?_, each⟩⟩
      rw [List.length_cons]
      omega

/-- **A plain text is the expressions of its characters one after the other.** -/
theorem ofLiteral?_eq (ignoreCase : Bool) (text : String) :
    ofLiteral? ignoreCase text =
      ofExpr? (Expr.join (text.toList.map (charExpr ignoreCase))) := by
  have pieces : escape text.toList = (text.toList.map fun c => escape [c]).flatten := by
    rw [← List.flatMap_def]
    simp only [escape, List.flatMap_singleton]
  rw [ofLiteral?, pieces]
  refine @ofText?_pieces _ _ (text.toList.map fun c => .literal ⟨c, false⟩) _ ?_ ?_ ?_
  · rw [List.forall₂_map_left_iff, List.forall₂_map_right_iff, List.forall₂_same]
    exact fun c _ => readsAs_escape c
  · intro part mem
    obtain ⟨c, -, rfl⟩ := List.mem_map.1 mem
    exact Nat.zero_le _
  · rw [List.forall₂_map_left_iff, List.forall₂_map_right_iff, List.forall₂_same]
    exact fun c _ => resolve?_literal ignoreCase c

end CommitLog.Pattern
