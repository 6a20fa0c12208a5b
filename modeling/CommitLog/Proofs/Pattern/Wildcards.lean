import CommitLog.Proofs.Pattern.Cost
import Mathlib.Data.List.Infix

/-!
# Names with wildcards

`Describes spec name` says what a name with wildcards stands for, without patterns: a star for any
characters, a question mark for one, every other character for itself.  On names without line feeds
the pattern of a spec occurs in exactly what the spec describes (`occursIn_ofWildcards`), and every
spec that is not too long has a pattern (`exists_ofWildcards`).

    ofWildcards? spec = some pattern → '\n' ∉ name.toList →
      (pattern.occursIn name ↔ Describes spec.toList name.toList)
-/

namespace CommitLog.Pattern

open CommitLog.Unicode (CodePoints)

/-- A name is one of those that a name with wildcards stands for. -/
inductive Describes : List Char → List Char → Prop where
  /-- Nothing stands for the empty name. -/
  | nil : Describes [] []
  /-- A star stands for any characters. -/
  | star {spec name : List Char} (run : List Char) :
      Describes spec name → Describes ('*' :: spec) (run ++ name)
  /-- A question mark stands for any one character. -/
  | one {spec name : List Char} (c : Char) :
      Describes spec name → Describes ('?' :: spec) (c :: name)
  /-- Every other character stands for itself. -/
  | char {spec name : List Char} {c : Char} :
      c ≠ '*' → c ≠ '?' → Describes spec name → Describes (c :: spec) (c :: name)

variable {spec name : List Char} {c : Char} {i j : Nat} {text : String} {pattern : Pattern}

theorem describes_nil : Describes [] name ↔ name = [] := by
  constructor
  · rintro ⟨⟩
    rfl
  · rintro rfl
    exact .nil

theorem describes_star : Describes ('*' :: spec) name ↔
    ∃ run rest, name = run ++ rest ∧ Describes spec rest := by
  constructor
  · rintro (_ | ⟨run, rest⟩ | _ | ⟨noStar, -, -⟩)
    · exact ⟨run, _, rfl, rest⟩
    · exact absurd rfl noStar
  · rintro ⟨run, rest, rfl, describes⟩
    exact .star run describes

/-- What is left of a name from a position on: the star takes the characters up to a later one. -/
theorem describes_star_drop (inside : i ≤ name.length) : Describes ('*' :: spec) (name.drop i) ↔
    ∃ k, i ≤ k ∧ k ≤ name.length ∧ Describes spec (name.drop k) := by
  rw [describes_star]
  constructor
  · rintro ⟨run, rest, own, describes⟩
    have whole := congrArg List.length own
    rw [List.length_drop, List.length_append] at whole
    have left : name.drop (i + run.length) = rest := by
      rw [← List.drop_drop, own, List.drop_left]
    exact ⟨i + run.length, by omega, by omega, left ▸ describes⟩
  · rintro ⟨k, ahead, -, describes⟩
    obtain ⟨n, rfl⟩ := Nat.exists_eq_add_of_le ahead
    refine ⟨(name.drop i).take n, name.drop (i + n), ?_, describes⟩
    rw [← List.drop_drop, List.take_append_drop]

theorem describes_one : Describes ('?' :: spec) name ↔
    ∃ d rest, name = d :: rest ∧ Describes spec rest := by
  constructor
  · rintro (_ | _ | ⟨d, rest⟩ | ⟨-, noMark, -⟩)
    · exact ⟨d, _, rfl, rest⟩
    · exact absurd rfl noMark
  · rintro ⟨d, rest, rfl, describes⟩
    exact .one d describes

theorem describes_char (noStar : c ≠ '*') (noMark : c ≠ '?') : Describes (c :: spec) name ↔
    ∃ rest, name = c :: rest ∧ Describes spec rest := by
  constructor
  · rintro (_ | _ | _ | ⟨-, -, rest⟩)
    · exact absurd rfl noStar
    · exact absurd rfl noMark
    · exact ⟨_, rfl, rest⟩
  · rintro ⟨rest, rfl, describes⟩
    exact .char noStar noMark describes

/-- Decides whether a name is described, by trying every end of what a star stands for. -/
def describes : List Char → List Char → Bool
  | [], name => name.isEmpty
  | c :: spec, name =>
    if c = '*' then name.tails.any (describes spec)
    else match name with
      | [] => false
      | d :: rest => (c = '?' || c = d) && describes spec rest

theorem describes_iff : describes spec name = true ↔ Describes spec name := by
  induction spec generalizing name with
  | nil =>
    rw [describes_nil, ← List.isEmpty_iff]
    rfl
  | cons c spec ih =>
    unfold describes
    split
    · next star =>
      rw [star, describes_star, List.any_eq_true]
      constructor
      · rintro ⟨rest, ends, own⟩
        obtain ⟨run, whole⟩ := (List.mem_tails _ _).1 ends
        exact ⟨run, rest, whole.symm, ih.1 own⟩
      · rintro ⟨run, rest, whole, own⟩
        exact ⟨rest, (List.mem_tails _ _).2 ⟨run, whole.symm⟩, ih.2 own⟩
    · next noStar =>
      by_cases mark : c = '?'
      · rw [mark, describes_one]
        cases name <;> simp [ih]
      · rw [describes_char noStar mark]
        cases name with
        | nil => simp
        | cons d rest =>
          simp only [mark, decide_false, Bool.false_or, Bool.and_eq_true, decide_eq_true_eq, ih]
          constructor
          · rintro ⟨rfl, own⟩
            exact ⟨rest, rfl, own⟩
          · rintro ⟨_, whole, own⟩
            obtain ⟨rfl, rfl⟩ := List.cons.inj whole
            exact ⟨rfl, own⟩

instance : Decidable (Describes spec name) := decidable_of_iff _ describes_iff

/-! ## The expression of a spec -/

/-- The characters that the dot stands for: all but the line feed. -/
def dotSet : CodePoints := CodePoints.complement [(0x0A, 0x0A)]

def wildcardNode (c : Char) : Node :=
  if c = '*' then .repeat 0 none .dot else if c = '?' then .dot else .literal ⟨c, false⟩

def wildcardExpr (c : Char) : Expr :=
  if c = '*' then .repeat 0 none (.chars dotSet)
  else if c = '?' then .chars dotSet else charExpr false c

theorem readsAs_wildcard (c : Char) : ReadsAs (wildcardText c) (wildcardNode c) := by
  unfold wildcardText wildcardNode
  split
  · exact readsAs_star
  · exact readsAs_dot
  · next noStar noMark =>
    rw [if_neg noStar, if_neg noMark]
    exact readsAs_escape c

theorem resolve?_wildcard (c : Char) : (wildcardNode c).resolve? (Flags.start false) =
    some (wildcardExpr c, Flags.start false) := by
  unfold wildcardNode wildcardExpr
  split
  · rfl
  · split
    · rfl
    · exact resolve?_literal false c

theorem depth_wildcardNode_le (c : Char) : (wildcardNode c).depth ≤ 1 := by
  unfold wildcardNode
  split
  · exact Nat.le_refl 1
  · split <;> exact Nat.zero_le 1

/-- The expressions of a spec, between the start and the end of the text. -/
def wildcardExprs (spec : List Char) : List Expr :=
  .look .start :: (spec.map wildcardExpr ++ [.look .stop])

/-- The pattern of a spec is the expressions of its characters between the ends of the text. -/
theorem ofWildcards?_eq (spec : String) :
    ofWildcards? spec = ofExpr? (Expr.join (wildcardExprs spec.toList)) := by
  have pieces : '^' :: spec.toList.flatMap wildcardText ++ ['$'] =
      (['^'] :: (spec.toList.map wildcardText ++ [['$']])).flatten := by
    rw [List.flatten_cons, List.flatten_append, ← List.flatMap_def]
    rfl
  rw [ofWildcards?, pieces]
  refine @ofText?_pieces _ _
    (.anchor .caret :: (spec.toList.map wildcardNode ++ [.anchor .dollar])) _ ?_ ?_ ?_
  · refine .cons readsAs_caret (List.rel_append ?_ (.cons readsAs_dollar .nil))
    rw [List.forall₂_map_left_iff, List.forall₂_map_right_iff, List.forall₂_same]
    exact fun c _ => readsAs_wildcard c
  · intro part mem
    simp only [List.mem_cons, List.mem_append, List.mem_map, List.not_mem_nil, or_false] at mem
    obtain rfl | ⟨c, -, rfl⟩ | rfl := mem
    · exact Nat.zero_le _
    · exact depth_wildcardNode_le c
    · exact Nat.zero_le _
  · refine .cons rfl (List.rel_append ?_ (.cons rfl .nil))
    rw [List.forall₂_map_left_iff, List.forall₂_map_right_iff, List.forall₂_same]
    exact fun c _ => resolve?_wildcard c

theorem isOrdered_wildcardExprs : (Expr.join (wildcardExprs spec)).IsOrdered := by
  refine Expr.isOrdered_join fun e mem => ?_
  simp only [wildcardExprs, List.mem_cons, List.mem_append, List.mem_map, List.not_mem_nil,
    or_false] at mem
  obtain rfl | ⟨c, -, rfl⟩ | rfl := mem
  · trivial
  · unfold wildcardExpr
    split
    · exact ⟨nofun, trivial⟩
    · split <;> trivial
  · trivial

/-! ## What the expression spans -/

theorem holds_dotSet : dotSet.holds c = true ↔ c ≠ '\n' := by
  have bound : c.toNat < 0x110000 := by
    have valid := c.valid
    unfold UInt32.isValidChar Nat.isValidChar at valid
    show c.val.toNat < _
    omega
  have same : c = '\n' ↔ c.toNat = 10 := ⟨congrArg _, fun h => Char.toNat_inj.1 h⟩
  show CodePoints.contains [(0, 9), (11, 0x10FFFF)] c.toNat = true ↔ _
  rw [ne_eq, same]
  simp only [CodePoints.contains, List.any_cons, List.any_nil, Bool.or_false, Bool.or_eq_true,
    Bool.and_eq_true, decide_eq_true_eq]
  omega

section

variable (line : '\n' ∉ name)

include line

theorem spans_dot : Spans name.toArray (.chars dotSet) i j ↔ j = i + 1 ∧ j ≤ name.length := by
  rw [spans_chars, List.getElem?_toArray]
  refine and_congr_right fun next => ?_
  subst next
  constructor
  · rintro ⟨c, own, -⟩
    exact (List.getElem?_eq_some_iff.1 own).1
  · intro inside
    refine ⟨name[i], List.getElem?_eq_getElem inside, holds_dotSet.2 fun same => line ?_⟩
    exact same ▸ List.getElem_mem inside

/-- A star leads forward to every place. -/
theorem spans_stars :
    Spans name.toArray (.repeat 0 none (.chars dotSet)) i j ↔ Forward name.toArray i j := by
  refine ⟨Spans.forward, fun forward => ?_⟩
  obtain rfl | ⟨lt, le⟩ := forward
  · exact spans_repeat.2 ⟨0, Nat.le_refl 0, nofun, .zero i⟩
  · refine spans_repeat.2 ⟨j - i, Nat.zero_le _, nofun, ?_⟩
    rw [List.size_toArray] at le
    obtain ⟨n, rfl⟩ := Nat.exists_eq_add_of_le (Nat.le_of_lt lt)
    rw [Nat.add_sub_cancel_left]
    clear lt
    induction n generalizing i with
    | zero => exact .zero i
    | succ n ih =>
      refine spansTimes_succ.2 ⟨i + 1, (spans_dot line).2 ⟨rfl, by omega⟩, ?_⟩
      have rest := @ih (i + 1) (by omega)
      rwa [Nat.add_assoc, Nat.add_comm 1] at rest

/-- What is left of a name is spanned up to its end when a spec describes it. -/
theorem spans_wildcards (inside : i ≤ name.length) :
    Spans name.toArray (Expr.join (spec.map wildcardExpr ++ [.look .stop])) i j ↔
      j = name.length ∧ Describes spec (name.drop i) := by
  induction spec generalizing i with
  | nil =>
    rw [List.map_nil, List.nil_append, describes_nil, List.drop_eq_nil_iff]
    refine (spans_look : Spans name.toArray (.look .stop) i j ↔ _).trans ?_
    rw [Look.holds, beq_iff_eq, List.size_toArray]
    omega
  | cons c spec ih =>
    rw [List.map_cons, List.cons_append, wildcardExpr]
    split
    · next star =>
      subst star
      rw [spans_join_cons, describes_star_drop inside]
      have reaches (k : Nat) : Forward name.toArray i k ↔ i ≤ k ∧ k ≤ name.length :=
        forward_iff inside
      simp only [spans_stars line, reaches]
      constructor
      · rintro ⟨k, ⟨ahead, within⟩, rest⟩
        obtain ⟨stop, describes⟩ := (ih within).1 rest
        exact ⟨stop, k, ahead, within, describes⟩
      · rintro ⟨stop, k, ahead, within, describes⟩
        exact ⟨k, ⟨ahead, within⟩, (ih within).2 ⟨stop, describes⟩⟩
    · next noStar =>
      -- one character is taken off, and the rest is as before
      have rest {d : Char} {rest : List Char} (front : name.drop i = d :: rest) :
          Spans name.toArray (Expr.join (spec.map wildcardExpr ++ [.look .stop])) (i + 1) j ↔
            j = name.length ∧ Describes spec rest := by
        obtain ⟨within, left⟩ := drop_eq_cons front
        rw [ih within, left]
      split
      · next mark =>
        subst mark
        rw [spans_join_chars, describes_one]
        constructor
        · rintro ⟨d, _, front, -, spans⟩
          obtain ⟨stop, describes⟩ := (rest front).1 spans
          exact ⟨stop, d, _, front, describes⟩
        · rintro ⟨stop, d, _, front, describes⟩
          have mem : d ∈ name := List.mem_of_mem_drop (front ▸ List.mem_cons_self)
          exact ⟨d, _, front, holds_dotSet.2 fun same => line (same ▸ mem),
            (rest front).2 ⟨stop, describes⟩⟩
      · next noMark =>
        have own (d : Char) : CodePoints.holds (.singleton c.toNat) d = true ↔ d = c := by
          rw [CodePoints.holds, CodePoints.contains_singleton, Char.toNat_inj]
        refine spans_join_chars.trans ?_
        rw [describes_char noStar noMark]
        constructor
        · rintro ⟨d, _, front, holds, spans⟩
          obtain rfl := (own d).1 holds
          obtain ⟨stop, describes⟩ := (rest front).1 spans
          exact ⟨stop, _, front, describes⟩
        · rintro ⟨stop, _, front, describes⟩
          exact ⟨c, _, front, (own c).2 rfl, (rest front).2 ⟨stop, describes⟩⟩

/-- **The pattern of a spec occurs in the names that the spec describes.** -/
theorem occursIn_ofWildcards {whole : String} (made : ofWildcards? text = some pattern)
    (own : whole.toList = name) :
    pattern.occursIn whole = true ↔ Describes text.toList name := by
  rw [ofWildcards?_eq, ofExpr?_eq_some] at made
  obtain ⟨-, rfl⟩ := made
  rw [occursIn, own, Expr.occursIn_iff isOrdered_wildcardExprs, wildcardExprs]
  simp only [spans_join_cons, spans_look, Look.holds, beq_iff_eq]
  constructor
  · rintro ⟨i, j, -, k, ⟨rfl, rfl⟩, rest⟩
    exact ((spans_wildcards line (Nat.zero_le _)).1 rest).2
  · intro describes
    exact ⟨0, name.length, Nat.zero_le _, 0, ⟨rfl, rfl⟩,
      (spans_wildcards line (Nat.zero_le _)).2 ⟨rfl, describes⟩⟩

end

/-! ## The size of a spec -/

theorem setCost_dotSet_le : setCost dotSet ≤ 1280 ∧ reverseSetCost dotSet ≤ 1280 :=
  setCost_le (n := 28) (by decide) (by decide +kernel) (by decide +kernel)

theorem costsAtMost_wildcardExpr (c : Char) : (wildcardExpr c).CostsAtMost 1320 := by
  have dot := setCost_dotSet_le
  unfold wildcardExpr
  split
  · have once : max 1 0 = 1 := rfl
    simp only [Expr.CostsAtMost, Expr.costWith, stateSize, linkSize, once, Nat.one_mul]
    omega
  · split
    · exact ⟨Nat.le_trans dot.1 (by decide), Nat.le_trans dot.2 (by decide)⟩
    · obtain ⟨forward, backward⟩ := @setCost_singleton_le c.toNat
      exact ⟨Nat.le_trans forward (by decide), Nat.le_trans backward (by decide)⟩

/-- Every spec that is not too long has a pattern. -/
theorem exists_ofWildcards (short : text.toList.length ≤ 7900) :
    ∃ pattern, ofWildcards? text = some pattern := by
  have bounded : ∀ e ∈ wildcardExprs text.toList, e.CostsAtMost 1320 := by
    intro e mem
    simp only [wildcardExprs, List.mem_cons, List.mem_append, List.mem_map, List.not_mem_nil,
      or_false] at mem
    obtain rfl | ⟨c, -, rfl⟩ | rfl := mem
    · exact ⟨by decide, by decide⟩
    · exact costsAtMost_wildcardExpr c
    · exact ⟨by decide, by decide⟩
  refine ⟨_, (ofWildcards?_eq text).trans (ofExpr?_eq_some.2 ⟨Expr.fits_join bounded ?_, rfl⟩)⟩
  have frame : frameSize = 208 := by decide
  have limit : sizeLimit = 10485760 := by decide
  rw [wildcardExprs, List.length_cons, List.length_append, List.length_map, List.length_singleton,
    frame, limit]
  omega

end CommitLog.Pattern
