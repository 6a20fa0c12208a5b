import CommitLog.Filter.Text
import CommitLog.Proofs.Pattern.Cost

/-!
# Filters of plain texts

A filter that is made from a plain text lets a message through if and only if the text stands in it:
as it is, or, when case does not count, up to simple case folding, character by character.  Short
texts make a filter in either case (`exists_ofText_plain`).

    ofText text false matchCase = .ok filter →
      (filter.acceptsMessage message ↔ text.toList <:+: message.toList)              (matchCase)
      (filter.acceptsMessage message ↔
        ∃ part, part <:+: message.toList ∧ Forall₂ (fold · = fold ·) text.toList part)     (else)
-/

namespace CommitLog

open Unicode (fold)

namespace Pattern

variable {text message : String} {pattern : Pattern} {ignoreCase : Bool} {c d : Char}

theorem holds_close_singleton :
    ((Flags.start ignoreCase).close (.singleton c.toNat)).holds d = true ↔
      if ignoreCase then fold c = fold d else c = d := by
  have equal : c.toNat = d.toNat ↔ c = d := ⟨Char.toNat_inj.1, congrArg _⟩
  cases ignoreCase with
  | false =>
    show (Unicode.CodePoints.singleton c.toNat).contains d.toNat = true ↔ c = d
    rw [Unicode.CodePoints.contains_singleton, eq_comm, equal]
  | true =>
    show (Unicode.CodePoints.singleton c.toNat).caseClosure.contains d.toNat = true ↔
      fold c = fold d
    simp only [Unicode.CodePoints.contains_caseClosure, Unicode.CodePoints.contains_singleton,
      exists_eq_left, Unicode.fold_eq_iff]

/-- The pattern of a plain text occurs in the texts that contain it. -/
theorem occursIn_ofLiteral (made : ofLiteral? ignoreCase text = some pattern) :
    pattern.occursIn message = true ↔ ∃ part, part <:+: message.toList ∧
      List.Forall₂ (fun c d => if ignoreCase then fold c = fold d else c = d)
        text.toList part := by
  rw [ofLiteral?_eq, ofExpr?_eq_some] at made
  obtain ⟨-, rfl⟩ := made
  have ordered : (Expr.join (text.toList.map (charExpr ignoreCase))).IsOrdered := by
    refine Expr.isOrdered_join fun e mem => ?_
    obtain ⟨c, -, rfl⟩ := List.mem_map.1 mem
    trivial
  simp only [occursIn, Expr.occursIn_iff ordered, spans_join_charExpr, holds_close_singleton]
  constructor
  · rintro ⟨i, j, -, part, front, -, each⟩
    exact ⟨part, front.isInfix.trans (List.drop_suffix i _).isInfix, each⟩
  · rintro ⟨part, ⟨front, rest, own⟩, each⟩
    refine ⟨front.length, front.length + part.length, ?_, part, ⟨rest, ?_⟩, rfl, each⟩
    · simp only [← own, List.length_append]
      omega
    · rw [← own, List.append_assoc, List.drop_left]

theorem costsAtMost_charExpr (ignoreCase : Bool) (c : Char) :
    (charExpr ignoreCase c).CostsAtMost (unitCost * if ignoreCase then 12104 else 4) := by
  cases ignoreCase with
  | false => exact setCost_singleton_le
  | true => exact setCost_caseClosure_le c.toNat

end Pattern

namespace TextFilter

variable {text : String} {matchCase : Bool} {filter : TextFilter}

theorem ofText_plain_eq_ok : ofText text false matchCase = .ok filter ↔
    ∃ pattern, Pattern.ofLiteral? (!matchCase) text = some pattern ∧
      filter = ⟨text, false, matchCase, pattern⟩ := by
  unfold ofText
  simp only [Bool.false_eq_true, if_false]
  cases Pattern.ofLiteral? (!matchCase) text with
  | none => simp
  | some pattern => simp [eq_comm]

/-- Every short text makes a filter. -/
theorem exists_ofText_plain
    (short : text.toList.length ≤ if matchCase then 65000 else 20) :
    ∃ filter, ofText text false matchCase = .ok filter := by
  have fits : (Pattern.Expr.join (text.toList.map (Pattern.charExpr (!matchCase)))).fits =
      true := by
    have bounded : ∀ e ∈ text.toList.map (Pattern.charExpr (!matchCase)),
        e.CostsAtMost (Pattern.unitCost * if !matchCase then 12104 else 4) := by
      intro e mem
      obtain ⟨c, -, rfl⟩ := List.mem_map.1 mem
      exact Pattern.costsAtMost_charExpr _ c
    refine Pattern.Expr.fits_join bounded ?_
    have frame : Pattern.frameSize = 208 := by decide
    have limit : Pattern.sizeLimit = 10485760 := by decide
    have unit : Pattern.unitCost = 40 := by decide
    rw [List.length_map, frame, limit, unit]
    cases matchCase with
    | true =>
      rw [if_pos rfl] at short
      rw [Bool.not_true, if_neg Bool.false_ne_true]
      omega
    | false =>
      rw [if_neg Bool.false_ne_true] at short
      rw [Bool.not_false, if_pos rfl]
      omega
  have literal := (Pattern.ofLiteral?_eq (!matchCase) text).trans
    (Pattern.ofExpr?_eq_some.2 ⟨fits, rfl⟩)
  exact ⟨_, ofText_plain_eq_ok.2 ⟨_, literal, rfl⟩⟩

/-- **A plain text lets the messages through in which it stands.** -/
theorem acceptsMessage_plain (made : ofText text false matchCase = .ok filter)
    (message : String) : filter.acceptsMessage message = true ↔
      if matchCase then text.toList <:+: message.toList
      else ∃ part, part <:+: message.toList ∧
        List.Forall₂ (fun c d => fold c = fold d) text.toList part := by
  obtain ⟨pattern, literal, rfl⟩ := ofText_plain_eq_ok.1 made
  rw [acceptsMessage, Pattern.occursIn_ofLiteral literal]
  cases matchCase with
  | true => simp
  | false => rfl

/-- A dot stands for itself, and letters for either case. -/
theorem acceptsMessage_dot : ∃ filter, ofText "a.b" false false = .ok filter ∧
    filter.acceptsMessage "xA.By" = true ∧ filter.acceptsMessage "axb" = false := by
  obtain ⟨filter, made⟩ : ∃ filter, ofText "a.b" false false = .ok filter :=
    exists_ofText_plain (by decide)
  refine ⟨filter, made, (acceptsMessage_plain made _).2 ?_, ?_⟩
  · exact ⟨['A', '.', 'B'], ⟨['x'], ['y'], rfl⟩, by decide⟩
  · rw [Bool.eq_false_iff]
    intro accepted
    obtain ⟨part, inside, each⟩ := (acceptsMessage_plain made _).1 accepted
    have whole : part = ['a', 'x', 'b'] := inside.eq_of_length each.length_eq.symm
    subst whole
    exact absurd each (by decide)

end TextFilter

end CommitLog
