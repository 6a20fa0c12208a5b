import CommitLog.Proofs.Text.Number
import Mathlib.Data.Fintype.BigOperators
import Mathlib.Data.Fintype.EquivFin

/-!
# The order and the number of ids

Ids are in a linear order, and ids that differ are no more than `ObjectId.count`.  What a user types
serves as the beginning of an id if it is four to forty hexadecimal digits (`ObjectId.IsPartial`),
blanks around it and its case aside.

    normalPrefix? text = some digits ↔ IsPartial digits ∧ digits = typed text
-/

namespace CommitLog

instance : Std.TransCmp ObjectId.order :=
  inferInstanceAs (Std.TransCmp (compareOn ObjectId.bytes))

namespace ObjectId

theorem eq_of_order {a b : ObjectId} (h : a.order b = .eq) : a = b := by
  obtain ⟨as, _⟩ := a
  obtain ⟨bs, _⟩ := b
  obtain rfl : as = bs := Std.LawfulEqCmp.compare_eq_iff_eq.1 h
  rfl

def byteAt (id : ObjectId) (n : Fin 20) : Fin 256 :=
  (id.bytes.get (n.cast id.length_bytes.symm)).toFin

theorem byteAt_injective : Function.Injective byteAt := by
  rintro ⟨as, ha⟩ ⟨bs, hb⟩ same
  obtain rfl : as = bs := by
    refine List.ext_getElem (by rw [ha, hb]) fun n h _ => ?_
    exact UInt8.toFin_inj.1 (congrFun same ⟨n, by rwa [ha] at h⟩)
  rfl

/-- Ids that differ are no more than there are ids. -/
theorem length_le_count {ids : List ObjectId} (nodup : ids.Nodup) : ids.length ≤ count := by
  have bounded : (ids.map byteAt).length ≤ Fintype.card (Fin 20 → Fin 256) :=
    (nodup.map byteAt_injective).length_le_card
  rwa [List.length_map, Fintype.card_fun, Fintype.card_fin, Fintype.card_fin] at bounded

/-! ### Beginnings of ids -/

/-- What a user has typed, without blanks around it and in lower case. -/
def typed (text : String) : List Char := (Text.trim text.toList).map Char.toLower

/-- Whether the characters are four to forty hexadecimal digits. -/
def IsPartial (digits : List Char) : Prop :=
  4 ≤ digits.length ∧ digits.length ≤ 40 ∧ digits ⊆ "0123456789abcdef".toList

instance (digits : List Char) : Decidable (IsPartial digits) :=
  inferInstanceAs (Decidable (_ ∧ _ ∧ _))

/-- What a user has typed serves as the beginning of an id if it is one in lower case. -/
theorem normalPrefix?_eq_some_iff {text : String} {digits : List Char} :
    normalPrefix? text = some digits ↔ IsPartial digits ∧ digits = typed text := by
  unfold normalPrefix? typed
  generalize Text.trim text.toList = own
  have lowered (all : (own.all fun c => (Text.hexDigit? c).isSome) = true) :
      own.map (fun c => Text.hexChar ((Text.hexDigit? c).getD 0)) = own.map Char.toLower := by
    refine List.map_congr_left fun c mem => ?_
    obtain ⟨n, hn⟩ := Option.isSome_iff_exists.1 (List.all_eq_true.1 all c mem)
    rw [hn, Option.getD_some, (Text.hexDigit?_eq_some_iff.1 hn).2]
  have isPartial : IsPartial (own.map Char.toLower) ↔ leastPrefix ≤ own.length ∧
      own.length ≤ 40 ∧ (own.all fun c => (Text.hexDigit? c).isSome) = true := by
    simp only [IsPartial, leastPrefix, List.length_map, List.subset_def, List.forall_mem_map,
      List.all_eq_true, Text.isSome_hexDigit?_iff]
  constructor
  · intro normal
    dsimp only at normal
    split at normal
    · next fits =>
      obtain rfl := Option.some.inj normal
      rw [lowered fits.2.2]
      exact ⟨isPartial.2 fits, rfl⟩
    · cases normal
  · rintro ⟨fits, rfl⟩
    have fits := isPartial.1 fits
    rw [← lowered fits.2.2]
    exact if_pos fits

end ObjectId

end CommitLog
