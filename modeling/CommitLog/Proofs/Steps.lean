import Mathlib.Data.List.Forall2

/-!
# Steps that may fail

When a chain of steps succeeds: each of them does.
-/

namespace CommitLog

variable {ε ε' α β γ : Type}

theorem bind_eq_ok {x : Except ε α} {f : α → Except ε β} {b : β} :
    x >>= f = .ok b ↔ ∃ a, x = .ok a ∧ f a = .ok b := by
  constructor
  · intro h
    cases x with
    | error fault => cases h
    | ok a => exact ⟨a, rfl, h⟩
  · rintro ⟨a, rfl, h⟩
    exact h

theorem map_eq_ok {x : Except ε α} {f : α → β} {b : β} :
    x.map f = .ok b ↔ ∃ a, x = .ok a ∧ f a = b := by
  constructor
  · intro h
    cases x with
    | error fault => cases h
    | ok a => exact ⟨a, rfl, Except.ok.inj h⟩
  · rintro ⟨a, rfl, rfl⟩
    rfl

theorem mapError_eq_ok {x : Except ε α} {f : ε → ε'} {a : α} :
    x.mapError f = .ok a ↔ x = .ok a := by
  constructor
  · intro h
    cases x with
    | error fault => cases h
    | ok b => rw [Except.ok.inj h]
  · rintro rfl
    rfl

theorem toOption_eq_some {x : Except ε α} {a : α} : x.toOption = some a ↔ x = .ok a := by
  constructor
  · intro h
    cases x with
    | error fault => cases h
    | ok b => rw [Option.some.inj h]
  · rintro rfl
    rfl

theorem mapM_eq_ok {f : α → Except ε β} {as : List α} {bs : List β} :
    as.mapM f = .ok bs ↔ List.Forall₂ (fun a b => f a = .ok b) as bs := by
  induction as generalizing bs with
  | nil =>
    rw [List.mapM_nil, List.forall₂_nil_left_iff]
    exact ⟨fun h => (Except.ok.inj h).symm, fun h => congrArg Except.ok h.symm⟩
  | cons a as ih =>
    rw [List.mapM_cons, bind_eq_ok, List.forall₂_cons_left_iff]
    constructor
    · rintro ⟨b, hb, h⟩
      obtain ⟨rest, hrest, h⟩ := bind_eq_ok.1 h
      exact ⟨b, rest, hb, ih.1 hrest, (Except.ok.inj h).symm⟩
    · rintro ⟨b, rest, hb, hrest, rfl⟩
      exact ⟨b, hb, bind_eq_ok.2 ⟨rest, ih.2 hrest, rfl⟩⟩

theorem mapM_congr {f g : α → Except ε β} {as : List α} (h : ∀ a ∈ as, f a = g a) :
    as.mapM f = as.mapM g := by
  induction as with
  | nil => rfl
  | cons a as ih =>
    rw [List.mapM_cons, List.mapM_cons, h a List.mem_cons_self,
      ih fun b hb => h b (List.mem_cons_of_mem _ hb)]

theorem filterMapM_eq_ok {f : α → Except ε (Option β)} {as : List α} {bs : List β} :
    as.filterMapM f = .ok bs ↔
      ∃ os, List.Forall₂ (fun a o => f a = .ok o) as os ∧ bs = os.filterMap id := by
  induction as generalizing bs with
  | nil =>
    rw [List.filterMapM_nil]
    simp only [List.forall₂_nil_left_iff, exists_eq_left, List.filterMap_nil]
    exact ⟨fun h => (Except.ok.inj h).symm, fun h => congrArg Except.ok h.symm⟩
  | cons a as ih =>
    rw [List.filterMapM_cons, bind_eq_ok]
    simp only [List.forall₂_cons_left_iff]
    constructor
    · rintro ⟨_ | b, ho, h⟩
      · obtain ⟨os, hos, rfl⟩ := ih.1 h
        exact ⟨_, ⟨none, os, ho, hos, rfl⟩, rfl⟩
      · obtain ⟨rest, hrest, h⟩ := bind_eq_ok.1 h
        obtain ⟨os, hos, rfl⟩ := ih.1 hrest
        exact ⟨_, ⟨some b, os, ho, hos, rfl⟩, (Except.ok.inj h).symm⟩
    · rintro ⟨_, ⟨_ | b, os, ho, hos, rfl⟩, rfl⟩
      · exact ⟨none, ho, ih.2 ⟨os, hos, rfl⟩⟩
      · exact ⟨some b, ho, bind_eq_ok.2 ⟨_, ih.2 ⟨os, hos, rfl⟩, rfl⟩⟩

theorem exists_of_mem_left {R : α → β → Prop} {as : List α} {bs : List β}
    (h : List.Forall₂ R as bs) {a : α} (ha : a ∈ as) : ∃ b ∈ bs, R a b := by
  induction h with
  | nil => cases ha
  | cons hr _ ih =>
    rcases List.mem_cons.1 ha with rfl | ha
    · exact ⟨_, List.mem_cons_self, hr⟩
    · obtain ⟨b, hb, hr⟩ := ih ha
      exact ⟨b, List.mem_cons_of_mem _ hb, hr⟩

theorem exists_of_mem_right {R : α → β → Prop} {as : List α} {bs : List β}
    (h : List.Forall₂ R as bs) {b : β} (hb : b ∈ bs) : ∃ a ∈ as, R a b :=
  exists_of_mem_left h.flip hb

/-- What one step after the other keeps. -/
theorem foldlM_induction {f : β → α → Except ε β} (P : List α → β → Prop) {as : List α}
    {start final : β} (h : as.foldlM f start = .ok final) (first : P [] start)
    (step : ∀ done a b b', P done b → a ∈ as → f b a = .ok b' → P (done ++ [a]) b') :
    P as final := by
  have run : ∀ (rest done : List α) (b : β), P done b → (∀ a ∈ rest, a ∈ as) →
      rest.foldlM f b = .ok final → P (done ++ rest) final := by
    intro rest
    induction rest with
    | nil =>
      intro done b hb _ h
      obtain rfl := Except.ok.inj h
      rwa [List.append_nil]
    | cons a rest ih =>
      intro done b hb sub h
      rw [List.foldlM_cons] at h
      obtain ⟨b', hb', h⟩ := bind_eq_ok.1 h
      have next := ih (done ++ [a]) b' (step done a b b' hb (sub a List.mem_cons_self) hb')
        (fun c hc => sub c (List.mem_cons_of_mem _ hc)) h
      rwa [List.append_assoc] at next
  exact run as [] start first (fun _ h => h) h

/-- Steps that succeed as long as something is kept, and keep it. -/
theorem exists_foldlM {f : β → α → Except ε β} (P : List α → β → Prop) {as : List α} {start : β}
    (first : P [] start) (step : ∀ done a b, P done b → (∀ d ∈ done, d ∈ as) → a ∈ as →
      ∃ b', f b a = .ok b' ∧ P (done ++ [a]) b') : ∃ final, as.foldlM f start = .ok final := by
  have run : ∀ (rest done : List α) (b : β), P done b → (∀ d ∈ done ++ rest, d ∈ as) →
      ∃ final, rest.foldlM f b = .ok final := by
    intro rest
    induction rest with
    | nil => exact fun done b _ _ => ⟨b, rfl⟩
    | cons a rest ih =>
      intro done b hb sub
      obtain ⟨b', hb', next⟩ := step done a b hb (fun d hd => sub d (List.mem_append_left _ hd))
        (sub a (by simp))
      obtain ⟨final, hfinal⟩ := ih (done ++ [a]) b' next (by simpa using sub)
      exact ⟨final, by rw [List.foldlM_cons]; exact bind_eq_ok.2 ⟨b', hb', hfinal⟩⟩
  exact run as [] start first fun d hd => hd

/-- Steps that all succeed do so together. -/
theorem exists_filterMapM {f : α → Except ε (Option β)} {as : List α}
    (h : ∀ a ∈ as, ∃ o, f a = .ok o) : ∃ bs, as.filterMapM f = .ok bs := by
  induction as with
  | nil => exact ⟨[], filterMapM_eq_ok.2 ⟨[], .nil, rfl⟩⟩
  | cons a as ih =>
    obtain ⟨o, ho⟩ := h a List.mem_cons_self
    obtain ⟨bs, hbs⟩ := ih fun a' ha' => h a' (List.mem_cons_of_mem _ ha')
    obtain ⟨os, hos, -⟩ := filterMapM_eq_ok.1 hbs
    exact ⟨_, filterMapM_eq_ok.2 ⟨o :: os, .cons ho hos, rfl⟩⟩

/-- Steps that all succeed give as many results. -/
theorem exists_mapM {f : α → Except ε β} {as : List α} (R : α → β → Prop)
    (h : ∀ a ∈ as, ∃ b, f a = .ok b ∧ R a b) :
    ∃ bs, as.mapM f = .ok bs ∧ List.Forall₂ R as bs := by
  induction as with
  | nil => exact ⟨[], mapM_eq_ok.2 .nil, .nil⟩
  | cons a as ih =>
    obtain ⟨b, hb, hr⟩ := h a List.mem_cons_self
    obtain ⟨bs, hbs, hrs⟩ := ih fun a' ha' => h a' (List.mem_cons_of_mem _ ha')
    exact ⟨b :: bs, mapM_eq_ok.2 (.cons hb (mapM_eq_ok.1 hbs)), .cons hr hrs⟩

end CommitLog
