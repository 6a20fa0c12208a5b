import Mathlib.Data.List.Perm.Basic

/-!
# Queues

A queue takes in an element behind those at its front that go before it: `queue` becomes
`queue.takeWhile before ++ c :: queue.dropWhile before`.
-/

namespace CommitLog

variable {α : Type} {R : α → α → Prop} {before : α → Bool} {c : α} {queue : List α}

/-- A function that walks past the elements that go before the new one puts it behind them. -/
theorem eq_place (place : List α → List α) (nil : place [] = [c])
    (cons : ∀ d rest, place (d :: rest) = if before d then d :: place rest else c :: d :: rest)
    (queue : List α) : place queue = queue.takeWhile before ++ c :: queue.dropWhile before := by
  induction queue with
  | nil => exact nil
  | cons d rest ih =>
    rw [cons, List.takeWhile_cons, List.dropWhile_cons, ih]
    split <;> rfl

theorem perm_place (before : α → Bool) (c : α) (queue : List α) :
    (queue.takeWhile before ++ c :: queue.dropWhile before).Perm (c :: queue) := by
  have split : queue.takeWhile before ++ queue.dropWhile before = queue :=
    List.takeWhile_append_dropWhile
  exact List.perm_middle.trans (.of_eq (by rw [split]))

/-- A queue stays in order when the test tells the elements that go before the new one from those
that it goes before. -/
theorem pairwise_place (trans : ∀ a b c, R a b → R b c → R a c) (sorted : queue.Pairwise R)
    (front : ∀ d ∈ queue, before d = true → R d c) (back : ∀ d ∈ queue, before d = false → R c d) :
    (queue.takeWhile before ++ c :: queue.dropWhile before).Pairwise R := by
  have split : queue.takeWhile before ++ queue.dropWhile before = queue :=
    List.takeWhile_append_dropWhile
  have parts := sorted
  rw [← split] at parts
  obtain ⟨taken, dropped, across⟩ := List.pairwise_append.1 parts
  have later : ∀ d ∈ queue.dropWhile before, R c d := by
    cases h : queue.dropWhile before with
    | nil => simp
    | cons e rest =>
      rw [h] at dropped
      have first : R c e := by
        refine back e ?_ ?_
        · rw [← split, h]
          exact List.mem_append_right _ List.mem_cons_self
        · have := List.head?_dropWhile_not before queue
          rw [h] at this
          simpa using this
      intro d hd
      rcases List.mem_cons.1 hd with rfl | hd
      · exact first
      · exact trans c e d first ((List.pairwise_cons.1 dropped).1 d hd)
  refine List.pairwise_append.2 ⟨taken, List.pairwise_cons.2 ⟨later, dropped⟩, fun d hd e he => ?_⟩
  rcases List.mem_cons.1 he with rfl | he
  · have goes : before d = true := List.all_eq_true.1 List.all_takeWhile d hd
    exact front d ((List.takeWhile_sublist before).mem hd) goes
  · exact across d hd e he

end CommitLog
