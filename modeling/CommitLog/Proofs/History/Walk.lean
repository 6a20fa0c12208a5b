import CommitLog.History.Walk
import CommitLog.Proofs.Object.Id
import CommitLog.Proofs.Queue
import Mathlib.Logic.Relation

/-!
# A walk visits what the first commits lead to

`ObjectReader.Leads` relates a commit to those that its parents lead to, as far as commits can be
read.  A walk visits each commit that the tips lead to once, or reports it.  Of the ids that are
discovered and have not had their turn, the first in the order `GoesBefore` always comes next
(`ObjectReader.VisitOrder`): the queues of a `Walk` hold exactly these ids in that order
(`Walk.Stands`), which a step keeps and so a whole run does.

    ∃ ids, reader.history tips = ids.map reader.visit ∧ reader.VisitOrder tips [] ids
    .ok ⟨id, c⟩ ∈ reader.history tips ↔ reader.commit id = .ok c ∧ ∃ t ∈ tips, reader.Leads t id
    .error f ∈ reader.history tips ↔ some t ∈ tips leads to a commit that cannot be read for f
-/

namespace CommitLog

namespace ObjectReader

/-- A commit that can be read and one of its parents. -/
def IsParent (reader : ObjectReader) (child parent : ObjectId) : Prop :=
  ∃ c, reader.commit child = .ok c ∧ parent ∈ c.parents

/-- A commit and one that its parents lead to, itself included. -/
def Leads (reader : ObjectReader) : ObjectId → ObjectId → Prop :=
  Relation.ReflTransGen reader.IsParent

/-- The visit of an id: its commit, or the report that it cannot be read. -/
def visit (reader : ObjectReader) (id : ObjectId) : Except Fault ReadCommit :=
  match reader.commit id with
  | .ok commit => .ok ⟨id, commit⟩
  | .error cause => .error (.readCommit id cause)

/-- Whether an id comes before another: what cannot be read before what can, otherwise the newer
commit, otherwise the smaller id. -/
def GoesBefore (reader : ObjectReader) (a b : ObjectId) : Prop :=
  match reader.commit a, reader.commit b with
  | .error _, .ok _ => True
  | .ok _, .error _ => False
  | .error _, .error _ => a.order b = .lt
  | .ok c, .ok d => d.committer.time < c.committer.time ∨
      c.committer.time = d.committer.time ∧ a.order b = .lt

/-- The ids that are known after some visits: the tips and the parents of the commits visited. -/
def Discovered (reader : ObjectReader) (tips done : List ObjectId) (id : ObjectId) : Prop :=
  id ∈ tips ∨ ∃ child ∈ done, reader.IsParent child id

/-- Orders in which the ids that are not done yet come when the first one always comes next. -/
inductive VisitOrder (reader : ObjectReader) (tips : List ObjectId) :
    List ObjectId → List ObjectId → Prop
  | stop {done : List ObjectId} (all : ∀ id, reader.Discovered tips done id → id ∈ done) :
      VisitOrder reader tips done []
  | next {done rest : List ObjectId} {id : ObjectId} (known : reader.Discovered tips done id)
      (fresh : id ∉ done)
      (first : ∀ other, reader.Discovered tips done other → other ∉ done → other ≠ id →
        reader.GoesBefore id other)
      (order : VisitOrder reader tips (done ++ [id]) rest) :
      VisitOrder reader tips done (id :: rest)

end ObjectReader

variable {reader : ObjectReader} {tips done ids : List ObjectId} {id : ObjectId}

namespace ObjectReader

theorem visit_eq_ok {read : ReadCommit} :
    reader.visit id = .ok read ↔ read.id = id ∧ reader.commit id = .ok read.commit := by
  obtain ⟨other, c⟩ := read
  unfold visit
  cases reader.commit id with
  | ok commit => simp [eq_comm]
  | error cause => simp

theorem visit_eq_error {fault : Fault} : reader.visit id = .error fault ↔
    ∃ cause, reader.commit id = .error cause ∧ fault = .readCommit id cause := by
  unfold visit
  cases reader.commit id with
  | ok commit => simp
  | error cause => simp [eq_comm]

/-! ## The order of visits -/

theorem goesBefore_trans (a b c : ObjectId) (hab : reader.GoesBefore a b)
    (hbc : reader.GoesBefore b c) : reader.GoesBefore a c := by
  have trans (hab : a.order b = .lt) (hbc : b.order c = .lt) : a.order c = .lt :=
    Std.TransCmp.lt_trans hab hbc
  unfold GoesBefore at *
  revert hab hbc
  cases reader.commit a <;> cases reader.commit b <;> cases reader.commit c
  · exact trans
  · exact fun _ _ => trivial
  · exact fun _ later => later.elim
  · exact fun _ _ => trivial
  · exact fun later => later.elim
  · exact fun later => later.elim
  · exact fun _ later => later.elim
  · rintro (newer | ⟨same, lt⟩) (newer' | ⟨same', lt'⟩)
    · exact .inl (by omega)
    · exact .inl (by omega)
    · exact .inl (by omega)
    · exact .inr ⟨by omega, trans lt lt'⟩

theorem not_goesBefore_self (a : ObjectId) : ¬ reader.GoesBefore a a := by
  have same : a.order a = .eq := Std.ReflCmp.compare_self
  have irrefl : a.order a ≠ .lt := by
    rw [same]
    exact nofun
  unfold GoesBefore
  cases reader.commit a with
  | ok c => simp [irrefl]
  | error cause => exact irrefl

theorem goesBefore_or {a b : ObjectId} (differ : a ≠ b) :
    reader.GoesBefore a b ∨ reader.GoesBefore b a := by
  have total : a.order b = .lt ∨ b.order a = .lt := by
    cases h : a.order b with
    | lt => exact .inl rfl
    | eq => exact absurd (ObjectId.eq_of_order h) differ
    | gt => exact .inr (Std.OrientedCmp.lt_of_gt h)
  unfold GoesBefore
  cases reader.commit a <;> cases reader.commit b
  · exact total
  · exact .inl trivial
  · exact .inr trivial
  · rcases total with lt | lt <;> simp only [lt, and_true] <;> omega

/-- Queues of commits that can be read are in the order of visits. -/
theorem goesBefore_iff {a b : ReadCommit} (ha : reader.commit a.id = .ok a.commit)
    (hb : reader.commit b.id = .ok b.commit) (differ : a.id ≠ b.id) :
    a.goesBefore b = true ↔ reader.GoesBefore a.id b.id := by
  have isLE : (a.id.order b.id).isLE = true ↔ a.id.order b.id = .lt := by
    cases h : a.id.order b.id with
    | lt => simp
    | eq => exact absurd (ObjectId.eq_of_order h) differ
    | gt => simp
  unfold GoesBefore ReadCommit.goesBefore
  rw [ha, hb, Bool.or_eq_true, Bool.and_eq_true, isLE, decide_eq_true_iff, beq_iff_eq]
  rfl

theorem order_isLE_iff {a b : LostCommit} (ha : reader.commit a.id = .error a.cause)
    (hb : reader.commit b.id = .error b.cause) (differ : a.id ≠ b.id) :
    (a.id.order b.id).isLE = true ↔ reader.GoesBefore a.id b.id := by
  unfold GoesBefore
  rw [ha, hb]
  cases h : a.id.order b.id with
  | lt => simp
  | eq => exact absurd (ObjectId.eq_of_order h) differ
  | gt => simp

/-- A queue stays in order when the test that places something agrees with the order of visits. -/
theorem pairwise_goesBefore {α : Type} {idOf : α → ObjectId} {before : α → Bool} {c : α}
    {queue : List α} (sorted : queue.Pairwise fun a b => reader.GoesBefore (idOf a) (idOf b))
    (differ : ∀ d ∈ queue, idOf d ≠ idOf c)
    (iff : ∀ d ∈ queue, before d = true ↔ reader.GoesBefore (idOf d) (idOf c)) :
    (queue.takeWhile before ++ c :: queue.dropWhile before).Pairwise
      fun a b => reader.GoesBefore (idOf a) (idOf b) := by
  refine pairwise_place (fun a b c => goesBefore_trans (idOf a) (idOf b) (idOf c)) sorted
    (fun d hd goes => (iff d hd).1 goes) fun d hd goes => ?_
  refine (goesBefore_or (differ d hd)).resolve_left fun h => ?_
  rw [(iff d hd).2 h] at goes
  cases goes

/-- A complete order of visits has every id that the tips lead to once. -/
theorem VisitOrder.spec (order : reader.VisitOrder tips done ids) (nodup : done.Nodup)
    (reached : ∀ id ∈ done, ∃ t ∈ tips, reader.Leads t id) :
    (done ++ ids).Nodup ∧ ∀ id, id ∈ done ++ ids ↔ ∃ t ∈ tips, reader.Leads t id := by
  induction order with
  | @stop done all =>
    rw [List.append_nil]
    refine ⟨nodup, fun id => ⟨reached id, ?_⟩⟩
    rintro ⟨t, ht, leads⟩
    induction leads with
    | refl => exact all t (.inl ht)
    | tail _ link ih => exact all _ (.inr ⟨_, ih, link⟩)
  | @next done rest id known fresh first order ih =>
    have next : ∃ t ∈ tips, reader.Leads t id := by
      rcases known with tip | ⟨child, hchild, link⟩
      · exact ⟨id, tip, .refl⟩
      · obtain ⟨t, ht, leads⟩ := reached child hchild
        exact ⟨t, ht, leads.tail link⟩
    rw [List.append_cons]
    refine ih (nodup.append (List.nodup_singleton id) (by simpa using fresh)) fun other h => ?_
    rcases List.mem_append.1 h with h | h
    · exact reached other h
    · rw [List.mem_singleton.1 h]
      exact next

end ObjectReader

namespace Walk

/-- The next visit, and the walk after it: what is lost comes first, then the first commit that is
ready, whose parents get known. -/
def next? (reader : ObjectReader) (walk : Walk) : Option (Except Fault ReadCommit × Walk) :=
  match walk.lost, walk.ready with
  | l :: lost, ready => some (.error l.fault, ⟨walk.seen, ready, lost⟩)
  | [], c :: rest => some (.ok c, c.commit.parents.foldl (discover reader) ⟨walk.seen, rest, []⟩)
  | [], [] => none

/-- A walk that is asked for the next visit until there is none makes these. -/
inductive Yields (reader : ObjectReader) : Walk → List (Except Fault ReadCommit) → Prop
  | stop {walk : Walk} (none : walk.next? reader = none) : Yields reader walk []
  | next {walk after : Walk} {visit : Except Fault ReadCommit}
      {visits : List (Except Fault ReadCommit)} (some : walk.next? reader = some (visit, after))
      (rest : Yields reader after visits) : Yields reader walk (visit :: visits)

/-- The ids that are to have their turn, in order. -/
def queue (walk : Walk) : List ObjectId := walk.lost.map (·.id) ++ walk.ready.map (·.id)

/-- Where a walk stands that knows some ids, of which some are done. -/
structure Stands (reader : ObjectReader) (known : ObjectId → Prop) (done : List ObjectId)
    (walk : Walk) : Prop where
  seen : ∀ id, walk.seen.contains id = true ↔ known id
  done_known : ∀ id ∈ done, known id
  done_nodup : done.Nodup
  ready : ∀ r ∈ walk.ready, reader.commit r.id = .ok r.commit
  lost : ∀ l ∈ walk.lost, reader.commit l.id = .error l.cause
  mem_queue : ∀ id, id ∈ walk.queue ↔ known id ∧ id ∉ done
  ready_sorted : walk.ready.Pairwise fun a b => reader.GoesBefore a.id b.id
  lost_sorted : walk.lost.Pairwise fun a b => reader.GoesBefore a.id b.id

variable {known : ObjectId → Prop} {walk : Walk}

theorem Stands.congr {known' : ObjectId → Prop} (stands : Stands reader known done walk)
    (same : ∀ id, known id ↔ known' id) : Stands reader known' done walk := by
  obtain rfl : known = known' := funext fun id => propext (same id)
  exact stands

theorem Stands.sorted (stands : Stands reader known done walk) :
    walk.queue.Pairwise reader.GoesBefore := by
  refine List.pairwise_append.2 ⟨List.pairwise_map.2 stands.lost_sorted,
    List.pairwise_map.2 stands.ready_sorted, fun a ha b hb => ?_⟩
  obtain ⟨l, hl, rfl⟩ := List.mem_map.1 ha
  obtain ⟨r, hr, rfl⟩ := List.mem_map.1 hb
  unfold ObjectReader.GoesBefore
  rw [stands.lost l hl, stands.ready r hr]
  trivial

/-! ## Discovering commits -/

theorem enqueue_eq (c : ReadCommit) (queue : List ReadCommit) : ReadCommit.enqueue c queue =
    queue.takeWhile (·.goesBefore c) ++ c :: queue.dropWhile (·.goesBefore c) :=
  eq_place c.enqueue rfl (fun _ _ => rfl) queue

theorem insert_eq (c : LostCommit) (queue : List LostCommit) :
    LostCommit.insert c queue = queue.takeWhile (fun d => (d.id.order c.id).isLE) ++
      c :: queue.dropWhile (fun d => (d.id.order c.id).isLE) :=
  eq_place c.insert rfl (fun _ _ => rfl) queue

/-- One discovered commit. -/
theorem Stands.discover (stands : Stands reader known done walk) (id : ObjectId) :
    Stands reader (fun other => other = id ∨ known other) done (discover reader walk id) := by
  unfold Walk.discover
  by_cases old : known id
  · rw [if_pos ((stands.seen id).2 old)]
    refine stands.congr fun other => ⟨.inr, ?_⟩
    rintro (rfl | h)
    · exact old
    · exact h
  rw [if_neg fun h => old ((stands.seen id).1 h)]
  have seen (other : ObjectId) : (walk.seen.insert id ()).contains other = true ↔
      other = id ∨ known other := by
    rw [Std.HashMap.contains_insert, Bool.or_eq_true, stands.seen, beq_iff_eq, eq_comm]
  have done_known : ∀ other ∈ done, other = id ∨ known other :=
    fun other h => .inr (stands.done_known other h)
  have fresh : id ∉ done := fun h => old (stands.done_known id h)
  have absent : ∀ other ∈ walk.queue, other ≠ id := by
    rintro other h rfl
    exact old ((stands.mem_queue other).1 h).1
  -- the new id is the only one that joins the queue
  have mem_queue {next : List ObjectId} (perm : next.Perm (id :: walk.queue)) (other : ObjectId) :
      other ∈ next ↔ (other = id ∨ known other) ∧ other ∉ done := by
    rw [perm.mem_iff, List.mem_cons, stands.mem_queue, or_and_right]
    exact or_congr_left ⟨fun h => ⟨h, h ▸ fresh⟩, fun h => h.1⟩
  cases read : reader.commit id with
  | ok commit =>
    have perm : (ReadCommit.enqueue ⟨id, commit⟩ walk.ready).Perm (⟨id, commit⟩ :: walk.ready) := by
      rw [enqueue_eq]
      exact perm_place _ _ _
    have differ (d : ReadCommit) (hd : d ∈ walk.ready) : d.id ≠ id :=
      absent d.id (List.mem_append_right _ (List.mem_map_of_mem hd))
    have iff (d : ReadCommit) (hd : d ∈ walk.ready) :
        d.goesBefore ⟨id, commit⟩ = true ↔ reader.GoesBefore d.id id :=
      ObjectReader.goesBefore_iff (stands.ready d hd) read (differ d hd)
    refine ⟨seen, done_known, stands.done_nodup, fun r hr => ?_, stands.lost,
      mem_queue (((perm.map _).append_left _).trans List.perm_middle), ?_, stands.lost_sorted⟩
    · rcases List.mem_cons.1 (perm.mem_iff.1 hr) with rfl | hr
      · exact read
      · exact stands.ready r hr
    · show (ReadCommit.enqueue ⟨id, commit⟩ walk.ready).Pairwise _
      rw [enqueue_eq]
      exact ObjectReader.pairwise_goesBefore stands.ready_sorted differ iff
  | error cause =>
    have perm : (LostCommit.insert ⟨id, cause⟩ walk.lost).Perm (⟨id, cause⟩ :: walk.lost) := by
      rw [insert_eq]
      exact perm_place _ _ _
    have differ (d : LostCommit) (hd : d ∈ walk.lost) : d.id ≠ id :=
      absent d.id (List.mem_append_left _ (List.mem_map_of_mem hd))
    have iff (d : LostCommit) (hd : d ∈ walk.lost) :
        (d.id.order id).isLE = true ↔ reader.GoesBefore d.id id :=
      ObjectReader.order_isLE_iff (b := ⟨id, cause⟩) (stands.lost d hd) read (differ d hd)
    refine ⟨seen, done_known, stands.done_nodup, stands.ready, fun l hl => ?_,
      mem_queue ((perm.map _).append_right _), stands.ready_sorted, ?_⟩
    · rcases List.mem_cons.1 (perm.mem_iff.1 hl) with rfl | hl
      · exact read
      · exact stands.lost l hl
    · show (LostCommit.insert ⟨id, cause⟩ walk.lost).Pairwise _
      rw [insert_eq]
      exact ObjectReader.pairwise_goesBefore stands.lost_sorted differ iff

theorem Stands.foldl_discover (stands : Stands reader known done walk) (ids : List ObjectId) :
    Stands reader (fun other => known other ∨ other ∈ ids) done
      (ids.foldl (Walk.discover reader) walk) := by
  induction ids generalizing known walk with
  | nil => exact stands.congr fun other => by simp
  | cons id ids ih =>
    refine (ih (stands.discover id)).congr fun other => ?_
    rw [List.mem_cons, or_left_comm, or_assoc]

/-! ## Steps and runs -/

/-- The first id of the queue has had its turn. -/
theorem Stands.pop {after : Walk} (stands : Stands reader known done walk)
    (seen : after.seen = walk.seen) (ready : after.ready.Sublist walk.ready)
    (lost : after.lost.Sublist walk.lost) (queue : walk.queue = id :: after.queue) :
    Stands reader known (done ++ [id]) after := by
  have turn := (stands.mem_queue id).1 (by rw [queue]; exact List.mem_cons_self)
  have sorted := stands.sorted
  rw [queue] at sorted
  have absent : id ∉ after.queue := fun h =>
    ObjectReader.not_goesBefore_self id ((List.pairwise_cons.1 sorted).1 id h)
  refine ⟨by rw [seen]; exact stands.seen, fun other h => ?_,
    stands.done_nodup.append (List.nodup_singleton id) (by simpa using turn.2),
    fun r hr => stands.ready r (ready.mem hr), fun l hl => stands.lost l (lost.mem hl),
    fun other => ?_, stands.ready_sorted.sublist ready, stands.lost_sorted.sublist lost⟩
  · rcases List.mem_append.1 h with h | h
    · exact stands.done_known other h
    · rw [List.mem_singleton.1 h]
      exact turn.1
  · have mem := stands.mem_queue other
    rw [queue, List.mem_cons] at mem
    rw [List.mem_append, List.mem_singleton, not_or, ← and_assoc, ← mem]
    constructor
    · intro h
      exact ⟨.inr h, fun same => absent (same ▸ h)⟩
    · rintro ⟨h, differ⟩
      exact h.resolve_left differ

/-- A step makes the visit of the first id that is known and not done, or there is none. -/
theorem Stands.next (stands : Stands reader (reader.Discovered tips done) done walk) :
    (walk.next? reader = none ∧ ∀ id, reader.Discovered tips done id → id ∈ done) ∨
    ∃ id after, walk.next? reader = some (reader.visit id, after) ∧
      reader.Discovered tips done id ∧ id ∉ done ∧
      (∀ other, reader.Discovered tips done other → other ∉ done → other ≠ id →
        reader.GoesBefore id other) ∧
      Stands reader (reader.Discovered tips (done ++ [id])) (done ++ [id]) after := by
  have first {id : ObjectId} {rest : List ObjectId} (queue : walk.queue = id :: rest) :
      reader.Discovered tips done id ∧ id ∉ done ∧
      ∀ other, reader.Discovered tips done other → other ∉ done → other ≠ id →
        reader.GoesBefore id other := by
    have turn := (stands.mem_queue id).1 (by rw [queue]; exact List.mem_cons_self)
    refine ⟨turn.1, turn.2, fun other known fresh differ => ?_⟩
    have sorted := stands.sorted
    have mem := (stands.mem_queue other).2 ⟨known, fresh⟩
    rw [queue] at sorted mem
    exact (List.pairwise_cons.1 sorted).1 other (List.mem_of_ne_of_mem differ mem)
  obtain ⟨seen, ready, lost⟩ := walk
  cases lost with
  | cons l lost =>
    -- nothing is known of what lies behind a commit that cannot be read
    have read : reader.commit l.id = .error l.cause := stands.lost l List.mem_cons_self
    obtain ⟨known, fresh, before⟩ := first (List.cons_append)
    have popped :
        Stands reader (reader.Discovered tips done) (done ++ [l.id]) ⟨seen, ready, lost⟩ :=
      stands.pop rfl (.refl _) (List.sublist_cons_self l lost) rfl
    refine .inr ⟨l.id, ⟨seen, ready, lost⟩, ?_, known, fresh, before, popped.congr fun id => ?_⟩
    · show some (Except.error l.fault, _) = _
      rw [ObjectReader.visit_eq_error.2 ⟨l.cause, read, rfl⟩]
      rfl
    · have none : ¬ reader.IsParent l.id id := by
        rintro ⟨c, hc, -⟩
        rw [read] at hc
        cases hc
      simp [ObjectReader.Discovered, or_and_right, exists_or, none]
  | nil =>
    cases ready with
    | nil =>
      refine .inl ⟨rfl, fun id known => ?_⟩
      by_contra fresh
      exact List.not_mem_nil ((stands.mem_queue id).2 ⟨known, fresh⟩)
    | cons c rest =>
      have read : reader.commit c.id = .ok c.commit := stands.ready c List.mem_cons_self
      have queue : Walk.queue ⟨seen, c :: rest, []⟩ = c.id :: rest.map (·.id) := rfl
      obtain ⟨known, fresh, before⟩ := first queue
      have popped : Stands reader (reader.Discovered tips done) (done ++ [c.id]) ⟨seen, rest, []⟩ :=
        stands.pop rfl (List.sublist_cons_self c rest) (.refl _) queue
      refine .inr ⟨c.id, _, ?_, known, fresh, before,
        (popped.foldl_discover c.commit.parents).congr fun id => ?_⟩
      · show some (Except.ok c, _) = _
        rw [ObjectReader.visit_eq_ok.2 ⟨rfl, read⟩]
      · have parents : reader.IsParent c.id id ↔ id ∈ c.commit.parents := by
          simp [ObjectReader.IsParent, read]
        simp [ObjectReader.Discovered, or_and_right, exists_or, parents, or_assoc]

theorem run_of_none (count : Nat) (none : walk.next? reader = none) :
    run reader count walk = [] := by
  obtain ⟨seen, ready, lost⟩ := walk
  cases lost with
  | cons l lost => cases none
  | nil =>
    cases ready with
    | cons c rest => cases none
    | nil => cases count <;> rfl

theorem run_of_some {after : Walk} {visit : Except Fault ReadCommit} (count : Nat)
    (some : walk.next? reader = some (visit, after)) :
    ∃ count', count ≤ count' ∧ run reader (count + 1) walk = visit :: run reader count' after := by
  obtain ⟨seen, ready, lost⟩ := walk
  cases lost with
  | cons l lost =>
    cases some
    refine ⟨count + 1, by omega, ?_⟩
    cases ready <;> rfl
  | nil =>
    cases ready with
    | nil => cases some
    | cons c rest =>
      cases some
      exact ⟨count, le_rfl, rfl⟩

/-- A run visits what is left in order and ends, as there are only so many ids. -/
theorem Stands.run (stands : Stands reader (reader.Discovered tips done) done walk)
    (left count : Nat) (bound : ObjectId.count ≤ done.length + left) (enough : left ≤ count) :
    ∃ ids, run reader count walk = ids.map reader.visit ∧
      Yields reader walk (ids.map reader.visit) ∧ reader.VisitOrder tips done ids := by
  induction left generalizing done walk count with
  | zero =>
    rcases stands.next with ⟨none, all⟩ | ⟨id, after, -, -, -, -, next⟩
    · exact ⟨[], run_of_none count none, .stop none, .stop all⟩
    · have bounded := ObjectId.length_le_count next.done_nodup
      rw [List.length_append, List.length_singleton] at bounded
      omega
  | succ left ih =>
    rcases stands.next with ⟨none, all⟩ | ⟨id, after, some, known, fresh, first, next⟩
    · exact ⟨[], run_of_none count none, .stop none, .stop all⟩
    · obtain ⟨count, rfl⟩ : ∃ n, count = n + 1 := ⟨count - 1, by omega⟩
      obtain ⟨count', more, run⟩ := run_of_some count some
      obtain ⟨ids, rest, yields, order⟩ := ih next count'
        (by rw [List.length_append, List.length_singleton]; omega) (by omega)
      exact ⟨id :: ids, by rw [run, rest, List.map_cons], .next some yields,
        .next known fresh first order⟩

end Walk

/-! ## All visits -/

def readsOf (visits : List (Except Fault ReadCommit)) : List ReadCommit :=
  visits.filterMap Except.toOption

theorem readsOf_map_ok (reads : List ReadCommit) : readsOf (reads.map .ok) = reads := by
  rw [readsOf, List.filterMap_map]
  exact List.filterMap_some

theorem map_ok_readsOf {visits : List (Except Fault ReadCommit)}
    (h : ∀ visit ∈ visits, ∃ read, visit = .ok read) : (readsOf visits).map .ok = visits := by
  induction visits with
  | nil => rfl
  | cons visit visits ih =>
    obtain ⟨read, rfl⟩ := h visit List.mem_cons_self
    show Except.ok read :: (readsOf visits).map Except.ok = _
    rw [ih fun v hv => h v (List.mem_cons_of_mem _ hv)]

namespace ObjectReader

variable (reader : ObjectReader) (tips : List ObjectId)

theorem stands_start :
    Walk.Stands reader (reader.Discovered tips []) [] (Walk.start reader tips) := by
  have start : Walk.Stands reader (fun _ => False) [] ⟨∅, [], []⟩ :=
    ⟨by simp, by simp, .nil, by simp, by simp, by simp [Walk.queue], .nil, .nil⟩
  exact (start.foldl_discover tips).congr fun id => by simp [Discovered]

/-- A walk that is asked for visits until there are none visits ids in order. -/
theorem exists_visitOrder : ∃ ids : List ObjectId, reader.history tips = ids.map reader.visit ∧
    Walk.Yields reader (Walk.start reader tips) (ids.map reader.visit) ∧
    reader.VisitOrder tips [] ids :=
  (stands_start reader tips).run ObjectId.count ObjectId.count (by simp) le_rfl

/-- **A walk ends and visits each id that the tips lead to once**: what can be read with its commit,
what cannot as one fault.  Of the ids that are discovered and have not come, the first in the order
of visits always comes next. -/
theorem history_yields : ∃ ids : List ObjectId, reader.history tips = ids.map reader.visit ∧
    Walk.Yields reader (Walk.start reader tips) (ids.map reader.visit) ∧
    reader.VisitOrder tips [] ids ∧ ids.Nodup ∧
    ∀ id, id ∈ ids ↔ ∃ t ∈ tips, reader.Leads t id := by
  obtain ⟨ids, history, yields, order⟩ := exists_visitOrder reader tips
  obtain ⟨nodup, mem⟩ := order.spec .nil (by simp)
  exact ⟨ids, history, yields, order, nodup, mem⟩

/-- The visits of a walk are those of all ids that the tips lead to. -/
theorem exists_visited : ∃ ids : List ObjectId, reader.history tips = ids.map reader.visit ∧
    ids.Nodup ∧ ∀ id, id ∈ ids ↔ ∃ t ∈ tips, reader.Leads t id := by
  obtain ⟨ids, history, -, order⟩ := exists_visitOrder reader tips
  exact ⟨ids, history, order.spec .nil (by simp)⟩

/-- Every readable commit that the tips lead to is visited, and no other. -/
theorem ok_mem_history {id : ObjectId} {c : Commit} : .ok ⟨id, c⟩ ∈ reader.history tips ↔
    reader.commit id = .ok c ∧ ∃ t ∈ tips, reader.Leads t id := by
  obtain ⟨ids, history, -, mem⟩ := exists_visited reader tips
  rw [history, List.mem_map, ← mem id]
  constructor
  · rintro ⟨other, hother, read⟩
    obtain ⟨rfl, read⟩ := visit_eq_ok.1 read
    exact ⟨read, hother⟩
  · rintro ⟨read, hid⟩
    exact ⟨id, hid, visit_eq_ok.2 ⟨rfl, read⟩⟩

/-- Every commit that the tips lead to and that cannot be read is reported. -/
theorem error_mem_history {fault : Fault} : .error fault ∈ reader.history tips ↔
    ∃ id, (∃ t ∈ tips, reader.Leads t id) ∧
      ∃ cause, reader.commit id = .error cause ∧ fault = .readCommit id cause := by
  obtain ⟨ids, history, -, mem⟩ := exists_visited reader tips
  simp only [history, List.mem_map, ← mem, visit_eq_error]

/-- No commit is visited twice. -/
theorem nodup_history : ((readsOf (reader.history tips)).map (·.id)).Nodup := by
  obtain ⟨ids, history, nodup, -⟩ := exists_visited reader tips
  have sublist : ((readsOf (ids.map reader.visit)).map (·.id)).Sublist ids := by
    clear history nodup
    induction ids with
    | nil => exact .slnil
    | cons id ids ih =>
      rw [List.map_cons, readsOf, List.filterMap_cons]
      unfold visit
      cases reader.commit id with
      | ok commit => exact ih.cons_cons id
      | error cause => exact ih.cons id
  rw [history]
  exact nodup.sublist sublist

end ObjectReader

end CommitLog
