import CommitLog.Object.Tree
import CommitLog.Proofs.Entries
import CommitLog.Proofs.Object.Framing

/-!
# The body of a tree

A body is read as a tree when it is a row of entries, and of several entries of one name the last
one counts.  The body of a tree has every entry once, in the order of `sortKey`, and is read as that
tree.

    (∃ tree, parse body = .ok tree) ↔ ∃ items, body = items.flatMap Item.bytes
    parse (items.flatMap Item.bytes) = .ok tree ↔ tree.Ascending ∧
      ∀ name, tree.get? name = lastEntry items name
    tree.Ascending → (no name has a null character) → parse tree.content = .ok tree
-/

namespace CommitLog

namespace Tree

variable {tree other : Tree} {name : String} {entry : TreeEntry}
  {entries : List (String × TreeEntry)} {bytes rest : List UInt8}

/-! ## Trees as maps -/

/-- The names of a tree stand in ascending order, each once. -/
def Ascending (tree : Tree) : Prop := tree.entries.Pairwise fun a b => compare a.1 b.1 = .lt

theorem ascending_empty : Ascending empty := .nil

theorem insertEntry_eq_put (name : String) (entry : TreeEntry)
    (entries : List (String × TreeEntry)) :
    insertEntry name entry entries = Entries.put name entry entries :=
  Entries.eq_put (insertEntry name entry) rfl (fun _ _ _ => rfl) entries

theorem Ascending.insert (ascending : tree.Ascending) : (tree.insert name entry).Ascending := by
  have put : Entries.Ascending (Entries.put name entry tree.entries) :=
    Entries.Ascending.put ascending
  rwa [← insertEntry_eq_put] at put

theorem get?_insert (tree : Tree) (name other : String) (entry : TreeEntry) :
    (tree.insert name entry).get? other = if other = name then some entry else tree.get? other := by
  show (insertEntry name entry tree.entries).lookup other = _
  rw [insertEntry_eq_put]
  exact Entries.lookup_put name other entry tree.entries

theorem mem_of_get? (found : tree.get? name = some entry) : (name, entry) ∈ tree.entries :=
  Entries.mem_of_lookup found

theorem Ascending.mem_iff (ascending : tree.Ascending) :
    (name, entry) ∈ tree.entries ↔ tree.get? name = some entry :=
  Entries.Ascending.mem_iff ascending

/-- A tree is known by what it has under every name. -/
theorem Ascending.ext (ascending : tree.Ascending) (ascending' : other.Ascending)
    (same : ∀ name, tree.get? name = other.get? name) : tree = other := by
  have entries : tree.entries = other.entries := Entries.Ascending.ext ascending ascending' same
  cases tree
  cases other
  exact congrArg Tree.mk entries

end Tree

/-! ## Entries in a body -/

def EntryMode.spellings : List (String × EntryMode) :=
  [("100644", .regular), ("100664", .regular), ("100755", .executable), ("120000", .symlink),
    ("160000", .submodule), ("40000", .directory), ("040000", .directory)]

theorem EntryMode.parse_eq_ok_iff {text : String} {mode : EntryMode} :
    EntryMode.parse text = .ok mode ↔ (text, mode) ∈ spellings := by
  unfold EntryMode.parse
  split
  case h_8 => simp_all [spellings]
  all_goals simp [spellings, eq_comm]

theorem EntryMode.octal_mem (mode : EntryMode) : (mode.octal, mode) ∈ spellings := by
  cases mode <;> simp [spellings, octal]

namespace Tree

/-- An entry as it may stand in a body: a spelling of its mode and a name without null character. -/
structure Item where
  spelling : String
  name : String
  entry : TreeEntry
  mode : (spelling, entry.mode) ∈ EntryMode.spellings
  named : '\x00' ∉ name.toList

namespace Item

def pair (item : Item) : String × TreeEntry := (item.name, item.entry)

/-- The spelling of the mode, a space, the name, a null byte and the twenty bytes of the id. -/
def bytes (item : Item) : List UInt8 :=
  Utf8.ofString item.spelling ++ 0x20 :: (Utf8.ofString item.name ++ 0 :: item.entry.id.bytes)

theorem bytes_ne_nil (item : Item) : item.bytes ≠ [] := by simp [bytes]

end Item

variable {tree : Tree} {name : String} {entry : TreeEntry} {bytes rest : List UInt8}

theorem takeId_eq_ok_iff {id : ObjectId} :
    takeId bytes = .ok (id, rest) ↔ bytes = id.bytes ++ rest := by
  unfold takeId
  constructor
  · intro h
    split at h
    next own found =>
      cases h
      rw [← ObjectId.ofBytes?_eq_some_iff.mp found, List.take_append_drop]
    next => cases h
  · rintro rfl
    have front : (id.bytes ++ rest).take 20 = id.bytes := List.take_left' id.length_bytes
    have back : (id.bytes ++ rest).drop 20 = rest := List.drop_left' id.length_bytes
    rw [front, back, ObjectId.ofBytes?_eq_some_iff.mpr rfl]

/-- What is taken from the start of some bytes is an entry. -/
theorem exists_item_of_takeEntry {pair : String × TreeEntry}
    (h : takeEntry bytes = .ok (pair, rest)) :
    ∃ item : Item, item.pair = pair ∧ bytes = item.bytes ++ rest := by
  unfold takeEntry at h
  rcases cutMode : splitAtByte 0x20 bytes with ⟨modeBytes, spaced, afterMode⟩
  rw [cutMode] at h
  dsimp only at h
  split at h
  next => cases h
  next isSpaced =>
  obtain ⟨spelling, spelled, h⟩ := bind_eq_ok.mp h
  obtain ⟨mode, parsed, h⟩ := bind_eq_ok.mp h
  rcases cutName : splitAtByte 0 afterMode with ⟨nameBytes, ended, afterName⟩
  rw [cutName] at h
  dsimp only at h
  split at h
  next => cases h
  next isEnded =>
  obtain ⟨name, named, h⟩ := bind_eq_ok.mp h
  obtain ⟨⟨id, rest⟩, taken, ⟨⟩⟩ := bind_eq_ok.mp h
  obtain rfl : spaced = true := by simpa using isSpaced
  obtain rfl : ended = true := by simpa using isEnded
  obtain ⟨rfl, -⟩ := splitAtByte_eq_iff.mp cutMode
  obtain ⟨rfl, absent⟩ := splitAtByte_eq_iff.mp cutName
  obtain rfl := textOfBytes_eq_ok_iff.mp spelled
  obtain rfl := textOfBytes_eq_ok_iff.mp named
  obtain rfl := takeId_eq_ok_iff.mp (mapError_eq_ok.mp taken)
  refine ⟨⟨spelling, name, ⟨mode, id⟩, EntryMode.parse_eq_ok_iff.mp parsed, fun mem => ?_⟩, rfl,
    by simp [Item.bytes]⟩
  exact absent ((Utf8.mem_encode_iff (by decide)).mpr mem)

/-- An entry is taken from the start of bytes. -/
theorem takeEntry_append (item : Item) (rest : List UInt8) :
    takeEntry (item.bytes ++ rest) = .ok (item.pair, rest) := by
  have spaceless : (0x20 : UInt8) ∉ Utf8.ofString item.spelling := by
    have all : ∀ known ∈ EntryMode.spellings, (0x20 : UInt8) ∉ Utf8.ofString known.1 := by decide
    exact all _ item.mode
  have nameless : (0 : UInt8) ∉ Utf8.ofString item.name :=
    not_mem_ofString (by decide) item.named
  have cutMode (after : List UInt8) : splitAtByte 0x20 (Utf8.ofString item.spelling ++
      0x20 :: after) = (Utf8.ofString item.spelling, true, after) := splitAtByte_append spaceless
  have cutName (after : List UInt8) : splitAtByte 0 (Utf8.ofString item.name ++ 0 :: after) =
      (Utf8.ofString item.name, true, after) := splitAtByte_append nameless
  have whole : item.bytes ++ rest = Utf8.ofString item.spelling ++ 0x20 ::
      (Utf8.ofString item.name ++ 0 :: (item.entry.id.bytes ++ rest)) := by simp [Item.bytes]
  rw [takeEntry, whole, cutMode]
  refine bind_eq_ok.mpr ⟨item.spelling, textOfBytes_eq_ok_iff.mpr rfl, ?_⟩
  refine bind_eq_ok.mpr ⟨item.entry.mode, EntryMode.parse_eq_ok_iff.mpr item.mode, ?_⟩
  rw [cutName]
  refine bind_eq_ok.mpr ⟨item.name, textOfBytes_eq_ok_iff.mpr rfl, ?_⟩
  exact bind_eq_ok.mpr ⟨_, mapError_eq_ok.mpr (takeId_eq_ok_iff.mpr rfl), rfl⟩

theorem takeEntry_eq_ok_iff {pair : String × TreeEntry} :
    takeEntry bytes = .ok (pair, rest) ↔
      ∃ item : Item, item.pair = pair ∧ bytes = item.bytes ++ rest := by
  refine ⟨exists_item_of_takeEntry, ?_⟩
  rintro ⟨item, rfl, rfl⟩
  exact takeEntry_append item rest

theorem nil_eq_flatMap_bytes_iff {items : List Item} :
    [] = items.flatMap Item.bytes ↔ items = [] := by
  cases items with
  | nil => simp
  | cons item items => simp [Item.bytes_ne_nil]

/-- A row of entries is read one after another. -/
theorem parseEntries_eq_ok_iff {count : Nat} (enough : bytes.length ≤ count) {result : Tree} :
    parseEntries count tree bytes = .ok result ↔
      ∃ items : List Item, bytes = items.flatMap Item.bytes ∧
        result = items.foldl (fun tree item => tree.insert item.name item.entry) tree := by
  induction count generalizing tree bytes with
  | zero =>
    obtain rfl : bytes = [] := List.eq_nil_of_length_eq_zero (Nat.le_zero.mp enough)
    rw [parseEntries, Except.ok.injEq]
    simp only [nil_eq_flatMap_bytes_iff, exists_eq_left, List.foldl_nil]
    exact eq_comm
  | succ count ih =>
    cases bytes with
    | nil =>
      rw [parseEntries, Except.ok.injEq]
      simp only [nil_eq_flatMap_bytes_iff, exists_eq_left, List.foldl_nil]
      exact eq_comm
    | cons b bytes =>
      have shorter {item : Item} {rest : List UInt8} (cut : b :: bytes = item.bytes ++ rest) :
          rest.length ≤ count := by
        have := congrArg List.length cut
        have := List.length_pos_of_ne_nil item.bytes_ne_nil
        simp only [List.length_cons, List.length_append] at *
        omega
      rw [parseEntries.eq_3 _ _ _ (by simp), bind_eq_ok]
      constructor
      · rintro ⟨⟨pair, rest⟩, taken, read⟩
        obtain ⟨item, rfl, cut⟩ := takeEntry_eq_ok_iff.mp taken
        obtain ⟨items, rfl, rfl⟩ := (ih (shorter cut)).mp read
        exact ⟨item :: items, by rw [cut, List.flatMap_cons], rfl⟩
      · rintro ⟨items, row, rfl⟩
        cases items with
        | nil => cases row
        | cons item items =>
          rw [List.flatMap_cons] at row
          exact ⟨(item.pair, items.flatMap Item.bytes), takeEntry_eq_ok_iff.mpr ⟨item, rfl, row⟩,
            (ih (shorter row)).mpr ⟨items, rfl, rfl⟩⟩

/-- The entry that counts of those of one name: the last one. -/
def lastEntry (items : List Item) (name : String) : Option TreeEntry :=
  (items.reverse.map Item.pair).lookup name

theorem get?_foldl_insert (tree : Tree) (items : List Item) (name : String) :
    (items.foldl (fun tree item => tree.insert item.name item.entry) tree).get? name =
      (lastEntry items name).or (tree.get? name) := by
  induction items generalizing tree with
  | nil => rfl
  | cons item items ih =>
    have last : lastEntry (item :: items) name =
        (lastEntry items name).or (if name = item.name then some item.entry else none) := by
      rw [lastEntry, List.reverse_cons, List.map_append, List.lookup_append, lastEntry]
      congr 1
      exact lookup_cons_ite name item.name item.entry []
    rw [List.foldl_cons, ih, get?_insert, last, Option.or_assoc]
    split <;> simp

theorem Ascending.foldl_insert (ascending : tree.Ascending) (items : List Item) :
    (items.foldl (fun tree item => tree.insert item.name item.entry) tree).Ascending := by
  induction items generalizing tree with
  | nil => exact ascending
  | cons item items ih => exact ih ascending.insert

/-- A row of entries is read as the tree in which every name has its last entry. -/
theorem parse_flatMap_eq_ok_iff {items : List Item} :
    parse (items.flatMap Item.bytes) = .ok tree ↔
      tree.Ascending ∧ ∀ name, tree.get? name = lastEntry items name := by
  have read : parse (items.flatMap Item.bytes) =
      .ok (items.foldl (fun tree item => tree.insert item.name item.entry) empty) :=
    (parseEntries_eq_ok_iff (Nat.le_refl _)).mpr ⟨items, rfl, rfl⟩
  have ascending := ascending_empty.foldl_insert items
  have get? := get?_foldl_insert empty items
  have none : ∀ name, empty.get? name = none := fun _ => rfl
  simp only [none, Option.or_none] at get?
  rw [read, Except.ok.injEq]
  constructor
  · rintro rfl
    exact ⟨ascending, get?⟩
  · rintro ⟨own, same⟩
    exact ascending.ext own fun name => by rw [same, get?]

/-- The bodies that are read. -/
theorem exists_parse_iff {body : List UInt8} : (∃ tree, parse body = .ok tree) ↔
    ∃ items : List Item, body = items.flatMap Item.bytes := by
  simp only [parse, parseEntries_eq_ok_iff (Nat.le_refl _)]
  constructor
  · rintro ⟨tree, items, row, -⟩
    exact ⟨items, row⟩
  · rintro ⟨items, row⟩
    exact ⟨_, items, row, rfl⟩

/-! ## The body of a tree -/

theorem entryBytes_eq {pair : String × TreeEntry} (h : '\x00' ∉ pair.1.toList) :
    entryBytes pair = Item.bytes ⟨pair.2.mode.octal, pair.1, pair.2, pair.2.mode.octal_mem, h⟩ := by
  simp only [entryBytes, Item.bytes, Utf8.ofString_append, List.append_assoc]
  rfl

theorem exists_items {pairs : List (String × TreeEntry)}
    (named : ∀ pair ∈ pairs, '\x00' ∉ pair.1.toList) :
    ∃ items : List Item, items.map Item.pair = pairs ∧
      items.flatMap Item.bytes = pairs.flatMap entryBytes := by
  induction pairs with
  | nil => exact ⟨[], rfl, rfl⟩
  | cons pair pairs ih =>
    obtain ⟨items, rfl, row⟩ := ih fun other mem => named other (List.mem_cons_of_mem _ mem)
    have own := named pair List.mem_cons_self
    refine ⟨⟨pair.2.mode.octal, pair.1, pair.2, pair.2.mode.octal_mem, own⟩ :: items, rfl, ?_⟩
    rw [List.flatMap_cons, List.flatMap_cons, row, entryBytes_eq own]

theorem perm_bodyOrder (tree : Tree) : tree.bodyOrder.Perm tree.entries := List.mergeSort_perm _ _

theorem pairwise_bodyOrder (tree : Tree) :
    tree.bodyOrder.Pairwise fun a b => (compare (sortKey a) (sortKey b)).isLE := by
  refine List.pairwise_mergeSort (fun a b c => ?_) (fun a b => ?_) tree.entries
  · exact Std.TransCmp.isLE_trans
  · cases h : compare (sortKey a) (sortKey b) with
    | gt => simp [Std.OrientedCmp.lt_of_gt h]
    | _ => rfl

theorem Ascending.parse_content (ascending : tree.Ascending)
    (named : ∀ name ∈ tree.names, '\x00' ∉ name.toList) : parse tree.content = .ok tree := by
  obtain ⟨items, pairs, row⟩ := exists_items fun pair mem =>
    named pair.1 (List.mem_map_of_mem (tree.perm_bodyOrder.mem_iff.mp mem))
  rw [content, ← row, parse_flatMap_eq_ok_iff]
  refine ⟨ascending, fun name => ?_⟩
  have perm : (items.reverse.map Item.pair).Perm tree.entries := by
    rw [List.map_reverse, pairs]
    exact (List.reverse_perm _).trans tree.perm_bodyOrder
  have distinct : ((items.reverse.map Item.pair).map (·.1)).Nodup :=
    (perm.map _).nodup_iff.mpr (Entries.Ascending.distinct ascending)
  refine Option.ext fun entry => ?_
  rw [← ascending.mem_iff, lastEntry, Entries.lookup_eq_some_iff distinct, perm.mem_iff]

/-! ## Reading and writing -/

/-- A body is read exactly when it is a row of entries, and then every name has its last entry.  The
body of a tree without null characters in its names has the entries of the tree, each once, in the
order of their names with a slash after those of directories, and is read as that tree. -/
theorem parse_codec :
    (∀ body, (∃ tree, parse body = .ok tree) ↔
      ∃ items : List Item, body = items.flatMap Item.bytes) ∧
    (∀ (items : List Item) (tree : Tree), parse (items.flatMap Item.bytes) = .ok tree →
      tree.Ascending ∧ ∀ name, tree.get? name = lastEntry items name) ∧
    ∀ tree : Tree, tree.Ascending → (∀ name ∈ tree.names, '\x00' ∉ name.toList) →
      tree.bodyOrder.Perm tree.entries ∧
      (tree.bodyOrder.Pairwise fun a b => (compare (sortKey a) (sortKey b)).isLE) ∧
      tree.content = tree.bodyOrder.flatMap entryBytes ∧
      parse tree.content = .ok tree :=
  ⟨fun _ => exists_parse_iff, fun _ _ => parse_flatMap_eq_ok_iff.mp, fun tree ascending named =>
    ⟨tree.perm_bodyOrder, tree.pairwise_bodyOrder, rfl, ascending.parse_content named⟩⟩

/-- A directory and a file whose places in the body are not those of their names. -/
def mixed : Tree := ⟨[("a", ⟨.directory, .zero⟩), ("a.b", ⟨.regular, .zero⟩)]⟩

def twice : List Item :=
  [⟨"100664", "a b", ⟨.regular, .zero⟩, by decide, by decide⟩,
    ⟨"100755", "a b", ⟨.executable, .zero⟩, by decide, by decide⟩]

theorem parse_codec_mixed :
    (mixed.Ascending ∧ ∀ name ∈ mixed.names, '\x00' ∉ name.toList) ∧
      parse mixed.content = .ok mixed ∧
      ∃ tree, parse (twice.flatMap Item.bytes) = .ok tree ∧
        tree.get? "a b" = some ⟨.executable, .zero⟩ := by
  have ascending : mixed.Ascending := by
    unfold Ascending
    decide
  have named : ∀ name ∈ mixed.names, '\x00' ∉ name.toList := by decide
  obtain ⟨tree, read⟩ := (parse_codec.1 _).mpr ⟨twice, rfl⟩
  exact ⟨⟨ascending, named⟩, (parse_codec.2.2 mixed ascending named).2.2.2, tree, read,
    (parse_codec.2.1 twice tree read).2 "a b"⟩

end Tree

end CommitLog
