import AhaTree.LeafMerge
import AhaTree.Lib.Ascending
import AhaTree.PageIterator

/-!
# Pages of the B-tree

The pages that `btree.cc` works on, and the functions of `tree_page.cc` it
calls.  Here the last pivot of an index page is its high key: a pivot is not
below any key of its child, so a search takes the first pivot that the key does
not exceed.

Every entry of a page has a slot, so the free space is what the entries leave.
What `std::abort` ends is an error.
-/

namespace AhaTree.Btree

/-! ## Pages -/

/-- The entries of a page, as `is_leaf_` says how to read them. -/
inductive Items where
  | leaf (items : LeafItems)
  | index (items : IndexItems)
  deriving DecidableEq, Repr

structure Page where
  items : Items
  left : PageId
  right : PageId
  deriving DecidableEq, Repr

def pageInit : Page where
  items := .index []
  left := 0
  right := 0

/-- Why a call does not return. -/
inductive Failure where
  | noSpace
  | lostChild
  | wrongPage
  | emptyStack
  | zeroBytes
  | loops
  deriving DecidableEq, Repr

def leafSpace (key value : Slice) : Nat :=
  key.length + value.length + 3 * itemIdSize

def indexSpace (key : Slice) : Nat :=
  key.length + 3 * itemIdSize

def usableSpace : Nat := pageSize - pgHdSize

/-- `PageGetFreeSpace`, with the space that the entries take. -/
def freeSpace (used : Nat) : Nat :=
  if usableSpace - used < itemIdSize then 0 else usableSpace - used

def leafFree (items : LeafItems) : Nat :=
  freeSpace (items.map (fun item => leafSpace item.1 item.2)).sum

def indexFree (items : IndexItems) : Nat :=
  freeSpace (items.map (fun item => indexSpace item.1)).sum

def Page.getFreeSpace (page : Page) : Nat :=
  match page.items with
  | .leaf items => leafFree items
  | .index items => indexFree items

/-! ## Searches -/

/-- `_page_bin_search_insert`. -/
def pageBinSearchInsert (keys : List Slice) (key : Slice) : Nat :=
  if keys.length = 0 then 0
  else
    match Lib.bisect
        (fun mid => Slice.compare key (pageReadPivotAtOffset keys mid))
        keys.length 0 (keys.length - 1) with
    | .hit mid => mid
    | .gap low =>
        if (Slice.compare key (pageReadPivotAtOffset keys low)).isGT then low + 1
        else low

/-- `_page_bin_search_highkey`. -/
def pageBinSearchHighkey (keys : List Slice) (key : Slice) : Nat :=
  if keys.length = 0 then 0
  else
    match Lib.bisect
        (fun mid => Slice.compare key (pageReadPivotAtOffset keys mid))
        keys.length 0 (keys.length - 1) with
    | .hit mid => mid
    | .gap low => low

/-- `PageFindOffset` on a leaf page. -/
def leafFindOffset (items : LeafItems) (key : Slice) : Option Nat :=
  let offset := pageBinSearch (leafKeys items) key
  if (Slice.compare key (pageReadPivotAtOffset (leafKeys items) offset)).isEq then some offset
  else none

/-- `GetValueAtOffset` copies the value to the arena, which asserts that it is not
asked for zero bytes. -/
def getValueAtOffset (items : LeafItems) (offset : Nat) : Except Failure Slice :=
  let value := pageReadValueAtOffset items offset
  if 0 < value.length then .ok value else .error .zeroBytes

def getValueWithKey (items : LeafItems) (key : Slice) : Except Failure Slice :=
  match leafFindOffset items key with
  | some offset => getValueAtOffset items offset
  | none => .ok []

def pageHighkey (keys : List Slice) : Slice :=
  pageReadPivotAtOffset keys (keys.length - 1)

def pageReadChildAtOffset (items : IndexItems) (offset : Nat) : PageId :=
  (items.map Prod.snd)[offset]?.getD 0

/-! ## Changes -/

/-- A value only replaces one of its size. -/
def pageUpdatePivotAt (items : LeafItems) (offset : Nat) (value : Slice) : LeafItems :=
  items.modify offset
    (fun item => if value.length = item.2.length then (item.1, value) else item)

/-- Past the last entry `PageReadPivotAtOffset` returns an empty slice, so that an
empty key passes for one that the page has. -/
def pageInsertLeafEntry (items : LeafItems) (key value : Slice) :
    Except Failure LeafItems :=
  if leafFree items ≤ leafSpace key value then .error .noSpace
  else
    let offset := pageBinSearchInsert (leafKeys items) key
    if (Slice.compare key (pageReadPivotAtOffset (leafKeys items) offset)).isEq then
      .ok (pageUpdatePivotAt items offset value)
    else .ok (items.insertIdx offset (key, value))

def pageInsertIndexEntry (items : IndexItems) (key : Slice) (child : PageId) :
    Except Failure IndexItems :=
  if indexFree items ≤ indexSpace key then .error .noSpace
  else .ok (items.insertIdx (pageBinSearchInsert (pivots items) key) (key, child))

/-- The entries at the offsets from `start` on and before `stop`, one by one. -/
def pageMoveLeafEntries (source dest : LeafItems) (start stop : Nat) :
    Except Failure LeafItems :=
  ((source.take stop).drop start).foldlM
    (fun dest item => pageInsertLeafEntry dest item.1 item.2) dest

def pageInsertIndexEntries (dest : IndexItems) (fresh : IndexItems) :
    Except Failure IndexItems :=
  fresh.foldlM (fun dest item => pageInsertIndexEntry dest item.1 item.2) dest

def pageMoveIndexEntries (source dest : IndexItems) (start stop : Nat) :
    Except Failure IndexItems :=
  pageInsertIndexEntries dest ((source.take stop).drop start)

def pageRemoveEntry (items : LeafItems) (key : Slice) : Option LeafItems :=
  let offset := pageBinSearch (leafKeys items) key
  if (Slice.compare key (pageReadPivotAtOffset (leafKeys items) offset)).isEq then
    some (items.eraseIdx offset)
  else none

/-- `PageUpdateHighkey`: the new key only replaces one of its size. -/
def pageUpdateHighkey (items : IndexItems) (key : Slice) : IndexItems :=
  items.modify (items.length - 1)
    (fun item => if key.length = item.1.length then (key, item.2) else item)

/-! ## What the searches find -/

theorem nil_lt_of_ne_nil {key : Slice} (nonempty : key ≠ []) : ([] : Slice) < key := by
  obtain ⟨byte, rest, rfl⟩ := List.exists_cons_of_ne_nil nonempty
  exact List.nil_lt_cons byte rest

theorem nil_le (key : Slice) : ([] : Slice) ≤ key :=
  not_lt.mp (List.not_lt_nil key)

section Searches

variable {β : Type} {items : List (Slice × β)}

theorem readPivot_eq {offset : Nat} (inside : offset < items.length) :
    pageReadPivotAtOffset (items.map Prod.fst) offset = (items[offset]).1 := by
  simp [pageReadPivotAtOffset, inside]

theorem pageBinSearchInsert_parts {key : Slice} (ascending : Lib.AscendingOnce key items) :
    Lib.Parts items key (pageBinSearchInsert (items.map Prod.fst) key) := by
  rw [pageBinSearchInsert]
  split
  · rename_i empty
    exact ascending.parts (Nat.zero_le _) (fun small => absurd small (lt_irrefl 0))
      (fun large => by simp at empty; simp [empty] at large)
  · rename_i nonempty
    rw [List.length_map] at nonempty ⊢
    have searched := @Lib.bisect_spec
      (fun mid => Slice.compare key (pageReadPivotAtOffset (items.map Prod.fst) mid))
      items.length 0 (items.length - 1) (by omega) (by omega)
    generalize Lib.bisect
      (fun mid => Slice.compare key (pageReadPivotAtOffset (items.map Prod.fst) mid))
      items.length 0 (items.length - 1) = outcome at searched ⊢
    have ordered := List.pairwise_iff_getElem.mp ascending
    cases outcome with
    | hit mid =>
        obtain ⟨-, upper, equal⟩ := searched
        have found : mid < items.length := by omega
        simp only [readPivot_eq found, Slice.compare_eq_eq] at equal
        simp only
        refine ascending.parts found.le ?_ ?_
        · intro small
          exact (ordered (mid - 1) mid (by omega) (by omega) (by omega)).2 equal.symm
        · intro large
          exact equal.le
    | gap low =>
        obtain ⟨-, upper, before, behind⟩ := searched
        have found : low < items.length := by omega
        simp only [Slice.compare_eq_gt, Slice.compare_eq_lt] at before behind
        rw [readPivot_eq found] at behind
        simp only [Ordering.isGT_iff_eq_gt, Slice.compare_eq_gt, readPivot_eq found]
        by_cases more : (items[low]).1 < key
        · rw [if_pos more]
          rcases behind with last | less
          · refine ascending.parts (by omega) (fun _ => by simpa using more) ?_
            intro large
            omega
          · exact absurd less (not_lt.mpr more.le)
        · rw [if_neg more]
          refine ascending.parts (by omega) ?_ (fun _ => not_lt.mp more)
          intro small
          have less := before.resolve_left (by omega)
          rwa [readPivot_eq (by omega)] at less

/-- Both searches differ behind the last entry only. -/
theorem pageBinSearchHighkey_eq (keys : List Slice) (key : Slice) :
    pageBinSearchHighkey keys key = min (pageBinSearchInsert keys key) (keys.length - 1) := by
  rw [pageBinSearchHighkey, pageBinSearchInsert]
  split
  · rfl
  · have searched := @Lib.bisect_spec
      (fun mid => Slice.compare key (pageReadPivotAtOffset keys mid))
      keys.length 0 (keys.length - 1) (by omega) (by omega)
    generalize Lib.bisect
      (fun mid => Slice.compare key (pageReadPivotAtOffset keys mid))
      keys.length 0 (keys.length - 1) = outcome at searched ⊢
    cases outcome with
    | hit mid =>
        obtain ⟨-, upper, -⟩ := searched
        exact (Nat.min_eq_left upper.le).symm
    | gap low =>
        obtain ⟨-, upper, -, behind⟩ := searched
        simp only [Ordering.isGT_iff_eq_gt]
        split
        · rename_i more
          rcases behind with last | less
          · omega
          · simp [less] at more
        · omega

/-- The first pivot that the key does not exceed, or else the last one. -/
theorem pageBinSearchHighkey_spec {key : Slice} (ascending : Lib.AscendingOnce key items)
    (nonempty : items ≠ []) :
    ∃ before item after, items = before ++ item :: after ∧
      pageBinSearchHighkey (items.map Prod.fst) key = before.length ∧
      (∀ other ∈ before, other.1 < key) ∧ (after = [] ∨ key ≤ item.1) := by
  obtain ⟨inside, below, behind⟩ := pageBinSearchInsert_parts ascending
  rw [pageBinSearchHighkey_eq, List.length_map]
  generalize pageBinSearchInsert (items.map Prod.fst) key = offset at *
  have positive := List.length_pos_iff.mpr nonempty
  have taken : min offset (items.length - 1) < items.length := by omega
  refine ⟨items.take (min offset (items.length - 1)), items[min offset (items.length - 1)],
    items.drop (min offset (items.length - 1) + 1), ?_, ?_, ?_, ?_⟩
  · rw [List.cons_getElem_drop_succ, List.take_append_drop]
  · rw [List.length_take]
    omega
  · intro other member
    exact below other (List.take_subset_take_left items (Nat.min_le_left ..) member)
  · rcases Nat.lt_or_ge offset items.length with present | past
    · right
      have same : min offset (items.length - 1) = offset := by omega
      simp only [same]
      apply behind
      rw [List.drop_eq_getElem_cons present]
      exact List.mem_cons_self
    · left
      apply List.drop_of_length_le
      omega

end Searches

/-! ## What the changes leave -/

/-- The outcome is the value, unless a page has run out of space. -/
def OrNoSpace {α : Type} (outcome : Except Failure α) (value : α) : Prop :=
  outcome = .error .noSpace ∨ outcome = .ok value

theorem OrNoSpace.bind {α β : Type} {outcome : Except Failure α} {value : α}
    {rest : α → Except Failure β} {last : β} (first : OrNoSpace outcome value)
    (second : OrNoSpace (rest value) last) : OrNoSpace (outcome >>= rest) last := by
  rcases first with noSpace | returned
  · rw [noSpace]
    exact .inl rfl
  · rw [returned]
    exact second

theorem leafKeys_eq (items : LeafItems) : leafKeys items = items.map Prod.fst := rfl

theorem pivots_eq (items : IndexItems) : pivots items = items.map Prod.fst := rfl

theorem pageInsertLeafEntry_eq {items : LeafItems} (ascending : Lib.Ascending items)
    {key value : Slice} (nonempty : key ≠ [])
    (sized : ∀ item ∈ items, item.2.length = value.length) :
    OrNoSpace (pageInsertLeafEntry items key value) (Lib.place key value items) := by
  obtain ⟨inside, below, behind⟩ := pageBinSearchInsert_parts (ascending.once key)
  rw [pageInsertLeafEntry, leafKeys_eq]
  split
  · exact .inl rfl
  · refine .inr ?_
    simp only [Ordering.isEq_iff_eq_eq, Slice.compare_eq_eq]
    generalize pageBinSearchInsert (items.map Prod.fst) key = offset at *
    have parted := List.take_append_drop offset items
    rcases Nat.lt_or_ge offset items.length with present | past
    · rw [readPivot_eq present]
      rw [List.drop_eq_getElem_cons present] at parted behind
      have placed := ascending
      rw [← parted] at placed
      by_cases same : key = (items[offset]).1
      · rw [if_pos same, pageUpdatePivotAt, List.modify_eq_take_cons_drop present,
          if_pos (sized _ (List.getElem_mem present)).symm]
        have found : items[offset] = (key, (items[offset]).2) := by rw [same]
        rw [found] at parted placed
        rw [← same, ← Lib.place_same placed, parted]
      · rw [if_neg same]
        have more : ∀ item ∈ items[offset] :: items.drop (offset + 1), key < item.1 := by
          obtain ⟨-, later, -⟩ := Lib.ascending_append.mp placed
          have first : key < (items[offset]).1 :=
            lt_of_le_of_ne (behind _ List.mem_cons_self) same
          intro item member
          rcases List.mem_cons.mp member with rfl | member
          · exact first
          · exact first.trans ((List.pairwise_cons.mp later).1 item member)
        have inserted := Lib.insertIdx_append (items.take offset)
          (items[offset] :: items.drop (offset + 1)) (key, value)
        rw [parted, List.length_take_of_le present.le] at inserted
        rw [inserted, ← Lib.place_between below more, parted]
    · have last : offset = items.length := by omega
      subst last
      rw [List.take_length] at below
      have absent : pageReadPivotAtOffset (items.map Prod.fst) items.length = [] := by
        simp [pageReadPivotAtOffset]
      rw [absent, if_neg nonempty, Lib.place_last below]
      have inserted := Lib.insertIdx_append items [] (key, value)
      rw [List.append_nil] at inserted
      rw [inserted]

/-- An entry that belongs between two others is put between them. -/
theorem pageInsertIndexEntry_eq {before after : IndexItems} {key : Slice}
    (ascending : Lib.AscendingOnce key (before ++ after))
    (below : ∀ item ∈ before, item.1 < key) (behind : ∀ item ∈ after, key < item.1)
    (child : PageId) :
    OrNoSpace (pageInsertIndexEntry (before ++ after) key child)
      (before ++ (key, child) :: after) := by
  have parts := pageBinSearchInsert_parts ascending
  rw [pageInsertIndexEntry, pivots_eq, parts.offset_eq below behind, Lib.insertIdx_append]
  split
  · exact .inl rfl
  · exact .inr rfl

/-- Entries that are moved one by one stand behind those that are there. -/
theorem foldlM_leaf_eq {moved dest : LeafItems} (ascending : Lib.Ascending (dest ++ moved))
    {width : Nat} (sized : ∀ item ∈ dest ++ moved, item.2.length = width)
    (nonempty : ∀ item ∈ moved, item.1 ≠ []) :
    OrNoSpace (moved.foldlM (fun dest item => pageInsertLeafEntry dest item.1 item.2) dest)
      (dest ++ moved) := by
  induction moved generalizing dest with
  | nil => exact .inr (by rw [List.append_nil]; rfl)
  | cons item moved ih =>
      obtain ⟨isAscending, -, less⟩ := Lib.ascending_append.mp ascending
      have below := fun other member => less other member item List.mem_cons_self
      have same : ∀ other ∈ dest, other.2.length = item.2.length := by
        intro other member
        rw [sized other (List.mem_append_left _ member),
          sized item (List.mem_append_right _ List.mem_cons_self)]
      have inserted := pageInsertLeafEntry_eq isAscending
        (nonempty item List.mem_cons_self) same
      rw [Lib.place_last below] at inserted
      rw [List.append_cons] at ascending sized
      rw [List.foldlM_cons, List.append_cons dest item moved]
      exact inserted.bind (ih ascending sized
        (fun other member => nonempty other (List.mem_cons_of_mem _ member)))

theorem pageMoveLeafEntries_eq {items : LeafItems} (ascending : Lib.Ascending items)
    {width : Nat} (sized : ∀ item ∈ items, item.2.length = width)
    (nonempty : ∀ item ∈ items, item.1 ≠ []) (start stop : Nat) :
    OrNoSpace (pageMoveLeafEntries items [] start stop) ((items.take stop).drop start) := by
  have part : ((items.take stop).drop start).Sublist items :=
    (List.drop_sublist ..).trans (List.take_sublist ..)
  have moved := @foldlM_leaf_eq ((items.take stop).drop start) [] (ascending.sublist part) width
    (fun item member => sized item (part.subset member))
    (fun item member => nonempty item (part.subset member))
  exact moved

/-- The outcome has the property, unless a page has run out of space. -/
def UnlessFull {α : Type} (outcome : Except Failure α) (holds : α → Prop) : Prop :=
  outcome = .error .noSpace ∨ ∃ value, outcome = .ok value ∧ holds value

theorem UnlessFull.bind {α β : Type} {outcome : Except Failure α} {holds : α → Prop}
    {rest : α → Except Failure β} {last : β → Prop} (first : UnlessFull outcome holds)
    (second : ∀ value, holds value → UnlessFull (rest value) last) :
    UnlessFull (outcome >>= rest) last := by
  rcases first with noSpace | ⟨value, returned, held⟩
  · rw [noSpace]
    exact .inl rfl
  · rw [returned]
    exact second value held

section Spent

variable {spent more live fresh before after items : IndexItems} {key : Slice} {child : PageId}

/-- The entries are the live ones, behind some of the spent ones.  A spent entry has
an empty pivot: it leads to a page that a split has left without children. -/
def Follows (spent live items : IndexItems) : Prop :=
  ∃ front, front ⊆ spent ∧ items = front ++ live

theorem Follows.mono {larger : IndexItems} (follows : Follows spent live items)
    (subset : spent ⊆ larger) : Follows larger live items := by
  obtain ⟨front, within, rfl⟩ := follows
  exact ⟨front, List.Subset.trans within subset, rfl⟩

theorem ascendingOnce_of_spent {front : IndexItems} (nonempty : key ≠ [])
    (empty : ∀ item ∈ front, item.1 = []) (ascending : Lib.Ascending live) :
    Lib.AscendingOnce key (front ++ live) := by
  refine List.pairwise_append.mpr ⟨?_, ascending.once key, ?_⟩
  · refine List.pairwise_of_forall_mem_list ?_
    intro left inLeft right inRight
    rw [empty left inLeft, empty right inRight]
    exact ⟨le_rfl, fun isKey => absurd isKey.symm nonempty⟩
  · intro left inFront right inLive
    rw [empty left inFront]
    exact ⟨nil_le _, fun _ => nil_lt_of_ne_nil nonempty⟩

/-- The empty key finds an entry with an empty pivot, or the first one. -/
theorem pageBinSearchInsert_nil {front : IndexItems} (keyed : ∀ item ∈ live, item.1 ≠ []) :
    pageBinSearchInsert ((front ++ live).map Prod.fst) [] ≤ front.length := by
  rw [pageBinSearchInsert]
  split
  · exact Nat.zero_le _
  · rename_i nonempty
    rw [List.length_map] at nonempty ⊢
    have searched := @Lib.bisect_spec
      (fun mid => Slice.compare [] (pageReadPivotAtOffset ((front ++ live).map Prod.fst) mid))
      (front ++ live).length 0 ((front ++ live).length - 1) (by omega) (by omega)
    generalize Lib.bisect
      (fun mid => Slice.compare [] (pageReadPivotAtOffset ((front ++ live).map Prod.fst) mid))
      (front ++ live).length 0 ((front ++ live).length - 1) = outcome at searched ⊢
    cases outcome with
    | hit mid =>
        obtain ⟨-, upper, equal⟩ := searched
        have found : mid < (front ++ live).length := by omega
        simp only [readPivot_eq found, Slice.compare_eq_eq] at equal
        simp only
        by_contra far
        refine keyed _ ?_ equal.symm
        rw [List.getElem_append_right (by omega)]
        exact List.getElem_mem _
    | gap low =>
        obtain ⟨-, -, before, -⟩ := searched
        simp only [Slice.compare_eq_gt] at before
        have first : low = 0 := before.resolve_right (fun less => absurd less (List.not_lt_nil _))
        simp only [Ordering.isGT_iff_eq_gt, Slice.compare_eq_gt, first]
        rw [if_neg (List.not_lt_nil _)]
        exact Nat.zero_le _

theorem pageInsertIndexEntry_spent (keyed : ∀ item ∈ live, item.1 ≠ [])
    (follows : Follows spent live items) (child : PageId) :
    UnlessFull (pageInsertIndexEntry items [] child) (Follows (([], child) :: spent) live) := by
  obtain ⟨front, within, rfl⟩ := follows
  have near := @pageBinSearchInsert_nil live front keyed
  rw [pageInsertIndexEntry, pivots_eq]
  generalize pageBinSearchInsert ((front ++ live).map Prod.fst) [] = offset at near ⊢
  split
  · exact .inl rfl
  · refine .inr ⟨_, rfl, front.take offset ++ ([], child) :: front.drop offset, ?_, ?_⟩
    · intro item member
      rcases List.mem_append.mp member with inTake | later
      · exact List.mem_cons_of_mem _ (within (List.mem_of_mem_take inTake))
      · rcases List.mem_cons.mp later with rfl | inDrop
        · exact List.mem_cons_self
        · exact List.mem_cons_of_mem _ (within (List.mem_of_mem_drop inDrop))
    · have inserted := Lib.insertIdx_append (front.take offset) (front.drop offset ++ live)
        ([], child)
      rw [List.length_take_of_le near, ← List.append_assoc, List.take_append_drop] at inserted
      rw [inserted, List.append_assoc, List.cons_append]

theorem pageInsertIndexEntries_spent (empty : ∀ item ∈ more, item.1 = [])
    (keyed : ∀ item ∈ live, item.1 ≠ []) (follows : Follows spent live items) :
    UnlessFull (pageInsertIndexEntries items more) (Follows (spent ++ more) live) := by
  induction more generalizing spent items with
  | nil =>
      rw [List.append_nil]
      exact .inr ⟨items, rfl, follows⟩
  | cons item more ih =>
      obtain ⟨pivot, child⟩ := item
      have isEmpty : pivot = [] := empty _ List.mem_cons_self
      subst isEmpty
      rw [pageInsertIndexEntries, List.foldlM_cons]
      refine (pageInsertIndexEntry_spent keyed follows child).bind ?_
      intro grown larger
      have rest := ih (fun other member => empty other (List.mem_cons_of_mem _ member)) larger
      refine rest.imp_right ?_
      rintro ⟨value, isValue, held⟩
      refine ⟨value, isValue, held.mono ?_⟩
      intro other member
      simp only [List.mem_append, List.mem_cons] at member ⊢
      tauto

/-- Entries that belong between two others, one by one. -/
theorem pageInsertIndexEntries_between (empty : ∀ item ∈ spent, item.1 = [])
    (keyed : ∀ item ∈ fresh, item.1 ≠ [])
    (ascending : Lib.Ascending (before ++ (fresh ++ after)))
    (follows : Follows spent (before ++ after) items) :
    UnlessFull (pageInsertIndexEntries items fresh)
      (Follows spent (before ++ (fresh ++ after))) := by
  induction fresh generalizing before items with
  | nil => exact .inr ⟨items, rfl, follows⟩
  | cons item fresh ih =>
      obtain ⟨front, within, rfl⟩ := follows
      have nonempty := keyed item List.mem_cons_self
      obtain ⟨-, later, less⟩ := Lib.ascending_append.mp ascending
      obtain ⟨more, -⟩ := List.pairwise_cons.mp later
      have emptyFront : ∀ other ∈ front, other.1 = [] :=
        fun other member => empty other (within member)
      have plain : Lib.Ascending (before ++ after) := ascending.sublist
        ((List.Sublist.refl before).append ((List.sublist_append_right ..).cons _))
      have once := ascendingOnce_of_spent nonempty emptyFront plain
      rw [← List.append_assoc] at once ⊢
      have inserted := pageInsertIndexEntry_eq once
        (fun other member => by
          rcases List.mem_append.mp member with inFront | inBefore
          · rw [emptyFront other inFront]
            exact nil_lt_of_ne_nil nonempty
          · exact less other inBefore item List.mem_cons_self)
        (fun other member => more other (List.mem_append_right _ member)) item.2
      rw [pageInsertIndexEntries, List.foldlM_cons]
      rcases inserted with noSpace | inserted
      · rw [noSpace]
        exact .inl rfl
      · rw [inserted]
        rw [List.cons_append, List.append_cons before item] at ascending ⊢
        refine ih (fun other member => keyed other (List.mem_cons_of_mem _ member)) ascending ?_
        exact ⟨front, within, by simp⟩

theorem pageInsertIndexEntries_follows (empty : ∀ item ∈ spent, item.1 = [])
    (emptyMore : ∀ item ∈ more, item.1 = [])
    (keyed : ∀ item ∈ before ++ (fresh ++ after), item.1 ≠ [])
    (ascending : Lib.Ascending (before ++ (fresh ++ after)))
    (follows : Follows spent (before ++ after) items) :
    UnlessFull (pageInsertIndexEntries items (more ++ fresh))
      (Follows (spent ++ more) (before ++ (fresh ++ after))) := by
  rw [pageInsertIndexEntries, List.foldlM_append]
  have keyedOld : ∀ item ∈ before ++ after, item.1 ≠ [] := by
    intro item member
    apply keyed
    simp only [List.mem_append] at member ⊢
    tauto
  have keyedFresh : ∀ item ∈ fresh, item.1 ≠ [] := by
    intro item member
    apply keyed
    simp [member]
  refine (pageInsertIndexEntries_spent emptyMore keyedOld follows).bind ?_
  intro grown larger
  refine pageInsertIndexEntries_between ?_ keyedFresh ascending larger
  intro item member
  exact (List.mem_append.mp member).elim (empty item) (emptyMore item)

section Halves

variable {front : IndexItems} (empty : ∀ item ∈ front, item.1 = [])
  (keyed : ∀ item ∈ live, item.1 ≠ []) (ascending : Lib.Ascending live) (middle : Nat)

include empty keyed ascending

/-- Entries that are moved one by one keep their order, but for the spent ones. -/
theorem moved_follows {some part : IndexItems} (fromFront : some ⊆ front)
    (fromLive : part.Sublist live) :
    UnlessFull (pageInsertIndexEntries [] (some ++ part)) (Follows front part) := by
  have partAscending := ascending.sublist fromLive
  have moved := @pageInsertIndexEntries_follows [] some part [] [] []
    (fun _ member => absurd member List.not_mem_nil)
    (fun item member => empty item (fromFront member))
    (by simpa using fun item member => keyed item (fromLive.subset member))
    (by simpa using partAscending) ⟨[], List.nil_subset _, rfl⟩
  refine moved.imp_right ?_
  rintro ⟨value, isValue, follows⟩
  refine ⟨value, isValue, ?_⟩
  simpa using follows.mono fromFront

theorem pageMoveIndexEntries_low :
    UnlessFull (pageMoveIndexEntries (front ++ live) [] 0 middle)
      (Follows front (live.take (middle - front.length))) := by
  rw [pageMoveIndexEntries, List.drop_zero, List.take_append]
  exact moved_follows empty keyed ascending (List.take_subset _ _) (List.take_sublist ..)

theorem pageMoveIndexEntries_high :
    UnlessFull (pageMoveIndexEntries (front ++ live) [] middle (front ++ live).length)
      (Follows front (live.drop (middle - front.length))) := by
  rw [pageMoveIndexEntries, List.take_length, List.drop_append]
  exact moved_follows empty keyed ascending (List.drop_subset _ _) (List.drop_sublist ..)

end Halves

end Spent

/-- `PageGetOffsetByChild` where each child has one entry. -/
theorem pageGetOffsetByChild_eq {before after : IndexItems} {pivot : Slice} {child : PageId}
    (single : ∀ item ∈ before, item.2 ≠ child) :
    pageGetOffsetByChild (before ++ (pivot, child) :: after) child = some before.length := by
  induction before with
  | nil => simp [pageGetOffsetByChild, List.findIdx?_cons]
  | cons item before ih =>
      have later := ih (fun other member => single other (List.mem_cons_of_mem _ member))
      have different := single item List.mem_cons_self
      rw [pageGetOffsetByChild] at later ⊢
      rw [List.cons_append, List.findIdx?_cons, later]
      simp [different]

theorem eraseIdx_append {before after : IndexItems} {item : Slice × PageId} :
    (before ++ item :: after).eraseIdx before.length = before ++ after := by
  simp [List.eraseIdx_append_of_length_le]

/-- `MayUpdateHighkey` raises the last pivot to the key. -/
theorem mayUpdateHighkey_eq {front : IndexItems} {pivot key : Slice} {child : PageId}
    (sized : pivot.length = key.length) :
    (if (Slice.compare (pageHighkey (pivots (front ++ [(pivot, child)]))) key).isLT then
      pageUpdateHighkey (front ++ [(pivot, child)]) key else front ++ [(pivot, child)]) =
    front ++ [(max pivot key, child)] := by
  have last : pageHighkey (pivots (front ++ [(pivot, child)])) = pivot := by
    simp [pageHighkey, pivots, pageReadPivotAtOffset]
  rw [last]
  simp only [Ordering.isLT_iff_eq_lt, Slice.compare_eq_lt]
  by_cases less : pivot < key
  · rw [if_pos less, max_eq_right less.le, pageUpdateHighkey]
    simp [List.modify_eq_take_cons_drop, sized]
  · rw [if_neg less, max_eq_left (not_lt.mp less)]

/-! ## Entries of a leaf -/

/-- `_page_bin_search` finds a key that the leaf has. -/
theorem pageBinSearch_of_mem {before after : LeafItems} {key value : Slice}
    (ascending : Lib.Ascending (before ++ (key, value) :: after)) :
    pageBinSearch (leafKeys (before ++ (key, value) :: after)) key = before.length := by
  have increasing : (leafKeys (before ++ (key, value) :: after)).Pairwise (· < ·) :=
    List.pairwise_map.mpr ascending
  obtain ⟨inside, reached, above⟩ := pageBinSearch_spec increasing (by simp [leafKeys]) key
  generalize pageBinSearch (leafKeys (before ++ (key, value) :: after)) key = offset at *
  have ordered := List.pairwise_iff_getElem.mp increasing
  have length : before.length < (leafKeys (before ++ (key, value) :: after)).length := by
    simp [leafKeys]
  have here : (leafKeys (before ++ (key, value) :: after))[before.length] = key := by
    simp [leafKeys]
  rcases lt_trichotomy offset before.length with less | same | more
  · have later := above before.length length less
    rw [here] at later
    exact absurd later (lt_irrefl key)
  · exact same
  · have later := ordered before.length offset length inside more
    rw [here] at later
    exact absurd later (not_lt.mpr (reached.resolve_left (by omega)))

theorem readPivot_ne_of_absent {items : LeafItems} {key : Slice} (nonempty : key ≠ [])
    (absent : ∀ item ∈ items, item.1 ≠ key) (offset : Nat) :
    key ≠ pageReadPivotAtOffset (leafKeys items) offset := by
  rw [leafKeys_eq]
  rcases Nat.lt_or_ge offset items.length with present | past
  · rw [readPivot_eq present]
    exact (absent _ (List.getElem_mem present)).symm
  · simpa [pageReadPivotAtOffset, past] using nonempty

theorem readPivot_middle {before after : LeafItems} {key value : Slice} :
    pageReadPivotAtOffset (leafKeys (before ++ (key, value) :: after)) before.length = key := by
  simp [pageReadPivotAtOffset, leafKeys]

theorem getValueWithKey_of_mem {items : LeafItems} (ascending : Lib.Ascending items)
    {key value : Slice} (member : (key, value) ∈ items) :
    getValueWithKey items key = if 0 < value.length then .ok value else .error .zeroBytes := by
  obtain ⟨before, after, rfl⟩ := List.append_of_mem member
  rw [getValueWithKey, leafFindOffset, pageBinSearch_of_mem ascending, readPivot_middle]
  simp [getValueAtOffset, pageReadValueAtOffset]

theorem getValueWithKey_of_absent {items : LeafItems} {key : Slice} (nonempty : key ≠ [])
    (absent : ∀ item ∈ items, item.1 ≠ key) : getValueWithKey items key = .ok [] := by
  rw [getValueWithKey, leafFindOffset]
  simp [readPivot_ne_of_absent nonempty absent]

theorem pageRemoveEntry_of_mem {before after : LeafItems} {key value : Slice}
    (ascending : Lib.Ascending (before ++ (key, value) :: after)) :
    pageRemoveEntry (before ++ (key, value) :: after) key = some (before ++ after) := by
  rw [pageRemoveEntry, pageBinSearch_of_mem ascending, readPivot_middle]
  simp [List.eraseIdx_append_of_length_le]

theorem pageRemoveEntry_of_absent {items : LeafItems} {key : Slice} (nonempty : key ≠ [])
    (absent : ∀ item ∈ items, item.1 ≠ key) : pageRemoveEntry items key = none := by
  rw [pageRemoveEntry]
  simp [readPivot_ne_of_absent nonempty absent]

theorem pageHighkey_append {β : Type} (items : List (Slice × β)) (last : Slice × β) :
    pageHighkey ((items ++ [last]).map Prod.fst) = last.1 := by
  simp [pageHighkey, pageReadPivotAtOffset]

/-! ## Space -/

theorem sum_map_const {β : Type} {items : List β} {size : β → Nat} {width : Nat}
    (sized : ∀ item ∈ items, size item = width) :
    (items.map size).sum = items.length * width := by
  induction items with
  | nil => simp
  | cons item items ih =>
      rw [List.map_cons, List.sum_cons, sized item List.mem_cons_self,
        ih (fun other member => sized other (List.mem_cons_of_mem _ member)), List.length_cons,
        Nat.succ_mul, Nat.add_comm]

theorem le_freeSpace_or (used : Nat) : freeSpace used = usableSpace - used ∨
    (freeSpace used = 0 ∧ usableSpace - used < itemIdSize) := by
  rw [freeSpace]
  split
  · rename_i small
    exact .inr ⟨rfl, small⟩
  · exact .inl rfl

end AhaTree.Btree
