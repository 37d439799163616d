import AhaTree.OlcSplit
import AhaTree.Lib.Matches

/-!
# The bytes under the pages with version locks

The concurrent tree works on pages given by their entries and their free space.
Here such a page is what the bytes of a page read as, and the functions of
`node_page.h` are compared on both sides: a call that returns on the entries returns
on the bytes, with bytes that read as its result, and a call without space aborts on
both sides.  Nothing is said where the source goes on with bytes that no entry owns.
-/

namespace AhaTree.Slotted

open Lib (Matches Memory)
open Olc (Content Failure)
open Btree (leafSpace indexSpace usableSpace)

/-- A pivot with its child as a number. -/
def numbered (pair : Slice × UInt32) : Slice × PageId := (pair.1, pair.2.toNat)

namespace Page

variable (page : Page)

def kvpairs : LeafItems := (List.range page.itemNum).map page.decodeKvpair

def indexItems : IndexItems := page.pivotPairs.map numbered

def content : Content :=
  if page.isLeaf then .leaf page.kvpairs
  else .inner (page.readChildAt (-1)).toNat page.indexItems

/-- What the bytes are to the concurrent tree. -/
def node : Olc.Node where
  content := page.content
  free := page.freeEnd - page.freeStart
  left := page.left
  right := page.right

end Page

/-! ## Reading -/

section reading

variable {page : Page}

theorem Page.kvpairs_entries (isLeaf : page.isLeaf = true) :
    page.kvpairs.map kvEntry = page.entries := by
  rw [Page.entries_eq_map, Page.kvpairs, List.map_map]
  exact List.map_congr_left fun offset _ => (decodeEntry_leaf isLeaf offset).symm

theorem Page.indexItems_keys (isIndex : page.isLeaf = false) :
    pivots page.indexItems = page.keys := by
  rw [keys_eq_pivotPairs isIndex, Page.indexItems, pivots, List.map_map]
  rfl

theorem Page.kvpairs_keys (isLeaf : page.isLeaf = true) : leafKeys page.kvpairs = page.keys := by
  rw [Page.keys, ← page.kvpairs_entries isLeaf, List.map_map]
  rfl

/-- Both sides see the same keys, on every page. -/
theorem node_keys (page : Page) : page.node.keys = page.keys := by
  simp only [Olc.Node.keys, Page.node, Page.content]
  cases isLeaf : page.isLeaf with
  | true => exact Page.kvpairs_keys isLeaf
  | false => exact Page.indexItems_keys isLeaf

theorem readKeyAtOffset_node (page : Page) (offset : Nat) :
    Olc.pageReadKeyAtOffset page.node offset = page.readPivotAtOffset offset := by
  rw [Olc.pageReadKeyAtOffset, node_keys, Page.readPivotAtOffset_eq]

theorem pageLowerBound_node (page : Page) (key : Slice) :
    Olc.pageLowerBound page.node key = page.pageLowerBound key := by
  rw [Olc.pageLowerBound, node_keys, ← Page.lowerBound_eq, Page.pageLowerBound]

theorem readValAt_node (isLeaf : page.isLeaf = true) {offset : Nat}
    (inside : offset < page.itemNum) :
    Olc.pageReadValAt page.node offset = (page.decodeKvpair offset).2 := by
  simp only [Olc.pageReadValAt, Page.node, Page.content, isLeaf, if_true, Page.kvpairs,
    List.map_map]
  rw [List.getElem?_map, List.getElem?_range inside]
  rfl

theorem readChildAt_node (isIndex : page.isLeaf = false) {offset : Int}
    (inside : offset < page.itemNum) :
    Olc.pageReadChildAt page.node offset = (page.readChildAt offset).toNat := by
  simp only [Olc.pageReadChildAt, Page.node, Page.content, isIndex, Bool.false_eq_true,
    if_false]
  by_cases isFirst : offset < 0
  · rw [if_pos isFirst, Page.readChildAt, Page.readChildAt, if_pos (by decide), if_pos isFirst]
  · rw [if_neg isFirst, Page.readChildAt, if_neg isFirst, Page.indexItems, Page.pivotPairs,
      List.map_map, List.map_map, List.getElem?_map, List.getElem?_range (by omega)]
    rfl

theorem leafPageIsFull_node (page : Page) (key val : Slice) :
    Olc.leafPageIsFull page.node key val = page.leafPageIsFull key val := by
  rw [Olc.leafPageIsFull, Page.leafPageIsFull, leafSpace, Nat.mul_comm 3]
  rfl

theorem innerPageIsFull_node (page : Page) (key : Slice) :
    Olc.innerPageIsFull page.node key = page.innerPageIsFull key := by
  rw [Olc.innerPageIsFull, Page.innerPageIsFull, indexSpace, Nat.mul_comm 3]
  rfl

end reading

/-! ## Inserting -/

/-- The bytes of a page read as this content and so much free space.  The first child of an
inner page is behind its records. -/
structure Holds (page : Page) (node : Content × Nat) : Prop extends Spaced page where
  content : page.content = node.1
  free : page.freeEnd - page.freeStart = node.2
  behind : page.isLeaf = false → 0 < page.itemNum → page.freeEnd ≤ pageSize - itemIdSize

abbrev HoldsLeaf (page : Page) (leaf : LeafItems × Nat) : Prop :=
  Holds page (.leaf leaf.1, leaf.2)

abbrev HoldsInner (first : PageId) (page : Page) (inner : IndexItems × Nat) : Prop :=
  Holds page (.inner first inner.1, inner.2)

/-- The page where the functions on entries say that there is no space. -/
def IsNoSpace (failure : Failure) : Prop := failure = .noSpace

section leaf

variable {page : Page} {leaf : LeafItems × Nat}

theorem kvEntry_injective : Function.Injective kvEntry := by
  intro left right same
  have sameKey : (kvEntry left).1 = (kvEntry right).1 := congrArg Prod.fst same
  have sameValue : (kvEntry left).2 = (kvEntry right).2 := congrArg Prod.snd same
  exact Prod.ext sameKey (Payload.value.inj sameValue)

/-- A leaf page holds the entries that its records are. -/
theorem holdsLeaf_of_entries (spaced : Spaced page) (isLeaf : page.isLeaf = true)
    (entries : page.entries = leaf.1.map kvEntry)
    (free : page.freeEnd - page.freeStart = leaf.2) : HoldsLeaf page leaf where
  toSpaced := spaced
  content := by
    have same : page.kvpairs = leaf.1 := by
      rw [← page.kvpairs_entries isLeaf] at entries
      exact (List.map_injective_iff.mpr kvEntry_injective) entries
    rw [Page.content, if_pos isLeaf, same]
  free := free
  behind isIndex := absurd isLeaf (by simp [isIndex])

variable (holds : HoldsLeaf page leaf)

include holds

theorem Holds.isLeaf : page.isLeaf = true := by
  have content := holds.content
  rw [Page.content] at content
  split_ifs at content with isLeaf
  exact isLeaf

theorem Holds.kvpairs : page.kvpairs = leaf.1 := by
  have content := holds.content
  rw [Page.content, if_pos holds.isLeaf] at content
  exact Content.leaf.inj content

theorem Holds.leafEntries : page.entries = leaf.1.map kvEntry := by
  rw [← page.kvpairs_entries holds.isLeaf, holds.kvpairs]

theorem Holds.leafLength : leaf.1.length = page.itemNum := by
  rw [← holds.kvpairs, Page.kvpairs, List.length_map, List.length_range]

theorem Holds.leafKeys : leafKeys leaf.1 = page.keys := by
  rw [← holds.kvpairs, Page.kvpairs_keys holds.isLeaf]

variable {key val : Slice} {offset : Nat}

/-- A record more. -/
theorem Holds.grow (fits : Fits page (key, .value val)) (inside : offset ≤ page.itemNum) :
    HoldsLeaf (page.writeEntryAt offset (key, .value val)).addItem
      (leaf.1.insertIdx offset (key, val), leaf.2 - leafSpace key val) := by
  have isLeaf := holds.isLeaf
  apply holdsLeaf_of_entries
  · exact writeEntryAt_spaced holds.toSpaced fits inside isLeaf.symm
  · exact isLeaf
  · rw [writeEntryAt_entries holds.toSpaced fits inside isLeaf.symm, holds.leafEntries,
      List.map_insertIdx]
    rfl
  · have free := holds.free
    change page.freeEnd - encodedLen (key, .value val) - (page.freeStart + itemIdSize) =
      leaf.2 - leafSpace key val
    simp only [encodedLen, Payload.extra, leafSpace, itemIdSize] at free ⊢
    omega

/-- A record that takes the item id of another one. -/
theorem Holds.reuse (fits : Fits page (key, .value val)) (inside : offset < page.itemNum) :
    HoldsLeaf (rewritten page offset (key, .value val))
      (leaf.1.set offset (key, val), leaf.2 - leafSpace key val) := by
  have isLeaf := holds.isLeaf
  apply holdsLeaf_of_entries
  · exact rewritten_spaced holds.toSpaced fits inside isLeaf.symm
  · exact isLeaf
  · rw [rewritten_entries holds.toSpaced fits inside isLeaf.symm, holds.leafEntries,
      List.map_set]
    rfl
  · have free := holds.free
    change page.freeEnd - encodedLen (key, .value val) - (page.freeStart + itemIdSize) =
      leaf.2 - leafSpace key val
    simp only [encodedLen, Payload.extra, leafSpace, itemIdSize] at free ⊢
    omega

/-- A value over one of its length. -/
theorem Holds.overwrite {after : Page} (inside : offset < page.itemNum)
    (replaced : Replaced page after offset (key, .value val)) :
    HoldsLeaf after (leaf.1.set offset (key, val), leaf.2) := by
  apply holdsLeaf_of_entries
  · exact replaced.spaced_after holds.toSpaced inside (replaced.isEntry ▸ replaced.sameSize)
  · exact replaced.isLeaf.trans holds.isLeaf
  · rw [replaced.entries_eq holds.toSpaced inside, holds.leafEntries, List.map_set]
    rfl
  · rw [replaced.freeEnd, replaced.freeStart]
    exact holds.free

omit holds in
theorem Holds.dirty {node : Content × Nat} (holds : Holds page node) :
    Holds { page with isDirty := true } node where
  itemIds := holds.itemIds
  room := holds.room
  within := holds.within
  inside := holds.inside
  apart := holds.apart
  content := holds.content
  free := holds.free
  behind := holds.behind

end leaf

theorem lowerBound_le {keys : List Slice} (nonempty : 0 < keys.length) (key : Slice) :
    Olc.lowerBound keys key ≤ keys.length := by
  rw [Olc.lowerBound, if_neg (by omega)]
  have searched := @Lib.bisect_spec
    (fun mid => Slice.compare key (pageReadPivotAtOffset keys mid)) keys.length 0 keys.length
    (Nat.zero_le _) (Nat.le_refl _)
  generalize Lib.bisect (fun mid => Slice.compare key (pageReadPivotAtOffset keys mid))
    keys.length 0 keys.length = outcome at searched ⊢
  cases outcome with
  | hit mid => exact Nat.le_of_lt searched.2.1
  | gap lower => exact searched.2.1

section insertKvpair

variable {page : Page} {leaf : LeafItems × Nat} (holds : HoldsLeaf page leaf) {key val : Slice}

include holds

/-- The offset that the upsert looks at, on both sides. -/
theorem Holds.offset (key : Slice) : ∃ offset ≤ page.itemNum,
    (if 0 < page.itemNum then page.lowerBound key else 0) = offset ∧
      (if 0 < leaf.1.length then Olc.lowerBound (AhaTree.leafKeys leaf.1) key else 0) =
        offset := by
  rw [holds.leafKeys, holds.leafLength, ← Page.lowerBound_eq]
  refine ⟨_, ?_, rfl, rfl⟩
  split_ifs with nonempty
  · rw [Page.lowerBound_eq, ← page.keys_length]
    exact lowerBound_le (by rwa [page.keys_length]) key
  · exact Nat.zero_le _

theorem Holds.decodeEntry_eq {offset : Nat} {item : Slice × Slice}
    (found : leaf.1[offset]? = some item) :
    offset < page.itemNum ∧ page.decodeEntry offset = kvEntry item := by
  obtain ⟨isIndex, isItem⟩ := List.getElem?_eq_some_iff.mp found
  have inside : offset < page.itemNum := holds.leafLength ▸ isIndex
  refine ⟨inside, ?_⟩
  have isEntry : offset < page.entries.length := by rwa [page.entries_length]
  rw [← Page.entries_getElem isEntry]
  simp only [holds.leafEntries, List.getElem_map, isItem]

/-- The key of the offset gets the value, in its place or in a new record. -/
theorem Holds.upsert {offset : Nat} {item : Slice × Slice}
    (found : leaf.1[offset]? = some item) (isKey : item.1 = key)
    (fits : Fits page (key, .value val)) :
    HoldsLeaf (if (page.updateValAt offset val).2 then (page.updateValAt offset val).1
        else (page.updateValAt offset val).1.insertKvpairAt offset key val)
      (leaf.1.set offset (key, val),
        if val.length = item.2.length then leaf.2 else leaf.2 - leafSpace key val) := by
  obtain ⟨inside, isEntry⟩ := holds.decodeEntry_eq found
  have isLeaf := holds.isLeaf
  have isExtra : (page.decodeEntry offset).2.extra = item.2.length := by
    rw [isEntry]
    rfl
  have sameKey : (page.decodeEntry offset).1 = key := by
    rw [isEntry]
    exact isKey
  by_cases sameLength : item.2.length = val.length
  · have size : (page.decodeEntry offset).2.extra = val.length := isExtra.trans sameLength
    have isDone : (page.updateValAt offset val).2 = true :=
      (updatePivotAt_done isLeaf val).mpr size
    have replaced := updatePivotAt_stores holds.toSpaced inside isLeaf size
    rw [sameKey] at replaced
    rw [if_pos isDone, if_pos sameLength.symm]
    exact holds.overwrite inside replaced
  · have size : (page.decodeEntry offset).2.extra ≠ val.length :=
      fun same => sameLength (isExtra.symm.trans same)
    have notDone : ¬ (page.updateValAt offset val).2 = true :=
      (updatePivotAt_done isLeaf val).not.mpr size
    have dropped : (page.updateValAt offset val).1 = { page with isDirty := true } :=
      updatePivotAt_drops isLeaf size
    have isRewritten := @insertKvpairAt_present { page with isDirty := true } key val offset
      inside sameKey
    rw [if_neg notDone, if_neg (Ne.symm sameLength), dropped, isRewritten]
    exact (holds.reuse fits inside).dirty

/-- An upsert on the bytes is the upsert on the entries. -/
theorem insertKvpair_matches (key val : Slice) :
    Matches HoldsLeaf IsNoSpace (page.insertKvpair key val)
      (Olc.pageInsertKvpair leaf key val) := by
  obtain ⟨offset, inside, isOffset, isPlace⟩ := holds.offset key
  have full : page.leafPageIsFull key val = decide (leaf.2 < leafSpace key val) := by
    rw [← leafPageIsFull_node, Olc.leafPageIsFull, ← holds.free]
    rfl
  simp only [Olc.pageInsertKvpair, isPlace]
  by_cases noSpace : leaf.2 < leafSpace key val
  · rw [if_pos noSpace, Page.insertKvpair, if_pos (full.trans (decide_eq_true noSpace))]
    exact fun _ => rfl
  have room : page.leafPageIsFull key val = false := full.trans (decide_eq_false noSpace)
  have fits : Fits page (key, .value val) := fits_of_notFull holds.within room
  rw [if_neg noSpace]
  cases found : leaf.1[offset]? with
  | none =>
      have past : page.itemNum ≤ offset :=
        holds.leafLength ▸ List.getElem?_eq_none_iff.mp found
      by_cases unnamed : key = []
      · rw [if_pos unnamed]
        exact .unspecified fun isNoSpace => by cases isNoSpace
      · have other : ¬ (Slice.compare (page.readPivotAtOffset offset) key).isEq := by
          rw [Ordering.isEq_iff_eq_eq, Slice.compare_eq_eq, Page.readPivotAtOffset, if_pos past]
          exact Ne.symm unnamed
        rw [if_neg unnamed, insertKvpair_of_other room isOffset other]
        exact .ok (holds.grow fits inside)
  | some item =>
      obtain ⟨within, isEntry⟩ := holds.decodeEntry_eq found
      have isRead : page.readPivotAtOffset offset = item.1 := by
        rw [Page.readPivotAtOffset, if_neg (by omega), isEntry]
        rfl
      by_cases same : (Slice.compare item.1 key).isEq
      · have isKey : item.1 = key := by
          rwa [Ordering.isEq_iff_eq_eq, Slice.compare_eq_eq] at same
        have upserted := (holds.upsert found isKey fits).dirty
        rw [insertKvpair_of_same room isOffset (isRead ▸ same)]
        simp only [same, if_true]
        by_cases sameLength : val.length = item.2.length
        · rw [if_pos sameLength] at upserted
          rw [if_pos sameLength]
          exact .ok upserted
        · rw [if_neg sameLength] at upserted
          rw [if_neg sameLength]
          exact .ok upserted
      · rw [insertKvpair_of_other room isOffset (isRead ▸ same)]
        simp only [same]
        exact .ok (holds.grow fits inside)

end insertKvpair

/-! ## Splitting a leaf page -/

section halves

variable {pair : Type} (decode : Nat → pair)

theorem take_map_range {count number : Nat} (within : count ≤ number) :
    ((List.range number).map decode).take count = (List.range count).map decode := by
  rw [← List.map_take, List.take_range, Nat.min_eq_left within]

theorem drop_map_range (count number : Nat) : ((List.range number).map decode).drop count =
    (List.range' count (number - count)).map decode := by
  rw [← List.map_drop, List.range_eq_range', List.drop_range', Nat.mul_one, Nat.zero_add]

end halves

section leafSplit

variable {page : Page}

theorem holds_emptyLeaf (isLeaf : page.isLeaf = true) (packed : Packed pageSize page)
    (isEmpty : page.itemNum = 0) (freeEnd : page.freeEnd = pageSize) :
    HoldsLeaf page ([], usableSpace) := by
  apply holdsLeaf_of_entries packed.spaced isLeaf
  · exact entries_of_itemNum_zero isEmpty
  · rw [freeEnd, packed.freeStart, isEmpty]
    rfl

theorem fillLeaf_matches (holds : HoldsLeaf page ([], usableSpace)) (pairs : LeafItems) :
    Matches HoldsLeaf IsNoSpace (page.insertKvpairs pairs) (Olc.fillLeaf pairs) :=
  Matches.foldlM (fun _ _ pair held => insertKvpair_matches held pair.1 pair.2) pairs holds

/-- So is the separator. -/
theorem getLeafPageSplitSep_matches (isLeaf : page.isLeaf = true) (spaced : Spaced page) :
    page.getLeafPageSplitSep = Olc.getLeafPageSplitSep page.kvpairs := by
  have count : page.kvpairs.length = page.itemNum := by simp [Page.kvpairs]
  rw [getLeafPageSplitSep_eq spaced, Olc.getLeafPageSplitSep, count, page.kvpairs_keys isLeaf,
    Page.readPivotAtOffset_eq]
  rcases Nat.eq_zero_or_pos (page.itemNum / 2) with none | some
  · rw [if_neg (by omega), if_pos none]
  · rw [if_pos some, if_neg (by omega)]

end leafSplit

/-! ## Inner pages -/

section inner

variable {page : Page} {first : PageId} {inner : IndexItems × Nat}

/-- An inner page holds the pivots that its records are, and the child behind them. -/
theorem holdsInner_of_entries {pairs : List (Slice × UInt32)} {free : Nat}
    (spaced : Spaced page) (isIndex : page.isLeaf = false)
    (entries : page.entries = pairs.map pivotEntry)
    (isFirst : (page.readChildAt (-1)).toNat = first)
    (isFree : page.freeEnd - page.freeStart = free)
    (behind : page.freeEnd ≤ pageSize - itemIdSize) :
    HoldsInner first page (pairs.map numbered, free) where
  toSpaced := spaced
  content := by
    have items : page.indexItems = pairs.map numbered := by
      rw [Page.indexItems, pivotPairs_of_entries isIndex entries]
    rw [Page.content, if_neg (by simp [isIndex]), items, isFirst]
  free := isFree
  behind _ _ := behind

/-- A record in front of the first child leaves that as it is. -/
theorem readChildAt_of_sameRecords {after : Page} (same : SameRecords page after)
    (behind : page.freeEnd ≤ pageSize - itemIdSize) :
    after.readChildAt (-1) = page.readChildAt (-1) := by
  have bytes : decodeInt32At after.bytes (pageSize - itemIdSize) =
      decodeInt32At page.bytes (pageSize - itemIdSize) := by
    refine decodeInt32At_mirrors fun index isIndex => same _ ?_ ?_
    · omega
    · simp only [pageSize, itemIdSize]
      omega
  rw [Page.readChildAt, Page.readChildAt, if_pos (by decide), if_pos (by decide), bytes]

/-- A pivot more; the first child, behind the records, stays. -/
theorem holdsInner_insert {pairs : List (Slice × UInt32)} {free offset : Nat} {key : Slice}
    {child : UInt32} (spaced : Spaced page) (isIndex : page.isLeaf = false)
    (entries : page.entries = pairs.map pivotEntry)
    (isFirst : (page.readChildAt (-1)).toNat = first)
    (isFree : page.freeEnd - page.freeStart = free)
    (behind : page.freeEnd ≤ pageSize - itemIdSize) (fits : Fits page (key, .child child))
    (inside : offset ≤ page.itemNum) :
    HoldsInner first (page.writeEntryAt offset (key, .child child)).addItem
      ((pairs.map numbered).insertIdx offset (key, child.toNat), free - indexSpace key) := by
  have isItems : (pairs.map numbered).insertIdx offset (key, child.toNat) =
      (pairs.insertIdx offset (key, child)).map numbered := by
    rw [List.map_insertIdx]
    rfl
  rw [isItems]
  apply holdsInner_of_entries
  · exact writeEntryAt_spaced spaced fits inside isIndex.symm
  · exact isIndex
  · rw [writeEntryAt_entries spaced fits inside isIndex.symm, entries, List.map_insertIdx]
    rfl
  · exact (congrArg UInt32.toNat (readChildAt_of_sameRecords
      (writeEntryAt_sameRecords spaced fits inside) behind)).trans isFirst
  · change page.freeEnd - encodedLen (key, .child child) - (page.freeStart + itemIdSize) = _
    simp only [encodedLen, Payload.extra, indexSpace, itemIdSize] at isFree ⊢
    omega
  · exact (Nat.sub_le ..).trans behind

section holds

variable (holds : HoldsInner first page inner)

include holds

theorem Holds.isIndex : page.isLeaf = false := by
  have content := holds.content
  rw [Page.content] at content
  split_ifs at content with isLeaf
  simpa using isLeaf

theorem Holds.inner_eq : (page.readChildAt (-1)).toNat = first ∧
    inner.1 = page.pivotPairs.map numbered := by
  have content := holds.content
  rw [Page.content, if_neg (by simp [holds.isIndex])] at content
  obtain ⟨isFirst, items⟩ := Content.inner.inj content
  exact ⟨isFirst, items.symm⟩

/-- The insertion of a pivot on the bytes is the one on the pivots. -/
theorem insertPivotPair_matches (key : Slice) (child : UInt32) :
    Matches (HoldsInner first) IsNoSpace (page.insertPivotPair key child)
      (Olc.pageInsertPivotPair inner key child.toNat) := by
  have isIndex := holds.isIndex
  obtain ⟨isFirst, items⟩ := holds.inner_eq
  have full : page.innerPageIsFull key = decide (inner.2 < indexSpace key) := by
    rw [← innerPageIsFull_node, Olc.innerPageIsFull, ← holds.free]
    rfl
  have length : inner.1.length = page.itemNum := by
    rw [items, List.length_map, pivotPairs_length]
  have keys : pivots inner.1 = page.keys := by
    rw [items, ← page.indexItems_keys isIndex, Page.indexItems]
  simp only [Olc.pageInsertPivotPair, Page.insertPivotPair, full, decide_eq_true_eq]
  by_cases noSpace : inner.2 < indexSpace key
  · rw [if_pos noSpace, if_pos (.inl noSpace)]
    exact fun _ => rfl
  rw [if_neg noSpace]
  by_cases isEmpty : inner.1 = []
  · rw [if_pos isEmpty]
    exact .unspecified fun isNoSpace => by cases isNoSpace
  · have filled : 0 < page.itemNum := length ▸ List.length_pos_iff.mpr isEmpty
    have fits : Fits page (key, .child child) := by
      refine ⟨?_, holds.within⟩
      have free := holds.free
      simp only [encodedLen, Payload.extra, indexSpace, itemIdSize] at free noSpace ⊢
      omega
    have inside : page.lowerBound key ≤ page.itemNum := by
      rw [Page.lowerBound_eq, ← page.keys_length]
      exact lowerBound_le (by rwa [page.keys_length]) key
    have grown := holdsInner_insert holds.toSpaced isIndex (entries_eq_pivotPairs isIndex)
      isFirst holds.free (holds.behind isIndex filled) fits inside
    rw [if_neg isEmpty, if_neg (by simp [noSpace]; omega), keys, ← Page.lowerBound_eq, items]
    exact .ok grown

end holds

/-! ## Splitting an inner page -/

theorem readChildAt_putFirstChild (page : Page) (child : UInt32) :
    (page.putFirstChild child).readChildAt (-1) = child := by
  rw [Page.readChildAt, if_pos (by decide)]
  exact (congrArg UInt32.ofNat (decodeInt32At_encode child.toNat_lt)).trans
    UInt32.ofNat_toNat

section fresh

variable {empty : Page} (isIndex : empty.isLeaf = false) (packed : Packed pageSize empty)
  (isEmpty : empty.itemNum = 0) (freeEnd : empty.freeEnd = pageSize)

include isIndex packed isEmpty freeEnd

/-- The first pivot of an empty page.  The bytes are not asked whether it fits. -/
theorem insertFirstPivotPair_matches (pair : Slice × UInt32) (child : UInt32) :
    Matches Holds IsNoSpace (empty.insertFirstPivotPair pair.1 child pair.2)
      (Olc.pageInsertFirstPivotPair pair.1 child.toNat pair.2.toNat) := by
  have noItem : (empty.putFirstChild child).itemNum = 0 := isEmpty
  have start : empty.freeStart = pgHdSize := by
    rw [packed.freeStart, isEmpty]
    rfl
  have stop : (empty.putFirstChild child).freeEnd = pageSize - itemIdSize :=
    congrArg (· - itemIdSize) freeEnd
  have isPacked : Packed (pageSize - itemIdSize) (empty.putFirstChild child) :=
    packed_of_empty (Nat.sub_le ..) noItem start stop (by decide)
  rw [insertFirstPivotPair_eq isEmpty freeEnd, Olc.pageInsertFirstPivotPair]
  by_cases noRoom : usableSpace < itemIdSize + indexSpace pair.1
  · rw [if_pos noRoom]
    exact .unspecified fun isNoSpace => by cases isNoSpace
  · have fits : Fits (empty.putFirstChild child) (pivotEntry pair) := by
      refine ⟨?_, isPacked.spaced.within⟩
      rw [stop]
      change empty.freeStart + _ + _ ≤ _
      rw [start]
      simp only [usableSpace, encodedLen, Payload.extra, pivotEntry, indexSpace, itemIdSize,
        pageSize, pgHdSize] at noRoom ⊢
      omega
    have isFree : (empty.putFirstChild child).freeEnd - (empty.putFirstChild child).freeStart =
        usableSpace - itemIdSize := by
      rw [stop]
      change _ - empty.freeStart = _
      rw [start]
      rfl
    have isFirst := congrArg UInt32.toNat (readChildAt_putFirstChild empty child)
    have made := @holdsInner_insert _ _ [] _ _ _ _ isPacked.spaced isIndex
      (entries_of_itemNum_zero noItem) isFirst isFree (Nat.le_of_eq stop) fits
      (Nat.le_refl _)
    rw [noItem] at made
    rw [if_neg noRoom, appended, noItem]
    exact .ok made

/-- A page filled on its bytes is the one filled with the pivots. -/
theorem fillInner_matches (child : UInt32) (pairs : List (Slice × UInt32))
    (stays : pairs = [] → empty.readChildAt (-1) = child) :
    Matches Holds IsNoSpace (empty.insertPivotPairs child pairs)
      (Olc.fillInner child.toNat (pairs.map numbered)) := by
  cases pairs with
  | nil =>
      refine .ok ⟨packed.spaced, ?_, ?_, fun _ some => absurd some (by omega)⟩
      · have none : empty.indexItems = [] := by simp [Page.indexItems, Page.pivotPairs, isEmpty]
        rw [Page.content, if_neg (by simp [isIndex]), none, stays rfl]
      · rw [freeEnd, packed.freeStart, isEmpty]
        rfl
  | cons pair pairs =>
      rw [List.map_cons, Olc.fillInner, Page.insertPivotPairs]
      refine (insertFirstPivotPair_matches isIndex packed isEmpty freeEnd pair child).bind
        fun made value _ isValue held => ?_
      obtain ⟨content, free⟩ := value
      have isContent : content = .inner child.toNat [numbered pair] := by
        rw [Olc.pageInsertFirstPivotPair] at isValue
        split at isValue
        · cases isValue
        · cases isValue
          rfl
      subst isContent
      have filled : HoldsInner child.toNat made ([numbered pair], free) := held
      change Matches Holds IsNoSpace _ ((pairs.map numbered).foldlM
        (fun inner item => Olc.pageInsertPivotPair inner item.1 item.2) ([numbered pair], free)
          >>= fun inner => pure (Content.inner child.toNat inner.1, inner.2))
      rw [List.foldlM_map]
      have rounds := Matches.foldlM
        (fun page inner (pair : Slice × UInt32) (held : HoldsInner child.toNat page inner) =>
          insertPivotPair_matches held pair.1 pair.2) pairs filled
      exact rounds.returns fun page inner (held : HoldsInner child.toNat page inner) => held

end fresh

section counts

variable {after : Page}

theorem insertPivotPair_itemNum {key : Slice} {child : UInt32}
    (done : page.insertPivotPair key child = some after) : after.itemNum = page.itemNum + 1 := by
  rw [Page.insertPivotPair] at done
  split at done
  · cases done
  · cases done
    rfl

theorem laterPivotPairs_itemNum {pairs : List (Slice × UInt32)}
    (done : pairs.foldlM (fun page pair => page.insertPivotPair pair.1 pair.2) page = some after) :
    after.itemNum = page.itemNum + pairs.length := by
  induction pairs generalizing page with
  | nil =>
      cases done
      rfl
  | cons pair pairs ih =>
      rw [List.foldlM_cons] at done
      obtain ⟨middle, isMiddle, rest⟩ := Option.bind_eq_some_iff.mp done
      rw [ih rest, insertPivotPair_itemNum isMiddle, List.length_cons, Nat.add_assoc,
        Nat.add_comm 1]

/-- Every pivot counts. -/
theorem insertPivotPairs_itemNum {child : UInt32} {pairs : List (Slice × UInt32)}
    (nonempty : pairs ≠ []) (done : page.insertPivotPairs child pairs = some after) :
    after.itemNum = pairs.length := by
  cases pairs with
  | nil => exact absurd rfl nonempty
  | cons pair pairs =>
      obtain ⟨made, isMade, filled⟩ := Option.bind_eq_some_iff.mp done
      have isOne : made.itemNum = 1 := by
        rw [Page.insertFirstPivotPair] at isMade
        split at isMade
        · cases isMade
        · cases isMade
          rfl
      rw [laterPivotPairs_itemNum filled, isOne, List.length_cons, Nat.add_comm]

end counts

/-- The split of an inner page on the bytes is the one on the pivots. -/
theorem innerPageSplit_matches (isIndex : page.isLeaf = false) (spaced : Spaced page)
    (pgId : Nat) (bytes : Memory Byte) :
    Matches (fun pages nodes => Holds pages.1 nodes.1 ∧ Holds pages.2 nodes.2) IsNoSpace
      (page.innerPageSplit (newPage pgId false bytes))
      (Olc.innerPageSplit (page.readChildAt (-1)).toNat page.indexItems) := by
  have length : page.indexItems.length = page.itemNum := by simp [Page.indexItems]
  rw [Olc.innerPageSplit, length]
  by_cases few : page.itemNum < 2
  · rw [if_pos few]
    exact .unspecified fun isNoSpace => by cases isNoSpace
  have several : 2 ≤ page.itemNum := by omega
  have middle : (page.indexItems.map Prod.snd)[page.itemNum / 2 - 1]?.getD 0 =
      (page.decodePivotpair (page.itemNum / 2 - 1)).2.toNat := by
    rw [Page.indexItems, Page.pivotPairs, List.map_map, List.map_map, List.getElem?_map,
      List.getElem?_range (by omega)]
    rfl
  have upper : page.indexItems.drop (page.itemNum / 2 - 1 + 1) =
      ((List.range' (page.itemNum / 2) (page.itemNum - page.itemNum / 2)).map
        page.decodePivotpair).map numbered := by
    have next : page.itemNum / 2 - 1 + 1 = page.itemNum / 2 := by omega
    rw [Page.indexItems, ← List.map_drop, Page.pivotPairs, drop_map_range, next]
  have lower : page.indexItems.take (page.itemNum / 2 - 1) =
      ((List.range (page.itemNum / 2 - 1)).map page.decodePivotpair).map numbered := by
    rw [Page.indexItems, ← List.map_take, Page.pivotPairs, take_map_range _ (by omega)]
  have filled : (List.range' (page.itemNum / 2) (page.itemNum - page.itemNum / 2)).map
      page.decodePivotpair ≠ [] := by
    refine List.ne_nil_of_length_pos ?_
    rw [List.length_map, List.length_range']
    omega
  rw [if_neg few, (innerPageSplit_eq spaced several _).2]
  simp only [middle, upper, lower]
  refine (fillInner_matches rfl (newPage_packed pgId false bytes) rfl rfl _ _
    (fun none => absurd none filled)).bind fun right rightNode isRight _ heldRight => ?_
  have counted : right.itemNum = page.rightItem := by
    rw [insertPivotPairs_itemNum filled isRight, List.length_map, List.length_range', right_eq]
  rw [if_neg (not_not.mpr counted), Option.map_eq_bind]
  have old := @fillInner_matches page.emptied isIndex (emptied_packed page) rfl rfl
  refine (old _ _ fun _ => rfl).bind fun left leftNode _ _ heldLeft => ?_
  exact .ok ⟨heldLeft, heldRight⟩

theorem innerPageSplit_matches_four : ∃ pages,
    (pivotPage [([1], 6), ([2], 7), ([3], 8), ([4], 9)]).innerPageSplit
      (newPage 4 false fun _ => 0) = some pages ∧
        Holds pages.1 (.inner 5 [([1], 6)], 8135) ∧
          Holds pages.2 (.inner 7 [([3], 8), ([4], 9)], 8122) := by
  obtain ⟨inner, -⟩ := @pivotPage_inner [([1], 6), ([2], 7), ([3], 8), ([4], 9)]
    (by decide) (by unfold Lib.Ascending; decide) (by decide)
  have split : Olc.innerPageSplit
      ((pivotPage [([1], 6), ([2], 7), ([3], 8), ([4], 9)]).readChildAt (-1)).toNat
      (pivotPage [([1], 6), ([2], 7), ([3], 8), ([4], 9)]).indexItems =
        .ok ((.inner 5 [([1], 6)], 8135), (.inner 7 [([3], 8), ([4], 9)], 8122)) := rfl
  have matched := innerPageSplit_matches inner.isIndex inner.spaced 4 fun _ => 0
  rw [split] at matched
  exact matched

/-- So is the separator of a page that is split. -/
theorem getInnerPageSplitSep_matches (isIndex : page.isLeaf = false) (spaced : Spaced page)
    (several : 2 ≤ page.itemNum) :
    page.getInnerPageSplitSep = Olc.getInnerPageSplitSep page.indexItems := by
  have length : page.indexItems.length = page.itemNum := by simp [Page.indexItems]
  rw [(innerPageSplit_eq spaced several page).1, Olc.getInnerPageSplitSep, length,
    page.indexItems_keys isIndex, Page.readPivotAtOffset_eq]

end inner

end AhaTree.Slotted
