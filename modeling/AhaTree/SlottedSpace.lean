import AhaTree.SlottedUpsert

/-!
# Who asks for space

The callers of the insertions compute the space of an entry themselves and go on
when there is as much; the insertions want more than that.  So an entry that
would fill a page to its last byte ends the program.
-/

namespace AhaTree.Slotted

open Lib (Memory Span)

/-! ## The callers -/

/-- A step that may end with an overflow instead of a page. -/
abbrev Tried := Option (Option Page)

/-- `Btree::TryInsertLeaf`. -/
def btreeTryInsertLeaf (page : Page) (key val : Slice) : Tried :=
  let space := key.length + val.length + 3 * itemIdSize
  if page.getFreeSpace < space then some none
  else (page.insertLeafEntry key val).map some

/-- `BplusTree::TryInsertLeaf`. -/
def bplusTryInsertLeaf (page : Page) (key val : Slice) : Tried :=
  let space := key.length + val.length + 3 * itemIdSize
  if page.getFreeSpace < space then some none
  else (page.insertLeafEntryWithSeq key val).map fun inserted => some inserted.1

/-- `BplusTree::SafeNode`, which is asked with a user key on the way down. -/
def safeNode (page : Page) (key val : Slice) : Bool :=
  let needed :=
    if page.isLeaf then key.length + 8 + val.length + 3 * itemIdSize
    else key.length + 4 * itemIdSize
  ¬ page.getFreeSpace < needed

/-- One entry after the other. -/
def insertIndexEntries (page : Page) (items : List (Slice × UInt32)) : Option Page :=
  items.foldlM (fun page item => page.insertIndexEntry item.1 item.2) page

/-- `Btree::TryInsertInternal` and `BplusTree::TryInsertInternal`, which are the same: the
entry of a child is replaced by two others, and space is asked for one of them. -/
def tryInsertInternal (page : Page) (newPivots : List Slice) (newPgIds : List UInt32)
    (old : UInt32) : Except Btree.Failure (Option Page) :=
  let space := (newPivots.headD []).length + 4 * itemIdSize
  if page.getFreeSpace < space then .ok none
  else
    match page.getOffsetByChild old with
    | none => .error .lostChild
    | some offset =>
        match insertIndexEntries (page.removeOffset offset) (newPivots.zip newPgIds) with
        | none => .error .noSpace
        | some page => .ok (some page)

/-! ### Bulkloading -/

/-- `Allocate` and `Pin`: a page with the next id. -/
def allocate (newId : Nat) : Page := pageInit newId fun _ => 0

/-- The page that is filled, the ones that are full, last one first, and the next id. -/
structure Loading where
  current : Page
  full : List Page
  newId : Nat

/-- A child goes to the current page, or to a new one if that has too little space.  On
the leaf level the child is a new page itself. -/
def loadChild (keySize : Nat) (loading : Loading) (item : Slice × Option UInt32) :
    Option Loading :=
  let inserted := item.2.getD (UInt32.ofNat loading.newId)
  let newId := if item.2.isNone then loading.newId + 1 else loading.newId
  let room : Loading :=
    if loading.current.getFreeSpace < keySize + 3 * itemIdSize then
      { current := allocate newId, full := loading.current :: loading.full, newId := newId + 1 }
    else { loading with newId := newId }
  (room.current.insertIndexEntry item.1 inserted).map fun page => { room with current := page }

/-- A level of pages over the children. -/
def loadLevel (keySize newId : Nat) (items : List (Slice × Option UInt32)) : Option Loading :=
  items.foldlM (loadChild keySize) { current := allocate newId, full := [], newId := newId + 1 }

def Loading.pages (loading : Loading) : List Page := (loading.current :: loading.full).reverse

/-- The levels over a level, as long as that has more than one node; fuel bounds their
number.  The result has the height that is added and the top level. -/
def loadLevels (keySize : Nat) : Nat → Nat → Nat → List (Slice × Option UInt32) →
    Option (Nat × List (Slice × Option UInt32))
  | 0, addHeight, _, items => some (addHeight, items)
  | fuel + 1, addHeight, newId, items =>
      if items.length ≤ 1 then some (addHeight, items)
      else
        (loadLevel keySize newId items).bind fun loading =>
          loadLevels keySize fuel (addHeight + 1) loading.newId
            (loading.pages.map fun page =>
              (page.readPivotAtOffset 0, some (UInt32.ofNat page.pageId)))

/-- `BplusTree::BulkloadFiles`, of which the smallest user keys of the files matter here. -/
def bulkloadFiles (fuel newId : Nat) (smallest : List Slice) : Option (Nat × List UInt32) :=
  (loadLevels (smallest.headD []).length fuel 0 newId (smallest.map fun key => (key, none))).map
    fun loaded => (loaded.1, loaded.2.filterMap Prod.snd)

/-! ### Splitting index pages -/

/-- `SlicePageMap`, in ascending order. -/
abbrev SlicePageMap := List (Slice × UInt32)

namespace SlicePageMap

/-- `operator[]` for one pivot after the other. -/
def assign (map : SlicePageMap) (items : List (Slice × UInt32)) : SlicePageMap :=
  items.foldl (fun map item => Lib.place item.1 item.2 map) map

/-- `merge` keeps the pivots that the map has. -/
def merge (map others : SlicePageMap) : SlicePageMap :=
  others.foldl (fun map item =>
    if item.1 ∈ map.map Prod.fst then map else Lib.place item.1 item.2 map) map

theorem assign_length_le (map : SlicePageMap) (items : List (Slice × UInt32)) :
    (map.assign items).length ≤ map.length + items.length := by
  induction items generalizing map with
  | nil => exact Nat.le_refl _
  | cons item items ih =>
      have placed := @Lib.place_length_le _ _ _ item.1 item.2 map
      have later := ih (Lib.place item.1 item.2 map)
      rw [List.length_cons]
      exact later.trans (by omega)

theorem mem_assign {map : SlicePageMap} {items : List (Slice × UInt32)}
    {item : Slice × UInt32} (member : item ∈ map.assign items) : item ∈ map ∨ item ∈ items := by
  induction items generalizing map with
  | nil => exact .inl member
  | cons head items ih =>
      rcases ih member with placed | later
      · rcases Lib.mem_place.mp placed with rfl | ⟨old, -⟩
        · exact .inr List.mem_cons_self
        · exact .inl old
      · exact .inr (List.mem_cons_of_mem _ later)

theorem merge_length_le (map others : SlicePageMap) :
    (map.merge others).length ≤ map.length + others.length := by
  induction others generalizing map with
  | nil => exact Nat.le_refl _
  | cons item others ih =>
      have placed := @Lib.place_length_le _ _ _ item.1 item.2 map
      rw [merge, List.foldl_cons, List.length_cons]
      split_ifs
      · exact (ih map).trans (by omega)
      · exact (ih (Lib.place item.1 item.2 map)).trans (by omega)

theorem mem_merge {map others : SlicePageMap} {item : Slice × UInt32}
    (member : item ∈ map.merge others) : item ∈ map ∨ item ∈ others := by
  induction others generalizing map with
  | nil => exact .inl member
  | cons head others ih =>
      rw [merge, List.foldl_cons] at member
      split_ifs at member
      · exact (ih member).imp_right (List.mem_cons_of_mem _)
      · rcases ih member with placed | later
        · rcases Lib.mem_place.mp placed with rfl | ⟨old, -⟩
          · exact .inr List.mem_cons_self
          · exact .inl old
        · exact .inr (List.mem_cons_of_mem _ later)

end SlicePageMap

/-- `CalculateNumber`; every map has the pivot that it replaces. -/
def calculateNumber (newPivots : List SlicePageMap) (oldPivots : List (Slice × UInt32)) : Nat :=
  (newPivots.map fun kids => if oldPivots.isEmpty then kids.length else kids.length - 1).sum

/-- `BplusTree::EqualSplitInternalPage`. -/
def equalSplitInternalPage (page : Page) (newPivots : List SlicePageMap)
    (oldPivots : List (Slice × UInt32)) : Nat :=
  match oldPivots with
  | [] => 1
  | old :: _ =>
      let newEntryNum := calculateNumber newPivots oldPivots
      let raw := pageSize - pgHdSize
      let entrySize := old.1.length + 3 * itemIdSize
      let capacity := raw / entrySize
      let totalEntryNum := newEntryNum + page.itemNum
      (totalEntryNum + capacity - 1) / capacity

/-- The pivots that `UpdateOrRewritePivots` adds. -/
def addedPivots (newPivots : List SlicePageMap) (oldPivots : List (Slice × UInt32)) :
    SlicePageMap :=
  SlicePageMap.assign [] ((newPivots.zip oldPivots).flatMap fun change => change.1.tail)

/-- `BplusTree::UpdateOrRewritePivots`. -/
def updateOrRewritePivots (page : Page) (newPivots : List SlicePageMap)
    (oldPivots : List (Slice × UInt32)) : Option Page :=
  let updated := (newPivots.zip oldPivots).foldl (fun page change =>
    match change.1 with
    | [] => page
    | first :: _ =>
        if change.2.2 = first.2 then page else page.updateChild first.1 first.2) page
  insertIndexEntries updated (addedPivots newPivots oldPivots)

/-- `PageReadChildAtOffset`. -/
def Page.readChildAtOffset (page : Page) (offset : Nat) : UInt32 :=
  match (page.decodeEntry offset).2 with
  | .child pgId => pgId
  | .value val => UInt32.ofNat val.length

/-- The pivots that `TreeSplitInternalPage` distributes. -/
def splitPivots (page : Page) (newPivots : List SlicePageMap)
    (oldPivots : List (Slice × UInt32)) : SlicePageMap :=
  let kept := (List.range page.itemNum).filter fun offset =>
    page.readPivotAtOffset offset ∉ oldPivots.map Prod.fst
  let tempPivots := SlicePageMap.assign [] (kept.map fun offset =>
    (page.readPivotAtOffset offset, page.readChildAtOffset offset))
  newPivots.foldl SlicePageMap.merge tempPivots

/-- The second loop of `DistributePivots`: the last page takes all that is left. -/
def fillPages (pageItemSize : Nat) : SlicePageMap → Page → Nat → List Page → Option (List Page)
  | [], page, _, others => some (page :: others)
  | item :: items, page, offset, others =>
      (page.insertIndexEntry item.1 item.2).bind fun page =>
        match others with
        | next :: others =>
            if pageItemSize ≤ offset + 1 then
              (fillPages pageItemSize items next 0 others).map (page :: ·)
            else fillPages pageItemSize items page (offset + 1) (next :: others)
        | [] => fillPages pageItemSize items page (offset + 1) []

/-- What every page of a split gets. -/
def pageItemSize (number newPgNum : Nat) : Nat := (number + newPgNum - 1) / newPgNum

/-- `BplusTree::DistributePivots`, with the page that stays in memory first; each page that
has an entry has its first pivot as its guard. -/
def distributePivots (pgId : Nat) (tempPivots : SlicePageMap) (newPages : List Page) :
    Option (List Page × List Slice) :=
  let size := pageItemSize tempPivots.length (newPages.length + 1)
  (insertIndexEntries (pageInit pgId fun _ => 0) (tempPivots.take size)).bind fun extraOne =>
    match newPages with
    | [] => none
    | curPage :: others =>
        (fillPages size (tempPivots.drop size) curPage 0 others).map fun pages =>
          (extraOne :: pages, ((extraOne :: pages).filter fun page => 0 < page.itemNum).map
            fun page => page.readPivotAtOffset 0)

/-- `Node::SplitNodeAndLSMT` splits an index page into two pages at least. -/
def splitNum (page : Page) (newPivots : List SlicePageMap)
    (oldPivots : List (Slice × UInt32)) : Nat :=
  max 2 (equalSplitInternalPage page newPivots oldPivots)

/-- The split of an index page, with new pages from an id on. -/
def splitInternalPage (page : Page) (newPivots : List SlicePageMap)
    (oldPivots : List (Slice × UInt32)) (newId : Nat) : Option (List Page × List Slice) :=
  distributePivots page.pageId (splitPivots page newPivots oldPivots)
    ((List.range (splitNum page newPivots oldPivots - 1)).map fun index =>
      allocate (newId + index))

/-! ## Leaf pages -/

/-- A test with the space that the insertion needs as well lets exactly one size through
that the insertion does not take. -/
theorem btreeTryInsertLeaf_eq_none_iff (page : Page) (key val : Slice) :
    btreeTryInsertLeaf page key val = none ↔
      page.getFreeSpace = key.length + val.length + 3 * itemIdSize := by
  simp only [btreeTryInsertLeaf]
  split_ifs with overflow
  · simp only [false_iff]
    omega
  · rw [Option.map_eq_none_iff]
    simp only [Page.insertLeafEntry]
    split_ifs
    · simp only [true_iff]
      omega
    · simp only [false_iff]
      omega
    · simp only [false_iff]
      omega

theorem bplusTryInsertLeaf_eq_none_iff (page : Page) (key val : Slice) :
    bplusTryInsertLeaf page key val = none ↔
      page.getFreeSpace = key.length + val.length + 3 * itemIdSize := by
  simp only [bplusTryInsertLeaf]
  split_ifs with overflow
  · simp only [false_iff]
    omega
  · rw [Option.map_eq_none_iff]
    simp only [Page.insertLeafEntryWithSeq]
    split_ifs
    · simp only [true_iff]
      omega
    · simp only [false_iff]
      omega
    · simp only [false_iff]
      omega

/-- A leaf is safe when the internal key, which is eight bytes longer, will not overflow
it. -/
theorem safeNode_iff {page : Page} (isLeaf : page.isLeaf = true) {key internalKey : Slice}
    (isInternal : internalKey.length = key.length + 8) (val : Slice) :
    safeNode page key val = true ↔ bplusTryInsertLeaf page internalKey val ≠ some none := by
  simp only [safeNode, bplusTryInsertLeaf, isLeaf, if_true, isInternal, decide_eq_true_eq]
  split_ifs with overflow
  · simp [overflow]
  · simp [overflow, Option.map_eq_some_iff]

/-! ## Index pages with keys of one size -/

/-- What an entry takes, with its item id. -/
def indexEntrySize (keySize : Nat) : Nat := keySize + 3 * itemIdSize

structure FixedKeys (keySize : Nat) (page : Page) : Prop extends Laid page where
  isIndex : page.isLeaf = false
  sameSize : ∀ key ∈ page.keys, key.length = keySize

theorem fixedKeys_allocate (keySize newId : Nat) : FixedKeys keySize (allocate newId) :=
  { (wellFormed_pageInit newId false fun _ => 0).toLaid with
    isIndex := rfl
    sameSize := by simp [Page.keys, Page.entries, Page.ids, allocate, pageInit] }

theorem getFreeSpace_lt_iff_of_le (page : Page) {need : Nat} (large : itemIdSize ≤ need) :
    page.getFreeSpace < need ↔ page.freeEnd - page.freeStart < need := by
  unfold Page.getFreeSpace
  split_ifs with tight
  · omega
  · rfl

namespace FixedKeys

variable {keySize : Nat} {page after : Page} (fixed : FixedKeys keySize page)

include fixed

theorem encodedLen_eq {entry : Entry} (member : entry ∈ page.entries) :
    encodedLen entry = keySize + itemIdSize * 2 := by
  have size := fixed.sameSize _ (List.mem_map_of_mem member)
  obtain ⟨offset, inside, rfl⟩ := List.getElem_of_mem member
  rw [Page.entries_getElem] at size ⊢
  rw [encodedLen, size, decodeEntry_child fixed.isIndex, Payload.extra]
  rfl

/-- The entries and the free space make up the page. -/
theorem space : page.itemNum * indexEntrySize keySize + (page.freeEnd - page.freeStart) =
    Btree.usableSpace := by
  have sum := fixed.tiles.sum
  have sizes : page.spans.map Span.size =
      List.replicate page.itemNum (keySize + itemIdSize * 2) := by
    rw [List.eq_replicate_iff]
    refine ⟨by simp, fun size member => ?_⟩
    obtain ⟨span, isSpan, rfl⟩ := List.mem_map.mp member
    obtain ⟨pos, isPos, rfl⟩ := List.mem_map.mp isSpan
    exact fixed.encodedLen_eq (List.mem_map_of_mem isPos)
  rw [sizes, List.sum_replicate_nat] at sum
  have start := fixed.freeStart
  have room := fixed.room
  have entrySize : page.itemNum * indexEntrySize keySize =
      page.itemNum * (keySize + itemIdSize * 2) + itemIdSize * page.itemNum := by
    rw [Nat.mul_comm itemIdSize page.itemNum, ← Nat.mul_add]
    rfl
  unfold Btree.usableSpace
  omega

theorem getFreeSpace_lt_iff : page.getFreeSpace < indexEntrySize keySize ↔
    Btree.usableSpace < (page.itemNum + 1) * indexEntrySize keySize := by
  have space := fixed.space
  rw [getFreeSpace_lt_iff_of_le page (by simp only [indexEntrySize, itemIdSize]; omega),
    Nat.succ_mul]
  omega

theorem insertIndexEntry_eq_none_iff {key : Slice} (isKey : key.length = keySize)
    (pgId : UInt32) : page.insertIndexEntry key pgId = none ↔
      Btree.usableSpace ≤ (page.itemNum + 1) * indexEntrySize keySize := by
  have space := fixed.space
  have isNeed : key.length + itemIdSize * 3 = indexEntrySize keySize := by
    rw [isKey, Nat.mul_comm]
    rfl
  have large : itemIdSize ≤ indexEntrySize keySize + 1 := by
    simp only [indexEntrySize, itemIdSize]
    omega
  unfold Page.insertIndexEntry
  rw [isNeed, ite_eq_left_iff]
  simp only [reduceCtorEq, imp_false, not_not]
  rw [← Nat.lt_succ_iff, getFreeSpace_lt_iff_of_le page large, Nat.succ_mul]
  omega

theorem insertIndexEntry {key : Slice} (isKey : key.length = keySize) {pgId : UInt32}
    (done : page.insertIndexEntry key pgId = some after) :
    FixedKeys keySize after ∧ after.itemNum = page.itemNum + 1 := by
  unfold Page.insertIndexEntry at done
  split_ifs at done with room
  cases done
  have isNeed : key.length + itemIdSize * 3 =
      encodedLen (key, .child pgId) + itemIdSize := rfl
  have fits := fixed.toLaid.fits isNeed room
  have inside := binSearchInsert_le page key
  refine ⟨?_, rfl⟩
  refine { writeEntryAt_laid fits inside fixed.toLaid fixed.isIndex.symm with
    isIndex := fixed.isIndex
    sameSize := ?_ }
  intro other member
  rw [Page.keys, writeEntryAt_entries fixed.spaced fits inside fixed.isIndex.symm] at member
  obtain ⟨entry, isEntry, rfl⟩ := List.mem_map.mp member
  rcases (List.mem_insertIdx (by simpa using inside)).mp isEntry with rfl | stays
  · exact isKey
  · exact fixed.sameSize _ (List.mem_map_of_mem stays)

/-- Entries that all fit are not enough: the last one must leave some space. -/
theorem insertIndexEntries_eq_none_iff {items : List (Slice × UInt32)}
    (sizes : ∀ item ∈ items, item.1.length = keySize) :
    Slotted.insertIndexEntries page items = none ↔ items ≠ [] ∧
      Btree.usableSpace ≤ (page.itemNum + items.length) * indexEntrySize keySize := by
  induction items generalizing page with
  | nil => simp [Slotted.insertIndexEntries]
  | cons item items ih =>
      obtain ⟨isSize, others⟩ := List.forall_mem_cons.mp sizes
      have single := fixed.insertIndexEntry_eq_none_iff isSize item.2
      simp only [ne_eq, List.cons_ne_nil, not_false_eq_true, true_and, List.length_cons]
      have further : (page.itemNum + 1) * indexEntrySize keySize ≤
          (page.itemNum + (items.length + 1)) * indexEntrySize keySize :=
        Nat.mul_le_mul_right _ (by omega)
      cases first : page.insertIndexEntry item.1 item.2 with
      | none =>
          have isNone : Slotted.insertIndexEntries page (item :: items) = none := by
            simp [Slotted.insertIndexEntries, first]
          exact iff_of_true isNone ((single.mp first).trans further)
      | some next =>
          have isRest : Slotted.insertIndexEntries page (item :: items) =
              Slotted.insertIndexEntries next items := by
            simp [Slotted.insertIndexEntries, first]
          have room : ¬ Btree.usableSpace ≤ (page.itemNum + 1) * indexEntrySize keySize :=
            fun tight => by simp [single.mpr tight] at first
          obtain ⟨nextFixed, nextNum⟩ := fixed.insertIndexEntry isSize first
          rw [isRest, ih nextFixed others, nextNum, Nat.add_assoc, Nat.add_comm 1]
          cases items with
          | nil => simpa using room
          | cons => simp

end FixedKeys

/-! ## Index pages whose child has split -/

theorem getOffsetByChild_inside {page : Page} {child : UInt32} {offset : Nat}
    (found : page.getOffsetByChild child = some offset) : offset < page.itemNum :=
  List.mem_range.mp (List.mem_of_find?_eq_some found)

theorem FixedKeys.removeOffset {keySize : Nat} {page : Page} (fixed : FixedKeys keySize page)
    {offset : Nat} (inside : offset < page.itemNum) :
    FixedKeys keySize (page.removeOffset offset) := by
  have size : ∀ index, index < page.itemNum →
      encodedLen (page.decodeEntry index) = keySize + itemIdSize * 2 := by
    intro index within
    have isEntry : index < page.entries.length := by simpa using within
    rw [← Page.entries_getElem isEntry]
    exact fixed.encodedLen_eq (List.getElem_mem isEntry)
  have gap : GapFits page offset := fun further => by rw [size _ further, size _ inside]
  have exactGap := (gapFits_iff fixed.toLaid inside).mp gap
  refine { removeOffset_laid fixed.toLaid inside exactGap with
    isIndex := fixed.isIndex
    sameSize := ?_ }
  intro key member
  rw [Page.keys, removeOffset_entries fixed.toLaid inside exactGap] at member
  obtain ⟨entry, isEntry, rfl⟩ := List.mem_map.mp member
  exact fixed.sameSize _ (List.mem_map_of_mem (List.mem_of_mem_eraseIdx isEntry))

/-- For keys of one size the space for one entry, with an item id to spare, is enough for
two when one has gone. -/
theorem tryInsertInternal_room {keySize : Nat} {page : Page} (fixed : FixedKeys keySize page)
    {first second : Slice} (firstSize : first.length = keySize)
    (secondSize : second.length = keySize) (firstId secondId old : UInt32) :
    tryInsertInternal page [first, second] [firstId, secondId] old ≠ .error .noSpace := by
  simp only [tryInsertInternal, List.headD_cons, List.zip_cons_cons, List.zip_nil_right]
  split_ifs with overflow
  · simp
  · cases found : page.getOffsetByChild old with
    | none => simp
    | some offset =>
        have inside := getOffsetByChild_inside found
        have removed := fixed.removeOffset inside
        have sizes : ∀ item ∈ [(first, firstId), (second, secondId)],
            item.1.length = keySize := by
          simp [firstSize, secondSize]
        have enough : insertIndexEntries (page.removeOffset offset)
            [(first, firstId), (second, secondId)] ≠ none := by
          rw [ne_eq, removed.insertIndexEntries_eq_none_iff sizes, removeOffset_itemNum inside]
          rw [getFreeSpace_lt_iff_of_le page (by simp only [itemIdSize]; omega)] at overflow
          have space := fixed.space
          have isNum : page.itemNum - 1 + 2 = page.itemNum + 1 := by omega
          simp only [List.length_cons, List.length_nil, isNum]
          rw [Nat.succ_mul]
          simp only [indexEntrySize, itemIdSize] at space overflow ⊢
          omega
        obtain ⟨after, isAfter⟩ := Option.ne_none_iff_exists'.mp enough
        simp [isAfter]

/-! ## Index pages whose children have been split -/

theorem binSearch_inside {page : Page} (nonempty : 0 < page.itemNum) (key : Slice) :
    page.binSearch key < page.itemNum := by
  have keys : page.keys ≠ [] := List.ne_nil_of_length_pos (by rwa [Page.keys_length])
  have found := (pageBinSearch_stops keys key).inside
  rwa [← Page.binSearch_eq, Page.keys_length] at found

theorem updateChild_replaced {page : Page} (laid : Laid page) (isIndex : page.isLeaf = false)
    (nonempty : 0 < page.itemNum) (pivot : Slice) (child : UInt32) :
    Replaced page (page.updateChild pivot child) (page.binSearch pivot)
      ((page.decodeEntry (page.binSearch pivot)).1, .child child) := by
  have inside := binSearch_inside nonempty pivot
  generalize isOffset : page.binSearch pivot = offset at inside
  generalize isStart : page.itemId offset + (page.decodeEntry offset).1.length + itemIdSize =
    start
  have isPage : page.updateChild pivot child =
      page.overwrite start (encodeFixed 4 child.toNat) := by
    simp only [Page.updateChild]
    rw [isOffset, decodeEntry_keySize, isStart]
    rfl
  have noValue : (page.decodeEntry offset).2.extra = 0 := by
    rw [decodeEntry_child isIndex, Payload.extra]
  simp only [itemIdSize] at isStart
  have overwritten : Overwritten page (page.overwrite start (encodeFixed 4 child.toNat)) offset :=
    overwrite_overwritten (by omega) (by
      rw [encodeFixed_length]
      simp only [encodedLen, itemIdSize]
      omega)
  rw [isPage]
  refine ⟨overwritten, ?_, by rw [encodedLen, encodedLen, noValue]; rfl⟩
  rw [Page.decodeEntry, overwritten.itemId laid.spaced inside inside]
  refine recordAt_eq ?_ ?_ ?_
  · rw [← decodeEntry_keySize]
    exact decodeInt32At_mirrors (.write (.inl (by omega)))
  · refine Eq.trans (Memory.Mirrors.read_eq (.write (.inl ?_))) (decodeEntry_key page offset)
    simp only [itemIdSize]
    omega
  · have stillIndex : (page.overwrite start (encodeFixed 4 child.toNat)).isLeaf = false := isIndex
    have isBehind : page.itemId offset + itemIdSize + (page.decodeEntry offset).1.length =
        start := by
      simp only [itemIdSize]
      omega
    have isNumber : decodeInt32At (encodeInt32At page.bytes start child.toNat) start =
        child.toNat := decodeInt32At_encode child.toNat_lt
    rw [stillIndex, isBehind]
    exact congrArg Payload.child ((congrArg UInt32.ofNat isNumber).trans UInt32.ofNat_toNat)

theorem FixedKeys.updateChild {keySize : Nat} {page : Page} (fixed : FixedKeys keySize page)
    (nonempty : 0 < page.itemNum) (pivot : Slice) (child : UInt32) :
    FixedKeys keySize (page.updateChild pivot child) := by
  have inside := binSearch_inside nonempty pivot
  have replaced := updateChild_replaced fixed.toLaid fixed.isIndex nonempty pivot child
  refine { replaced.laid_of inside fixed.toLaid with
    isIndex := fixed.isIndex
    sameSize := ?_ }
  intro key member
  rw [Page.keys, replaced.entries_eq fixed.spaced inside] at member
  obtain ⟨entry, isEntry, rfl⟩ := List.mem_map.mp member
  rcases List.mem_or_eq_of_mem_set isEntry with stays | rfl
  · exact fixed.sameSize _ (List.mem_map_of_mem stays)
  · have isOld : page.binSearch pivot < page.entries.length := by simpa using inside
    refine fixed.sameSize _ (List.mem_map.mpr ⟨_, List.getElem_mem isOld, ?_⟩)
    rw [Page.entries_getElem]

/-- What the flush of an index page hands to its split: some of its pivots, each with the
pivots that take its place, all of one size. -/
structure Matched (keySize : Nat) (page : Page) (newPivots : List SlicePageMap)
    (oldPivots : List (Slice × UInt32)) : Prop where
  sameLength : newPivots.length = oldPivots.length
  nonempty : ∀ kids ∈ newPivots, kids ≠ []
  distinct : (oldPivots.map Prod.fst).Nodup
  present : ∀ old ∈ oldPivots, old.1 ∈ page.keys
  sameSize : ∀ kids ∈ newPivots, ∀ kid ∈ kids, kid.1.length = keySize

/-- The most entries of a page. -/
def capacity (keySize : Nat) : Nat := Btree.usableSpace / indexEntrySize keySize

theorem capacity_mul_le (keySize : Nat) :
    capacity keySize * indexEntrySize keySize ≤ Btree.usableSpace := Nat.div_mul_le_self ..

theorem FixedKeys.itemNum_le {keySize : Nat} {page : Page} (fixed : FixedKeys keySize page) :
    page.itemNum ≤ capacity keySize := by
  have space := fixed.space
  refine (Nat.le_div_iff_mul_le ?_).mpr (by omega)
  simp only [indexEntrySize, itemIdSize]
  omega

section matched

variable {keySize : Nat} {page : Page} {newPivots : List SlicePageMap}
  {oldPivots : List (Slice × UInt32)} (fixed : FixedKeys keySize page)
  (matched : Matched keySize page newPivots oldPivots)

include matched in
theorem Matched.itemNum_pos (several : oldPivots ≠ []) : 0 < page.itemNum := by
  obtain ⟨old, others, rfl⟩ := List.exists_cons_of_ne_nil several
  rw [← Page.keys_length]
  exact List.length_pos_of_mem (matched.present old List.mem_cons_self)

include fixed in
/-- Each replacement leaves the sizes as they are. -/
theorem updateChildren_fixed (changes : List (SlicePageMap × (Slice × UInt32)))
    (nonempty : changes ≠ [] → 0 < page.itemNum) :
    FixedKeys keySize (changes.foldl (fun page change =>
      match change.1 with
      | [] => page
      | first :: _ =>
          if change.2.2 = first.2 then page else page.updateChild first.1 first.2) page) ∧
    (changes.foldl (fun page change =>
      match change.1 with
      | [] => page
      | first :: _ =>
          if change.2.2 = first.2 then page else page.updateChild first.1 first.2)
      page).itemNum = page.itemNum := by
  induction changes generalizing page with
  | nil => exact ⟨fixed, rfl⟩
  | cons change changes ih =>
      have positive := nonempty (List.cons_ne_nil _ _)
      obtain ⟨kids, old⟩ := change
      rw [List.foldl_cons]
      cases kids with
      | nil => exact ih fixed fun _ => positive
      | cons first kids =>
          simp only
          split_ifs
          · exact ih fixed fun _ => positive
          · have updated := fixed.updateChild positive first.1 first.2
            exact ih updated fun _ => positive

include matched in
theorem addedPivots_length_le (several : oldPivots ≠ []) :
    (addedPivots newPivots oldPivots).length ≤ calculateNumber newPivots oldPivots := by
  refine (SlicePageMap.assign_length_le _ _).trans ?_
  have isFirst : (newPivots.zip oldPivots).map Prod.fst = newPivots :=
    List.map_fst_zip matched.sameLength.le
  have tails : (newPivots.zip oldPivots).map (fun change => change.1.tail.length) =
      newPivots.map fun kids => kids.length - 1 := by
    conv_rhs => rw [← isFirst, List.map_map]
    exact List.map_congr_left fun change _ => List.length_tail
  have notEmpty : oldPivots.isEmpty = false := by simpa using several
  rw [List.length_flatMap, tails, calculateNumber, notEmpty]
  simp

include matched in
theorem addedPivots_sizes : ∀ item ∈ addedPivots newPivots oldPivots,
    item.1.length = keySize := by
  intro item member
  rcases SlicePageMap.mem_assign member with none | added
  · cases none
  · obtain ⟨⟨kids, old⟩, isChange, isKid⟩ := List.mem_flatMap.mp added
    exact matched.sameSize kids (List.of_mem_zip isChange).1 item (List.mem_of_mem_tail isKid)

include fixed matched

theorem equalSplitInternalPage_eq (several : oldPivots ≠ []) :
    equalSplitInternalPage page newPivots oldPivots =
      (calculateNumber newPivots oldPivots + page.itemNum + capacity keySize - 1) /
        capacity keySize := by
  cases oldPivots with
  | nil => exact absurd rfl several
  | cons old others =>
      have isSize := fixed.sameSize _ (matched.present old List.mem_cons_self)
      rw [equalSplitInternalPage, isSize]
      rfl

/-- A page that need not be split has room for the new pivots, unless they fill it. -/
theorem updateOrRewritePivots_eq_none_iff
    (admitted : equalSplitInternalPage page newPivots oldPivots = 1) :
    updateOrRewritePivots page newPivots oldPivots = none ↔
      addedPivots newPivots oldPivots ≠ [] ∧
        (page.itemNum + (addedPivots newPivots oldPivots).length) * indexEntrySize keySize =
          Btree.usableSpace := by
  obtain ⟨updated, sameNum⟩ := updateChildren_fixed fixed (newPivots.zip oldPivots)
    fun changes => matched.itemNum_pos (by rintro rfl; simp at changes)
  unfold updateOrRewritePivots
  simp only
  rw [updated.insertIndexEntries_eq_none_iff (addedPivots_sizes matched), sameNum]
  by_cases several : oldPivots = []
  · have noPivot : addedPivots newPivots oldPivots = [] := by
      rw [addedPivots, several, List.zip_nil_right]
      rfl
    simp [noPivot]
  · have positive : 0 < capacity keySize :=
      (matched.itemNum_pos several).trans_le fixed.itemNum_le
    rw [equalSplitInternalPage_eq fixed matched several, Nat.div_eq_iff positive] at admitted
    have fewer := addedPivots_length_le matched several
    have fits : (page.itemNum + (addedPivots newPivots oldPivots).length) *
        indexEntrySize keySize ≤ Btree.usableSpace :=
      (Nat.mul_le_mul_right _ (by omega)).trans (capacity_mul_le keySize)
    refine and_congr_right fun _ => ?_
    omega

omit fixed in
/-- The pivots that stay are those that are not replaced. -/
theorem kept_length_le : ((List.range page.itemNum).filter fun offset =>
    page.readPivotAtOffset offset ∉ oldPivots.map Prod.fst).length + oldPivots.length ≤
      page.itemNum := by
  have isKeys : page.keys = (List.range page.itemNum).map page.readPivotAtOffset := by
    rw [Page.keys, Page.entries, Page.ids, List.map_map, List.map_map]
    refine List.map_congr_left fun offset inside => ?_
    rw [Page.readPivotAtOffset, if_neg (by simpa using inside)]
    rfl
  have replaced : (oldPivots.map Prod.fst).Subperm
      (page.keys.filter fun key => key ∈ oldPivots.map Prod.fst) := by
    refine matched.distinct.subperm fun key member => ?_
    obtain ⟨old, isOld, rfl⟩ := List.mem_map.mp member
    exact List.mem_filter.mpr ⟨matched.present old isOld, decide_eq_true member⟩
  have parted := List.length_eq_length_filter_add
    (l := page.keys) (fun key => decide (key ∈ oldPivots.map Prod.fst))
  have count := replaced.length_le
  rw [List.length_map] at count
  rw [Page.keys_length] at parted
  have kept : ((List.range page.itemNum).filter fun offset =>
      page.readPivotAtOffset offset ∉ oldPivots.map Prod.fst).length =
        (page.keys.filter fun key => !decide (key ∈ oldPivots.map Prod.fst)).length := by
    rw [isKeys, List.filter_map, List.length_map]
    refine congrArg List.length (List.filter_congr fun offset _ => ?_)
    exact decide_not
  omega

omit fixed matched in
theorem mergeAll_length_le (tempPivots : SlicePageMap) (maps : List SlicePageMap) :
    (maps.foldl SlicePageMap.merge tempPivots).length ≤
      tempPivots.length + (maps.map List.length).sum := by
  induction maps generalizing tempPivots with
  | nil => exact Nat.le_refl _
  | cons map maps ih =>
      have merged := tempPivots.merge_length_le map
      rw [List.foldl_cons, List.map_cons, List.sum_cons]
      exact (ih _).trans (by omega)

omit fixed matched in
theorem mem_mergeAll {tempPivots : SlicePageMap} {maps : List SlicePageMap}
    {item : Slice × UInt32} (member : item ∈ maps.foldl SlicePageMap.merge tempPivots) :
    item ∈ tempPivots ∨ ∃ map ∈ maps, item ∈ map := by
  induction maps generalizing tempPivots with
  | nil => exact .inl member
  | cons map maps ih =>
      rcases ih member with merged | ⟨other, isOther, isItem⟩
      · exact (SlicePageMap.mem_merge merged).imp_right fun isItem =>
          ⟨map, List.mem_cons_self, isItem⟩
      · exact .inr ⟨other, List.mem_cons_of_mem _ isOther, isItem⟩

omit fixed matched in
theorem sum_length_le (maps : List SlicePageMap) (number : SlicePageMap → Nat)
    (each : ∀ map, map.length ≤ number map + 1) :
    (maps.map List.length).sum ≤ (maps.map number).sum + maps.length := by
  induction maps with
  | nil => exact Nat.le_refl 0
  | cons map maps ih =>
      have first := each map
      simp only [List.map_cons, List.sum_cons, List.length_cons]
      omega

omit fixed in
/-- Each old pivot makes room for one of those that take its place. -/
theorem splitPivots_length_le : (splitPivots page newPivots oldPivots).length ≤
    page.itemNum + calculateNumber newPivots oldPivots := by
  have kept := kept_length_le matched
  have sizes : (newPivots.map List.length).sum ≤
      calculateNumber newPivots oldPivots + newPivots.length := by
    refine sum_length_le newPivots _ fun kids => ?_
    split_ifs
    · omega
    · omega
  have assigned := SlicePageMap.assign_length_le [] (((List.range page.itemNum).filter
    fun offset => page.readPivotAtOffset offset ∉ oldPivots.map Prod.fst).map fun offset =>
      (page.readPivotAtOffset offset, page.readChildAtOffset offset))
  rw [List.length_map, List.length_nil] at assigned
  have merged := mergeAll_length_le (SlicePageMap.assign [] (((List.range page.itemNum).filter
    fun offset => page.readPivotAtOffset offset ∉ oldPivots.map Prod.fst).map fun offset =>
      (page.readPivotAtOffset offset, page.readChildAtOffset offset))) newPivots
  have sameLength := matched.sameLength
  exact merged.trans (by omega)

theorem splitPivots_sizes : ∀ item ∈ splitPivots page newPivots oldPivots,
    item.1.length = keySize := by
  intro item member
  rcases mem_mergeAll member with stays | ⟨kids, isKids, isKid⟩
  · rcases SlicePageMap.mem_assign stays with none | isOld
    · cases none
    · obtain ⟨offset, isOffset, rfl⟩ := List.mem_map.mp isOld
      have inside := List.mem_range.mp (List.mem_filter.mp isOffset).1
      have isEntry : offset < page.entries.length := by simpa using inside
      refine fixed.sameSize _ (List.mem_map.mpr ⟨_, List.getElem_mem isEntry, ?_⟩)
      rw [Page.entries_getElem, Page.readPivotAtOffset, if_neg (by omega)]
  · exact matched.sameSize kids isKids item isKid

theorem splitPivots_le_capacity : (splitPivots page newPivots oldPivots).length ≤
    splitNum page newPivots oldPivots * capacity keySize := by
  refine (splitPivots_length_le matched).trans ?_
  by_cases several : oldPivots = []
  · have noPivot : newPivots = [] :=
      List.eq_nil_of_length_eq_zero (by rw [matched.sameLength, several]; rfl)
    have atLeast : 2 * capacity keySize ≤
        splitNum page newPivots oldPivots * capacity keySize :=
      Nat.mul_le_mul_right _ (Nat.le_max_left ..)
    have fits := fixed.itemNum_le
    rw [noPivot] at atLeast ⊢
    simp only [calculateNumber, List.map_nil, List.sum_nil]
    omega
  · have positive : 0 < capacity keySize :=
      (matched.itemNum_pos several).trans_le fixed.itemNum_le
    have enough : equalSplitInternalPage page newPivots oldPivots * capacity keySize ≤
        splitNum page newPivots oldPivots * capacity keySize :=
      Nat.mul_le_mul_right _ (Nat.le_max_right ..)
    refine le_trans ?_ enough
    rw [equalSplitInternalPage_eq fixed matched several]
    have rounded := Nat.lt_div_mul_add
      (a := calculateNumber newPivots oldPivots + page.itemNum + capacity keySize - 1) positive
    omega

end matched

/-! ## Pages that share the pivots of one -/

section distribute

variable {keySize size : Nat}

/-- The pages after the first one have room for what is left. -/
theorem fillPages_room (room : size * indexEntrySize keySize < Btree.usableSpace)
    (positive : 0 < size) {items : SlicePageMap}
    (sizes : ∀ item ∈ items, item.1.length = keySize) {page : Page} {others : List Page}
    (fixed : FixedKeys keySize page) {offset : Nat} (isNum : page.itemNum = offset)
    (fresh : ∀ other ∈ others, FixedKeys keySize other ∧ other.itemNum = 0)
    (below : others ≠ [] → offset < size)
    (enough : offset + items.length ≤ size * (others.length + 1)) :
    fillPages size items page offset others ≠ none := by
  induction items generalizing page offset others with
  | nil => simp [fillPages]
  | cons item items ih =>
      obtain ⟨isSize, rest⟩ := List.forall_mem_cons.mp sizes
      rw [List.length_cons] at enough
      have step : offset + 1 ≤ size := by
        cases others with
        | nil =>
            rw [List.length_nil, Nat.zero_add, Nat.mul_one] at enough
            omega
        | cons => exact below (List.cons_ne_nil _ _)
      have inserted : page.insertIndexEntry item.1 item.2 ≠ none := by
        rw [ne_eq, fixed.insertIndexEntry_eq_none_iff isSize, isNum, not_le]
        exact (Nat.mul_le_mul_right _ step).trans_lt room
      obtain ⟨next, isNext⟩ := Option.ne_none_iff_exists'.mp inserted
      obtain ⟨nextFixed, nextNum⟩ := fixed.insertIndexEntry isSize isNext
      rw [isNum] at nextNum
      unfold fillPages
      rw [isNext, Option.bind_some]
      cases others with
      | nil => exact ih rest nextFixed nextNum fresh (fun some => absurd rfl some) (by omega)
      | cons other others =>
          simp only
          split_ifs with isFull
          · obtain ⟨⟨otherFixed, otherNum⟩, later⟩ := List.forall_mem_cons.mp fresh
            rw [ne_eq, Option.map_eq_none_iff]
            refine ih rest otherFixed otherNum later (fun _ => positive) ?_
            rw [List.length_cons, Nat.mul_succ] at enough
            omega
          · exact ih rest nextFixed nextNum fresh (fun _ => by omega) (by omega)

theorem pageItemSize_le (number newPgNum : Nat) :
    pageItemSize number (newPgNum + 1) ≤ number := by
  refine Nat.lt_succ_iff.mp ((Nat.div_lt_iff_lt_mul (Nat.succ_pos _)).mpr ?_)
  rw [Nat.succ_mul, Nat.mul_succ]
  omega

theorem length_le_pageItemSize (number newPgNum : Nat) :
    number ≤ pageItemSize number (newPgNum + 1) * (newPgNum + 1) := by
  have rounded := Nat.lt_div_mul_add (a := number + (newPgNum + 1) - 1) (Nat.succ_pos newPgNum)
  change _ < pageItemSize number (newPgNum + 1) * (newPgNum + 1) + _ at rounded
  omega

theorem distributePivots_eq_none_iff {pgId : Nat} {tempPivots : SlicePageMap}
    (sizes : ∀ item ∈ tempPivots, item.1.length = keySize) {newPages : List Page}
    (several : newPages ≠ [])
    (fresh : ∀ page ∈ newPages, FixedKeys keySize page ∧ page.itemNum = 0)
    (fits : pageItemSize tempPivots.length (newPages.length + 1) * indexEntrySize keySize ≤
      Btree.usableSpace) :
    distributePivots pgId tempPivots newPages = none ↔
      pageItemSize tempPivots.length (newPages.length + 1) * indexEntrySize keySize =
        Btree.usableSpace := by
  have lengthLe := length_le_pageItemSize tempPivots.length newPages.length
  have sizeLe := pageItemSize_le tempPivots.length newPages.length
  unfold distributePivots
  simp only
  generalize pageItemSize tempPivots.length (newPages.length + 1) = size at *
  have takeSizes : ∀ item ∈ tempPivots.take size, item.1.length = keySize :=
    fun item member => sizes item (List.mem_of_mem_take member)
  have dropSizes : ∀ item ∈ tempPivots.drop size, item.1.length = keySize :=
    fun item member => sizes item (List.mem_of_mem_drop member)
  have extra := (fixedKeys_allocate keySize pgId).insertIndexEntries_eq_none_iff takeSizes
  have isNum : (allocate pgId).itemNum + (tempPivots.take size).length = size := by
    rw [List.length_take_of_le sizeLe]
    exact Nat.zero_add size
  rw [isNum] at extra
  obtain ⟨curPage, others, rfl⟩ := List.exists_cons_of_ne_nil several
  obtain ⟨⟨curFixed, curNum⟩, later⟩ := List.forall_mem_cons.mp fresh
  cases first : insertIndexEntries (pageInit pgId fun _ => 0) (tempPivots.take size) with
  | none => exact iff_of_true rfl (Nat.le_antisymm fits (extra.mp first).2)
  | some extraOne =>
      have notFull : tempPivots.take size = [] ∨
          size * indexEntrySize keySize < Btree.usableSpace := by
        rw [← not_le]
        refine or_iff_not_imp_left.mpr fun nonempty tight => ?_
        have isNone := extra.mpr ⟨nonempty, tight⟩
        exact absurd (isNone.symm.trans first) (by simp)
      have room : size * indexEntrySize keySize < Btree.usableSpace := by
        rcases notFull with empty | room
        · have noSize : size = 0 := by
            have isLength := List.length_take_of_le sizeLe
            rw [empty] at isLength
            exact isLength.symm
          rw [noSize, Nat.zero_mul]
          exact show 0 < pageSize - pgHdSize by decide
        · exact room
      rw [Option.bind_some, Option.map_eq_none_iff]
      refine iff_of_false ?_ room.ne
      rcases Nat.eq_zero_or_pos size with noSize | positive
      · have noPivot : tempPivots.drop size = [] :=
          List.drop_eq_nil_of_le (by rw [noSize, Nat.zero_mul] at lengthLe; omega)
        simp [noPivot, fillPages]
      · refine fillPages_room room positive dropSizes curFixed curNum later
          (fun _ => positive) ?_
        rw [List.length_cons, Nat.mul_succ] at lengthLe
        rw [List.length_drop]
        omega

/-- A split aborts when the even share of a page fills it. -/
theorem splitInternalPage_eq_none_iff {page : Page} {newPivots : List SlicePageMap}
    {oldPivots : List (Slice × UInt32)} (fixed : FixedKeys keySize page)
    (matched : Matched keySize page newPivots oldPivots) (newId : Nat) :
    splitInternalPage page newPivots oldPivots newId = none ↔
      pageItemSize (splitPivots page newPivots oldPivots).length
        (splitNum page newPivots oldPivots) * indexEntrySize keySize = Btree.usableSpace := by
  have atLeast : 2 ≤ splitNum page newPivots oldPivots := Nat.le_max_left ..
  have isNum : ((List.range (splitNum page newPivots oldPivots - 1)).map fun index =>
      allocate (newId + index)).length + 1 = splitNum page newPivots oldPivots := by
    rw [List.length_map, List.length_range]
    omega
  have share : pageItemSize (splitPivots page newPivots oldPivots).length
      (splitNum page newPivots oldPivots) ≤ capacity keySize := by
    have fewer := splitPivots_le_capacity fixed matched
    refine Nat.lt_succ_iff.mp ((Nat.div_lt_iff_lt_mul (by omega)).mpr ?_)
    rw [Nat.mul_comm] at fewer
    rw [Nat.succ_mul]
    omega
  unfold splitInternalPage
  rw [distributePivots_eq_none_iff (splitPivots_sizes fixed matched), isNum]
  · exact List.ne_nil_of_length_pos (by omega)
  · intro page member
    obtain ⟨index, _, rfl⟩ := List.mem_map.mp member
    exact ⟨fixedKeys_allocate keySize _, rfl⟩
  · rw [isNum]
    exact (Nat.mul_le_mul_right _ share).trans (capacity_mul_le keySize)

end distribute

/-! ## Levels of pages over files -/

section bulkload

variable {keySize : Nat}

/-- The pages have keys of one size, and those that are full have some. -/
structure Loaded (keySize : Nat) (loading : Loading) : Prop where
  current : FixedKeys keySize loading.current
  full : ∀ page ∈ loading.full, FixedKeys keySize page ∧ 0 < page.itemNum

theorem loadChild_eq_none_iff {loading : Loading} (loaded : Loaded keySize loading)
    {item : Slice × Option UInt32} (isSize : item.1.length = keySize) :
    loadChild keySize loading item = none ↔
      Btree.usableSpace = (loading.current.itemNum + 1) * indexEntrySize keySize ∨
        (Btree.usableSpace < (loading.current.itemNum + 1) * indexEntrySize keySize ∧
          Btree.usableSpace ≤ indexEntrySize keySize) := by
  have fixed := loaded.current
  have tight : loading.current.getFreeSpace < keySize + 3 * itemIdSize ↔ _ :=
    fixed.getFreeSpace_lt_iff
  simp only [loadChild]
  rw [Option.map_eq_none_iff]
  generalize (if item.2.isNone = true then loading.newId + 1 else loading.newId) = newId
  split_ifs with full
  · rw [(fixedKeys_allocate keySize newId).insertIndexEntry_eq_none_iff isSize,
      show (allocate newId).itemNum = 0 from rfl, Nat.zero_add, Nat.one_mul]
    have isFull := tight.mp full
    exact ⟨fun small => .inr ⟨isFull, small⟩, fun either => either.elim
      (fun exact => absurd exact isFull.ne) And.right⟩
  · rw [fixed.insertIndexEntry_eq_none_iff isSize]
    have notFull := mt tight.mpr full
    omega

theorem loadChild_loaded {loading after : Loading} (loaded : Loaded keySize loading)
    (room : indexEntrySize keySize < Btree.usableSpace)
    {item : Slice × Option UInt32} (isSize : item.1.length = keySize)
    (done : loadChild keySize loading item = some after) :
    Loaded keySize after ∧ 0 < after.current.itemNum := by
  have fixed := loaded.current
  have tight : loading.current.getFreeSpace < keySize + 3 * itemIdSize ↔ _ :=
    fixed.getFreeSpace_lt_iff
  simp only [loadChild] at done
  generalize (if item.2.isNone = true then loading.newId + 1 else loading.newId) = newId at done
  obtain ⟨page, isPage, rfl⟩ := Option.map_eq_some_iff.mp done
  split_ifs at isPage ⊢ with full
  · obtain ⟨pageFixed, pageNum⟩ := (fixedKeys_allocate keySize _).insertIndexEntry isSize isPage
    refine ⟨⟨pageFixed, ?_⟩, by rw [pageNum]; exact Nat.succ_pos _⟩
    refine List.forall_mem_cons.mpr ⟨⟨fixed, ?_⟩, loaded.full⟩
    by_contra empty
    have isFull := tight.mp full
    rw [Nat.eq_zero_of_not_pos empty, Nat.zero_add, Nat.one_mul] at isFull
    omega
  · obtain ⟨pageFixed, pageNum⟩ := fixed.insertIndexEntry isSize isPage
    exact ⟨⟨pageFixed, loaded.full⟩, by rw [pageNum]; exact Nat.succ_pos _⟩

/-! An entry size that does not divide the space of a page. -/

theorem loadChildren_some (room : indexEntrySize keySize < Btree.usableSpace)
    (uneven : ¬ indexEntrySize keySize ∣ Btree.usableSpace)
    {items : List (Slice × Option UInt32)}
    (sizes : ∀ item ∈ items, item.1.length = keySize) {loading : Loading}
    (loaded : Loaded keySize loading) :
    ∃ after, items.foldlM (loadChild keySize) loading = some after := by
  induction items generalizing loading with
  | nil => exact ⟨loading, rfl⟩
  | cons item items ih =>
      obtain ⟨isSize, rest⟩ := List.forall_mem_cons.mp sizes
      have step : loadChild keySize loading item ≠ none := by
        rw [ne_eq, loadChild_eq_none_iff loaded isSize, not_or, not_and, not_le]
        exact ⟨fun exact => uneven ⟨_, exact.trans (Nat.mul_comm ..)⟩, fun _ => room⟩
      obtain ⟨next, isNext⟩ := Option.ne_none_iff_exists'.mp step
      obtain ⟨after, isAfter⟩ := ih rest (loadChild_loaded loaded room isSize isNext).1
      refine ⟨after, ?_⟩
      rw [List.foldlM_cons, isNext]
      exact isAfter

theorem loadChildren_loaded (room : indexEntrySize keySize < Btree.usableSpace)
    {items : List (Slice × Option UInt32)}
    (sizes : ∀ item ∈ items, item.1.length = keySize) {loading after : Loading}
    (loaded : Loaded keySize loading)
    (nonempty : items ≠ [] ∨ 0 < loading.current.itemNum)
    (done : items.foldlM (loadChild keySize) loading = some after) :
    Loaded keySize after ∧ 0 < after.current.itemNum := by
  induction items generalizing loading with
  | nil =>
      cases done
      exact ⟨loaded, nonempty.resolve_left fun some => some rfl⟩
  | cons item items ih =>
      obtain ⟨isSize, rest⟩ := List.forall_mem_cons.mp sizes
      obtain ⟨next, isNext, later⟩ := Option.bind_eq_some_iff.mp done
      obtain ⟨nextLoaded, positive⟩ := loadChild_loaded loaded room isSize isNext
      exact ih rest nextLoaded (.inr positive) later

/-- What the next level is built over. -/
theorem pages_sizes {loading : Loading} (loaded : Loaded keySize loading)
    (positive : 0 < loading.current.itemNum) : ∀ page ∈ loading.pages,
      (page.readPivotAtOffset 0).length = keySize := by
  intro page member
  have both : FixedKeys keySize page ∧ 0 < page.itemNum := by
    rcases List.mem_cons.mp (List.mem_reverse.mp member) with rfl | isFull
    · exact ⟨loaded.current, positive⟩
    · exact loaded.full page isFull
  have isEntry : 0 < page.entries.length := by simpa using both.2
  refine both.1.sameSize _ (List.mem_map.mpr ⟨_, List.getElem_mem isEntry, ?_⟩)
  rw [Page.entries_getElem, Page.readPivotAtOffset, if_neg (by omega)]

theorem fresh_loaded (keySize newId : Nat) :
    Loaded keySize { current := allocate newId, full := [], newId := newId + 1 } :=
  ⟨fixedKeys_allocate keySize newId, by simp⟩

theorem loadLevels_some (room : indexEntrySize keySize < Btree.usableSpace)
    (uneven : ¬ indexEntrySize keySize ∣ Btree.usableSpace) (fuel : Nat) {addHeight newId : Nat}
    {items : List (Slice × Option UInt32)}
    (sizes : ∀ item ∈ items, item.1.length = keySize) :
    loadLevels keySize fuel addHeight newId items ≠ none := by
  induction fuel generalizing addHeight newId items with
  | zero => exact Option.some_ne_none _
  | succ fuel ih =>
      rw [loadLevels]
      split_ifs with few
      · exact Option.some_ne_none _
      · have nonempty : items ≠ [] := List.ne_nil_of_length_pos (by omega)
        obtain ⟨loading, isLevel⟩ := loadChildren_some room uneven sizes
          (fresh_loaded keySize newId)
        obtain ⟨loaded, positive⟩ := loadChildren_loaded room sizes (fresh_loaded keySize newId)
          (.inl nonempty) isLevel
        rw [loadLevel, isLevel, Option.bind_some]
        refine ih fun item member => ?_
        obtain ⟨page, isPage, rfl⟩ := List.mem_map.mp member
        exact pages_sizes loaded positive page isPage

/-! An entry size that divides it. -/

theorem indexEntrySize_pos (keySize : Nat) : 0 < indexEntrySize keySize := by
  simp only [indexEntrySize, itemIdSize]
  omega

theorem loadChild_same {loading after : Loading} (loaded : Loaded keySize loading)
    {item : Slice × Option UInt32} (isSize : item.1.length = keySize)
    (notFull : ¬ Btree.usableSpace < (loading.current.itemNum + 1) * indexEntrySize keySize)
    (done : loadChild keySize loading item = some after) :
    Loaded keySize after ∧ after.full = loading.full ∧
      after.current.itemNum = loading.current.itemNum + 1 := by
  have roomy : ¬ loading.current.getFreeSpace < keySize + 3 * itemIdSize :=
    mt loaded.current.getFreeSpace_lt_iff.mp notFull
  simp only [loadChild] at done
  rw [if_neg roomy] at done
  obtain ⟨page, isPage, rfl⟩ := Option.map_eq_some_iff.mp done
  obtain ⟨pageFixed, pageNum⟩ := loaded.current.insertIndexEntry isSize isPage
  exact ⟨⟨pageFixed, loaded.full⟩, rfl, pageNum⟩

/-- A full page makes way for a new one. -/
theorem loadChild_turned {loading after : Loading} (loaded : Loaded keySize loading)
    {item : Slice × Option UInt32} (isSize : item.1.length = keySize)
    (isFull : Btree.usableSpace < (loading.current.itemNum + 1) * indexEntrySize keySize)
    (done : loadChild keySize loading item = some after) :
    after.full = loading.current :: loading.full ∧ after.current.itemNum = 1 := by
  have tight : loading.current.getFreeSpace < keySize + 3 * itemIdSize :=
    loaded.current.getFreeSpace_lt_iff.mpr isFull
  simp only [loadChild] at done
  rw [if_pos tight] at done
  obtain ⟨page, isPage, rfl⟩ := Option.map_eq_some_iff.mp done
  exact ⟨rfl, ((fixedKeys_allocate keySize _).insertIndexEntry isSize isPage).2⟩

/-- The entry that would fill the first page is not inserted. -/
theorem loadChildren_exact {number : Nat}
    (exact : Btree.usableSpace = number * indexEntrySize keySize)
    {items : List (Slice × Option UInt32)}
    (sizes : ∀ item ∈ items, item.1.length = keySize) {loading : Loading}
    (loaded : Loaded keySize loading) (below : loading.current.itemNum < number) :
    if loading.current.itemNum + items.length < number then
      ∃ after, items.foldlM (loadChild keySize) loading = some after ∧
        after.full = loading.full
    else items.foldlM (loadChild keySize) loading = none := by
  induction items generalizing loading with
  | nil =>
      rw [if_pos (by simpa using below)]
      exact ⟨loading, rfl, rfl⟩
  | cons item items ih =>
      obtain ⟨isSize, rest⟩ := List.forall_mem_cons.mp sizes
      have step := loadChild_eq_none_iff loaded isSize
      have fits : (loading.current.itemNum + 1) * indexEntrySize keySize ≤
          Btree.usableSpace := exact ▸ Nat.mul_le_mul_right _ below
      rw [List.length_cons]
      cases isNext : loadChild keySize loading item with
      | none =>
          have last : Btree.usableSpace =
              (loading.current.itemNum + 1) * indexEntrySize keySize :=
            (step.mp isNext).resolve_right fun both => absurd fits (not_le.mpr both.1)
          have isLast : number = loading.current.itemNum + 1 :=
            Nat.eq_of_mul_eq_mul_right (indexEntrySize_pos keySize) (exact.symm.trans last)
          rw [if_neg (by omega), List.foldlM_cons, isNext]
          rfl
      | some next =>
          have further : loading.current.itemNum + 1 ≠ number := by
            rintro rfl
            exact absurd (isNext.symm.trans (step.mpr (.inl exact))) (by simp)
          obtain ⟨nextLoaded, sameFull, nextNum⟩ :=
            loadChild_same loaded isSize (not_lt.mpr fits) isNext
          have later := ih rest nextLoaded (by omega)
          rw [nextNum, sameFull, Nat.add_assoc, Nat.add_comm 1] at later
          rw [List.foldlM_cons, isNext]
          exact later

/-- One level is enough when all children fit on a page. -/
theorem loadLevels_exact {number : Nat}
    (exact : Btree.usableSpace = number * indexEntrySize keySize) (fuel : Nat)
    {addHeight newId : Nat} {items : List (Slice × Option UInt32)}
    (sizes : ∀ item ∈ items, item.1.length = keySize) (few : items.length < number) :
    loadLevels keySize fuel addHeight newId items ≠ none := by
  cases fuel with
  | zero => exact Option.some_ne_none _
  | succ fuel =>
      rw [loadLevels]
      split_ifs
      · exact Option.some_ne_none _
      · have level := loadChildren_exact exact sizes (fresh_loaded keySize newId)
          (Nat.zero_lt_of_lt few)
        rw [if_pos (by simpa [allocate, pageInit] using few)] at level
        obtain ⟨loading, isLevel, noFull⟩ := level
        rw [loadLevel, isLevel, Option.bind_some]
        have single : loading.pages.length ≤ 1 := by simp [Loading.pages, noFull]
        cases fuel with
        | zero => exact Option.some_ne_none _
        | succ fuel =>
            rw [loadLevels, if_pos (by simpa using single)]
            exact Option.some_ne_none _

/-- The first level aborts. -/
theorem loadLevels_aborts {addHeight newId : Nat} {items : List (Slice × Option UInt32)}
    (sizes : ∀ item ∈ items, item.1.length = keySize) (several : 1 < items.length)
    (tight : Btree.usableSpace ≤ indexEntrySize keySize ∨
      (indexEntrySize keySize ∣ Btree.usableSpace ∧
        Btree.usableSpace ≤ items.length * indexEntrySize keySize)) :
    loadLevels keySize 1 addHeight newId items = none := by
  have isLevel : loadLevel keySize newId items = none := by
    unfold loadLevel
    by_cases divides : indexEntrySize keySize ∣ Btree.usableSpace
    · obtain ⟨number, exact⟩ := divides
      rw [Nat.mul_comm] at exact
      have positive : 0 < number := by
        refine Nat.pos_of_ne_zero fun none => ?_
        rw [none, Nat.zero_mul] at exact
        exact absurd exact (by decide)
      have level := loadChildren_exact exact sizes (fresh_loaded keySize newId) positive
      rwa [if_neg] at level
      have enough : number ≤ items.length := by
        refine Nat.le_of_mul_le_mul_right (c := indexEntrySize keySize) ?_
          (indexEntrySize_pos keySize)
        rcases tight with whole | ⟨-, filled⟩
        · rw [exact] at whole
          have some : 1 * indexEntrySize keySize ≤ items.length * indexEntrySize keySize :=
            Nat.mul_le_mul_right _ (by omega)
          omega
        · rwa [exact] at filled
      simpa [allocate, pageInit] using enough
    · obtain ⟨item, others, rfl⟩ := List.exists_cons_of_ne_nil
        (List.ne_nil_of_length_pos (Nat.zero_lt_of_lt several))
      have small := tight.resolve_right fun both => divides both.1
      have other : Btree.usableSpace ≠ indexEntrySize keySize := fun same =>
        divides (same ▸ dvd_rfl)
      have first : loadChild keySize
          { current := allocate newId, full := [], newId := newId + 1 } item = none := by
        rw [loadChild_eq_none_iff (fresh_loaded keySize newId)
          (sizes item List.mem_cons_self), show (allocate newId).itemNum = 0 from rfl,
          Nat.zero_add, Nat.one_mul]
        exact .inr ⟨lt_of_le_of_ne small other, small⟩
      rw [List.foldlM_cons, first]
      rfl
  rw [loadLevels, if_neg (by omega), isLevel]
  rfl

/-- Bulkloading goes through as long as no entry is to fill a page, or is larger. -/
theorem bulkloadFiles_iff {smallest : List Slice}
    (sizes : ∀ key ∈ smallest, key.length = keySize) (newId : Nat) :
    (∀ fuel, bulkloadFiles fuel newId smallest ≠ none) ↔
      smallest.length ≤ 1 ∨ (indexEntrySize keySize < Btree.usableSpace ∧
        ¬ (indexEntrySize keySize ∣ Btree.usableSpace ∧
          Btree.usableSpace ≤ smallest.length * indexEntrySize keySize)) := by
  have isNone : ∀ fuel, bulkloadFiles fuel newId smallest = none ↔
      loadLevels (smallest.headD []).length fuel 0 newId
        (smallest.map fun key => (key, none)) = none := fun fuel => Option.map_eq_none_iff
  simp only [ne_eq, isNone]
  by_cases several : smallest.length ≤ 1
  · refine iff_of_true (fun fuel => ?_) (.inl several)
    cases fuel with
    | zero => exact Option.some_ne_none _
    | succ fuel =>
        rw [loadLevels, if_pos (by simpa using several)]
        exact Option.some_ne_none _
  · obtain ⟨first, others, isList⟩ := List.exists_cons_of_ne_nil
      (List.ne_nil_of_length_pos (show 0 < smallest.length by omega))
    have isSize : (smallest.headD []).length = keySize := by
      rw [isList]
      exact sizes first (isList ▸ List.mem_cons_self)
    rw [isSize]
    have itemSizes : ∀ item ∈ smallest.map fun key => (key, (none : Option UInt32)),
        item.1.length = keySize := by
      intro item member
      obtain ⟨key, isKey, rfl⟩ := List.mem_map.mp member
      exact sizes key isKey
    constructor
    · intro always
      refine .inr ⟨?_, ?_⟩
      · by_contra tight
        exact always 1 (loadLevels_aborts itemSizes (by simpa using several)
          (.inl (not_lt.mp tight)))
      · intro filled
        exact always 1 (loadLevels_aborts itemSizes (by simpa using several)
          (.inr (by simpa using filled)))
    · rintro (few | ⟨room, notFilled⟩)
      · exact absurd few several
      · intro fuel
        by_cases divides : indexEntrySize keySize ∣ Btree.usableSpace
        · have notReached := fun enough => notFilled ⟨divides, enough⟩
          obtain ⟨number, exact⟩ := divides
          rw [Nat.mul_comm] at exact
          refine loadLevels_exact exact fuel itemSizes ?_
          rw [List.length_map]
          by_contra reached
          exact notReached (exact ▸ Nat.mul_le_mul_right _ (not_lt.mp reached))
        · exact loadLevels_some room divides fuel itemSizes

end bulkload

/-! ## All callers -/

/-- What the callers let through does not abort, for lack of space, as long as it does not
fill a page to its last byte; and the replacement of one pivot by two never does. -/
theorem space_checks_iff (page : Page) (keySize newId : Nat) :
    (∀ key val : Slice, btreeTryInsertLeaf page key val ≠ none ↔
      page.getFreeSpace ≠ key.length + val.length + 3 * itemIdSize) ∧
    (∀ key val : Slice, bplusTryInsertLeaf page key val ≠ none ↔
      page.getFreeSpace ≠ key.length + val.length + 3 * itemIdSize) ∧
    (FixedKeys keySize page →
      ∀ first second : Slice, first.length = keySize → second.length = keySize →
        ∀ firstId secondId old,
          tryInsertInternal page [first, second] [firstId, secondId] old ≠ .error .noSpace) ∧
    (∀ smallest : List Slice, (∀ key ∈ smallest, key.length = keySize) →
      ((∀ fuel, bulkloadFiles fuel newId smallest ≠ none) ↔
        smallest.length ≤ 1 ∨ (indexEntrySize keySize < Btree.usableSpace ∧
          ¬ (indexEntrySize keySize ∣ Btree.usableSpace ∧
            Btree.usableSpace ≤ smallest.length * indexEntrySize keySize)))) ∧
    ∀ (newPivots : List SlicePageMap) (oldPivots : List (Slice × UInt32)),
      FixedKeys keySize page → Matched keySize page newPivots oldPivots →
      (equalSplitInternalPage page newPivots oldPivots = 1 →
        (updateOrRewritePivots page newPivots oldPivots ≠ none ↔
          addedPivots newPivots oldPivots = [] ∨
            (page.itemNum + (addedPivots newPivots oldPivots).length) *
              indexEntrySize keySize ≠ Btree.usableSpace)) ∧
      (splitInternalPage page newPivots oldPivots newId ≠ none ↔
        pageItemSize (splitPivots page newPivots oldPivots).length
          (splitNum page newPivots oldPivots) * indexEntrySize keySize ≠
            Btree.usableSpace) := by
  refine ⟨fun key val => (btreeTryInsertLeaf_eq_none_iff page key val).not,
    fun key val => (bplusTryInsertLeaf_eq_none_iff page key val).not,
    fun fixed _ _ firstSize secondSize => tryInsertInternal_room fixed firstSize secondSize,
    fun _ sizes => bulkloadFiles_iff sizes newId, ?_⟩
  intro newPivots oldPivots fixed matched
  refine ⟨fun admitted => ?_, (splitInternalPage_eq_none_iff fixed matched newId).not⟩
  rw [ne_eq, updateOrRewritePivots_eq_none_iff fixed matched admitted, not_and_or, not_not]

theorem twoPivotPage_fixed : FixedKeys 1 twoPivotPage :=
  { twoPivotPage_wellFormed.toLaid with
    isIndex := rfl
    sameSize := by decide }

theorem twoPivotPage_matched :
    Matched 1 twoPivotPage [[([7], 5), ([8], 6)]] [([7], 5)] where
  sameLength := rfl
  nonempty := by decide
  distinct := by decide
  present := by decide
  sameSize := by decide

theorem space_checks_iff_small :
    btreeTryInsertLeaf oneEntryPage [2] [] ≠ none ∧
    bplusTryInsertLeaf versionPage [1, 1, 6, 0, 0, 0, 0, 0, 0] [8] ≠ none ∧
    tryInsertInternal twoPivotPage [[7], [8]] [5, 6] 5 ≠ .error .noSpace ∧
    (∀ fuel, bulkloadFiles fuel 4 [[1], [2]] ≠ none) ∧
    updateOrRewritePivots twoPivotPage [[([7], 5), ([8], 6)]] [([7], 5)] ≠ none ∧
    splitInternalPage twoPivotPage [[([7], 5), ([8], 6)]] [([7], 5)] 4 ≠ none := by
  obtain ⟨-, -, internal, bulkload, split⟩ := space_checks_iff twoPivotPage 1 4
  have both := split _ _ twoPivotPage_fixed twoPivotPage_matched
  refine ⟨((space_checks_iff oneEntryPage 1 4).1 _ _).mpr (by decide),
    ((space_checks_iff versionPage 1 4).2.1 _ _).mpr (by decide),
    internal twoPivotPage_fixed [7] [8] rfl rfl 5 6 5,
    (bulkload [[1], [2]] (by decide)).mpr (.inr ⟨by decide, fun filled => ?_⟩),
    (both.1 (by decide)).mpr (.inr (by decide)), both.2.mpr (by decide)⟩
  exact absurd filled.2 (by decide)

/-- An entry that would fill an empty leaf page. -/
theorem filling_entry_aborts : ¬ ∀ page : Page, WellFormed page → page.isLeaf = true →
    ∀ key val, btreeTryInsertLeaf page key val ≠ none ∧
      bplusTryInsertLeaf page key val ≠ none := by
  intro always
  have filled := (always _ (wellFormed_pageInit 3 true fun _ => 0) rfl [7]
    (List.replicate 8139 0)).1
  refine filled ((btreeTryInsertLeaf_eq_none_iff _ _ _).mpr ?_)
  rw [List.length_replicate]
  decide

end AhaTree.Slotted
