import AhaTree.OlcLeaf
import Mathlib.Algebra.Order.BigOperators.Group.List

/-!
# Splitting a page with version locks

`LeafPageSplit` and `InnerPageSplit` of `node_page.h` on the bytes of a page.  An
inner page has its first child in its last four bytes, behind the records, where
only the insertion of the first pivot writes it.  A split fills the new page with
the upper entries and then the old one, which it has emptied, with the lower ones.
-/

namespace AhaTree.Slotted

open Lib (Memory Span)

namespace Page

variable (page : Page)

/-! ## Reading -/

/-- `-1` means the first child. -/
def pageLowerBound (key : Slice) : Int :=
  if 0 < page.lowerBound key then (page.lowerBound key : Int) - 1 else -1

/-- `_decode_kvpair`. -/
def decodeKvpair (offset : Nat) : Slice × Slice :=
  let pos := page.itemId offset
  let keySize := decodeInt32At page.bytes pos
  let valSize := decodeInt32At page.bytes (pos + itemIdSize + keySize)
  (page.bytes.read (pos + itemIdSize) keySize,
    page.bytes.read (pos + itemIdSize + keySize + itemIdSize) valSize)

/-- `_decode_pivotpair`. -/
def decodePivotpair (offset : Nat) : Slice × UInt32 :=
  let pos := page.itemId offset
  let keySize := decodeInt32At page.bytes pos
  (page.bytes.read (pos + itemIdSize) keySize,
    UInt32.ofNat (decodeInt32At page.bytes (pos + itemIdSize + keySize)))

def readChildAt (offset : Int) : UInt32 :=
  if offset < 0 then UInt32.ofNat (decodeInt32At page.bytes (pageSize - itemIdSize))
  else (page.decodePivotpair offset.toNat).2

/-- The child that a descent goes on with. -/
def childBelow (key : Slice) : UInt32 := page.readChildAt (page.pageLowerBound key)

/-- What `Query` reads from a leaf page. -/
def query (key : Slice) : Option Slice :=
  let pos := (page.pageLowerBound key + 1).toNat
  if pos < page.itemNum then
    if (Slice.compare (page.readPivotAtOffset pos) key).isEq then
      some (page.decodeKvpair pos).2
    else none
  else none

/-! ## Inserting pivots -/

def innerPageIsFull (key : Slice) : Bool :=
  decide (page.freeEnd - page.freeStart < key.length + itemIdSize * 3)

/-- `_insert_pivotpair_at` is `_page_write_indexEntry_at` once more. -/
def insertPivotpairAt (offset : Nat) (key : Slice) (pgId : UInt32) : Page :=
  page.writeEntryAt offset (key, .child pgId)

/-- With the assertion that there is an entry. -/
def insertPivotPair (key : Slice) (child : UInt32) : Option Page :=
  if page.innerPageIsFull key ∨ page.itemNum = 0 then none
  else some (page.insertPivotpairAt (page.lowerBound key) key child).addItem

/-- The page with the first child in its last bytes. -/
def putFirstChild (child : UInt32) : Page :=
  { page with
    bytes := encodeInt32At page.bytes (pageSize - itemIdSize) child.toNat
    freeEnd := page.freeEnd - itemIdSize }

/-- With the assertions that the page is empty.  Whether the pivot fits is not checked. -/
def insertFirstPivotPair (key : Slice) (leftC rightC : UInt32) : Option Page :=
  if page.itemNum ≠ 0 ∨ page.freeEnd ≠ pageSize then none
  else some { (page.putFirstChild leftC).insertPivotpairAt 0 key rightC with
    isDirty := true
    itemNum := 1 }

/-! ## Splitting -/

/-- The header of an empty page. -/
def emptied : Page := { page with itemNum := 0, freeStart := pgHdSize, freeEnd := pageSize }

def rightItem : Nat := page.itemNum - page.itemNum / 2

/-- `offset` of 32 bits; that of -1 is behind every entry. -/
def readKeyAt (offset : Int) : Slice := page.readPivotAtOffset (offset % 2 ^ 32).toNat

def getLeafPageSplitSep : Slice :=
  let leftItem : Int := page.itemNum - page.rightItem
  page.readKeyAt (leftItem - 1)

/-- The page and the new page. -/
def leafPageSplit (newPage : Page) : Option (Page × Page) :=
  let leftItem := page.itemNum - page.rightItem
  (newPage.insertKvpairs ((List.range' leftItem page.rightItem).map page.decodeKvpair)).bind
    fun newPage =>
      (page.emptied.insertKvpairs ((List.range leftItem).map page.decodeKvpair)).map
        fun page => (page, newPage)

def getInnerPageSplitSep : Slice :=
  let leftItem : Int := page.itemNum - page.rightItem - 1
  page.readKeyAt leftItem

/-- The loops of the split: the first pair goes in with the first child. -/
def insertPivotPairs (first : UInt32) : List (Slice × UInt32) → Option Page
  | [] => some page
  | pair :: pairs =>
      (page.insertFirstPivotPair pair.1 first pair.2).bind fun page =>
        pairs.foldlM (fun page pair => page.insertPivotPair pair.1 pair.2) page

/-- The page and the new page, with the assertion on the number of its entries.  The number
that the page keeps is negative for a page with one pivot. -/
def innerPageSplit (newPage : Page) : Option (Page × Page) :=
  let leftItem : Int := page.itemNum - page.rightItem - 1
  let offsets := List.range' (leftItem + 1).toNat (page.itemNum - (leftItem + 1).toNat)
  (newPage.insertPivotPairs (page.readChildAt leftItem) (offsets.map page.decodePivotpair)).bind
    fun newPage =>
      if newPage.itemNum ≠ page.rightItem then none
      else
        (page.emptied.insertPivotPairs (page.readChildAt (-1))
          ((List.range leftItem.toNat).map page.decodePivotpair)).map fun page => (page, newPage)

end Page

/-- A page that `SplitLeafNode` and `SplitInnerNode` have made for the upper entries. -/
def newPage (pgId : Nat) (isLeaf : Bool) (bytes : Memory Byte) : Page :=
  { pageInit pgId bytes with isLeaf }

namespace Page

variable (page : Page)

def pivotPairs : List (Slice × UInt32) := (List.range page.itemNum).map page.decodePivotpair

/-- The children of an inner page, with the first one. -/
def children : List UInt32 := page.readChildAt (-1) :: page.pivotPairs.map Prod.snd

end Page

/-! ## Packed pages -/

/-- The records take the space up to `stop` without a gap, so the free space is what the
entries leave. -/
structure Packed (stop : Nat) (page : Page) : Prop where
  within : stop ≤ pageSize
  freeStart : page.freeStart = pgHdSize + itemIdSize * page.itemNum
  room : page.freeStart ≤ page.freeEnd
  tiles : Lib.Tiles page.freeEnd stop page.spans
  ascending : Lib.Ascending page.entries

/-- A leaf page without lost space. -/
structure PackedLeaf (page : Page) : Prop extends Packed pageSize page where
  isLeaf : page.isLeaf = true

/-- An inner page, whose first child is behind the records. -/
structure OlcInner (page : Page) : Prop extends Packed (pageSize - itemIdSize) page where
  isIndex : page.isLeaf = false

/-- What the entries take with their item ids. -/
def need (entries : List Entry) : Nat :=
  (entries.map fun entry => encodedLen entry + itemIdSize).sum

theorem need_append (first second : List Entry) :
    need (first ++ second) = need first + need second := by
  rw [need, List.map_append, List.sum_append]
  rfl

theorem need_le_of_sublist {first second : List Entry} (sublist : first.Sublist second) :
    need first ≤ need second :=
  (sublist.map _).sum_le_sum fun _ _ => Nat.zero_le _

theorem sum_spans (page : Page) :
    (page.spans.map Span.size).sum + itemIdSize * page.itemNum = need page.entries := by
  have sizes : ∀ ids : List Nat,
      ((ids.map (spanAt page.isLeaf page.bytes)).map Span.size).sum + itemIdSize * ids.length =
        need (ids.map (recordAt page.isLeaf page.bytes)) := by
    intro ids
    induction ids with
    | nil => rfl
    | cons id ids ih =>
        simp only [need, List.map_cons, List.sum_cons, List.length_cons, Nat.mul_succ] at ih ⊢
        rw [← ih]
        simp only [spanAt]
        omega
  have counted := sizes page.ids
  rwa [Page.ids_length] at counted

theorem Spaced.need_le {page : Page} (spaced : Spaced page) :
    pgHdSize + need page.entries ≤ pageSize := by
  have summed := Lib.sum_size_le spaced.apart spaced.inside
  have itemIds := spaced.itemIds
  have room := spaced.room
  have within := spaced.within
  rw [← sum_spans]
  omega

namespace Packed

variable {stop : Nat} {page : Page} (packed : Packed stop page)

include packed

theorem spaced : Spaced page where
  itemIds := Nat.le_of_eq packed.freeStart.symm
  room := packed.room
  within := (packed.tiles.sum ▸ Nat.le_add_right ..).trans packed.within
  inside _ member :=
    ⟨(packed.tiles.inside member).1, (packed.tiles.inside member).2.trans packed.within⟩
  apart := packed.tiles.apart

/-- The free space is what the entries and their item ids leave. -/
theorem space : page.freeEnd - page.freeStart + (pgHdSize + need page.entries) = stop := by
  have summed := packed.tiles.sum
  have room := packed.room
  have start := packed.freeStart
  rw [← sum_spans]
  omega

theorem fits {entry : Entry} (enough : pgHdSize + need (page.entries ++ [entry]) ≤ stop) :
    Fits page entry where
  room := by
    have space := packed.space
    have room := packed.room
    have more : need [entry] = encodedLen entry + itemIdSize := by simp [need]
    rw [need_append, more] at enough
    omega
  small := packed.spaced.within

end Packed

/-- The entry behind all others. -/
def appended (page : Page) (entry : Entry) : Page := (page.writeEntryAt page.itemNum entry).addItem

theorem Packed.append {stop : Nat} {page : Page} (packed : Packed stop page) {entry : Entry}
    (fits : Fits page entry) (isLeaf : entry.2.isLeaf = page.isLeaf)
    (above : ∀ other ∈ page.keys, other < entry.1) :
    Packed stop (appended page entry) ∧
      (appended page entry).entries = page.entries ++ [entry] ∧
      SameRecords page (appended page entry) := by
  have parts := parts_append above
  have inside : page.itemNum ≤ page.itemNum := Nat.le_refl _
  have room := fits.room
  have entries := writeEntryAt_entries packed.spaced fits inside isLeaf
  have isLast : page.entries.insertIdx page.itemNum entry = page.entries ++ [entry] := by
    conv => lhs; rw [← page.entries_length, List.insertIdx_length_self]
  rw [isLast] at entries
  refine ⟨⟨packed.within, ?_, ?_, ?_, ?_⟩, entries,
    writeEntryAt_sameRecords packed.spaced fits inside⟩
  · change page.freeStart + itemIdSize = pgHdSize + itemIdSize * (page.itemNum + 1)
    rw [packed.freeStart]
    rfl
  · change page.freeStart + itemIdSize ≤ page.freeEnd - encodedLen entry
    omega
  · exact writeEntryAt_tiles packed.spaced fits inside isLeaf packed.tiles
  · rw [appended, entries, Lib.ascending_append]
    refine ⟨packed.ascending, List.pairwise_singleton _ _, ?_⟩
    intro other member last isLast
    rw [List.mem_singleton.mp isLast]
    exact above _ (List.mem_map_of_mem member)

/-! ## Filling a page in the order of the keys -/

/-- The entries have come behind those that the page had. -/
structure Filled (stop : Nat) (before after : Page) (entries : List Entry) : Prop
    extends Packed stop after where
  isLeaf : after.isLeaf = before.isLeaf
  entries_eq : after.entries = before.entries ++ entries
  behind : ∀ address, stop ≤ address → address < pageSize →
    after.bytes address = before.bytes address

section fill

variable {item : Type} {toEntry : item → Entry} {insert : Page → item → Option Page} {stop : Nat}

/-- What an insertion does with an item whose key is above all others. -/
def Appends (insert : Page → item → Option Page) (toEntry : item → Entry) (stop : Nat)
    (isLeaf : Bool) (ready : Page → Prop) (next : item) : Prop :=
  ∀ page : Page, Packed stop page → page.isLeaf = isLeaf → ready page →
    Fits page (toEntry next) → (∀ other ∈ page.keys, other < (toEntry next).1) →
      insert page next = some (appended page (toEntry next))

theorem Packed.fill {items : List item} {ready : Page → Prop} {page : Page} {isLeaf : Bool}
    (packed : Packed stop page) (isKind : page.isLeaf = isLeaf) (isReady : ready page)
    (stays : ∀ page entry, ready (appended page entry))
    (kind : ∀ next, (toEntry next).2.isLeaf = isLeaf)
    (appends : ∀ next ∈ items, Appends insert toEntry stop isLeaf ready next)
    (ascending : Lib.Ascending (page.entries ++ items.map toEntry))
    (enough : pgHdSize + need (page.entries ++ items.map toEntry) ≤ stop) :
    ∃ after, items.foldlM insert page = some after ∧
      Filled stop page after (items.map toEntry) := by
  induction items generalizing page with
  | nil => exact ⟨page, rfl, packed, rfl, (List.append_nil _).symm, fun _ _ _ => rfl⟩
  | cons next items ih =>
      have isOne : page.entries ++ (next :: items).map toEntry =
          (page.entries ++ [toEntry next]) ++ items.map toEntry := by simp
      rw [isOne] at ascending enough
      have first := (Lib.ascending_append.mp ascending).1
      have above : ∀ other ∈ page.keys, other < (toEntry next).1 := by
        intro other member
        obtain ⟨entry, isEntry, rfl⟩ := List.mem_map.mp member
        exact (Lib.ascending_append.mp first).2.2 entry isEntry _ (List.mem_singleton_self _)
      have fits : Fits page (toEntry next) := packed.fits (by
        rw [need_append] at enough
        omega)
      have done := appends next List.mem_cons_self page packed isKind isReady fits above
      obtain ⟨isPacked, entries, same⟩ :=
        packed.append fits ((kind next).trans isKind.symm) above
      rw [← entries] at ascending enough
      obtain ⟨after, filled, isFilled⟩ := ih isPacked isKind (stays _ _)
        (fun other member => appends other (List.mem_cons_of_mem _ member)) ascending enough
      refine ⟨after, ?_, isFilled.toPacked, isFilled.isLeaf, ?_, ?_⟩
      · rw [List.foldlM_cons, done]
        exact filled
      · rw [isFilled.entries_eq, entries, isOne]
      · intro address behind inside
        have stopped := packed.tiles.sum
        exact (isFilled.behind address behind inside).trans
          (same address (by omega) inside)

end fill

/-! ## The two insertions -/

def kvEntry (pair : Slice × Slice) : Entry := (pair.1, .value pair.2)

def pivotEntry (pair : Slice × UInt32) : Entry := (pair.1, .child pair.2)

theorem insertKvpair_appends {pair : Slice × Slice} (named : pair.1 ≠ []) :
    Appends (fun page pair => page.insertKvpair pair.1 pair.2) kvEntry pageSize true
      (fun _ => True) pair := by
  intro page packed isLeaf _ fits above
  have leaf : LooseLeaf page := ⟨packed.spaced, isLeaf, packed.ascending⟩
  have room : page.leafPageIsFull pair.1 pair.2 = false := by
    refine decide_eq_false ?_
    have enough := fits.room
    rw [leaf_need]
    change _ + encodedLen (pair.1, .value pair.2) + _ ≤ _ at enough
    omega
  have absent : pair.1 ∉ page.keys := fun member => lt_irrefl _ (above _ member)
  obtain ⟨offset, parts, done⟩ := insertKvpair_new leaf room named absent
  rw [parts.unique (parts_append above)] at done
  exact done

theorem insertPivotPair_appends (pair : Slice × UInt32) :
    Appends (fun page pair => page.insertPivotPair pair.1 pair.2) pivotEntry
      (pageSize - itemIdSize) false (fun page => 0 < page.itemNum) pair := by
  intro page packed isIndex nonempty fits above
  have notFull : page.innerPageIsFull pair.1 = false := by
    refine decide_eq_false ?_
    have enough := fits.room
    change _ + (pair.1.length + itemIdSize * 2 + 0) + _ ≤ _ at enough
    omega
  have offset : page.lowerBound pair.1 = page.itemNum :=
    (lowerBound_parts (List.pairwise_map.mpr packed.ascending) nonempty pair.1).unique
      (parts_append above)
  have done : ¬ (page.innerPageIsFull pair.1 = true ∨ page.itemNum = 0) := by
    rw [notFull]
    simp
    omega
  simp only [Page.insertPivotPair, if_neg done, offset]
  rfl

theorem packed_of_empty {stop : Nat} {page : Page} (within : stop ≤ pageSize)
    (isEmpty : page.itemNum = 0) (freeStart : page.freeStart = pgHdSize)
    (freeEnd : page.freeEnd = stop) (room : pgHdSize ≤ stop) : Packed stop page where
  within := within
  freeStart := by rw [freeStart, isEmpty, Nat.mul_zero, Nat.add_zero]
  room := by rw [freeStart, freeEnd]; exact room
  tiles := by
    have noSpan : page.spans = [] :=
      List.eq_nil_of_length_eq_zero (page.spans_length.trans isEmpty)
    rw [noSpan, freeEnd]
    exact .nil stop
  ascending := by
    rw [entries_of_itemNum_zero isEmpty]
    exact .nil

/-! ## Entries read one by one -/

theorem Page.entries_eq_map (page : Page) :
    page.entries = (List.range page.itemNum).map page.decodeEntry := by
  simp [Page.entries, Page.ids, Page.decodeEntry]

theorem decodeEntry_leaf {page : Page} (isLeaf : page.isLeaf = true) (offset : Nat) :
    page.decodeEntry offset = kvEntry (page.decodeKvpair offset) := by
  simp only [Page.decodeEntry, recordAt, payloadAt, isLeaf, if_true]
  rfl

theorem decodeEntry_index {page : Page} (isIndex : page.isLeaf = false) (offset : Nat) :
    page.decodeEntry offset = pivotEntry (page.decodePivotpair offset) := by
  simp only [Page.decodeEntry, recordAt, payloadAt, isIndex, Bool.false_eq_true, if_false]
  rfl

section halves

variable {page : Page} {pair : Type} {decode : Nat → pair} {toEntry : pair → Entry}
  (decodes : ∀ offset, page.decodeEntry offset = toEntry (decode offset))

include decodes

theorem map_range_decode {count : Nat} (within : count ≤ page.itemNum) :
    ((List.range count).map decode).map toEntry = page.entries.take count := by
  rw [Page.entries_eq_map, ← List.map_take, List.take_range, Nat.min_eq_left within,
    List.map_map]
  exact List.map_congr_left fun offset _ => (decodes offset).symm

theorem map_range'_decode (start : Nat) :
    ((List.range' start (page.itemNum - start)).map decode).map toEntry =
      page.entries.drop start := by
  rw [Page.entries_eq_map, ← List.map_drop, List.range_eq_range', List.drop_range', Nat.mul_one,
    Nat.zero_add, List.map_map]
  exact List.map_congr_left fun offset _ => (decodes offset).symm

end halves

/-! ## Leaf pages -/

/-- The left page has the entries up to the separator and the new page the rest, and every
key is found where the separator sends it. -/
structure LeafSplit (page left right : Page) (sep : Slice) : Prop where
  leftLeaf : PackedLeaf left
  rightLeaf : PackedLeaf right
  upTo : left.entries = page.entries.filter fun entry => entry.1 ≤ sep
  rest : right.entries = page.entries.filter fun entry => sep < entry.1
  query : ∀ key, page.query key = if key ≤ sep then left.query key else right.query key

section query

variable {page : Page} (isLeaf : page.isLeaf = true) (ascending : Lib.Ascending page.entries)

theorem pageLowerBound_succ (page : Page) (key : Slice) :
    page.pageLowerBound key + 1 = page.lowerBound key := by
  unfold Page.pageLowerBound
  split_ifs
  · omega
  · omega

include isLeaf

theorem query_eq_some_of_entry {key val : Slice} {offset : Nat} (inside : offset < page.itemNum)
    (place : page.lowerBound key = offset) (isEntry : page.decodeEntry offset = (key, .value val)) :
    page.query key = some val := by
  have isPair := isEntry
  rw [decodeEntry_leaf isLeaf] at isPair
  have isVal : (page.decodeKvpair offset).2 = val :=
    Payload.value.inj (congrArg Prod.snd isPair)
  have isKey : (Slice.compare (page.readPivotAtOffset offset) key).isEq := by
    rw [Ordering.isEq_iff_eq_eq, Slice.compare_eq_eq, Page.readPivotAtOffset,
      if_neg (by omega), isEntry]
  simp only [Page.query, pageLowerBound_succ, Int.toNat_natCast, place]
  rw [if_pos inside, if_pos isKey, isVal]

include ascending

theorem query_eq_some_iff {key val : Slice} :
    page.query key = some val ↔ (key, .value val) ∈ page.entries := by
  constructor
  · intro found
    simp only [Page.query, pageLowerBound_succ, Int.toNat_natCast] at found
    generalize page.lowerBound key = offset at found
    split_ifs at found with inside isKey
    rw [Ordering.isEq_iff_eq_eq, Slice.compare_eq_eq, Page.readPivotAtOffset,
      if_neg (by omega)] at isKey
    have isEntry : page.decodeEntry offset = (key, .value val) := by
      refine Prod.ext isKey ?_
      rw [decodeEntry_leaf isLeaf]
      exact congrArg Payload.value (Option.some.inj found)
    rw [← isEntry, ← Page.entries_getElem (by simpa using inside)]
    exact List.getElem_mem _
  · intro member
    obtain ⟨offset, isOffset, isEntry⟩ := List.getElem_of_mem member
    have inside : offset < page.itemNum := by simpa using isOffset
    have parts := lowerBound_parts (List.pairwise_map.mpr ascending) (by omega) key
    have place := parts.offset_of_key ascending isOffset (congrArg Prod.fst isEntry)
    rw [Page.entries_getElem] at isEntry
    exact query_eq_some_of_entry isLeaf inside place isEntry

end query

section leafSplit

variable {page : Page}

theorem left_eq (page : Page) : page.itemNum - page.rightItem = page.itemNum / 2 := by
  unfold Page.rightItem
  omega

theorem right_eq (page : Page) : page.rightItem = page.itemNum - page.itemNum / 2 := rfl

theorem Spaced.itemNum_lt (spaced : Spaced page) : page.itemNum < 2 ^ 32 := by
  have itemIds := spaced.itemIds
  have room := spaced.room
  have within := spaced.within
  simp only [itemIdSize, pageSize] at itemIds within
  omega

/-- The offset -1 reads an empty key. -/
theorem readKeyAt_pred (spaced : Spaced page) {count : Nat} (within : count ≤ page.itemNum) :
    page.readKeyAt ((count : Int) - 1) =
      if 0 < count then page.readPivotAtOffset (count - 1) else [] := by
  have small := spaced.itemNum_lt
  split_ifs with positive
  · have isOffset : (((count : Int) - 1) % 2 ^ 32).toNat = count - 1 := by omega
    rw [Page.readKeyAt, isOffset]
  · have isOffset : (((count : Int) - 1) % 2 ^ 32).toNat = 2 ^ 32 - 1 := by omega
    rw [Page.readKeyAt, isOffset]
    exact if_pos (by omega)

/-- A separator between the two halves. -/
structure Cuts (entries : List Entry) (count : Nat) (sep : Slice) : Prop where
  low : ∀ entry ∈ entries.take count, entry.1 ≤ sep
  high : ∀ entry ∈ entries.drop count, sep < entry.1

theorem cuts_of_last {entries : List Entry} (ascending : Lib.Ascending entries) {count : Nat}
    (positive : 0 < count) (within : count - 1 < entries.length) :
    Cuts entries count (entries[count - 1]).1 := by
  have ordered := List.pairwise_iff_getElem.mp ascending
  constructor
  · intro entry member
    obtain ⟨index, inside, rfl⟩ := List.mem_take_iff_getElem.mp member
    rcases Nat.lt_or_ge index (count - 1) with before | last
    · exact (ordered index (count - 1) (by omega) within before).le
    · have same : index = count - 1 := by omega
      subst same
      exact le_refl _
  · intro entry member
    obtain ⟨index, inside, rfl⟩ := List.mem_drop_iff_getElem.mp member
    exact ordered (count - 1) (count + index) within (by omega) (by omega)

namespace Cuts

variable {entries : List Entry} {count : Nat} {sep : Slice} (cuts : Cuts entries count sep)

include cuts

theorem take_eq : entries.take count = entries.filter fun entry => entry.1 ≤ sep := by
  have low : (entries.take count).filter (fun entry => entry.1 ≤ sep) = entries.take count :=
    List.filter_eq_self.mpr fun entry member => decide_eq_true (cuts.low entry member)
  have high : (entries.drop count).filter (fun entry => entry.1 ≤ sep) = [] :=
    List.filter_eq_nil_iff.mpr fun entry member => by simpa using cuts.high entry member
  conv => rhs; rw [← List.take_append_drop count entries, List.filter_append, low, high,
    List.append_nil]

theorem drop_eq : entries.drop count = entries.filter fun entry => sep < entry.1 := by
  have low : (entries.take count).filter (fun entry => sep < entry.1) = [] :=
    List.filter_eq_nil_iff.mpr fun entry member => by simpa using cuts.low entry member
  have high : (entries.drop count).filter (fun entry => sep < entry.1) = entries.drop count :=
    List.filter_eq_self.mpr fun entry member => decide_eq_true (cuts.high entry member)
  conv => rhs; rw [← List.take_append_drop count entries, List.filter_append, low, high,
    List.nil_append]

end Cuts

theorem getLeafPageSplitSep_eq (spaced : Spaced page) : page.getLeafPageSplitSep =
    if 0 < page.itemNum / 2 then page.readPivotAtOffset (page.itemNum / 2 - 1) else [] := by
  have isLeft : (page.itemNum : Int) - page.rightItem = ((page.itemNum / 2 : Nat) : Int) := by
    rw [right_eq]
    omega
  rw [← readKeyAt_pred spaced (Nat.div_le_self ..)]
  exact congrArg (fun left => page.readKeyAt (left - 1)) isLeft

/-- On a page with one entry the separator is empty, and so is the lower half. -/
theorem leaf_cuts (leaf : LooseLeaf page) (named : [] ∉ page.keys) :
    Cuts page.entries (page.itemNum / 2) page.getLeafPageSplitSep := by
  rw [getLeafPageSplitSep_eq leaf.toSpaced]
  split_ifs with positive
  · have within : page.itemNum / 2 - 1 < page.entries.length := by
      rw [Page.entries_length]
      omega
    have cuts := cuts_of_last leaf.ascending positive within
    rw [Page.entries_getElem] at cuts
    rwa [Page.readPivotAtOffset, if_neg (by omega)]
  · have noEntry : page.itemNum / 2 = 0 := by omega
    rw [noEntry]
    refine ⟨by simp, fun entry member => ?_⟩
    rcases eq_or_ne entry.1 [] with isEmpty | isNamed
    · exact absurd isEmpty (not_mem_keys.mp named entry member)
    · exact Btree.nil_lt_of_ne_nil isNamed

/-- A half of the entries in a page that had none. -/
theorem insertKvpairs_half {empty : Page} (packed : Packed pageSize empty)
    (isLeaf : empty.isLeaf = true) (isEmpty : empty.itemNum = 0) (leaf : LooseLeaf page)
    (named : [] ∉ page.keys) {pairs : List (Slice × Slice)}
    (half : (pairs.map kvEntry).Sublist page.entries) :
    ∃ after, empty.insertKvpairs pairs = some after ∧ PackedLeaf after ∧
      after.entries = pairs.map kvEntry := by
  have noEntry := entries_of_itemNum_zero isEmpty
  have named : ∀ pair ∈ pairs, pair.1 ≠ [] := fun pair member isNil =>
    not_mem_keys.mp named (kvEntry pair) (half.subset (List.mem_map_of_mem member)) isNil
  have enough : pgHdSize + need (empty.entries ++ pairs.map kvEntry) ≤ pageSize := by
    rw [noEntry, List.nil_append]
    exact (Nat.add_le_add_left (need_le_of_sublist half) _).trans leaf.toSpaced.need_le
  have ascending : Lib.Ascending (empty.entries ++ pairs.map kvEntry) := by
    rw [noEntry, List.nil_append]
    exact leaf.ascending.sublist half
  obtain ⟨after, done, filled⟩ := packed.fill isLeaf trivial (fun _ _ => trivial)
    (fun _ => rfl) (fun pair member => insertKvpair_appends (named pair member)) ascending enough
  refine ⟨after, done, ⟨filled.toPacked, filled.isLeaf.trans isLeaf⟩, ?_⟩
  rw [filled.entries_eq, noEntry, List.nil_append]

theorem emptied_packed (page : Page) : Packed pageSize page.emptied :=
  packed_of_empty (Nat.le_refl _) rfl rfl rfl (by decide)

theorem newPage_packed (pgId : Nat) (isLeaf : Bool) (bytes : Memory Byte) :
    Packed pageSize (newPage pgId isLeaf bytes) :=
  packed_of_empty (Nat.le_refl _) rfl rfl rfl (by decide)

theorem query_of_cuts {left right : Page} {sep : Slice} {count : Nat} (leaf : LooseLeaf page)
    (cuts : Cuts page.entries count sep) (leftLeaf : PackedLeaf left)
    (rightLeaf : PackedLeaf right) (low : left.entries = page.entries.take count)
    (high : right.entries = page.entries.drop count) (key : Slice) :
    page.query key = if key ≤ sep then left.query key else right.query key := by
  have member : ∀ val, (key, .value val) ∈ page.entries ↔
      (key, .value val) ∈ left.entries ∨ (key, .value val) ∈ right.entries := fun val => by
    rw [low, high, ← List.mem_append, List.take_append_drop]
  refine Option.ext fun val => ?_
  split_ifs with below
  · rw [query_eq_some_iff leaf.isLeaf leaf.ascending,
      query_eq_some_iff leftLeaf.isLeaf leftLeaf.ascending, member]
    refine or_iff_left fun isHigh => ?_
    rw [high] at isHigh
    exact absurd below (not_le.mpr (cuts.high _ isHigh))
  · rw [query_eq_some_iff leaf.isLeaf leaf.ascending,
      query_eq_some_iff rightLeaf.isLeaf rightLeaf.ascending, member]
    refine or_iff_right fun isLow => ?_
    rw [low] at isLow
    exact absurd (cuts.low _ isLow) below

theorem leafPageSplit_of_named (leaf : LooseLeaf page) (named : [] ∉ page.keys) (pgId : Nat)
    (bytes : Memory Byte) : ∃ left right,
      page.leafPageSplit (newPage pgId true bytes) = some (left, right) ∧
        LeafSplit page left right page.getLeafPageSplitSep := by
  have half : page.itemNum / 2 ≤ page.itemNum := Nat.div_le_self ..
  have lowEntries := map_range_decode (decodeEntry_leaf leaf.isLeaf) half
  have highEntries := map_range'_decode (decodeEntry_leaf leaf.isLeaf) (page.itemNum / 2)
  obtain ⟨right, rightDone, rightLeaf, high⟩ := insertKvpairs_half
    (newPage_packed pgId true bytes) rfl rfl leaf named
    (highEntries ▸ List.drop_sublist _ page.entries)
  obtain ⟨left, leftDone, leftLeaf, low⟩ := insertKvpairs_half (emptied_packed page)
    leaf.isLeaf rfl leaf named (lowEntries ▸ List.take_sublist _ page.entries)
  have cuts := leaf_cuts leaf named
  rw [lowEntries] at low
  rw [highEntries] at high
  refine ⟨left, right, ?_, leftLeaf, rightLeaf, low.trans cuts.take_eq, high.trans cuts.drop_eq,
    query_of_cuts leaf cuts leftLeaf rightLeaf low high⟩
  simp only [Page.leafPageSplit, left_eq]
  simp only [right_eq, rightDone, leftDone, Option.bind_some, Option.map_some]

/-! An empty key is taken for one that an empty page has, and is not counted. -/

theorem insertKvpair_itemNum_le {after : Page} {key val : Slice}
    (done : page.insertKvpair key val = some after) :
    after.itemNum ≤ page.itemNum + 1 ∧
      (page.itemNum = 0 → key = [] → after.itemNum = 0) := by
  unfold Page.insertKvpair at done
  by_cases isFull : page.leafPageIsFull key val = true
  · rw [if_pos isFull] at done
    cases done
  rw [if_neg isFull] at done
  obtain rfl := Option.some.inj done
  simp only
  generalize isOff : (if 0 < page.itemNum then page.lowerBound key else 0) = off
  have kept : ∀ tried : Page × Bool, tried.1.itemNum = page.itemNum →
      (if tried.2 then tried.1 else tried.1.insertKvpairAt off key val).itemNum =
        page.itemNum := by
    intro tried same
    split_ifs
    · exact same
    · exact same
  have counted := kept (if (Slice.compare (page.readPivotAtOffset off) key).isEq then
    page.updateValAt off val else (page, false)) (by
      split_ifs
      · exact updatePivotAt_itemNum page off val
      · rfl)
  rw [counted]
  refine ⟨by split_ifs <;> omega, fun isEmpty isNil => ?_⟩
  have same : (Slice.compare (page.readPivotAtOffset off) key).isEq := by
    rw [Page.readPivotAtOffset, if_pos (by omega), isNil]
    rfl
  rw [if_pos same, isEmpty]

theorem insertKvpairs_itemNum_le {after : Page} {pairs : List (Slice × Slice)}
    (done : page.insertKvpairs pairs = some after) :
    after.itemNum ≤ page.itemNum + pairs.length := by
  induction pairs generalizing page with
  | nil =>
      obtain rfl := Option.some.inj done
      exact Nat.le_refl _
  | cons pair pairs ih =>
      rw [Page.insertKvpairs, List.foldlM_cons] at done
      obtain ⟨next, first, later⟩ := Option.bind_eq_some_iff.mp done
      have one := (insertKvpair_itemNum_le first).1
      have others := ih later
      rw [List.length_cons]
      omega

theorem insertKvpairs_loses {after : Page} {pair : Slice × Slice} {pairs : List (Slice × Slice)}
    (isEmpty : page.itemNum = 0) (isNil : pair.1 = [])
    (done : page.insertKvpairs (pair :: pairs) = some after) :
    after.itemNum ≤ pairs.length := by
  rw [Page.insertKvpairs, List.foldlM_cons] at done
  obtain ⟨next, first, later⟩ := Option.bind_eq_some_iff.mp done
  have lost := (insertKvpair_itemNum_le first).2 isEmpty isNil
  have others := insertKvpairs_itemNum_le later
  omega

/-- The empty key is that of the first entry. -/
theorem decodeKvpair_zero (leaf : LooseLeaf page) (unnamed : [] ∈ page.keys) :
    0 < page.itemNum ∧ (page.decodeKvpair 0).1 = [] := by
  obtain ⟨entry, member, isNil⟩ := List.mem_map.mp unnamed
  obtain ⟨offset, isOffset, rfl⟩ := List.getElem_of_mem member
  have nonempty : 0 < page.entries.length := Nat.zero_lt_of_lt isOffset
  have isFirst : (page.entries[0]).1 = [] := by
    rcases Nat.eq_zero_or_pos offset with rfl | further
    · exact isNil
    · have below := List.pairwise_iff_getElem.mp leaf.ascending 0 offset nonempty isOffset further
      rw [isNil] at below
      exact absurd below (List.not_lt_nil _)
  rw [Page.entries_getElem, decodeEntry_leaf leaf.isLeaf] at isFirst
  exact ⟨by simpa using nonempty, isFirst⟩

theorem not_leafSplit (leaf : LooseLeaf page) (unnamed : [] ∈ page.keys) {pgId : Nat}
    {bytes : Memory Byte} {left right : Page}
    (done : page.leafPageSplit (newPage pgId true bytes) = some (left, right)) :
    ¬ LeafSplit page left right page.getLeafPageSplitSep := by
  intro split
  obtain ⟨nonempty, isNil⟩ := decodeKvpair_zero leaf unnamed
  simp only [Page.leafPageSplit, left_eq] at done
  obtain ⟨new, rightDone, isBoth⟩ := Option.bind_eq_some_iff.mp done
  obtain ⟨old, leftDone, isPair⟩ := Option.map_eq_some_iff.mp isBoth
  obtain ⟨rfl, rfl⟩ := Prod.mk.inj isPair
  have total : page.itemNum = old.itemNum + new.itemNum := by
    have parted := page.entries.length_eq_length_filter_add
      (fun entry => decide (entry.1 ≤ page.getLeafPageSplitSep))
    have others : (page.entries.filter fun entry =>
        !decide (entry.1 ≤ page.getLeafPageSplitSep)) = new.entries := by
      rw [split.rest]
      exact List.filter_congr fun entry _ => by
        rw [Bool.eq_iff_iff]
        simp
    rwa [others, ← split.upTo, Page.entries_length, Page.entries_length,
      Page.entries_length] at parted
  have leftCount := insertKvpairs_itemNum_le leftDone
  have rightCount := insertKvpairs_itemNum_le rightDone
  simp only [List.length_map, List.length_range, List.length_range', Page.emptied, newPage,
    pageInit, right_eq] at leftCount rightCount
  rcases Nat.eq_zero_or_pos (page.itemNum / 2) with single | several
  · rw [single, right_eq, single] at rightDone
    obtain ⟨later, isLater⟩ : ∃ later, page.itemNum - 0 = later + 1 :=
      ⟨page.itemNum - 1, by omega⟩
    rw [isLater, List.range'_succ, List.map_cons] at rightDone
    have lost := insertKvpairs_loses rfl isNil rightDone
    rw [List.length_map, List.length_range'] at lost
    omega
  · obtain ⟨later, isLater⟩ : ∃ later, page.itemNum / 2 = later + 1 :=
      ⟨page.itemNum / 2 - 1, by omega⟩
    rw [isLater, List.range_succ_eq_map, List.map_cons] at leftDone
    have lost := insertKvpairs_loses rfl isNil leftDone
    rw [List.length_map, List.length_map, List.length_range] at lost
    omega

end leafSplit

/-! ## Inner pages -/

/-- The pivots and the children are those of the page in order, with the separator between
the halves, and every key is sent to the child that it was sent to. -/
structure InnerSplit (page left right : Page) (sep : Slice) : Prop where
  leftInner : OlcInner left
  rightInner : OlcInner right
  pivots : left.keys ++ sep :: right.keys = page.keys
  children : left.children ++ right.children = page.children
  childBelow : ∀ key, page.childBelow key =
    if key ≤ sep then left.childBelow key else right.childBelow key

section innerSplit

variable {page : Page}

theorem pivotEntry_injective : Function.Injective pivotEntry := by
  intro left right same
  have sameKey : (pivotEntry left).1 = (pivotEntry right).1 := congrArg Prod.fst same
  have sameChild : (pivotEntry left).2 = (pivotEntry right).2 := congrArg Prod.snd same
  exact Prod.ext sameKey (Payload.child.inj sameChild)

theorem entries_eq_pivotPairs (isIndex : page.isLeaf = false) :
    page.entries = page.pivotPairs.map pivotEntry := by
  rw [Page.pivotPairs, map_range_decode (decodeEntry_index isIndex) (Nat.le_refl _),
    List.take_of_length_le (Nat.le_of_eq page.entries_length)]

@[simp] theorem pivotPairs_length (page : Page) : page.pivotPairs.length = page.itemNum := by
  simp [Page.pivotPairs]

theorem keys_eq_pivotPairs (isIndex : page.isLeaf = false) :
    page.keys = page.pivotPairs.map Prod.fst := by
  rw [Page.keys, entries_eq_pivotPairs isIndex, List.map_map]
  rfl

theorem pivotPairs_of_entries (isIndex : page.isLeaf = false) {pairs : List (Slice × UInt32)}
    (entries : page.entries = pairs.map pivotEntry) : page.pivotPairs = pairs := by
  rw [entries_eq_pivotPairs isIndex] at entries
  exact (List.map_injective_iff.mpr pivotEntry_injective) entries

/-- A descent goes on with the child that has as many children in front of it as there are
pivots below the key. -/
theorem children_getElem {offset : Nat} (ascending : Lib.Ascending page.entries)
    (nonempty : 0 < page.itemNum) {key : Slice} (parts : Lib.Parts page.entries key offset) :
    page.children[offset]? = some (page.childBelow key) := by
  have place : page.lowerBound key = offset :=
    (lowerBound_parts (List.pairwise_map.mpr ascending) nonempty key).unique parts
  have inside := parts.inside
  rw [Page.entries_length] at inside
  rw [Page.childBelow, Page.pageLowerBound, place]
  cases offset with
  | zero => rfl
  | succ offset =>
      have isOffset : ((offset + 1 : Nat) : Int) - 1 = (offset : Nat) := by omega
      have within : offset < page.itemNum := inside
      rw [if_pos (Nat.succ_pos _), isOffset, Page.readChildAt, if_neg (by omega),
        Int.toNat_natCast, Page.children, List.getElem?_cons_succ, Page.pivotPairs,
        List.getElem?_map, List.getElem?_map, List.getElem?_range within]
      rfl

/-- The first pivot of an empty page. -/
theorem insertFirstPivotPair_eq {empty : Page} (isEmpty : empty.itemNum = 0)
    (freeEnd : empty.freeEnd = pageSize) (pair : Slice × UInt32) (first : UInt32) :
    empty.insertFirstPivotPair pair.1 first pair.2 =
      some (appended (empty.putFirstChild first) (pivotEntry pair)) := by
  have fresh : ¬ (empty.itemNum ≠ 0 ∨ empty.freeEnd ≠ pageSize) := by
    simp [isEmpty, freeEnd]
  have noItem : (empty.putFirstChild first).itemNum = 0 := isEmpty
  rw [Page.insertFirstPivotPair, if_neg fresh, appended, noItem]
  refine congrArg some ?_
  simp only [Page.addItem, Page.insertPivotpairAt, Page.writeEntryAt, noItem, pivotEntry]

/-- Pivots in a page that had none. -/
theorem insertPivotPairs_fresh {empty : Page} (isIndex : empty.isLeaf = false)
    (isEmpty : empty.itemNum = 0) (freeStart : empty.freeStart = pgHdSize)
    (freeEnd : empty.freeEnd = pageSize) (first : UInt32) {pairs : List (Slice × UInt32)}
    (nonempty : pairs ≠ []) (ascending : Lib.Ascending (pairs.map pivotEntry))
    (enough : pgHdSize + need (pairs.map pivotEntry) ≤ pageSize - itemIdSize) :
    ∃ after, empty.insertPivotPairs first pairs = some after ∧ OlcInner after ∧
      after.entries = pairs.map pivotEntry ∧ after.readChildAt (-1) = first := by
  obtain ⟨pair, pairs, rfl⟩ := List.exists_cons_of_ne_nil nonempty
  have noItem : (empty.putFirstChild first).itemNum = 0 := isEmpty
  have noEntry := entries_of_itemNum_zero noItem
  have packed : Packed (pageSize - itemIdSize) (empty.putFirstChild first) :=
    packed_of_empty (Nat.sub_le ..) noItem freeStart (congrArg (· - itemIdSize) freeEnd)
      (by decide)
  rw [List.map_cons, ← List.singleton_append] at enough ascending
  have fits : Fits (empty.putFirstChild first) (pivotEntry pair) := packed.fits (by
    rw [noEntry, List.nil_append]
    rw [need_append] at enough
    omega)
  have noKey : ∀ other ∈ (empty.putFirstChild first).keys, other < (pivotEntry pair).1 := by
    rw [Page.keys, noEntry]
    exact fun _ member => absurd member List.not_mem_nil
  obtain ⟨isPacked, entries, same⟩ := packed.append fits isIndex.symm noKey
  rw [noEntry, List.nil_append] at entries
  rw [← entries] at enough ascending
  obtain ⟨after, done, filled⟩ := @Packed.fill _ _ _ _ _ (fun page : Page => 0 < page.itemNum)
    _ _ isPacked isIndex (Nat.succ_pos _) (fun _ _ => Nat.succ_pos _) (fun _ => rfl)
    (fun pair _ => insertPivotPair_appends pair) ascending enough
  refine ⟨after, ?_, ⟨filled.toPacked, filled.isLeaf.trans isIndex⟩, ?_, ?_⟩
  · rw [Page.insertPivotPairs, insertFirstPivotPair_eq isEmpty freeEnd]
    exact done
  · rw [filled.entries_eq, entries, List.map_cons, List.singleton_append]
  · have isFirst : decodeInt32At after.bytes (pageSize - itemIdSize) = first.toNat := by
      rw [← @decodeInt32At_encode empty.bytes (pageSize - itemIdSize) first.toNat
        first.toNat_lt]
      refine decodeInt32At_mirrors fun index isIndexed => ?_
      have inside : pageSize - itemIdSize + index < pageSize := by
        simp only [pageSize, itemIdSize]
        omega
      refine (filled.behind _ (Nat.le_add_right ..) inside).trans (same _ ?_ inside)
      change empty.freeEnd - itemIdSize ≤ _
      rw [freeEnd]
      exact Nat.le_add_right ..
    rw [Page.readChildAt, if_pos (by decide), isFirst, UInt32.ofNat_toNat]

/-- A part of the pivots of a page has room. -/
theorem OlcInner.need_le (inner : OlcInner page) {entries : List Entry}
    (half : entries.Sublist page.entries) :
    pgHdSize + need entries ≤ pageSize - itemIdSize := by
  have space := inner.space
  have fewer := need_le_of_sublist half
  omega

/-- What the loops and the separator use of a page with enough pivots. -/
theorem innerPageSplit_eq (spaced : Spaced page) (several : 2 ≤ page.itemNum) (new : Page) :
    page.getInnerPageSplitSep = page.readPivotAtOffset (page.itemNum / 2 - 1) ∧
    page.innerPageSplit new =
      (new.insertPivotPairs (page.decodePivotpair (page.itemNum / 2 - 1)).2
        ((List.range' (page.itemNum / 2) (page.itemNum - page.itemNum / 2)).map
          page.decodePivotpair)).bind fun new =>
        if new.itemNum ≠ page.rightItem then none
        else (page.emptied.insertPivotPairs (page.readChildAt (-1))
          ((List.range (page.itemNum / 2 - 1)).map page.decodePivotpair)).map
            fun page => (page, new) := by
  have isLeft : (page.itemNum : Int) - page.rightItem - 1 =
      ((page.itemNum / 2 - 1 : Nat) : Int) := by
    rw [right_eq]
    omega
  have half : page.itemNum / 2 ≤ page.itemNum := Nat.div_le_self ..
  have isSep := readKeyAt_pred spaced half
  rw [if_pos (by omega)] at isSep
  have isStart : (((page.itemNum / 2 - 1 : Nat) : Int) + 1).toNat = page.itemNum / 2 := by omega
  have isPred : (((page.itemNum / 2 : Nat) : Int) - 1) = ((page.itemNum / 2 - 1 : Nat) : Int) := by
    omega
  constructor
  · rw [← isSep, isPred, ← isLeft]
    rfl
  · have isChild : page.readChildAt ((page.itemNum / 2 - 1 : Nat) : Int) =
        (page.decodePivotpair (page.itemNum / 2 - 1)).2 := by
      rw [Page.readChildAt, if_neg (by omega), Int.toNat_natCast]
    simp only [Page.innerPageSplit, isLeft, isStart, isChild, Int.toNat_natCast]

/-- The pivots of the page around the separator. -/
theorem pivotPairs_parts (several : 2 ≤ page.itemNum) : page.pivotPairs =
    (List.range (page.itemNum / 2 - 1)).map page.decodePivotpair ++
      page.decodePivotpair (page.itemNum / 2 - 1) ::
        (List.range' (page.itemNum / 2) (page.itemNum - page.itemNum / 2)).map
          page.decodePivotpair := by
  have isRange : List.range page.itemNum = List.range (page.itemNum / 2 - 1) ++
      (page.itemNum / 2 - 1) ::
        List.range' (page.itemNum / 2) (page.itemNum - page.itemNum / 2) := by
    have inside : page.itemNum / 2 - 1 < (List.range page.itemNum).length := by
      rw [List.length_range]
      omega
    have next : page.itemNum / 2 - 1 + 1 = page.itemNum / 2 := by omega
    have parted := List.take_append_drop (page.itemNum / 2 - 1) (List.range page.itemNum)
    rw [List.drop_eq_getElem_cons inside, List.getElem_range, List.take_range,
      Nat.min_eq_left (by omega), next] at parted
    rw [← parted]
    simp [List.range_eq_range', List.drop_range']
  rw [Page.pivotPairs, isRange, List.map_append, List.map_cons]

theorem innerSplit_of_parts {left right : Page} {middle : Slice × UInt32}
    (inner : OlcInner page) (leftInner : OlcInner left) (rightInner : OlcInner right)
    (nonempty : 0 < left.itemNum ∧ 0 < right.itemNum)
    (isPairs : page.pivotPairs = left.pivotPairs ++ middle :: right.pivotPairs)
    (leftFirst : left.readChildAt (-1) = page.readChildAt (-1))
    (rightFirst : right.readChildAt (-1) = middle.2) :
    InnerSplit page left right middle.1 := by
  have isChildren : left.children ++ right.children = page.children := by
    simp [Page.children, isPairs, leftFirst, rightFirst]
  have isEntries : page.entries =
      left.entries ++ (pivotEntry middle :: right.entries) := by
    rw [entries_eq_pivotPairs inner.isIndex, entries_eq_pivotPairs leftInner.isIndex,
      entries_eq_pivotPairs rightInner.isIndex, isPairs, List.map_append, List.map_cons]
  have ascending := inner.ascending
  rw [isEntries] at ascending
  obtain ⟨-, upper, across⟩ := Lib.ascending_append.mp ascending
  obtain ⟨above, -⟩ := List.pairwise_cons.mp upper
  have several : 0 < page.itemNum := by
    rw [← page.entries_length, isEntries, List.length_append, left.entries_length]
    exact Nat.add_pos_left nonempty.1 _
  have leftLength : left.children.length = left.itemNum + 1 := by
    simp [Page.children]
  refine ⟨leftInner, rightInner, ?_, isChildren, fun key => ?_⟩
  · rw [keys_eq_pivotPairs inner.isIndex, keys_eq_pivotPairs leftInner.isIndex,
      keys_eq_pivotPairs rightInner.isIndex, isPairs, List.map_append, List.map_cons]
  · refine Option.some.inj ?_
    split_ifs with below
    · have parts := lowerBound_parts (List.pairwise_map.mpr leftInner.ascending) nonempty.1 key
      have inside := parts.inside
      rw [left.entries_length] at inside
      have high : ∀ entry ∈ pivotEntry middle :: right.entries, key ≤ entry.1 := by
        intro entry member
        rcases List.mem_cons.mp member with rfl | later
        · exact below
        · exact below.trans (above entry later).le
      have whole := parts.append_high high
      rw [← isEntries] at whole
      rw [← children_getElem inner.ascending several whole,
        ← children_getElem leftInner.ascending nonempty.1 parts, ← isChildren,
        List.getElem?_append_left (by omega)]
    · have parts := lowerBound_parts (List.pairwise_map.mpr rightInner.ascending) nonempty.2 key
      have low : ∀ entry ∈ left.entries ++ [pivotEntry middle], entry.1 < key := by
        intro entry member
        rcases List.mem_append.mp member with earlier | isMiddle
        · exact (across entry earlier _ List.mem_cons_self).trans (not_le.mp below)
        · rw [List.mem_singleton.mp isMiddle]
          exact not_le.mp below
      have whole := parts.append_low low
      rw [List.append_assoc, List.singleton_append, ← isEntries] at whole
      have isLength : (left.entries ++ [pivotEntry middle]).length = left.children.length := by
        rw [leftLength, List.length_append, left.entries_length]
        rfl
      rw [isLength] at whole
      rw [← children_getElem inner.ascending several whole,
        ← children_getElem rightInner.ascending nonempty.2 parts, ← isChildren,
        List.getElem?_append_right (Nat.le_add_right ..), Nat.add_sub_cancel_left]

theorem innerPageSplit_of_four (inner : OlcInner page) (four : 4 ≤ page.itemNum) (pgId : Nat)
    (bytes : Memory Byte) : ∃ left right,
      page.innerPageSplit (newPage pgId false bytes) = some (left, right) ∧
        InnerSplit page left right page.getInnerPageSplitSep := by
  have decodes := decodeEntry_index inner.isIndex
  have within : page.itemNum / 2 - 1 ≤ page.itemNum := by omega
  have lower := map_range_decode decodes within ▸ List.take_sublist _ page.entries
  have upper := map_range'_decode decodes (page.itemNum / 2) ▸
    List.drop_sublist _ page.entries
  obtain ⟨isSep, isSplit⟩ := innerPageSplit_eq inner.spaced (by omega) (newPage pgId false bytes)
  obtain ⟨right, rightDone, rightInner, high, rightFirst⟩ :=
    @insertPivotPairs_fresh (newPage pgId false bytes) rfl rfl rfl rfl
      (page.decodePivotpair (page.itemNum / 2 - 1)).2 _
      (List.ne_nil_of_length_pos (by
        rw [List.length_map, List.length_range']
        omega))
      (inner.ascending.sublist upper) (inner.need_le upper)
  obtain ⟨left, leftDone, leftInner, low, leftFirst⟩ :=
    @insertPivotPairs_fresh page.emptied inner.isIndex rfl rfl rfl (page.readChildAt (-1)) _
      (List.ne_nil_of_length_pos (by
        rw [List.length_map, List.length_range]
        omega))
      (inner.ascending.sublist lower) (inner.need_le lower)
  have leftPairs := pivotPairs_of_entries leftInner.isIndex low
  have rightPairs := pivotPairs_of_entries rightInner.isIndex high
  have leftNum : left.itemNum = page.itemNum / 2 - 1 := by
    rw [← pivotPairs_length, leftPairs, List.length_map, List.length_range]
  have rightNum : right.itemNum = page.rightItem := by
    rw [← pivotPairs_length, rightPairs, List.length_map, List.length_range', right_eq]
  have isPairs := @pivotPairs_parts page (by omega)
  rw [← leftPairs, ← rightPairs] at isPairs
  have split := innerSplit_of_parts inner leftInner rightInner
    ⟨by omega, by rw [rightNum, right_eq]; omega⟩ isPairs leftFirst rightFirst
  refine ⟨left, right, ?_, ?_⟩
  · rw [isSplit, rightDone, Option.bind_some, if_neg (not_not.mpr rightNum), leftDone]
    rfl
  · have isKey : page.readPivotAtOffset (page.itemNum / 2 - 1) =
        (page.decodePivotpair (page.itemNum / 2 - 1)).1 := by
      rw [Page.readPivotAtOffset, if_neg (by omega), decodes]
      rfl
    rw [isSep, isKey]
    exact split

/-- The left page keeps no pivot, and the space of its first child counts as free. -/
theorem not_innerSplit (few : page.itemNum < 4) {new left right : Page}
    (done : page.innerPageSplit new = some (left, right)) {sep : Slice} :
    ¬ InnerSplit page left right sep := by
  intro split
  have noItem : ((page.itemNum : Int) - page.rightItem - 1).toNat = 0 := by
    rw [right_eq]
    omega
  obtain ⟨other, -, isBoth⟩ := Option.bind_eq_some_iff.mp done
  split_ifs at isBoth
  obtain ⟨old, leftDone, isPair⟩ := Option.map_eq_some_iff.mp isBoth
  rw [noItem] at leftDone
  obtain rfl : page.emptied = old := Option.some.inj leftDone
  obtain ⟨rfl, rfl⟩ := Prod.mk.inj isPair
  have filled := split.leftInner.tiles.sum
  have freeEnd : page.emptied.freeEnd = pageSize := rfl
  rw [freeEnd] at filled
  simp only [pageSize, itemIdSize] at filled
  omega

end innerSplit

/-- A leaf page is split as it should be unless it has an empty key, and an inner page with
four pivots or more. -/
theorem olc_splits_iff (page : Page) (pgId : Nat) (bytes : Memory Byte) :
    (LooseLeaf page →
      ((∃ left right, page.leafPageSplit (newPage pgId true bytes) = some (left, right) ∧
        LeafSplit page left right page.getLeafPageSplitSep) ↔ [] ∉ page.keys)) ∧
    (OlcInner page →
      ((∃ left right, page.innerPageSplit (newPage pgId false bytes) = some (left, right) ∧
        InnerSplit page left right page.getInnerPageSplitSep) ↔ 4 ≤ page.itemNum)) := by
  refine ⟨fun leaf => ⟨?_, fun named => leafPageSplit_of_named leaf named pgId bytes⟩,
    fun inner => ⟨?_, fun four => innerPageSplit_of_four inner four pgId bytes⟩⟩
  · rintro ⟨left, right, done, split⟩ unnamed
    exact not_leafSplit leaf unnamed done split
  · rintro ⟨left, right, done, split⟩
    by_contra few
    exact not_innerSplit (by omega) done split

/-- An inner page with the first child 5 and some pivots. -/
def pivotPage (pairs : List (Slice × UInt32)) : Page :=
  ((newPage 3 false fun _ => 0).insertPivotPairs 5 pairs).getD (newPage 3 false fun _ => 0)

theorem pivotPage_inner {pairs : List (Slice × UInt32)} (nonempty : pairs ≠ [])
    (ascending : Lib.Ascending (pairs.map pivotEntry))
    (enough : pgHdSize + need (pairs.map pivotEntry) ≤ pageSize - itemIdSize) :
    OlcInner (pivotPage pairs) ∧ (pivotPage pairs).itemNum = pairs.length := by
  obtain ⟨after, done, inner, entries, -⟩ :=
    @insertPivotPairs_fresh (newPage 3 false fun _ => 0) rfl rfl rfl rfl 5 pairs nonempty
      ascending enough
  have isPage : pivotPage pairs = after := by
    rw [pivotPage, done]
    rfl
  rw [isPage, ← after.entries_length, entries, List.length_map]
  exact ⟨inner, rfl⟩

/-- A leaf page with four entries. -/
def fourKvpairsPage : Page :=
  (oneKvpairPage.insertKvpairs [([4], [9]), ([2], []), ([3], [8])]).getD oneKvpairPage

theorem fourKvpairsPage_looseLeaf : LooseLeaf fourKvpairsPage := by
  have done : oneKvpairPage.insertKvpairs [([4], [9]), ([2], []), ([3], [8])] =
      some fourKvpairsPage := rfl
  exact (insertKvpairs_spec oneKvpairPage_olcLeaf.toLooseLeaf (by decide) done).1

theorem olc_splits_iff_four :
    (∃ left right, fourKvpairsPage.leafPageSplit (newPage 4 true fun _ => 0) =
      some (left, right) ∧
        LeafSplit fourKvpairsPage left right fourKvpairsPage.getLeafPageSplitSep) ∧
    (∃ left right, (pivotPage [([1], 6), ([2], 7), ([3], 8), ([4], 9)]).innerPageSplit
      (newPage 4 false fun _ => 0) = some (left, right) ∧
        InnerSplit (pivotPage [([1], 6), ([2], 7), ([3], 8), ([4], 9)]) left right
          (pivotPage [([1], 6), ([2], 7), ([3], 8), ([4], 9)]).getInnerPageSplitSep) := by
  obtain ⟨inner, count⟩ := @pivotPage_inner [([1], 6), ([2], 7), ([3], 8), ([4], 9)]
    (by decide) (by unfold Lib.Ascending; decide) (by decide)
  exact ⟨((olc_splits_iff fourKvpairsPage 4 fun _ => 0).1 fourKvpairsPage_looseLeaf).mpr
      (by decide),
    ((olc_splits_iff _ 4 fun _ => 0).2 inner).mpr (Nat.le_of_eq count.symm)⟩

/-- With two pivots the left page keeps none, and the room of its first child is free. -/
theorem two_pivots_not_split : ¬ ∀ page : Page, OlcInner page → 0 < page.itemNum →
    ∀ pgId bytes, ∃ left right,
      page.innerPageSplit (newPage pgId false bytes) = some (left, right) ∧
        InnerSplit page left right page.getInnerPageSplitSep := by
  intro always
  obtain ⟨inner, count⟩ := @pivotPage_inner [([1], 6), ([2], 7)] (by decide)
    (by unfold Lib.Ascending; decide) (by decide)
  have two : (pivotPage [([1], 6), ([2], 7)]).itemNum = 2 := count
  obtain ⟨left, right, done, split⟩ := always _ inner (by omega) 4 fun _ => 0
  exact not_innerSplit (by omega) done split

end AhaTree.Slotted
