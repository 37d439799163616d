import AhaTree.SlottedRemoval

/-!
# Overwriting in a slotted page

A key or a value that replaces one of its size stays in its record, and all other
records keep their bytes.  `PageUpdateMinPivot` also takes a key of another size,
for which it moves the records in front of the first pivot's but not their item
ids.
-/

namespace AhaTree.Slotted

open Lib (Memory Span)

/-! ## Overwriting one record -/

/-- Only bytes of the record at the offset are other ones. -/
structure Overwritten (before after : Page) (offset : Nat) : Prop where
  itemNum : after.itemNum = before.itemNum
  freeStart : after.freeStart = before.freeStart
  freeEnd : after.freeEnd = before.freeEnd
  isLeaf : after.isLeaf = before.isLeaf
  outside : ∀ address, (address < before.itemId offset ∨
    before.itemId offset + encodedLen (before.decodeEntry offset) ≤ address) →
      after.bytes address = before.bytes address

namespace Overwritten

variable {before middle after : Page} {offset : Nat}

theorem refl (page : Page) (offset : Nat) : Overwritten page page offset :=
  ⟨rfl, rfl, rfl, rfl, fun _ _ => rfl⟩

section one

variable (overwritten : Overwritten before after offset) (spaced : Spaced before)
  (inside : offset < before.itemNum)

include overwritten spaced inside

theorem itemId {index : Nat} (within : index < before.itemNum) :
    after.itemId index = before.itemId index := by
  have ids := idPos_itemNum_le spaced
  have lower := (spaced.record_inside (itemId_mem inside)).1
  simp only [Page.idPos, itemIdSize] at ids
  exact decodeInt32At_mirrors fun address isAddress => overwritten.outside _ (.inl (by
    simp only [Page.idPos, itemIdSize]
    omega))

theorem ids : after.ids = before.ids := by
  rw [Page.ids, overwritten.itemNum]
  exact List.map_congr_left fun index within =>
    overwritten.itemId spaced inside (List.mem_range.mp within)

/-- The other records are apart from the one at the offset. -/
theorem decodeEntry_ne {index : Nat} (within : index < before.itemNum)
    (isOther : index ≠ offset) : after.decodeEntry index = before.decodeEntry index := by
  have ordered := List.pairwise_iff_getElem.mp spaced.apart
  have apart : (spanAt before.isLeaf before.bytes (before.itemId offset)).Apart
      (spanAt before.isLeaf before.bytes (before.itemId index)) := by
    rcases Nat.lt_or_gt_of_ne isOther with earlier | later
    · have apart := ordered index offset (by simpa using within) (by simpa using inside) earlier
      rw [Page.spans_getElem, Page.spans_getElem] at apart
      exact apart.symm
    · have apart := ordered offset index (by simpa using inside) (by simpa using within) later
      rwa [Page.spans_getElem, Page.spans_getElem] at apart
  rw [Page.decodeEntry, overwritten.itemId spaced inside within, overwritten.isLeaf]
  refine recordAt_mirrors fun address isAddress => overwritten.outside _ ?_
  simp only [Span.Apart, Span.stop, spanAt] at apart
  unfold Page.decodeEntry
  omega

theorem entries : after.entries = before.entries.set offset (after.decodeEntry offset) := by
  have sameLength : after.entries.length = before.entries.length := by
    rw [Page.entries_length, Page.entries_length, overwritten.itemNum]
  apply List.ext_getElem
  · rw [List.length_set, sameLength]
  · intro index isIndex _
    rw [Page.entries_getElem isIndex, List.getElem_set]
    rw [sameLength, Page.entries_length] at isIndex
    split_ifs with isOffset
    · rw [isOffset]
    · rw [Page.entries_getElem, overwritten.decodeEntry_ne spaced inside isIndex
        (Ne.symm isOffset)]

/-- A record of the same size leaves the layout as it is. -/
theorem spans (sameSize : encodedLen (after.decodeEntry offset) =
    encodedLen (before.decodeEntry offset)) : after.spans = before.spans := by
  rw [Page.spans, overwritten.ids spaced inside, Page.spans]
  refine List.map_congr_left fun pos member => ?_
  obtain ⟨index, within, rfl⟩ := List.mem_map.mp member
  have isIndex := List.mem_range.mp within
  have sameId := overwritten.itemId spaced inside isIndex
  have sameRecord : encodedLen (after.decodeEntry index) =
      encodedLen (before.decodeEntry index) := by
    by_cases isOffset : index = offset
    · rw [isOffset, sameSize]
    · rw [overwritten.decodeEntry_ne spaced inside isIndex isOffset]
  rw [Page.decodeEntry, sameId] at sameRecord
  exact congrArg (Span.mk _) sameRecord

omit spaced in
theorem laid_after (laid : Laid before) (sameSize : encodedLen (after.decodeEntry offset) =
    encodedLen (before.decodeEntry offset)) : Laid after where
  freeStart := by rw [overwritten.freeStart, overwritten.itemNum, laid.freeStart]
  room := by
    rw [overwritten.freeStart, overwritten.freeEnd]
    exact laid.room
  tiles := by
    rw [overwritten.freeEnd, overwritten.spans laid.spaced inside sameSize]
    exact laid.tiles

theorem spaced_after (sameSize : encodedLen (after.decodeEntry offset) =
    encodedLen (before.decodeEntry offset)) : Spaced after where
  itemIds := by
    rw [overwritten.freeStart, overwritten.itemNum]
    exact spaced.itemIds
  room := by
    rw [overwritten.freeStart, overwritten.freeEnd]
    exact spaced.room
  within := by
    rw [overwritten.freeEnd]
    exact spaced.within
  inside := by
    rw [overwritten.freeEnd, overwritten.spans spaced inside sameSize]
    exact spaced.inside
  apart := by
    rw [overwritten.spans spaced inside sameSize]
    exact spaced.apart

end one

end Overwritten

/-- The page with other bytes from an address on. -/
def Page.overwrite (page : Page) (start : Nat) (cells : Slice) : Page :=
  { page with isDirty := true, bytes := page.bytes.write start cells }

section overwrite

variable {page : Page} {offset : Nat} (spaced : Spaced page) (inside : offset < page.itemNum)

theorem overwrite_overwritten {start : Nat} {cells : Slice} (behind : page.itemId offset ≤ start)
    (within : start + cells.length ≤
      page.itemId offset + encodedLen (page.decodeEntry offset)) :
    Overwritten page (page.overwrite start cells) offset where
  itemNum := rfl
  freeStart := rfl
  freeEnd := rfl
  isLeaf := rfl
  outside _ _ := Memory.write_outside (by omega)

theorem decodeEntry_keySize (page : Page) (offset : Nat) :
    decodeInt32At page.bytes (page.itemId offset) = (page.decodeEntry offset).1.length := by
  simp [Page.decodeEntry, recordAt]

theorem decodeEntry_key (page : Page) (offset : Nat) :
    page.bytes.read (page.itemId offset + itemIdSize) (page.decodeEntry offset).1.length =
      (page.decodeEntry offset).1 := by
  simp [Page.decodeEntry, recordAt]

theorem decodeEntry_payload (page : Page) (offset : Nat) :
    payloadAt page.isLeaf page.bytes
        (page.itemId offset + itemIdSize + (page.decodeEntry offset).1.length) =
      (page.decodeEntry offset).2 := by
  simp [Page.decodeEntry, recordAt]

include spaced inside

theorem overwrite_key {key : Slice} (sameSize : key.length = (page.decodeEntry offset).1.length) :
    Overwritten page (page.overwrite (page.itemId offset + itemIdSize) key) offset ∧
      (page.overwrite (page.itemId offset + itemIdSize) key).decodeEntry offset =
        (key, (page.decodeEntry offset).2) := by
  have overwritten : Overwritten page
      (page.overwrite (page.itemId offset + itemIdSize) key) offset :=
    overwrite_overwritten (Nat.le_add_right ..) (by
      simp only [encodedLen, itemIdSize]
      omega)
  refine ⟨overwritten, ?_⟩
  rw [Page.decodeEntry, overwritten.itemId spaced inside inside]
  refine recordAt_eq ?_ (Memory.read_write_self ..) ?_
  · rw [sameSize, ← decodeEntry_keySize]
    exact decodeInt32At_mirrors (.write (.inl (by simp [itemIdSize])))
  · rw [sameSize, ← decodeEntry_payload]
    exact payloadAt_mirrors (.write (.inr (by omega)))

theorem overwrite_value {start : Nat} {val : Slice} (isLeaf : page.isLeaf = true)
    (isStart : page.itemId offset + itemIdSize + (page.decodeEntry offset).1.length +
      itemIdSize = start)
    (sameSize : val.length = (page.decodeEntry offset).2.extra) :
    Overwritten page (page.overwrite start val) offset ∧
      (page.overwrite start val).decodeEntry offset =
        ((page.decodeEntry offset).1, .value val) := by
  have overwritten : Overwritten page (page.overwrite start val) offset :=
    overwrite_overwritten (by omega) (by
      simp only [encodedLen]
      omega)
  refine ⟨overwritten, ?_⟩
  rw [Page.decodeEntry, overwritten.itemId spaced inside inside]
  simp only [itemIdSize] at isStart
  refine recordAt_eq ?_ ?_ ?_
  · rw [← decodeEntry_keySize]
    exact decodeInt32At_mirrors (.write (.inl (by omega)))
  · refine Eq.trans (Memory.Mirrors.read_eq (.write (.inl ?_))) (decodeEntry_key page offset)
    simp only [itemIdSize]
    omega
  · have valSize : decodeInt32At page.bytes
        (page.itemId offset + itemIdSize + (page.decodeEntry offset).1.length) =
          val.length := by
      rw [sameSize, ← decodeEntry_payload, isLeaf]
      simp [payloadAt, Payload.extra]
    have sameNumber : decodeInt32At (page.overwrite start val).bytes
        (page.itemId offset + itemIdSize + (page.decodeEntry offset).1.length) = val.length := by
      rw [← valSize]
      exact decodeInt32At_mirrors (.write (.inl (by simp only [itemIdSize]; omega)))
    have stillLeaf : (page.overwrite start val).isLeaf = true := isLeaf
    rw [stillLeaf, payloadAt, if_pos rfl, sameNumber, ← isStart]
    exact congrArg Payload.value (Memory.read_write_self ..)

end overwrite

/-! ## The first pivot -/

section updateMinPivot

/-- The size of the records that `PageUpdateMinPivot` moves. -/
def chunkSize (page : Page) : Nat := pageSize - page.freeEnd - encodedLen (page.decodeEntry 0)

/-- `free_end_` after the move. -/
def movedFreeEnd (page : Page) (key : Slice) : Nat :=
  pageSize - chunkSize page - encodedLen (key, (page.decodeEntry 0).2)

variable {page : Page} {key : Slice} (isIndex : page.isLeaf = false)

include isIndex in
theorem decodeEntry_child (offset : Nat) : (page.decodeEntry offset).2 = .child (UInt32.ofNat
    (decodeInt32At page.bytes
      (page.itemId offset + itemIdSize + (page.decodeEntry offset).1.length))) := by
  rw [← decodeEntry_payload, isIndex]
  rfl

theorem updateMinPivot_of_eq (sameSize : key.length = (page.decodeEntry 0).1.length) :
    page.updateMinPivot key = page.overwrite (page.itemId 0 + itemIdSize) key := by
  have isSize : key.length = decodeInt32At page.bytes (page.itemId 0) := by
    rw [decodeEntry_keySize, sameSize]
  exact if_pos isSize

include isIndex in
theorem updateMinPivot_of_ne (otherSize : key.length ≠ (page.decodeEntry 0).1.length) :
    page.updateMinPivot key = { page with
      isDirty := true
      freeEnd := movedFreeEnd page key
      bytes := encodeInt32At ((page.bytes.move (movedFreeEnd page key) page.freeEnd
        (chunkSize page)).write (movedFreeEnd page key + chunkSize page)
          (encodeEntry (key, (page.decodeEntry 0).2))) pgHdSize
            (movedFreeEnd page key + chunkSize page) } := by
  have isOther : key.length ≠ decodeInt32At page.bytes (page.itemId 0) := by
    rwa [decodeEntry_keySize]
  have isChild : encodeFixed 4 (decodeInt32At page.bytes
      (page.itemId 0 + itemIdSize + (page.decodeEntry 0).1.length)) =
        (page.decodeEntry 0).2.encode := by
    rw [decodeEntry_child isIndex, Payload.encode, UInt32.toNat_ofNat']
    exact (encodeFixed_mod 4 _).symm
  have noValue : (page.decodeEntry 0).2.extra = 0 := by
    rw [decodeEntry_child isIndex, Payload.extra]
  simp only [Page.updateMinPivot]
  rw [if_neg isOther, decodeEntry_keySize]
  simp only [encodeInt32At, isChild]
  rw [← writeEntry_bytes]
  simp only [movedFreeEnd, chunkSize, encodedLen, noValue, Nat.add_zero, encodeInt32At]

/-- There is room for the key when the record of the first pivot is taken back. -/
def KeyFits (page : Page) (key : Slice) : Prop :=
  encodedLen (key, (page.decodeEntry 0).2) ≤
    page.freeEnd - page.freeStart + encodedLen (page.decodeEntry 0)

variable (laid : Laid page) (nonempty : 0 < page.itemNum) (fits : KeyFits page key)

include laid nonempty

theorem chunkSize_eq :
    page.freeEnd + chunkSize page + encodedLen (page.decodeEntry 0) = pageSize := by
  obtain ⟨lower, upper⟩ := laid.record_inside (itemId_mem nonempty)
  change _ + encodedLen (page.decodeEntry 0) ≤ _ at upper
  unfold chunkSize
  omega

include fits

theorem movedFreeEnd_eq : movedFreeEnd page key + chunkSize page +
    encodedLen (key, (page.decodeEntry 0).2) = pageSize := by
  have chunk := chunkSize_eq laid nonempty
  unfold KeyFits at fits
  unfold movedFreeEnd
  omega

theorem freeStart_le_moved : page.freeStart ≤ movedFreeEnd page key := by
  have chunk := chunkSize_eq laid nonempty
  have moved := movedFreeEnd_eq laid nonempty fits
  have room := laid.room
  unfold KeyFits at fits
  omega

/-! The page after the key of another size has been written. -/

variable (otherSize : key.length ≠ (page.decodeEntry 0).1.length)

include isIndex otherSize

theorem updateMinPivot_itemId (index : Nat) (within : index < page.itemNum) :
    (page.updateMinPivot key).itemId index =
      if index = 0 then movedFreeEnd page key + chunkSize page else page.itemId index := by
  have moved := movedFreeEnd_eq laid nonempty fits
  have behind := freeStart_le_moved laid nonempty fits
  have start := laid.freeStart
  simp only [itemIdSize, pgHdSize] at start
  simp only [pageSize] at moved
  rw [Page.itemId, updateMinPivot_of_ne isIndex otherSize]
  split_ifs with isFirst
  · subst isFirst
    exact decodeInt32At_encode (by omega)
  · refine decodeInt32At_mirrors (.trans (.trans (.move (.inl ?_)) (.write (.inl ?_)))
      (.write (.inr ?_)))
    · simp only [Page.idPos, itemIdSize, pgHdSize]
      omega
    · simp only [Page.idPos, itemIdSize, pgHdSize]
      omega
    · rw [encodeFixed_length]
      simp only [Page.idPos, itemIdSize]
      omega

theorem updateMinPivot_ids : (page.updateMinPivot key).ids =
    (movedFreeEnd page key + chunkSize page) :: page.ids.tail := by
  have sameNum : (page.updateMinPivot key).itemNum = page.itemNum := by
    rw [updateMinPivot_of_ne isIndex otherSize]
  apply List.ext_getElem
  · simp only [Page.ids_length, sameNum, List.length_cons, List.length_tail]
    omega
  · intro index isIndexed _
    rw [Page.ids_length, sameNum] at isIndexed
    rw [Page.ids_getElem, updateMinPivot_itemId isIndex laid nonempty fits otherSize _ isIndexed]
    cases index with
    | zero => rfl
    | succ index =>
        rw [if_neg (Nat.succ_ne_zero index), List.getElem_cons_succ, List.getElem_tail,
          Page.ids_getElem]

theorem updateMinPivot_first :
    recordAt page.isLeaf (page.updateMinPivot key).bytes
      (movedFreeEnd page key + chunkSize page) = (key, (page.decodeEntry 0).2) := by
  have moved := movedFreeEnd_eq laid nonempty fits
  have behind := freeStart_le_moved laid nonempty fits
  have start := laid.freeStart
  have noValue : (page.decodeEntry 0).2.extra = 0 := by
    rw [decodeEntry_child isIndex, Payload.extra]
  have isKind : (page.decodeEntry 0).2.isLeaf = page.isLeaf := by
    rw [decodeEntry_child isIndex, isIndex]
    rfl
  simp only [encodedLen, pageSize, itemIdSize, pgHdSize] at moved start
  rw [updateMinPivot_of_ne isIndex otherSize, ← isKind]
  refine @recordAt_of_read _ _ (key, (page.decodeEntry 0).2) ?_
    (show key.length < _ by omega) (show (page.decodeEntry 0).2.extra < _ by omega)
  rw [encodeInt32At, Memory.Mirrors.read_eq (.write (.inr (by
    rw [encodeFixed_length]
    simp only [pgHdSize]
    omega))), ← encodeEntry_length]
  exact Memory.read_write_self ..

end updateMinPivot

/-- The first pivot is the key, and nothing else has changed. -/
structure MinPivotUpdated (before after : Page) (key : Slice) : Prop where
  wellFormed : WellFormed after
  isLeaf : after.isLeaf = before.isLeaf
  entries : after.entries = (key, (before.decodeEntry 0).2) :: before.entries.tail

section minPivotUpdated

variable {page : Page} {key : Slice} (wellFormed : WellFormed page)
  (isIndex : page.isLeaf = false) (nonempty : 0 < page.itemNum)

/-- The layout is a matter of the item ids and of the sizes of the entries. -/
theorem Page.spans_eq_zipWith (page : Page) :
    page.spans = List.zipWith Span.mk page.ids (page.entries.map encodedLen) := by
  rw [Page.entries, List.map_map, List.zipWith_map_right, List.zipWith_self]
  rfl

include nonempty in
theorem entries_eq_cons : page.entries = page.decodeEntry 0 :: page.entries.tail := by
  have positive : 0 < page.entries.length := by simpa using nonempty
  have parts := List.drop_eq_getElem_cons positive
  rwa [List.drop_zero, List.drop_one, Page.entries_getElem] at parts

include wellFormed nonempty

theorem minPivotUpdated_of_eq (smaller : key < (page.decodeEntry 0).1)
    (sameSize : key.length = (page.decodeEntry 0).1.length) :
    MinPivotUpdated page (page.updateMinPivot key) key := by
  obtain ⟨overwritten, isFirst⟩ := overwrite_key wellFormed.spaced nonempty sameSize
  rw [updateMinPivot_of_eq sameSize]
  have entries := overwritten.entries wellFormed.spaced nonempty
  rw [isFirst, entries_eq_cons nonempty, List.set_cons_zero] at entries
  refine ⟨⟨overwritten.laid_after nonempty wellFormed.toLaid ?_, ?_⟩, rfl, entries⟩
  · rw [isFirst, encodedLen, sameSize]
    rfl
  · have ascending := wellFormed.ascending
    rw [entries_eq_cons nonempty] at ascending
    rw [entries]
    exact ascending.lower smaller.le

variable (fits : KeyFits page key) (otherSize : key.length ≠ (page.decodeEntry 0).1.length)

include isIndex fits otherSize

omit nonempty in
theorem minPivotUpdated_of_single (single : page.itemNum = 1) :
    MinPivotUpdated page (page.updateMinPivot key) key := by
  have nonempty : 0 < page.itemNum := by omega
  have laid := wellFormed.toLaid
  have isFirst := updateMinPivot_first isIndex laid nonempty fits otherSize
  have noOther : page.ids.tail = [] :=
    List.eq_nil_of_length_eq_zero (by rw [List.length_tail, Page.ids_length, single])
  have ids := updateMinPivot_ids isIndex laid nonempty fits otherSize
  rw [noOther] at ids
  have isLeaf : (page.updateMinPivot key).isLeaf = page.isLeaf := by
    rw [updateMinPivot_of_ne isIndex otherSize]
  have entries : (page.updateMinPivot key).entries = [(key, (page.decodeEntry 0).2)] := by
    rw [Page.entries, ids, isLeaf, List.map_singleton, isFirst]
  have spans : (page.updateMinPivot key).spans =
      [⟨movedFreeEnd page key + chunkSize page,
        encodedLen (key, (page.decodeEntry 0).2)⟩] := by
    rw [Page.spans, ids, isLeaf, List.map_singleton, spanAt, isFirst]
  have noTail : page.entries.tail = [] :=
    List.eq_nil_of_length_eq_zero (by rw [List.length_tail, Page.entries_length, single])
  have alone : page.freeEnd + encodedLen (page.decodeEntry 0) = pageSize := by
    have isSpan : page.spans = [spanAt page.isLeaf page.bytes (page.itemId 0)] := by
      rw [Page.spans, Page.ids, single]
      rfl
    have sum := laid.tiles.sum
    rwa [isSpan] at sum
  have chunk := chunkSize_eq laid nonempty
  have moved := movedFreeEnd_eq laid nonempty fits
  have behind := freeStart_le_moved laid nonempty fits
  refine ⟨⟨⟨?_, ?_, ?_⟩, ?_⟩, isLeaf, by rw [entries, noTail]⟩
  · rw [updateMinPivot_of_ne isIndex otherSize]
    exact laid.freeStart
  · rw [updateMinPivot_of_ne isIndex otherSize]
    exact behind
  · have isEnd : (page.updateMinPivot key).freeEnd = movedFreeEnd page key + chunkSize page := by
      rw [updateMinPivot_of_ne isIndex otherSize]
      change movedFreeEnd page key = _
      omega
    rw [isEnd, spans]
    exact (Lib.Tiles.nil pageSize).cons _ moved
  · rw [entries]
    exact List.pairwise_singleton _ _

/-- The other records would have to be where they were, in front of a record that ends
with the page. -/
theorem not_minPivotUpdated (several : 1 < page.itemNum) :
    ¬ MinPivotUpdated page (page.updateMinPivot key) key := by
  intro updated
  have laid := wellFormed.toLaid
  have isFirst := updateMinPivot_first isIndex laid nonempty fits otherSize
  have ids := updateMinPivot_ids isIndex laid nonempty fits otherSize
  have moved := movedFreeEnd_eq laid nonempty fits
  have spans : (page.updateMinPivot key).spans = ⟨movedFreeEnd page key + chunkSize page,
      encodedLen (key, (page.decodeEntry 0).2)⟩ :: page.spans.tail := by
    rw [Page.spans_eq_zipWith, ids, updated.entries, Page.spans_eq_zipWith, List.tail_zipWith,
      ← List.map_tail]
    rfl
  have positive : 0 < page.spans.length := by simpa using nonempty
  have parts := List.drop_eq_getElem_cons positive
  rw [List.drop_zero, List.drop_one, Page.spans_getElem] at parts
  have before := laid.tiles
  have after := updated.wellFormed.tiles
  rw [parts] at before
  have sizes : ∀ span ∈ (page.updateMinPivot key).spans, 0 < span.size := by
    intro span member
    obtain ⟨pos, _, rfl⟩ := List.mem_map.mp member
    simp only [spanAt, encodedLen, itemIdSize]
    omega
  rw [spans] at after sizes
  have others : page.spans.tail ≠ [] := List.ne_nil_of_length_pos (by
    rw [List.length_tail, Page.spans_length]
    omega)
  have sameSize := before.size_eq_of_last after moved others sizes
  simp only [spanAt, encodedLen] at sameSize
  change key.length + _ + (page.decodeEntry 0).2.extra =
    (page.decodeEntry 0).1.length + _ + (page.decodeEntry 0).2.extra at sameSize
  omega

end minPivotUpdated

/-- The first pivot is lowered as it should be to a key of its size, and on a page with
one pivot to any key. -/
theorem min_pivot_updated_iff {page : Page} (wellFormed : WellFormed page)
    (isIndex : page.isLeaf = false) (nonempty : 0 < page.itemNum) {key : Slice}
    (smaller : key < (page.decodeEntry 0).1) (fits : KeyFits page key) :
    MinPivotUpdated page (page.updateMinPivot key) key ↔
      key.length = (page.decodeEntry 0).1.length ∨ page.itemNum = 1 := by
  by_cases sameSize : key.length = (page.decodeEntry 0).1.length
  · exact iff_of_true (minPivotUpdated_of_eq wellFormed nonempty smaller sameSize)
      (.inl sameSize)
  · by_cases single : page.itemNum = 1
    · exact iff_of_true (minPivotUpdated_of_single wellFormed isIndex fits sameSize single)
        (.inr single)
    · exact iff_of_false
        (not_minPivotUpdated wellFormed isIndex nonempty fits sameSize (by omega))
        (not_or.mpr ⟨sameSize, single⟩)

def twoPivotPage : Page := (onePivotPage.writeEntryAt 1 ([9], .child 6)).addItem

theorem twoPivotPage_wellFormed : WellFormed twoPivotPage := by
  have isKey : onePivotPage.keys = [[7]] := by decide
  have two : Inserted onePivotPage twoPivotPage ([9], .child 6) :=
    insertIndexEntry_inserted onePivotPage_wellFormed rfl (by rw [isKey]; decide) rfl
  exact two.wellFormed

theorem min_pivot_updated_iff_same_size :
    MinPivotUpdated twoPivotPage (twoPivotPage.updateMinPivot [3]) [3] :=
  (min_pivot_updated_iff twoPivotPage_wellFormed rfl (by decide) (by decide)
    (by unfold KeyFits; decide)).mpr (.inl (by decide))

/-- The second item id is left behind when the first pivot becomes longer. -/
theorem longer_min_pivot_not_updated : ¬ ∀ page : Page, WellFormed page →
    page.isLeaf = false → 0 < page.itemNum → ∀ key, key < (page.decodeEntry 0).1 →
      KeyFits page key → MinPivotUpdated page (page.updateMinPivot key) key := by
  intro always
  have fits : KeyFits twoPivotPage [3, 1] := by unfold KeyFits; decide
  have updated := always twoPivotPage twoPivotPage_wellFormed rfl (by decide) [3, 1]
    (by decide) fits
  exact not_minPivotUpdated twoPivotPage_wellFormed rfl (by decide) fits (by decide)
    (by decide) updated

end AhaTree.Slotted
