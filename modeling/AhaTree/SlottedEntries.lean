import AhaTree.SlottedPage
import AhaTree.Lib.Ascending

/-!
# What a slotted page holds

A record is decoded from its own bytes only, so it survives every change outside
of them and every move.  A page is well formed when its records tile the space
behind `free_end_` and its keys ascend.  Insertion keeps this: the new record
takes the end of the free space, and its item id the place of its key.
-/

namespace AhaTree.Slotted

open Lib (Memory Span)

/-! ## Records -/

def encodeEntry (entry : Entry) : Slice :=
  encodeFixed 4 entry.1.length ++ entry.1 ++ entry.2.encode

@[simp] theorem Payload.encode_length (payload : Payload) :
    payload.encode.length = itemIdSize + payload.extra := by
  cases payload with
  | child pgId => simp [encode, extra, itemIdSize]
  | value val => simp [encode, extra, itemIdSize]

@[simp] theorem encodeEntry_length (entry : Entry) :
    (encodeEntry entry).length = encodedLen entry := by
  simp only [encodeEntry, encodedLen, List.length_append, encodeFixed_length,
    Payload.encode_length, itemIdSize]
  omega

theorem decodeInt32At_of_read {bytes : Memory Byte} {pos number : Nat}
    (isRead : bytes.read pos 4 = encodeFixed 4 number) (small : number < 2 ^ 32) :
    decodeInt32At bytes pos = number := by
  rw [decodeInt32At, isRead, decodeFixed_encodeFixed]
  exact Nat.mod_eq_of_lt (by omega)

theorem decodeInt32At_encode {bytes : Memory Byte} {pos number : Nat}
    (small : number < 2 ^ 32) :
    decodeInt32At (encodeInt32At bytes pos number) pos = number := by
  have isRead := Memory.read_write_self bytes pos (encodeFixed 4 number)
  rw [encodeFixed_length] at isRead
  exact decodeInt32At_of_read isRead small

theorem decodeInt32At_mirrors {before after : Memory Byte} {source target : Nat}
    (mirrors : Memory.Mirrors before after source target 4) :
    decodeInt32At after target = decodeInt32At before source := by
  rw [decodeInt32At, mirrors.read_eq, decodeInt32At]

/-- A record from its three parts. -/
theorem recordAt_eq {isLeaf : Bool} {bytes : Memory Byte} {pos : Nat} {key : Slice}
    {payload : Payload} (keySize : decodeInt32At bytes pos = key.length)
    (isKey : bytes.read (pos + itemIdSize) key.length = key)
    (isPayload : payloadAt isLeaf bytes (pos + itemIdSize + key.length) = payload) :
    recordAt isLeaf bytes pos = (key, payload) := by
  simp only [recordAt, keySize, isKey, isPayload]

theorem payloadAt_of_read {bytes : Memory Byte} {pos : Nat} {payload : Payload}
    (isRead : bytes.read pos (itemIdSize + payload.extra) = payload.encode)
    (small : payload.extra < 2 ^ 32) : payloadAt payload.isLeaf bytes pos = payload := by
  rw [Memory.read_append] at isRead
  cases payload with
  | child pgId =>
      have isNumber : bytes.read pos 4 = encodeFixed 4 pgId.toNat := by
        simpa [Payload.extra, Payload.encode, Memory.read, itemIdSize] using isRead
      rw [payloadAt, decodeInt32At_of_read isNumber pgId.toNat_lt]
      exact congrArg Payload.child (UInt32.ofNat_toNat ..)
  | value val =>
      obtain ⟨isNumber, isVal⟩ := List.append_inj isRead (by simp [itemIdSize])
      have size := decodeInt32At_of_read isNumber small
      simp only [Payload.isLeaf, payloadAt, if_true, size]
      exact congrArg Payload.value isVal

/-- A record that has been encoded is decoded. -/
theorem recordAt_of_read {bytes : Memory Byte} {pos : Nat} {entry : Entry}
    (isRead : bytes.read pos (encodedLen entry) = encodeEntry entry)
    (smallKey : entry.1.length < 2 ^ 32) (small : entry.2.extra < 2 ^ 32) :
    recordAt entry.2.isLeaf bytes pos = entry := by
  have size : encodedLen entry =
      itemIdSize + entry.1.length + (itemIdSize + entry.2.extra) := by
    unfold encodedLen
    omega
  rw [size, Memory.read_append, encodeEntry] at isRead
  obtain ⟨isFront, isPayload⟩ := List.append_inj isRead (by simp [itemIdSize])
  rw [Memory.read_append] at isFront
  obtain ⟨isNumber, isKey⟩ := List.append_inj isFront (by simp [itemIdSize])
  refine recordAt_eq (decodeInt32At_of_read isNumber smallKey) isKey ?_
  rw [← Nat.add_assoc] at isPayload
  exact payloadAt_of_read isPayload small

section mirrors

variable {isLeaf : Bool} {before after : Memory Byte} {source target : Nat}

theorem payloadAt_mirrors (mirrors : Memory.Mirrors before after source target
      (itemIdSize + (payloadAt isLeaf before source).extra)) :
    payloadAt isLeaf after target = payloadAt isLeaf before source := by
  have sameNumber := decodeInt32At_mirrors (mirrors.part 0 4 (by simp [itemIdSize]))
  simp only [Nat.add_zero] at sameNumber
  unfold payloadAt at mirrors ⊢
  cases isLeaf with
  | false => simp only [Bool.false_eq_true, if_false, sameNumber]
  | true =>
      simp only [if_true, Payload.extra, Memory.read_length] at mirrors ⊢
      rw [sameNumber, (mirrors.part _ _ (Nat.le_refl _)).read_eq]

/-- A record depends on its own bytes only. -/
theorem recordAt_mirrors (mirrors : Memory.Mirrors before after source target
      (encodedLen (recordAt isLeaf before source))) :
    recordAt isLeaf after target = recordAt isLeaf before source := by
  have sameSize := decodeInt32At_mirrors (mirrors.part 0 4
    (by simp [encodedLen, itemIdSize]; omega))
  have size : encodedLen (recordAt isLeaf before source) =
      itemIdSize + decodeInt32At before source +
        (itemIdSize + (payloadAt isLeaf before
          (source + itemIdSize + decodeInt32At before source)).extra) := by
    simp only [encodedLen, recordAt, Memory.read_length]
    omega
  rw [size] at mirrors
  simp only [Nat.add_zero] at sameSize
  have sameKey := (mirrors.part itemIdSize (decodeInt32At before source)
    (Nat.le_add_right ..)).read_eq
  have samePayload := @payloadAt_mirrors isLeaf before after
    (source + itemIdSize + decodeInt32At before source)
    (target + itemIdSize + decodeInt32At before source)
    (by simpa only [Nat.add_assoc] using
      mirrors.part (itemIdSize + decodeInt32At before source) _ (Nat.le_refl _))
  simp only [recordAt, sameSize, sameKey, samePayload]

end mirrors

/-! ## Well-formed pages -/

/-- The item ids end where the free space starts, and the records tile what is behind
it. -/
structure Laid (page : Page) : Prop where
  freeStart : page.freeStart = pgHdSize + itemIdSize * page.itemNum
  room : page.freeStart ≤ page.freeEnd
  tiles : Lib.Tiles page.freeEnd pageSize page.spans

structure WellFormed (page : Page) : Prop extends Laid page where
  ascending : Lib.Ascending page.entries

/-- What the insertions and the overwriting of a record need of a layout: the item ids end
in front of the free space, and the records lie behind it, apart from one another. -/
structure Spaced (page : Page) : Prop where
  itemIds : pgHdSize + itemIdSize * page.itemNum ≤ page.freeStart
  room : page.freeStart ≤ page.freeEnd
  within : page.freeEnd ≤ pageSize
  inside : ∀ span ∈ page.spans, page.freeEnd ≤ span.start ∧ span.stop ≤ pageSize
  apart : page.spans.Pairwise Span.Apart

theorem Laid.spaced {page : Page} (laid : Laid page) : Spaced page where
  itemIds := Nat.le_of_eq laid.freeStart.symm
  room := laid.room
  within := laid.tiles.sum ▸ Nat.le_add_right ..
  inside _ member := laid.tiles.inside member
  apart := laid.tiles.apart

namespace Page

variable {page : Page}

@[simp] theorem ids_length (page : Page) : page.ids.length = page.itemNum := by simp [ids]

@[simp] theorem entries_length (page : Page) : page.entries.length = page.itemNum := by
  simp [entries]

@[simp] theorem keys_length (page : Page) : page.keys.length = page.itemNum := by simp [keys]

@[simp] theorem spans_length (page : Page) : page.spans.length = page.itemNum := by simp [spans]

theorem ids_getElem {offset : Nat} (inside : offset < page.ids.length) :
    page.ids[offset] = page.itemId offset := by
  simp [ids]

theorem entries_getElem {offset : Nat} (inside : offset < page.entries.length) :
    page.entries[offset] = page.decodeEntry offset := by
  simp [entries, ids, decodeEntry]

theorem spans_getElem {offset : Nat} (inside : offset < page.spans.length) :
    page.spans[offset] = spanAt page.isLeaf page.bytes (page.itemId offset) := by
  simp [spans, ids]

theorem readPivotAtOffset_eq (page : Page) (offset : Nat) :
    page.readPivotAtOffset offset = pageReadPivotAtOffset page.keys offset := by
  unfold readPivotAtOffset pageReadPivotAtOffset keys
  split_ifs with past
  · simp [past]
  · rw [List.getElem?_map, List.getElem?_eq_getElem (by simpa using past)]
    simp [entries_getElem]

theorem compare_eq (page : Page) (key : Slice) : page.compare key =
    fun mid => Slice.compare key (pageReadPivotAtOffset page.keys mid) :=
  funext fun mid => by rw [compare, readPivotAtOffset_eq]

/-- The search on the bytes is the one on the keys. -/
theorem binSearchInsert_eq (page : Page) (key : Slice) :
    page.binSearchInsert key = Btree.pageBinSearchInsert page.keys key := by
  rw [binSearchInsert, compare_eq, ← keys_length]
  rfl

theorem binSearch_eq (page : Page) (key : Slice) :
    page.binSearch key = pageBinSearch page.keys key := by
  rw [binSearch, compare_eq, ← keys_length]
  rfl

end Page

/-- A record lies behind the free space and within the page. -/
theorem Spaced.record_inside {page : Page} (spaced : Spaced page) {pos : Nat}
    (member : pos ∈ page.ids) :
    page.freeEnd ≤ pos ∧
      pos + encodedLen (recordAt page.isLeaf page.bytes pos) ≤ pageSize :=
  spaced.inside _ (List.mem_map_of_mem member)

theorem Laid.record_inside {page : Page} (laid : Laid page) {pos : Nat}
    (member : pos ∈ page.ids) :
    page.freeEnd ≤ pos ∧
      pos + encodedLen (recordAt page.isLeaf page.bytes pos) ≤ pageSize :=
  laid.spaced.record_inside member

theorem WellFormed.parts {page : Page} (wellFormed : WellFormed page) (key : Slice) :
    Lib.Parts page.entries key (page.binSearchInsert key) := by
  rw [Page.binSearchInsert_eq]
  exact Btree.pageBinSearchInsert_parts (wellFormed.ascending.once key)

/-- The records of `before` are unchanged in `after`. -/
def SameRecords (before after : Page) : Prop :=
  ∀ address, before.freeEnd ≤ address → address < pageSize →
    after.bytes address = before.bytes address

namespace SameRecords

variable {before after : Page} (same : SameRecords before after)

include same

theorem recordAt_eq (spaced : Spaced before) {pos : Nat} (member : pos ∈ before.ids) :
    recordAt before.isLeaf after.bytes pos = recordAt before.isLeaf before.bytes pos := by
  obtain ⟨lower, upper⟩ := spaced.record_inside member
  exact recordAt_mirrors fun index inside => same (pos + index) (by omega) (by omega)

theorem map_ids (spaced : Spaced before) :
    before.ids.map (recordAt before.isLeaf after.bytes) = before.entries :=
  List.map_congr_left fun _ member => same.recordAt_eq spaced member

theorem map_spans (spaced : Spaced before) :
    before.ids.map (spanAt before.isLeaf after.bytes) = before.spans :=
  List.map_congr_left fun pos member => by
    rw [spanAt, same.recordAt_eq spaced member, spanAt]

end SameRecords

/-! ## Insertion -/

section writeEntryAt

variable {page : Page} {offset : Nat} {entry : Entry}

/-- The bytes of the page with a new record. -/
theorem writeEntry_bytes (bytes : Memory Byte) (up : Nat) (entry : Entry) :
    ((encodeInt32At bytes up entry.1.length).write (up + itemIdSize) entry.1).write
      (up + itemIdSize + entry.1.length) entry.2.encode =
        bytes.write up (encodeEntry entry) := by
  have first : itemIdSize = (encodeFixed 4 entry.1.length).length := by simp [itemIdSize]
  rw [encodeEntry, ← Memory.write_append, ← Memory.write_append, List.length_append,
    ← first, ← Nat.add_assoc]
  rfl

/-- There is room for the record and its item id. -/
structure Fits (page : Page) (entry : Entry) : Prop where
  room : page.freeStart + encodedLen entry + itemIdSize ≤ page.freeEnd
  small : page.freeEnd ≤ pageSize

/-- The bytes with a new record, before its item id is written. -/
def shifted (page : Page) (offset : Nat) (entry : Entry) : Memory Byte :=
  let written := page.bytes.write (page.freeEnd - encodedLen entry) (encodeEntry entry)
  if offset < page.itemNum then
    written.move (Page.idPos offset + itemIdSize) (Page.idPos offset)
      ((page.itemNum - offset) * itemIdSize)
  else written

theorem writeEntryAt_bytes (page : Page) (offset : Nat) (entry : Entry) :
    (page.writeEntryAt offset entry).bytes = encodeInt32At (shifted page offset entry)
      (Page.idPos offset) (page.freeEnd - encodedLen entry) := by
  simp only [Page.writeEntryAt, shifted, writeEntry_bytes]

/-- The record is read back from bytes that are, from its start on, those it was written to. -/
theorem recordAt_written (fits : Fits page entry) (isLeaf : entry.2.isLeaf = page.isLeaf)
    {bytes : Memory Byte}
    (same : ∀ {address : Nat}, page.freeEnd - encodedLen entry ≤ address →
      bytes address =
        page.bytes.write (page.freeEnd - encodedLen entry) (encodeEntry entry) address) :
    recordAt page.isLeaf bytes (page.freeEnd - encodedLen entry) = entry := by
  have mirrors : Memory.Mirrors
      (page.bytes.write (page.freeEnd - encodedLen entry) (encodeEntry entry)) bytes
      (page.freeEnd - encodedLen entry) (page.freeEnd - encodedLen entry) (encodedLen entry) :=
    fun _ _ => same (Nat.le_add_right ..)
  have isRead := Memory.read_write_self page.bytes
    (page.freeEnd - encodedLen entry) (encodeEntry entry)
  rw [encodeEntry_length, ← mirrors.read_eq] at isRead
  obtain ⟨room, small⟩ := fits
  simp only [encodedLen, pageSize] at room small
  rw [← isLeaf]
  exact recordAt_of_read isRead (by omega) (by omega)

variable (spaced : Spaced page) (fits : Fits page entry)
  (inside : offset ≤ page.itemNum)

include spaced fits

/-- The item ids, the new one included, end in front of the new record. -/
theorem idPos_le {index : Nat} (within : index ≤ page.itemNum) :
    Page.idPos index + itemIdSize ≤ page.freeEnd - encodedLen entry := by
  have room := fits.room
  have start := spaced.itemIds
  simp only [Page.idPos, itemIdSize] at room start ⊢
  omega

theorem mirrors_written {index : Nat} (within : index < page.itemNum) :
    Memory.Mirrors page.bytes
      (page.bytes.write (page.freeEnd - encodedLen entry) (encodeEntry entry))
      (Page.idPos index) (Page.idPos index) 4 :=
  Memory.Mirrors.write (.inl (idPos_le spaced fits (Nat.le_of_lt within)))

include inside

theorem writeEntryAt_sameBytes {address : Nat}
    (behind : page.freeEnd - encodedLen entry ≤ address) :
    (page.writeEntryAt offset entry).bytes address =
      page.bytes.write (page.freeEnd - encodedLen entry) (encodeEntry entry) address := by
  have last := idPos_le spaced fits (Nat.le_refl _)
  have first := idPos_le spaced fits inside
  simp only [Page.idPos, itemIdSize] at first last
  rw [writeEntryAt_bytes, encodeInt32At,
    Memory.write_outside (by rw [encodeFixed_length]; simp only [Page.idPos, itemIdSize]; omega)]
  unfold shifted
  split_ifs
  · exact Memory.move_outside (by simp only [Page.idPos, itemIdSize]; omega)
  · rfl

theorem writeEntryAt_sameRecords : SameRecords page (page.writeEntryAt offset entry) := by
  intro address behind _
  have room := fits.room
  rw [writeEntryAt_sameBytes spaced fits inside (by omega),
    Memory.write_outside (by rw [encodeEntry_length]; omega)]

theorem writeEntryAt_record (isLeaf : entry.2.isLeaf = page.isLeaf) :
    recordAt page.isLeaf (page.writeEntryAt offset entry).bytes
      (page.freeEnd - encodedLen entry) = entry :=
  recordAt_written fits isLeaf (writeEntryAt_sameBytes spaced fits inside)

/-- The item ids from the offset on make room for the new one. -/
theorem writeEntryAt_itemId {index : Nat} (within : index ≤ page.itemNum) :
    (page.writeEntryAt offset entry).itemId index =
      if index < offset then page.itemId index
      else if index = offset then page.freeEnd - encodedLen entry
      else page.itemId (index - 1) := by
  rw [Page.itemId, writeEntryAt_bytes]
  split_ifs with before isOffset
  · refine decodeInt32At_mirrors (.trans (.trans
      (mirrors_written spaced fits (by omega)) ?_)
      (.write (.inl (by simp only [Page.idPos, itemIdSize]; omega))))
    unfold shifted
    split_ifs
    · exact .move (.inl (by simp only [Page.idPos, itemIdSize]; omega))
    · exact Memory.Mirrors.refl _ _ _
  · subst isOffset
    refine decodeInt32At_encode ?_
    have small := fits.small
    simp only [pageSize] at small
    omega
  · refine decodeInt32At_mirrors (.trans (.trans
      (mirrors_written spaced fits (show index - 1 < page.itemNum by omega)) ?_)
      (.write (.inr (by
        rw [encodeFixed_length]
        simp only [Page.idPos, itemIdSize]
        omega))))
    obtain ⟨later, isIndex⟩ : ∃ later, index = offset + later + 1 :=
      ⟨index - offset - 1, by omega⟩
    subst isIndex
    have moves : offset < page.itemNum := by omega
    unfold shifted
    rw [if_pos moves]
    have moved := Memory.Mirrors.moved
      (page.bytes.write (page.freeEnd - encodedLen entry) (encodeEntry entry))
      (Page.idPos offset) (Page.idPos offset + itemIdSize)
      ((page.itemNum - offset) * itemIdSize) (later * itemIdSize) 4
      (by simp only [itemIdSize]; omega)
    convert moved using 1
    · simp only [Page.idPos, itemIdSize]
      omega
    · simp only [Page.idPos, itemIdSize]
      omega

theorem writeEntryAt_ids : (page.writeEntryAt offset entry).addItem.ids =
    page.ids.insertIdx offset (page.freeEnd - encodedLen entry) := by
  have sameLength : offset ≤ page.ids.length := by simpa using inside
  apply List.ext_getElem
  · rw [List.length_insertIdx_of_le_length sameLength, Page.ids_length, Page.ids_length]
    rfl
  · intro index isIndex _
    have within : index ≤ page.itemNum := by
      rw [Page.ids_length] at isIndex
      exact Nat.le_of_lt_succ isIndex
    rw [Page.ids_getElem, List.getElem_insertIdx]
    refine (writeEntryAt_itemId spaced fits inside within).trans ?_
    split_ifs
    · exact (Page.ids_getElem _).symm
    · rfl
    · exact (Page.ids_getElem _).symm

theorem writeEntryAt_entries (isLeaf : entry.2.isLeaf = page.isLeaf) :
    (page.writeEntryAt offset entry).addItem.entries =
      page.entries.insertIdx offset entry := by
  rw [Page.entries, writeEntryAt_ids spaced fits inside, List.map_insertIdx]
  exact congrArg₂ (fun items item => List.insertIdx items offset item)
    ((writeEntryAt_sameRecords spaced fits inside).map_ids spaced)
    (writeEntryAt_record spaced fits inside isLeaf)

theorem writeEntryAt_spans (isLeaf : entry.2.isLeaf = page.isLeaf) :
    (page.writeEntryAt offset entry).addItem.spans =
      page.spans.insertIdx offset ⟨page.freeEnd - encodedLen entry, encodedLen entry⟩ := by
  have isSpan : spanAt page.isLeaf (page.writeEntryAt offset entry).bytes
      (page.freeEnd - encodedLen entry) =
        ⟨page.freeEnd - encodedLen entry, encodedLen entry⟩ := by
    rw [spanAt, writeEntryAt_record spaced fits inside isLeaf]
  rw [Page.spans, writeEntryAt_ids spaced fits inside, List.map_insertIdx]
  exact congrArg₂ (fun items item => List.insertIdx items offset item)
    ((writeEntryAt_sameRecords spaced fits inside).map_spans spaced) isSpan

/-- A new record takes the end of the free space. -/
theorem writeEntryAt_tiles (isLeaf : entry.2.isLeaf = page.isLeaf) {stop : Nat}
    (tiles : Lib.Tiles page.freeEnd stop page.spans) :
    Lib.Tiles (page.writeEntryAt offset entry).addItem.freeEnd stop
      (page.writeEntryAt offset entry).addItem.spans := by
  change Lib.Tiles (page.freeEnd - encodedLen entry) stop _
  rw [writeEntryAt_spans spaced fits inside isLeaf]
  have room := fits.room
  have placed : Lib.Tiles (page.freeEnd - encodedLen entry) stop
      (⟨page.freeEnd - encodedLen entry, encodedLen entry⟩ :: page.spans) :=
    tiles.cons ⟨page.freeEnd - encodedLen entry, encodedLen entry⟩
      (by simp only [Span.stop]; omega)
  exact placed.perm (List.perm_insertIdx _ _ (by simpa using inside)).symm

omit spaced in
theorem writeEntryAt_laid (laid : Laid page) (isLeaf : entry.2.isLeaf = page.isLeaf) :
    Laid (page.writeEntryAt offset entry).addItem where
  freeStart := by
    change page.freeStart + itemIdSize = pgHdSize + itemIdSize * (page.itemNum + 1)
    rw [laid.freeStart]
    rfl
  room := by
    change page.freeStart + itemIdSize ≤ page.freeEnd - encodedLen entry
    have room := fits.room
    omega
  tiles := writeEntryAt_tiles laid.spaced fits inside isLeaf laid.tiles

end writeEntryAt

/-! ## The insertions -/

/-- The page has one more entry, in the order of the keys, and its records are where
they were. -/
structure Inserted (before after : Page) (entry : Entry) : Prop where
  wellFormed : WellFormed after
  isLeaf : after.isLeaf = before.isLeaf
  entries : after.entries = Lib.place entry.1 entry.2 before.entries
  records : SameRecords before after

theorem Laid.fits {page : Page} (laid : Laid page) {entry : Entry}
    {need : Nat} (isNeed : need = encodedLen entry + itemIdSize)
    (room : ¬ page.getFreeSpace ≤ need) : Fits page entry where
  room := by
    unfold Page.getFreeSpace at room
    split_ifs at room
    · omega
    · omega
  small := laid.spaced.within

theorem not_mem_keys {page : Page} {key : Slice} :
    key ∉ page.keys ↔ ∀ item ∈ page.entries, item.1 ≠ key := by
  rw [Page.keys, List.mem_map]
  exact ⟨fun absent item member same => absent ⟨item, member, same⟩,
    fun absent ⟨item, member, same⟩ => absent item member same⟩

/-- A record written where its key belongs. -/
theorem WellFormed.write {page : Page} (wellFormed : WellFormed page) {entry : Entry}
    (fits : Fits page entry) (isLeaf : entry.2.isLeaf = page.isLeaf)
    (absent : entry.1 ∉ page.keys) {offset : Nat}
    (parts : Lib.Parts page.entries entry.1 offset) :
    Inserted page (page.writeEntryAt offset entry).addItem entry := by
  have inside : offset ≤ page.itemNum := page.entries_length ▸ parts.inside
  have placed : page.entries.insertIdx offset entry =
      Lib.place entry.1 entry.2 page.entries := parts.insertIdx (not_mem_keys.mp absent)
  have entries := writeEntryAt_entries wellFormed.spaced fits inside isLeaf
  exact {
    wellFormed :=
      { writeEntryAt_laid fits inside wellFormed.toLaid isLeaf with
        ascending := by
          rw [entries, placed]
          exact wellFormed.ascending.place }
    isLeaf := rfl
    entries := entries.trans placed
    records := writeEntryAt_sameRecords wellFormed.spaced fits inside }

theorem parts_append {page : Page} {key : Slice}
    (above : ∀ other ∈ page.keys, other < key) :
    Lib.Parts page.entries key page.itemNum where
  inside := Nat.le_of_eq page.entries_length.symm
  below item member :=
    above _ (List.mem_map_of_mem (List.mem_of_mem_take member))
  behind item member := by
    rw [List.drop_of_length_le (Nat.le_of_eq page.entries_length)] at member
    cases member

/-- The offset of a key that the page does not have shows that key only to an empty key
on an empty page. -/
theorem WellFormed.readPivot_eq_iff {page : Page} (wellFormed : WellFormed page)
    {key : Slice} (absent : key ∉ page.keys) :
    key = page.readPivotAtOffset (page.binSearchInsert key) ↔
      page.itemNum = 0 ∧ key = [] := by
  have parts := wellFormed.parts key
  constructor
  · intro shown
    unfold Page.readPivotAtOffset at shown
    split_ifs at shown with past
    · subst shown
      refine ⟨?_, rfl⟩
      by_contra nonempty
      have positive : 0 < page.entries.length := by
        rw [Page.entries_length]
        omega
      have first := parts.below page.entries[0] (List.mem_take_iff_getElem.mpr
        ⟨0, by rw [Page.entries_length] at positive ⊢; omega, rfl⟩)
      exact List.not_lt_nil _ first
    · have within : page.binSearchInsert key < page.entries.length := by
        rw [Page.entries_length]
        omega
      refine absurd ?_ absent
      rw [shown, ← Page.entries_getElem within]
      exact List.mem_map_of_mem (List.getElem_mem within)
  · rintro ⟨isEmpty, rfl⟩
    rw [Page.readPivotAtOffset, if_pos (by omega)]

theorem entries_of_itemNum_zero {page : Page} (isEmpty : page.itemNum = 0) :
    page.entries = [] :=
  List.eq_nil_of_length_eq_zero (page.entries_length.trans isEmpty)

/-- What a leaf entry needs, as the insertions compute it. -/
theorem leaf_need (key val : Slice) : key.length + val.length + itemIdSize * 3 =
    encodedLen (key, .value val) + itemIdSize := by
  simp only [encodedLen, Payload.extra, itemIdSize]
  omega

theorem updatePivotAt_itemNum (page : Page) (offset : Nat) (val : Slice) :
    (page.updatePivotAt offset val).1.itemNum = page.itemNum := by
  simp only [Page.updatePivotAt]
  split_ifs
  · rfl
  · rfl

section insertions

variable {page after : Page} (wellFormed : WellFormed page)

include wellFormed

theorem insertIndexEntry_inserted {key : Slice} {pgId : UInt32} (isIndex : page.isLeaf = false)
    (absent : key ∉ page.keys) (done : page.insertIndexEntry key pgId = some after) :
    Inserted page after (key, .child pgId) := by
  unfold Page.insertIndexEntry at done
  split_ifs at done with room
  cases done
  have isNeed : key.length + itemIdSize * 3 =
      encodedLen (key, .child pgId) + itemIdSize := rfl
  exact wellFormed.write (wellFormed.fits isNeed room) isIndex.symm absent
    (wellFormed.parts key)

omit wellFormed in
/-- An empty page is taken to have the empty key. -/
theorem insertLeafEntry_lost {val : Slice} (isEmpty : page.itemNum = 0)
    (done : page.insertLeafEntry [] val = some after) : after.entries = [] := by
  have shown : (Slice.compare [] (page.readPivotAtOffset (page.binSearchInsert []))).isEq := by
    rw [Page.readPivotAtOffset, if_pos (by omega)]
    rfl
  simp only [Page.insertLeafEntry] at done
  rw [if_pos shown] at done
  split_ifs at done
  cases done
  exact entries_of_itemNum_zero ((updatePivotAt_itemNum ..).trans isEmpty)

theorem insertLeafEntry_inserted_iff {key val : Slice} (isLeaf : page.isLeaf = true)
    (absent : key ∉ page.keys) (done : page.insertLeafEntry key val = some after) :
    Inserted page after (key, .value val) ↔ ¬ (page.itemNum = 0 ∧ key = []) := by
  constructor
  · rintro inserted ⟨isEmpty, rfl⟩
    have entries := inserted.entries
    rw [insertLeafEntry_lost isEmpty done, entries_of_itemNum_zero isEmpty] at entries
    cases entries
  · intro notLost
    have other : ¬ (Slice.compare key
        (page.readPivotAtOffset (page.binSearchInsert key))).isEq := by
      rwa [Ordering.isEq_iff_eq_eq, Slice.compare_eq_eq, wellFormed.readPivot_eq_iff absent]
    simp only [Page.insertLeafEntry] at done
    rw [if_neg other] at done
    split_ifs at done with room
    cases done
    exact wellFormed.write (wellFormed.fits (leaf_need key val) room) isLeaf.symm absent
      (wellFormed.parts key)

theorem appendLeafEntry_inserted {key val : Slice} (isLeaf : page.isLeaf = true)
    (above : ∀ other ∈ page.keys, other < key)
    (done : page.appendLeafEntry key val = some after) :
    Inserted page after (key, .value val) := by
  unfold Page.appendLeafEntry at done
  split_ifs at done with room
  cases done
  exact wellFormed.write (wellFormed.fits (leaf_need key val) room)
    isLeaf.symm (fun member => lt_irrefl _ (above key member)) (parts_append above)

/-- Insertion keeps a page well formed, but an empty key is lost on an empty leaf. -/
theorem page_insertions_iff :
    (page.isLeaf = false → ∀ key pgId after, key ∉ page.keys →
      page.insertIndexEntry key pgId = some after → Inserted page after (key, .child pgId)) ∧
    (page.isLeaf = true → ∀ key val after, key ∉ page.keys →
      page.insertLeafEntry key val = some after →
        (Inserted page after (key, .value val) ↔ ¬ (page.itemNum = 0 ∧ key = []))) ∧
    (page.isLeaf = true → ∀ key val after, (∀ other ∈ page.keys, other < key) →
      page.appendLeafEntry key val = some after → Inserted page after (key, .value val)) :=
  ⟨fun isIndex _ _ _ => insertIndexEntry_inserted wellFormed isIndex,
    fun isLeaf _ _ _ => insertLeafEntry_inserted_iff wellFormed isLeaf,
    fun isLeaf _ _ _ => appendLeafEntry_inserted wellFormed isLeaf⟩

end insertions

/-- `PageInit`, for a page of either kind. -/
theorem wellFormed_pageInit (pgId : Nat) (isLeaf : Bool) (bytes : Memory Byte) :
    WellFormed { pageInit pgId bytes with isLeaf } where
  freeStart := rfl
  room := show pgHdSize ≤ pageSize by decide
  tiles := .nil _
  ascending := .nil

def onePivotPage : Page := ((pageInit 3 fun _ => 0).writeEntryAt 0 ([7], .child 5)).addItem

def oneEntryPage : Page :=
  (({ pageInit 3 (fun _ => 0) with isLeaf := true } : Page).writeEntryAt 0
    ([1], .value [])).addItem

theorem onePivotPage_wellFormed : WellFormed onePivotPage := by
  have one : Inserted _ onePivotPage ([7], .child 5) :=
    insertIndexEntry_inserted (wellFormed_pageInit 3 false fun _ => 0) rfl
      (by simp [Page.keys, Page.entries, Page.ids, pageInit]) rfl
  exact one.wellFormed

theorem oneEntryPage_wellFormed : WellFormed oneEntryPage := by
  have one : Inserted _ oneEntryPage ([1], .value []) :=
    appendLeafEntry_inserted (wellFormed_pageInit 3 true fun _ => 0) rfl
      (by simp [Page.keys, Page.entries, Page.ids, pageInit]) rfl
  exact one.wellFormed

/-- Entries in front of the one that a page has, an empty key among them, and behind it. -/
theorem page_insertions_iff_second :
    (∃ after, onePivotPage.insertIndexEntry [3] 6 = some after ∧
      Inserted onePivotPage after ([3], .child 6)) ∧
    (∃ after, oneEntryPage.insertLeafEntry [] [2, 4] = some after ∧
      Inserted oneEntryPage after ([], .value [2, 4])) ∧
    ∃ after, oneEntryPage.appendLeafEntry [9] [] = some after ∧
      Inserted oneEntryPage after ([9], .value []) := by
  obtain ⟨-, insertsLeaf, appends⟩ := page_insertions_iff oneEntryPage_wellFormed
  obtain ⟨index, isIndex⟩ := Option.isSome_iff_exists.mp
    (by decide : (onePivotPage.insertIndexEntry [3] 6).isSome = true)
  obtain ⟨leaf, isLeaf⟩ := Option.isSome_iff_exists.mp
    (by decide : (oneEntryPage.insertLeafEntry [] [2, 4]).isSome = true)
  obtain ⟨last, isLast⟩ := Option.isSome_iff_exists.mp
    (by decide : (oneEntryPage.appendLeafEntry [9] []).isSome = true)
  refine ⟨⟨index, isIndex, ?_⟩, ⟨leaf, isLeaf, ?_⟩, last, isLast, ?_⟩
  · exact (page_insertions_iff onePivotPage_wellFormed).1 rfl [3] 6 index (by decide) isIndex
  · exact (insertsLeaf rfl [] [2, 4] leaf (by decide) isLeaf).mpr (by decide)
  · exact appends rfl [9] [] last (by decide) isLast

/-- An empty key on an empty leaf page is taken for one that the page has. -/
theorem empty_key_not_inserted : ¬ ∀ page : Page, WellFormed page → page.isLeaf = true →
    ∀ key val after, key ∉ page.keys → page.insertLeafEntry key val = some after →
      Inserted page after (key, .value val) := by
  intro always
  have wellFormed := wellFormed_pageInit 3 true fun _ => 0
  have absent : [] ∉ ({ pageInit 3 (fun _ => 0) with isLeaf := true } : Page).keys := by
    simp [Page.keys, Page.entries, Page.ids, pageInit]
  have inserted := always _ wellFormed rfl [] [1] _ absent rfl
  exact (insertLeafEntry_inserted_iff wellFormed rfl absent rfl).mp inserted ⟨rfl, rfl⟩

end AhaTree.Slotted
