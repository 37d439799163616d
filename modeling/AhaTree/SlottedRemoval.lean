import AhaTree.SlottedEntries

/-!
# Removing from a slotted page

`PageRemoveOffset` moves the item ids first and then asks for the size of the
record at the offset, which by then is the next one.  So it closes the right gap
only for the last entry, and for one whose successor takes as much space.
-/

namespace AhaTree.Slotted

open Lib (Memory Span)

/-! ## Item ids that move with their records -/

/-- Where a record is when the gap has been closed. -/
def closedUp (pos gapSize record : Nat) : Nat :=
  if record < pos then record + gapSize else record

namespace Page

theorem shiftIds_succ (bytes : Memory Byte) (pos gapSize count : Nat) :
    shiftIds bytes pos gapSize (count + 1) =
      encodeInt32At (shiftIds bytes pos gapSize count) (idPos count)
        (closedUp pos gapSize
          (decodeInt32At (shiftIds bytes pos gapSize count) (idPos count))) := by
  rw [shiftIds, List.range_succ, List.foldl_append]
  rfl

theorem shiftIds_outside (bytes : Memory Byte) (pos gapSize count : Nat) {address : Nat}
    (outside : idPos count ≤ address) :
    shiftIds bytes pos gapSize count address = bytes address := by
  induction count with
  | zero => rfl
  | succ count ih =>
      simp only [idPos, itemIdSize] at outside ih
      rw [shiftIds_succ, encodeInt32At, Memory.write_outside (.inr (by
        rw [encodeFixed_length]
        simp only [idPos, itemIdSize]
        omega))]
      exact ih (by omega)

theorem shiftIds_itemId (bytes : Memory Byte) (pos gapSize count : Nat)
    (small : ∀ index, index < count →
      closedUp pos gapSize (decodeInt32At bytes (idPos index)) < 2 ^ 32) {index : Nat}
    (inside : index < count) :
    decodeInt32At (shiftIds bytes pos gapSize count) (idPos index) =
      closedUp pos gapSize (decodeInt32At bytes (idPos index)) := by
  induction count with
  | zero => cases inside
  | succ count ih =>
      have unread : decodeInt32At (shiftIds bytes pos gapSize count) (idPos count) =
          decodeInt32At bytes (idPos count) :=
        decodeInt32At_mirrors fun offset _ => shiftIds_outside bytes pos gapSize count
          (Nat.le_add_right ..)
      rw [shiftIds_succ, unread]
      rcases Nat.lt_succ_iff_lt_or_eq.mp inside with earlier | rfl
      · rw [← ih (fun other isOther => small other (by omega)) earlier]
        exact decodeInt32At_mirrors (.write (.inl (by
          simp only [idPos, itemIdSize]
          omega)))
      · exact decodeInt32At_encode (small index inside)

end Page

/-! ## The gap -/

section removeOffset

variable {page : Page} {offset : Nat}

/-- The bytes after the item ids behind the offset have moved. -/
def unlisted (page : Page) (offset : Nat) : Memory Byte :=
  if offset + 1 < page.itemNum then
    page.bytes.move (Page.idPos (offset + 1) - itemIdSize) (Page.idPos (offset + 1))
      ((page.itemNum - offset - 1) * itemIdSize)
  else page.bytes

/-- `gap_size`. -/
def gapSize (page : Page) (offset : Nat) : Nat :=
  encodedLen (recordAt page.isLeaf (unlisted page offset)
    (decodeInt32At (unlisted page offset) (Page.idPos offset)))

theorem unlisted_behind {address : Nat} (behind : Page.idPos page.itemNum ≤ address) :
    unlisted page offset address = page.bytes address := by
  unfold unlisted
  simp only [Page.idPos, itemIdSize] at behind ⊢
  split_ifs
  · exact Memory.move_outside (by omega)
  · rfl

variable (laid : Laid page) (inside : offset < page.itemNum)

include inside in
theorem unlisted_itemId {index : Nat} (within : index + 1 < page.itemNum) :
    decodeInt32At (unlisted page offset) (Page.idPos index) =
      if index < offset then page.itemId index else page.itemId (index + 1) := by
  unfold unlisted
  split_ifs with moves before before
  · exact decodeInt32At_mirrors (.move (.inl (by simp only [Page.idPos, itemIdSize]; omega)))
  · obtain ⟨later, rfl⟩ := Nat.exists_eq_add_of_le (Nat.le_of_not_lt before)
    refine decodeInt32At_mirrors ?_
    have moved := Memory.Mirrors.moved page.bytes (Page.idPos (offset + 1))
      (Page.idPos (offset + 1) - itemIdSize) ((page.itemNum - offset - 1) * itemIdSize)
      (later * itemIdSize) 4 (by simp only [itemIdSize]; omega)
    convert moved using 1
    · simp only [Page.idPos, itemIdSize]
      omega
    · simp only [Page.idPos, itemIdSize]
      omega
  · rfl
  · omega

theorem idPos_itemNum_le (spaced : Spaced page) :
    Page.idPos page.itemNum ≤ page.freeEnd := by
  have start := spaced.itemIds
  have room := spaced.room
  simp only [Page.idPos, itemIdSize] at start ⊢
  omega

include laid

theorem unlisted_record {pos : Nat} (member : pos ∈ page.ids) :
    recordAt page.isLeaf (unlisted page offset) pos =
      recordAt page.isLeaf page.bytes pos := by
  have ids := idPos_itemNum_le laid.spaced
  have lower := (laid.record_inside member).1
  exact recordAt_mirrors fun index _ => unlisted_behind (by omega)

omit laid in
theorem itemId_mem {index : Nat} (within : index < page.itemNum) :
    page.itemId index ∈ page.ids :=
  List.mem_map_of_mem (List.mem_range.mpr within)

include inside in
theorem gapSize_eq : gapSize page offset =
    if offset + 1 < page.itemNum then encodedLen (page.decodeEntry (offset + 1))
    else encodedLen (page.decodeEntry offset) := by
  unfold gapSize
  split_ifs with further
  · rw [unlisted_itemId inside further, if_neg (Nat.lt_irrefl offset),
      unlisted_record laid (itemId_mem further)]
    rfl
  · rw [unlisted, if_neg further]
    rfl

/-! ## Closing the gap -/

include inside

/-- The records that stay do not touch the one that goes. -/
theorem apart_of_mem_eraseIdx {pos : Nat} (stays : pos ∈ page.ids.eraseIdx offset) :
    (spanAt page.isLeaf page.bytes (page.itemId offset)).Apart
      (spanAt page.isLeaf page.bytes pos) := by
  have isSpan : offset < page.spans.length := by simpa using inside
  have perm := List.getElem_cons_eraseIdx_perm isSpan
  have apart := (perm.pairwise_iff Span.Apart.symm).mpr laid.tiles.apart
  rw [Page.spans_getElem, Page.spans, List.eraseIdx_map] at apart
  exact (List.pairwise_cons.mp apart).1 _ (List.mem_map_of_mem stays)

omit laid in
theorem removeOffset_itemNum :
    (page.removeOffset offset).itemNum = page.itemNum - 1 :=
  if_neg (by omega)

omit laid in
theorem removeOffset_bytes : (page.removeOffset offset).bytes =
    Page.shiftIds ((unlisted page offset).move (page.freeEnd + gapSize page offset)
      page.freeEnd (page.itemId offset - page.freeEnd)) (page.itemId offset)
      (gapSize page offset) (page.itemNum - 1) := by
  rw [← removeOffset_itemNum inside]
  rfl

variable (exactGap : gapSize page offset = encodedLen (page.decodeEntry offset))

include exactGap

/-- A record that stays is where the gap has been closed up to. -/
theorem removeOffset_record {pos : Nat} (stays : pos ∈ page.ids.eraseIdx offset) :
    recordAt page.isLeaf (page.removeOffset offset).bytes
        (closedUp (page.itemId offset) (gapSize page offset) pos) =
      recordAt page.isLeaf page.bytes pos := by
  have member : pos ∈ page.ids := List.mem_of_mem_eraseIdx stays
  have ids := idPos_itemNum_le laid.spaced
  obtain ⟨lower, upper⟩ := laid.record_inside member
  obtain ⟨ownLower, ownUpper⟩ := laid.record_inside (itemId_mem inside)
  have apart := apart_of_mem_eraseIdx laid inside stays
  have ownSize : encodedLen (recordAt page.isLeaf page.bytes (page.itemId offset)) =
      gapSize page offset := exactGap.symm
  have positive : 0 < encodedLen (recordAt page.isLeaf page.bytes pos) := by
    simp only [encodedLen, itemIdSize]
    omega
  simp only [Span.Apart, Span.stop, spanAt] at apart
  rw [ownSize] at apart
  have last : Page.idPos (page.itemNum - 1) ≤ Page.idPos page.itemNum := by
    simp only [Page.idPos, itemIdSize]
    omega
  rw [removeOffset_bytes inside, ← @unlisted_record page offset laid pos member]
  refine recordAt_mirrors fun index isIndex => ?_
  rw [unlisted_record laid member] at isIndex
  unfold closedUp
  split_ifs with before
  · rw [Page.shiftIds_outside _ _ _ _ (by omega), Nat.add_right_comm]
    obtain ⟨distance, rfl⟩ := Nat.exists_eq_add_of_le lower
    have moved := @Memory.move_inside _ (unlisted page offset)
      (page.freeEnd + gapSize page offset) page.freeEnd
      (page.itemId offset - page.freeEnd) (distance + index) (by omega)
    rw [show page.freeEnd + distance + index + gapSize page offset =
      page.freeEnd + gapSize page offset + (distance + index) by omega, moved, Nat.add_assoc]
  · rw [Page.shiftIds_outside _ _ _ _ (by omega)]
    exact Memory.move_outside (by omega)

theorem removeOffset_ids : (page.removeOffset offset).ids =
    (page.ids.eraseIdx offset).map
      (closedUp (page.itemId offset) (gapSize page offset)) := by
  have ids := idPos_itemNum_le laid.spaced
  have sameLength : (page.removeOffset offset).ids.length =
      (page.ids.eraseIdx offset).length := by
    rw [Page.ids_length, removeOffset_itemNum inside,
      List.length_eraseIdx_of_lt (by simpa using inside), Page.ids_length]
  have unread : ∀ index, index < page.itemNum - 1 →
      ∃ stays : index < (page.ids.eraseIdx offset).length,
        decodeInt32At ((unlisted page offset).move (page.freeEnd + gapSize page offset)
          page.freeEnd (page.itemId offset - page.freeEnd)) (Page.idPos index) =
            (page.ids.eraseIdx offset)[index] := by
    intro index isIndex
    refine ⟨by
      rw [List.length_eraseIdx_of_lt (by simpa using inside), Page.ids_length]
      exact isIndex, ?_⟩
    simp only [Page.idPos, itemIdSize] at ids
    rw [decodeInt32At_mirrors (.move (.inl (by simp only [Page.idPos, itemIdSize]; omega))),
      unlisted_itemId inside (by omega), List.getElem_eraseIdx]
    split_ifs
    · exact (Page.ids_getElem _).symm
    · exact (Page.ids_getElem _).symm
  have small : ∀ index, index < page.itemNum - 1 →
      closedUp (page.itemId offset) (gapSize page offset)
        (decodeInt32At ((unlisted page offset).move (page.freeEnd + gapSize page offset)
          page.freeEnd (page.itemId offset - page.freeEnd)) (Page.idPos index)) < 2 ^ 32 := by
    intro index isIndex
    obtain ⟨stays, isId⟩ := unread index isIndex
    obtain ⟨_, upper⟩ := laid.record_inside (itemId_mem inside)
    obtain ⟨_, ownUpper⟩ := laid.record_inside
      (List.mem_of_mem_eraseIdx (List.getElem_mem stays))
    have ownSize : encodedLen (recordAt page.isLeaf page.bytes (page.itemId offset)) =
        gapSize page offset := exactGap.symm
    simp only [pageSize] at upper ownUpper
    rw [isId]
    unfold closedUp
    split_ifs
    · omega
    · omega
  apply List.ext_getElem
  · rw [sameLength, List.length_map]
  · intro index isIndex _
    have within : index < page.itemNum - 1 := by
      rwa [Page.ids_length, removeOffset_itemNum inside] at isIndex
    obtain ⟨_, isId⟩ := unread index within
    rw [Page.ids_getElem, Page.itemId, removeOffset_bytes inside,
      Page.shiftIds_itemId _ _ _ _ small within, isId, List.getElem_map]

theorem removeOffset_entries :
    (page.removeOffset offset).entries = page.entries.eraseIdx offset := by
  rw [Page.entries, removeOffset_ids laid inside exactGap, List.map_map, Page.entries,
    List.eraseIdx_map]
  exact List.map_congr_left fun _ stays =>
    removeOffset_record laid inside exactGap stays

theorem removeOffset_spans : (page.removeOffset offset).spans =
    (page.spans.eraseIdx offset).map fun other =>
      if other.start < page.itemId offset then other.shift (gapSize page offset)
      else other := by
  rw [Page.spans, removeOffset_ids laid inside exactGap, List.map_map, Page.spans,
    List.eraseIdx_map, List.map_map]
  refine List.map_congr_left fun pos stays => ?_
  have sameRecord := removeOffset_record laid inside exactGap stays
  have isLeaf : (page.removeOffset offset).isLeaf = page.isLeaf := rfl
  have shifted : spanAt (page.removeOffset offset).isLeaf (page.removeOffset offset).bytes
      (closedUp (page.itemId offset) (gapSize page offset) pos) =
        ⟨closedUp (page.itemId offset) (gapSize page offset) pos,
          encodedLen (recordAt page.isLeaf page.bytes pos)⟩ := by
    rw [spanAt, isLeaf, sameRecord]
  refine shifted.trans ?_
  unfold closedUp
  by_cases before : (spanAt page.isLeaf page.bytes pos).start < page.itemId offset
  · rw [if_pos (show pos < page.itemId offset from before)]
    exact (if_pos before).symm
  · rw [if_neg (show ¬ pos < page.itemId offset from before)]
    exact (if_neg before).symm

theorem removeOffset_laid : Laid (page.removeOffset offset) where
  freeStart := by
    have start := laid.freeStart
    rw [removeOffset_itemNum inside]
    change page.freeStart - itemIdSize = _
    simp only [itemIdSize] at start ⊢
    omega
  room := by
    have room := laid.room
    change page.freeStart - itemIdSize ≤ page.freeEnd + gapSize page offset
    omega
  tiles := by
    have isSpan : offset < page.spans.length := by simpa using inside
    have perm := List.getElem_cons_eraseIdx_perm isSpan
    have closed := (laid.tiles.perm perm.symm).close fun other stays => by
      obtain ⟨pos, _, rfl⟩ := List.mem_map.mp (List.mem_of_mem_eraseIdx stays)
      simp only [spanAt, encodedLen, itemIdSize]
      omega
    rw [Page.spans_getElem] at closed
    rw [removeOffset_spans laid inside exactGap]
    change Lib.Tiles (page.freeEnd + gapSize page offset) pageSize _
    rwa [exactGap]

end removeOffset

/-! ## What removal promises -/

/-- The page has all entries but one, and the space of its record and its item id. -/
structure Removed (before after : Page) (offset : Nat) : Prop where
  wellFormed : WellFormed after
  isLeaf : after.isLeaf = before.isLeaf
  entries : after.entries = before.entries.eraseIdx offset
  space : after.freeEnd - after.freeStart = before.freeEnd - before.freeStart +
    encodedLen (before.decodeEntry offset) + itemIdSize

/-- The record that the gap is measured by has the size of the one that goes. -/
def GapFits (page : Page) (offset : Nat) : Prop :=
  offset + 1 < page.itemNum →
    encodedLen (page.decodeEntry (offset + 1)) = encodedLen (page.decodeEntry offset)

theorem gapFits_iff {page : Page} {offset : Nat} (laid : Laid page)
    (inside : offset < page.itemNum) :
    GapFits page offset ↔ gapSize page offset = encodedLen (page.decodeEntry offset) := by
  rw [gapSize_eq laid inside, GapFits]
  split_ifs with further
  · exact ⟨fun same => same further, fun same _ => same⟩
  · exact iff_of_true (fun more => absurd more further) rfl

theorem removeOffset_removed_iff {page : Page} {offset : Nat} (wellFormed : WellFormed page)
    (inside : offset < page.itemNum) :
    Removed page (page.removeOffset offset) offset ↔ GapFits page offset := by
  have start := wellFormed.freeStart
  have room := wellFormed.room
  simp only [itemIdSize, pgHdSize] at start
  rw [gapFits_iff wellFormed.toLaid inside]
  constructor
  · intro removed
    have space := removed.space
    change page.freeEnd + gapSize page offset - (page.freeStart - itemIdSize) = _ at space
    simp only [itemIdSize] at space
    omega
  · intro exactGap
    have entries := removeOffset_entries wellFormed.toLaid inside exactGap
    have ascending : Lib.Ascending (page.removeOffset offset).entries :=
      entries ▸ wellFormed.ascending.sublist (List.eraseIdx_sublist ..)
    refine ⟨⟨removeOffset_laid wellFormed.toLaid inside exactGap, ascending⟩, rfl,
      entries, ?_⟩
    change page.freeEnd + gapSize page offset - (page.freeStart - itemIdSize) = _
    simp only [itemIdSize]
    omega

/-! ## Removing a key -/

/-- The entry with the key is removed, or the page stays as it is. -/
def RemovedKey (page : Page) (key : Slice) : Prop :=
  (∀ offset, offset < page.itemNum → (page.decodeEntry offset).1 = key →
    Removed page (page.removeEntry key).1 offset ∧ (page.removeEntry key).2 = true) ∧
  (key ∉ page.keys → page.removeEntry key = (page, false))

theorem WellFormed.increasing {page : Page} (wellFormed : WellFormed page) :
    page.keys.Pairwise (· < ·) := List.pairwise_map.mpr wellFormed.ascending

theorem keys_getElem {page : Page} {offset : Nat} (inside : offset < page.keys.length) :
    page.keys[offset] = (page.decodeEntry offset).1 := by
  simp [Page.keys, Page.entries_getElem]

/-- The search ends at the entry that has the key, if there is one. -/
theorem binSearch_of_mem {page : Page} (wellFormed : WellFormed page) {offset : Nat}
    (inside : offset < page.itemNum) :
    page.binSearch (page.decodeEntry offset).1 = offset := by
  have isKey : offset < page.keys.length := by simpa using inside
  have nonempty : page.keys ≠ [] := List.ne_nil_of_length_pos (by omega)
  obtain ⟨found, notAbove, behind⟩ := pageBinSearch_spec wellFormed.increasing nonempty
    (page.decodeEntry offset).1
  have ordered := List.pairwise_iff_getElem.mp wellFormed.increasing
  rw [Page.binSearch_eq]
  rcases Nat.lt_trichotomy (pageBinSearch page.keys (page.decodeEntry offset).1) offset with
    early | same | late
  · have above := behind offset isKey early
    rw [keys_getElem] at above
    exact absurd above (lt_irrefl _)
  · exact same
  · have below := ordered offset _ isKey found late
    rw [keys_getElem] at below
    rcases notAbove with first | notAbove
    · omega
    · exact absurd below (not_lt.mpr notAbove)

/-- The search shows a key that the page does not have only to an empty key on an empty
page. -/
theorem binSearch_shows_iff {page : Page} {key : Slice} (absent : key ∉ page.keys) :
    key = page.readPivotAtOffset (page.binSearch key) ↔ page.itemNum = 0 ∧ key = [] := by
  by_cases isEmpty : page.itemNum = 0
  · rw [Page.readPivotAtOffset, if_pos (by omega)]
    simp [isEmpty]
  · refine iff_of_false (fun shown => absent ?_) (fun both => isEmpty both.1)
    have nonempty : page.keys ≠ [] := List.ne_nil_of_length_pos (by
      rw [Page.keys_length]
      omega)
    have found := (pageBinSearch_stops nonempty key).inside
    rw [← Page.binSearch_eq] at found
    rw [shown, Page.readPivotAtOffset_eq, pageReadPivotAtOffset_eq found]
    exact List.getElem_mem found

theorem removeEntry_iff {page : Page} (wellFormed : WellFormed page) (key : Slice) :
    RemovedKey page key ↔
      (∀ offset, offset < page.itemNum → (page.decodeEntry offset).1 = key →
        GapFits page offset) ∧ ¬ (page.itemNum = 0 ∧ key = []) := by
  have present : ∀ offset, offset < page.itemNum → (page.decodeEntry offset).1 = key →
      page.removeEntry key = (page.removeOffset offset, true) := by
    rintro offset inside rfl
    have shown : (page.decodeEntry offset).1 = page.readPivotAtOffset offset := by
      rw [Page.readPivotAtOffset, if_neg (by omega)]
    simp only [Page.removeEntry, binSearch_of_mem wellFormed inside]
    rw [if_pos (by rw [Ordering.isEq_iff_eq_eq, Slice.compare_eq_eq]; exact shown)]
    rfl
  have missing : key ∉ page.keys →
      (page.removeEntry key = (page, false) ↔ ¬ (page.itemNum = 0 ∧ key = [])) := by
    intro absent
    rw [← binSearch_shows_iff absent, ← Slice.compare_eq_eq, ← Ordering.isEq_iff_eq_eq]
    simp only [Page.removeEntry]
    split_ifs with shown
    · simp [shown]
    · simp [shown]
  constructor
  · rintro ⟨removes, stays⟩
    refine ⟨fun offset inside isKey => ?_, fun isEmpty => ?_⟩
    · have removed := (removes offset inside isKey).1
      rw [present offset inside isKey] at removed
      exact (removeOffset_removed_iff wellFormed inside).mp removed
    · have absent : key ∉ page.keys := by
        have noKeys : page.keys = [] := List.eq_nil_of_length_eq_zero (by simp [isEmpty.1])
        simp [noKeys]
      exact (missing absent).mp (stays absent) isEmpty
  · rintro ⟨gapFits, notEmpty⟩
    refine ⟨fun offset inside isKey => ?_, fun absent => (missing absent).mpr notEmpty⟩
    rw [present offset inside isKey]
    exact ⟨(removeOffset_removed_iff wellFormed inside).mpr (gapFits offset inside isKey), rfl⟩

/-- Removal does what it should for the last entry, and for those whose successor takes
as much space; and an empty page is taken to have an empty key. -/
theorem page_removals_iff {page : Page} (wellFormed : WellFormed page) :
    (∀ offset, offset < page.itemNum →
      (Removed page (page.removeOffset offset) offset ↔ GapFits page offset)) ∧
    ∀ key, RemovedKey page key ↔
      (∀ offset, offset < page.itemNum → (page.decodeEntry offset).1 = key →
        GapFits page offset) ∧ ¬ (page.itemNum = 0 ∧ key = []) :=
  ⟨fun _ inside => removeOffset_removed_iff wellFormed inside,
    fun key => removeEntry_iff wellFormed key⟩

/-! ## A leaf page with records of different sizes -/

/-- The second entry is longer. -/
def unevenPage : Page := (oneEntryPage.writeEntryAt 1 ([2], .value [9])).addItem

theorem unevenPage_wellFormed : WellFormed unevenPage := by
  have isKey : oneEntryPage.keys = [[1]] := by decide
  have two : Inserted oneEntryPage unevenPage ([2], .value [9]) :=
    appendLeafEntry_inserted oneEntryPage_wellFormed rfl (by rw [isKey]; decide) rfl
  exact two.wellFormed

theorem page_removals_iff_last : Removed unevenPage (unevenPage.removeOffset 1) 1 :=
  ((page_removals_iff unevenPage_wellFormed).1 1 (by decide)).mpr
    (fun further => absurd further (by decide))

/-- The gap that is closed for the first entry is that of the second one. -/
theorem first_entry_not_removed : ¬ ∀ page : Page, WellFormed page →
    (∀ offset, offset < page.itemNum → Removed page (page.removeOffset offset) offset) ∧
      ∀ key, RemovedKey page key := by
  intro always
  have removed := (always unevenPage unevenPage_wellFormed).1 0 (by decide)
  have fits := (removeOffset_removed_iff unevenPage_wellFormed (by decide)).mp removed
  exact absurd (fits (by decide)) (by decide)

end AhaTree.Slotted
