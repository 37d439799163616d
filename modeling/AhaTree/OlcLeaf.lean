import AhaTree.PageSearch

/-!
# Upserts into a leaf page with version locks

`PageInsertKvpair` of `node_page.h` on the bytes of a page.  A new key gets a
record and an item id, a value of the size of the old one is written over it, and
a value of another size gets a record of its own for which the item id is reused.
The page counts its entries in one function and its item ids in another, and they
do not agree about the third case.
-/

namespace AhaTree.Slotted

open Lib (Memory Span)

namespace Page

variable (page : Page)

def leafPageIsFull (key val : Slice) : Bool :=
  decide (page.freeEnd - page.freeStart < key.length + val.length + itemIdSize * 3)

/-- `_update_val_at` is `PageUpdatePivotAt` once more. -/
def updateValAt (offset : Nat) (val : Slice) : Page × Bool := page.updatePivotAt offset val

/-- `_insert_kvpair_at`: at an offset that has the key the item ids stay. -/
def insertKvpairAt (offset : Nat) (key val : Slice) : Page :=
  let entry : Entry := (key, .value val)
  let oriK := page.readPivotAtOffset offset
  let up := page.freeEnd - encodedLen entry
  let written := ((encodeInt32At page.bytes up entry.1.length).write (up + itemIdSize)
    entry.1).write (up + itemIdSize + entry.1.length) entry.2.encode
  let low := idPos offset
  let shifted :=
    if offset < page.itemNum ∧ ¬ (Slice.compare oriK key).isEq then
      written.move (low + itemIdSize) low ((page.itemNum - offset) * itemIdSize)
    else written
  { page with
    bytes := encodeInt32At shifted low up
    freeEnd := up
    freeStart := page.freeStart + itemIdSize }

/-- `PageInsertKvpair`.  The new entry is counted when the offset has another key. -/
def insertKvpair (key val : Slice) : Option Page :=
  if page.leafPageIsFull key val then none
  else
    let off := if 0 < page.itemNum then page.lowerBound key else 0
    let same := (Slice.compare (page.readPivotAtOffset off) key).isEq
    let tried := if same then page.updateValAt off val else (page, false)
    let stored := if tried.2 then tried.1 else tried.1.insertKvpairAt off key val
    some { stored with
      isDirty := true
      itemNum := if same then stored.itemNum else stored.itemNum + 1 }

/-- Upserts one after the other. -/
def insertKvpairs (steps : List (Slice × Slice)) : Option Page :=
  steps.foldlM (fun page step => page.insertKvpair step.1 step.2) page

end Page

/-! ## Leaf pages -/

/-- A leaf page, but its free space may start later than behind its item ids. -/
structure LooseLeaf (page : Page) : Prop extends Spaced page where
  isLeaf : page.isLeaf = true
  ascending : Lib.Ascending page.entries

/-- `free_start_` is the end of the item ids. -/
structure OlcLeaf (page : Page) : Prop extends LooseLeaf page where
  freeStart : page.freeStart = pgHdSize + itemIdSize * page.itemNum

/-- The key has the value, the other entries are unchanged, and only a new key counts. -/
structure Put (before after : Page) (key val : Slice) : Prop where
  leaf : OlcLeaf after
  entries : after.entries = Lib.place key (.value val) before.entries
  itemNum : after.itemNum = if key ∈ before.keys then before.itemNum else before.itemNum + 1

/-- What the key has in the entries is as long as the new value. -/
def SameLength (entries : List Entry) (key val : Slice) : Prop :=
  ∀ entry ∈ entries, entry.1 = key → entry.2.extra = val.length

instance (entries : List Entry) (key val : Slice) : Decidable (SameLength entries key val) :=
  inferInstanceAs (Decidable (∀ entry ∈ entries, entry.1 = key → entry.2.extra = val.length))

/-- The same of upserts one after the other. -/
def SameLengths : List Entry → List (Slice × Slice) → Prop
  | _, [] => True
  | entries, step :: steps =>
      SameLength entries step.1 step.2 ∧
        SameLengths (Lib.place step.1 (.value step.2) entries) steps

/-! ## One record more -/

/-- A new record at the end of the free space, for one that goes or for none. -/
theorem Spaced.grown {page after : Page} {rest : List Span} (spaced : Spaced page)
    (size : Nat) (itemIds : pgHdSize + itemIdSize * after.itemNum ≤ after.freeStart)
    (room : after.freeStart ≤ after.freeEnd) (isEnd : after.freeEnd + size = page.freeEnd)
    (isSpans : after.spans.Perm (⟨after.freeEnd, size⟩ :: rest))
    (fewer : rest.Sublist page.spans) : Spaced after where
  itemIds := itemIds
  room := room
  within := by
    have within := spaced.within
    omega
  inside span member := by
    have within := spaced.within
    rcases List.mem_cons.mp (isSpans.mem_iff.mp member) with rfl | isOld
    · exact ⟨Nat.le_refl _, by simp only [Span.stop]; omega⟩
    · obtain ⟨lower, upper⟩ := spaced.inside span (fewer.subset isOld)
      exact ⟨by omega, upper⟩
  apart := by
    refine (isSpans.pairwise_iff Span.Apart.symm).mpr (List.pairwise_cons.mpr ⟨?_, ?_⟩)
    · intro span isOld
      have lower := (spaced.inside span (fewer.subset isOld)).1
      exact .inl (by simp only [Span.stop]; omega)
    · exact spaced.apart.sublist fewer

section grows

variable {page : Page} {offset : Nat} {entry : Entry} (spaced : Spaced page)
  (fits : Fits page entry)

include spaced fits

theorem writeEntryAt_spaced (inside : offset ≤ page.itemNum)
    (isLeaf : entry.2.isLeaf = page.isLeaf) :
    Spaced (page.writeEntryAt offset entry).addItem := by
  have room := fits.room
  have itemIds := spaced.itemIds
  refine spaced.grown (encodedLen entry) ?_ ?_ ?_ ?_ (List.Sublist.refl _)
  · change pgHdSize + itemIdSize * (page.itemNum + 1) ≤ page.freeStart + itemIdSize
    rw [Nat.mul_succ]
    omega
  · change page.freeStart + itemIdSize ≤ page.freeEnd - encodedLen entry
    omega
  · change page.freeEnd - encodedLen entry + encodedLen entry = page.freeEnd
    omega
  · rw [writeEntryAt_spans spaced fits inside isLeaf]
    exact List.perm_insertIdx _ _ (by simpa using inside)

variable (inside : offset < page.itemNum)

/-- The record is written, and the item id at the offset is set to it. -/
def rewritten (page : Page) (offset : Nat) (entry : Entry) : Page :=
  { page with
    bytes := encodeInt32At (page.bytes.write (page.freeEnd - encodedLen entry)
      (encodeEntry entry)) (Page.idPos offset) (page.freeEnd - encodedLen entry)
    freeEnd := page.freeEnd - encodedLen entry
    freeStart := page.freeStart + itemIdSize }

include inside

theorem rewritten_sameBytes {address : Nat} (behind : page.freeEnd - encodedLen entry ≤ address) :
    (rewritten page offset entry).bytes address =
      page.bytes.write (page.freeEnd - encodedLen entry) (encodeEntry entry) address := by
  have last := idPos_le spaced fits (Nat.le_of_lt inside)
  exact Memory.write_outside (.inr (by
    rw [encodeFixed_length]
    simp only [itemIdSize] at last
    omega))

theorem rewritten_sameRecords : SameRecords page (rewritten page offset entry) := by
  intro address behind _
  have room := fits.room
  rw [rewritten_sameBytes spaced fits inside (by omega),
    Memory.write_outside (by rw [encodeEntry_length]; omega)]

theorem rewritten_record (isLeaf : entry.2.isLeaf = page.isLeaf) :
    recordAt page.isLeaf (rewritten page offset entry).bytes (page.freeEnd - encodedLen entry) =
      entry :=
  recordAt_written fits isLeaf (rewritten_sameBytes spaced fits inside)

theorem rewritten_itemId {index : Nat} (within : index < page.itemNum) :
    (rewritten page offset entry).itemId index =
      if index = offset then page.freeEnd - encodedLen entry else page.itemId index := by
  split_ifs with isOffset
  · subst isOffset
    refine decodeInt32At_encode ?_
    have small := fits.small
    simp only [pageSize] at small
    omega
  · refine decodeInt32At_mirrors ((mirrors_written spaced fits within).trans (.write ?_))
    rw [encodeFixed_length]
    simp only [Page.idPos, itemIdSize]
    omega

theorem rewritten_ids : (rewritten page offset entry).ids =
    page.ids.set offset (page.freeEnd - encodedLen entry) := by
  apply List.ext_getElem
  · rw [List.length_set, Page.ids_length, Page.ids_length]
    rfl
  · intro index isIndex _
    have within : index < page.itemNum := by
      rw [Page.ids_length] at isIndex
      exact isIndex
    rw [Page.ids_getElem, List.getElem_set, rewritten_itemId spaced fits inside within]
    split_ifs with isOffset sameOffset sameOffset
    · rfl
    · exact absurd isOffset.symm sameOffset
    · exact absurd sameOffset.symm isOffset
    · exact (Page.ids_getElem _).symm

theorem rewritten_entries (isLeaf : entry.2.isLeaf = page.isLeaf) :
    (rewritten page offset entry).entries = page.entries.set offset entry := by
  rw [Page.entries, rewritten_ids spaced fits inside, List.map_set]
  exact congrArg₂ (fun items item => List.set items offset item)
    ((rewritten_sameRecords spaced fits inside).map_ids spaced)
    (rewritten_record spaced fits inside isLeaf)

theorem rewritten_spans (isLeaf : entry.2.isLeaf = page.isLeaf) :
    (rewritten page offset entry).spans =
      page.spans.set offset ⟨page.freeEnd - encodedLen entry, encodedLen entry⟩ := by
  have isSpan : spanAt page.isLeaf (rewritten page offset entry).bytes
      (page.freeEnd - encodedLen entry) =
        ⟨page.freeEnd - encodedLen entry, encodedLen entry⟩ := by
    rw [spanAt, rewritten_record spaced fits inside isLeaf]
  rw [Page.spans, rewritten_ids spaced fits inside, List.map_set]
  exact congrArg₂ (fun items item => List.set items offset item)
    ((rewritten_sameRecords spaced fits inside).map_spans spaced) isSpan

theorem rewritten_spaced (isLeaf : entry.2.isLeaf = page.isLeaf) :
    Spaced (rewritten page offset entry) := by
  have room := fits.room
  have itemIds := spaced.itemIds
  refine spaced.grown (encodedLen entry) ?_ ?_ ?_ ?_ (List.eraseIdx_sublist page.spans offset)
  · change pgHdSize + itemIdSize * page.itemNum ≤ page.freeStart + itemIdSize
    omega
  · change page.freeStart + itemIdSize ≤ page.freeEnd - encodedLen entry
    omega
  · change page.freeEnd - encodedLen entry + encodedLen entry = page.freeEnd
    omega
  · rw [rewritten_spans spaced fits inside isLeaf]
    exact List.set_perm_cons_eraseIdx (by simpa using inside) _

end grows

/-! ## One upsert -/

/-- What every upsert does, whether or not the page still knows where its item ids end. -/
structure Stored (before after : Page) (key val : Slice) : Prop where
  leaf : LooseLeaf after
  entries : after.entries = Lib.place key (.value val) before.entries
  itemNum : after.itemNum = if key ∈ before.keys then before.itemNum else before.itemNum + 1
  freeStart : after.freeStart + itemIdSize * before.itemNum =
    before.freeStart + itemIdSize * after.itemNum +
      if SameLength before.entries key val then 0 else itemIdSize

theorem Stored.dirty {before after : Page} {key val : Slice}
    (stored : Stored before after key val) :
    Stored before { after with isDirty := true } key val :=
  ⟨⟨⟨stored.leaf.itemIds, stored.leaf.room, stored.leaf.within, stored.leaf.inside,
    stored.leaf.apart⟩, stored.leaf.isLeaf, stored.leaf.ascending⟩, stored.entries,
      stored.itemNum, stored.freeStart⟩

/-- Whether a value has been written over does not show in the entries. -/
theorem updatePivotAt_done {page : Page} {offset : Nat} (isLeaf : page.isLeaf = true)
    (val : Slice) : (page.updatePivotAt offset val).2 = true ↔
      (page.decodeEntry offset).2.extra = val.length := by
  have isSize : decodeInt32At page.bytes (page.itemId offset + itemIdSize +
      decodeInt32At page.bytes (page.itemId offset)) = (page.decodeEntry offset).2.extra := by
    rw [decodeEntry_keySize, ← decodeEntry_payload, isLeaf]
    simp [payloadAt, Payload.extra]
  simp only [Page.updatePivotAt, isSize]
  split_ifs with same
  · exact iff_of_true rfl same.symm
  · exact iff_of_false not_false (Ne.symm same)

section insertKvpair

variable {page : Page} (leaf : LooseLeaf page) {key val : Slice}

theorem fits_of_notFull (within : page.freeEnd ≤ pageSize)
    (room : page.leafPageIsFull key val = false) : Fits page (key, .value val) where
  room := by
    have enough := of_decide_eq_false room
    simp only [encodedLen, Payload.extra, itemIdSize] at enough ⊢
    omega
  small := within

include leaf

theorem LooseLeaf.keys_ascending : page.keys.Pairwise (· < ·) :=
  List.pairwise_map.mpr leaf.ascending

/-- The offset that the upsert looks at. -/
theorem LooseLeaf.offset_parts (key : Slice) : Lib.Parts page.entries key
    (if 0 < page.itemNum then page.lowerBound key else 0) := by
  split_ifs with nonempty
  · exact lowerBound_parts leaf.keys_ascending nonempty key
  · rw [entries_of_itemNum_zero (by omega)]
    exact ⟨Nat.le_refl 0, by simp, by simp⟩

omit leaf in
theorem sameLength_of_absent (absent : key ∉ page.keys) :
    SameLength page.entries key val :=
  fun entry member isKey => absurd isKey (not_mem_keys.mp absent entry member)

theorem LooseLeaf.sameLength_iff {offset : Nat} (inside : offset < page.itemNum)
    (isKey : (page.decodeEntry offset).1 = key) :
    SameLength page.entries key val ↔ (page.decodeEntry offset).2.extra = val.length := by
  have isEntry : offset < page.entries.length := by simpa using inside
  have member : page.decodeEntry offset ∈ page.entries := by
    rw [← Page.entries_getElem isEntry]
    exact List.getElem_mem isEntry
  constructor
  · intro same
    exact same _ member isKey
  · intro same entry isOther otherKey
    have stored : (key, entry.2) ∈ page.entries := by rwa [← otherKey]
    have ours : (key, (page.decodeEntry offset).2) ∈ page.entries := by rwa [← isKey]
    rw [leaf.ascending.value_eq stored ours, same]

omit leaf in
/-- Where the offset has another key, the item ids behind it move. -/
theorem insertKvpairAt_other {offset : Nat}
    (other : ¬ (Slice.compare (page.readPivotAtOffset offset) key).isEq) :
    page.insertKvpairAt offset key val = page.writeEntryAt offset (key, .value val) := by
  simp only [Page.insertKvpairAt, Page.writeEntryAt, other, Bool.false_eq_true,
    not_false_eq_true, and_true]

variable (room : page.leafPageIsFull key val = false)

include room

section offset

variable {offset : Nat}
  (isOffset : (if 0 < page.itemNum then page.lowerBound key else 0) = offset)

include isOffset

omit leaf in
theorem insertKvpair_of_other
    (other : ¬ (Slice.compare (page.readPivotAtOffset offset) key).isEq) :
    page.insertKvpair key val =
      some (page.writeEntryAt offset (key, .value val)).addItem := by
  unfold Page.insertKvpair
  rw [if_neg (by simp [room]), isOffset]
  simp only [other, Bool.false_eq_true, if_false, insertKvpairAt_other other]
  rfl

omit leaf in
theorem insertKvpair_of_same
    (same : (Slice.compare (page.readPivotAtOffset offset) key).isEq) :
    page.insertKvpair key val =
      some { (if (page.updateValAt offset val).2 then (page.updateValAt offset val).1
        else (page.updateValAt offset val).1.insertKvpairAt offset key val) with
          isDirty := true } := by
  unfold Page.insertKvpair
  rw [if_neg (by simp [room]), isOffset]
  simp only [same, if_true]

end offset

/-- A new key gets a record and an item id. -/
theorem insertKvpair_new (named : key ≠ []) (absent : key ∉ page.keys) :
    ∃ offset, Lib.Parts page.entries key offset ∧
      page.insertKvpair key val =
        some (page.writeEntryAt offset (key, .value val)).addItem := by
  have parts := leaf.offset_parts key
  generalize isOffset : (if 0 < page.itemNum then page.lowerBound key else 0) = offset at parts
  have other : ¬ (Slice.compare (page.readPivotAtOffset offset) key).isEq := by
    rw [Ordering.isEq_iff_eq_eq, Slice.compare_eq_eq, Page.readPivotAtOffset]
    split_ifs with past
    · exact named.symm
    · have isEntry : offset < page.entries.length := by simpa using past
      intro isKey
      refine not_mem_keys.mp absent _ (List.getElem_mem isEntry) ?_
      rw [Page.entries_getElem, isKey]
  exact ⟨offset, parts, insertKvpair_of_other room isOffset other⟩

theorem insertKvpair_absent (named : key ≠ []) (absent : key ∉ page.keys) :
    ∃ after, page.insertKvpair key val = some after ∧ Stored page after key val := by
  obtain ⟨offset, parts, done⟩ := insertKvpair_new leaf room named absent
  have fits := fits_of_notFull leaf.within room
  have inside : offset ≤ page.itemNum := page.entries_length ▸ parts.inside
  have placed : page.entries.insertIdx offset (key, .value val) =
      Lib.place key (.value val) page.entries := parts.insertIdx (not_mem_keys.mp absent)
  have entries := writeEntryAt_entries leaf.toSpaced fits inside leaf.isLeaf.symm
  refine ⟨_, done, ⟨writeEntryAt_spaced leaf.toSpaced fits inside leaf.isLeaf.symm, leaf.isLeaf,
    ?_⟩, entries.trans placed, (if_neg absent).symm, ?_⟩
  · rw [entries, placed]
    exact leaf.ascending.place
  · rw [if_pos (sameLength_of_absent absent)]
    change page.freeStart + itemIdSize + itemIdSize * page.itemNum =
      page.freeStart + itemIdSize * (page.itemNum + 1) + 0
    rw [Nat.mul_succ]
    omega

section present

variable {offset : Nat} (inside : offset < page.itemNum)
  (isKey : (page.decodeEntry offset).1 = key)

include inside isKey

omit leaf room in
theorem present_key : ∃ isEntry : offset < page.entries.length,
    (page.entries[offset]).1 = key ∧ key ∈ page.keys := by
  have isEntry : offset < page.entries.length := by simpa using inside
  have shown : (page.entries[offset]).1 = key := by rw [Page.entries_getElem, isKey]
  exact ⟨isEntry, shown, shown ▸ List.mem_map_of_mem (List.getElem_mem isEntry)⟩

omit leaf room in
theorem readKey_same : (Slice.compare (page.readPivotAtOffset offset) key).isEq := by
  rw [Ordering.isEq_iff_eq_eq, Slice.compare_eq_eq, Page.readPivotAtOffset, if_neg (by omega),
    isKey]

omit room in
theorem stored_of_replaced {after : Page}
    (replaced : Replaced page after offset (key, .value val)) : Stored page after key val := by
  obtain ⟨isEntry, shown, present⟩ := present_key inside isKey
  have entries := replaced.entries_eq leaf.toSpaced inside
  rw [leaf.ascending.set_eq_place isEntry shown] at entries
  have sameLength : (page.decodeEntry offset).2.extra = val.length := by
    have sameSize : key.length + itemIdSize * 2 + val.length = (page.decodeEntry offset).1.length +
      itemIdSize * 2 + (page.decodeEntry offset).2.extra := replaced.sameSize
    rw [isKey] at sameSize
    omega
  refine ⟨⟨replaced.spaced_after leaf.toSpaced inside (replaced.isEntry ▸ replaced.sameSize),
    replaced.isLeaf.trans leaf.isLeaf, entries ▸ leaf.ascending.place⟩, entries,
      replaced.itemNum.trans (if_pos present).symm, ?_⟩
  rw [if_pos ((leaf.sameLength_iff inside isKey).mpr sameLength), replaced.freeStart,
    replaced.itemNum, Nat.add_zero]

omit leaf room in
/-- The item ids stay, and the one at the offset is set to the new record. -/
theorem insertKvpairAt_present :
    page.insertKvpairAt offset key val = rewritten page offset (key, .value val) := by
  have stays : ¬ (offset < page.itemNum ∧
      ¬ (Slice.compare (page.readPivotAtOffset offset) key).isEq) :=
    fun both => both.2 (readKey_same inside isKey)
  have written := writeEntry_bytes page.bytes
    (page.freeEnd - encodedLen (key, .value val)) (key, .value val)
  simp only [Page.insertKvpairAt, rewritten, ← written]
  rw [if_neg stays]

theorem stored_of_rewritten (otherLength : (page.decodeEntry offset).2.extra ≠ val.length) :
    Stored page (rewritten page offset (key, .value val)) key val := by
  obtain ⟨isEntry, shown, present⟩ := present_key inside isKey
  have fits := fits_of_notFull leaf.within room
  have entries := rewritten_entries leaf.toSpaced fits inside leaf.isLeaf.symm
  rw [leaf.ascending.set_eq_place isEntry shown] at entries
  refine ⟨⟨rewritten_spaced leaf.toSpaced fits inside leaf.isLeaf.symm, leaf.isLeaf,
    entries ▸ leaf.ascending.place⟩, entries, (if_pos present).symm, ?_⟩
  rw [if_neg ((leaf.sameLength_iff inside isKey).not.mpr otherLength)]
  exact Nat.add_right_comm ..

/-- A value over one of its length, or a record that takes the item id of another one. -/
theorem insertKvpair_present :
    ∃ after, page.insertKvpair key val = some after ∧ Stored page after key val := by
  obtain ⟨isEntry, shown, -⟩ := present_key inside isKey
  have parts := (leaf.offset_parts key).offset_of_key leaf.ascending isEntry shown
  refine ⟨_, insertKvpair_of_same room parts (readKey_same inside isKey), ?_⟩
  by_cases sameLength : (page.decodeEntry offset).2.extra = val.length
  · have isDone : (page.updateValAt offset val).2 = true :=
      (updatePivotAt_done leaf.isLeaf val).mpr sameLength
    have replaced := (updatePivotAt_stores leaf.toSpaced inside leaf.isLeaf sameLength).dirty
    rw [isKey] at replaced
    rw [if_pos isDone]
    exact stored_of_replaced leaf inside isKey replaced
  · have notDone : ¬ (page.updateValAt offset val).2 = true :=
      (updatePivotAt_done leaf.isLeaf val).not.mpr sameLength
    have dropped : (page.updateValAt offset val).1 = { page with isDirty := true } :=
      updatePivotAt_drops leaf.isLeaf sameLength
    have isRewritten := @insertKvpairAt_present { page with isDirty := true } key val offset
      inside isKey
    rw [if_neg notDone, dropped, isRewritten]
    exact (stored_of_rewritten leaf room inside isKey sameLength).dirty

end present

/-- An upsert of a key that is not empty stores it, whatever the page has had. -/
theorem insertKvpair_stores (named : key ≠ []) :
    ∃ after, page.insertKvpair key val = some after ∧ Stored page after key val := by
  by_cases present : key ∈ page.keys
  · obtain ⟨entry, member, isKey⟩ := List.mem_map.mp present
    obtain ⟨offset, isEntry, rfl⟩ := List.getElem_of_mem member
    rw [Page.entries_getElem] at isKey
    exact insertKvpair_present leaf room (by simpa using isEntry) isKey
  · exact insertKvpair_absent leaf room named present

end insertKvpair

/-! ## Where the item ids end -/

theorem Stored.put_iff {page after : Page} {key val : Slice} (leaf : OlcLeaf page)
    (stored : Stored page after key val) :
    Put page after key val ↔ SameLength page.entries key val := by
  have counted := stored.freeStart
  rw [leaf.freeStart] at counted
  constructor
  · intro put
    by_contra otherLength
    rw [put.leaf.freeStart, if_neg otherLength] at counted
    simp only [itemIdSize] at counted
    omega
  · intro sameLength
    rw [if_pos sameLength] at counted
    exact ⟨⟨stored.leaf, by omega⟩, stored.entries, stored.itemNum⟩

/-- How many upserts replace a value by one of another length. -/
def replacements : List Entry → List (Slice × Slice) → Nat
  | _, [] => 0
  | entries, step :: steps =>
      (if SameLength entries step.1 step.2 then 0 else 1) +
        replacements (Lib.place step.1 (.value step.2) entries) steps

theorem replacements_eq_zero_iff (entries : List Entry) (steps : List (Slice × Slice)) :
    replacements entries steps = 0 ↔ SameLengths entries steps := by
  induction steps generalizing entries with
  | nil => simp [replacements, SameLengths]
  | cons step steps ih =>
      rw [replacements, SameLengths, Nat.add_eq_zero_iff, ih]
      split_ifs with same
      · simp [same]
      · simp [same]

/-- Every upsert is stored, and the page loses the space of one item id with each
replacement. -/
theorem insertKvpairs_spec {page after : Page} {steps : List (Slice × Slice)}
    (leaf : LooseLeaf page) (named : ∀ step ∈ steps, step.1 ≠ [])
    (done : page.insertKvpairs steps = some after) :
    LooseLeaf after ∧
    after.entries = steps.foldl (fun entries step => Lib.place step.1 (.value step.2) entries)
      page.entries ∧
    after.freeStart + itemIdSize * page.itemNum = page.freeStart + itemIdSize * after.itemNum +
      itemIdSize * replacements page.entries steps := by
  induction steps generalizing page with
  | nil =>
      obtain rfl : page = after := Option.some.inj done
      exact ⟨leaf, rfl, rfl⟩
  | cons step steps ih =>
      rw [Page.insertKvpairs, List.foldlM_cons] at done
      obtain ⟨next, first, later⟩ := Option.bind_eq_some_iff.mp done
      have room : page.leafPageIsFull step.1 step.2 = false := by
        by_contra isFull
        rw [Page.insertKvpair, if_pos (by simpa using isFull)] at first
        cases first
      obtain ⟨_, isNext, stored⟩ := insertKvpair_stores leaf room
        (named step List.mem_cons_self)
      obtain rfl := Option.some.inj (first.symm.trans isNext)
      obtain ⟨isLoose, entries, counted⟩ := ih stored.leaf
        (fun other member => named other (List.mem_cons_of_mem _ member)) later
      have once := stored.freeStart
      rw [stored.entries] at entries counted
      refine ⟨isLoose, entries, ?_⟩
      rw [replacements]
      split_ifs at once ⊢
      · rw [Nat.zero_add]
        omega
      · rw [Nat.mul_add]
        omega

theorem insertKvpairs_leaf_iff {page after : Page} {steps : List (Slice × Slice)}
    (leaf : OlcLeaf page) (named : ∀ step ∈ steps, step.1 ≠ [])
    (done : page.insertKvpairs steps = some after) :
    OlcLeaf after ↔ SameLengths page.entries steps := by
  obtain ⟨isLoose, -, counted⟩ := insertKvpairs_spec leaf.toLooseLeaf named done
  rw [leaf.freeStart] at counted
  rw [← replacements_eq_zero_iff]
  simp only [itemIdSize] at counted
  constructor
  · intro isLeaf
    have start := isLeaf.freeStart
    simp only [itemIdSize] at start
    omega
  · intro none
    refine ⟨isLoose, ?_⟩
    simp only [itemIdSize]
    omega

/-- An upsert does what it should as long as it does not replace a value by one of another
length, and a leaf page stays one through upserts of which none does. -/
theorem insertKvpair_puts_iff {page : Page} (leaf : OlcLeaf page) :
    (∀ key val, key ≠ [] → page.leafPageIsFull key val = false →
      ∃ after, page.insertKvpair key val = some after ∧
        (Put page after key val ↔ SameLength page.entries key val)) ∧
    ∀ steps after, (∀ step ∈ steps, step.1 ≠ []) → page.insertKvpairs steps = some after →
      (OlcLeaf after ↔ SameLengths page.entries steps) := by
  refine ⟨fun key val named room => ?_, fun steps after named done =>
    insertKvpairs_leaf_iff leaf named done⟩
  obtain ⟨after, done, stored⟩ := insertKvpair_stores leaf.toLooseLeaf room named
  exact ⟨after, done, stored.put_iff leaf⟩

/-- A page that has been made a leaf behind `PageInit`. -/
def emptyLeaf (bytes : Memory Byte) : Page := { pageInit 3 bytes with isLeaf := true }

theorem emptyLeaf_olcLeaf (bytes : Memory Byte) : OlcLeaf (emptyLeaf bytes) where
  toSpaced := (wellFormed_pageInit 3 true bytes).spaced
  isLeaf := rfl
  ascending := .nil
  freeStart := rfl

/-- A leaf page with one entry. -/
def oneKvpairPage : Page :=
  ((emptyLeaf fun _ => 0).writeEntryAt 0 ([1], .value [7])).addItem

theorem oneKvpairPage_olcLeaf : OlcLeaf oneKvpairPage := by
  have nothing : SameLengths (emptyLeaf fun _ => 0).entries [([1], [7])] :=
    ⟨fun _ member => absurd member List.not_mem_nil, trivial⟩
  exact (insertKvpairs_leaf_iff (emptyLeaf_olcLeaf fun _ => 0) (by simp) rfl).mpr nothing

theorem insertKvpair_puts_iff_same_length :
    (∃ after, oneKvpairPage.insertKvpair [1] [8] = some after ∧
      Put oneKvpairPage after [1] [8]) ∧
    ∃ after, oneKvpairPage.insertKvpairs [([1], [8]), ([2], []), ([1], [9])] = some after ∧
      OlcLeaf after := by
  obtain ⟨step, run⟩ := insertKvpair_puts_iff oneKvpairPage_olcLeaf
  constructor
  · obtain ⟨after, done, puts⟩ := step [1] [8] (by decide) (by decide)
    exact ⟨after, done, puts.mpr (by decide)⟩
  · refine ⟨_, rfl, (run [([1], [8]), ([2], []), ([1], [9])] _ (by decide) rfl).mpr ?_⟩
    exact ⟨by decide, by decide, by decide, trivial⟩

/-- A longer value for a key that the page has takes a new record but no new item id. -/
theorem longer_value_not_put : ¬ ∀ page : Page, OlcLeaf page → ∀ key val, key ≠ [] →
    page.leafPageIsFull key val = false →
      ∃ after, page.insertKvpair key val = some after ∧ Put page after key val := by
  intro always
  obtain ⟨after, done, put⟩ := always oneKvpairPage oneKvpairPage_olcLeaf [1] [8, 8]
    (by decide) (by decide)
  obtain ⟨_, isAfter, stored⟩ := insertKvpair_stores oneKvpairPage_olcLeaf.toLooseLeaf
    (show oneKvpairPage.leafPageIsFull [1] [8, 8] = false by decide) (by decide)
  obtain rfl := Option.some.inj (done.symm.trans isAfter)
  exact absurd ((stored.put_iff oneKvpairPage_olcLeaf).mp put) (by decide)

end AhaTree.Slotted
