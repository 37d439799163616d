import AhaTree.SlottedUpdate

/-!
# Upserts into a slotted leaf page

`PageInsertLeafEntry` and `PageInsertLeafEntryWithSeq` overwrite the value of a
key that the page has, but only with a value of the same size, and return the
same for a value that they drop.  The second one looks for the user key and puts
a new entry where its whole internal key belongs, which is the same place only as
long as the search compares whole keys as it would compare user keys.
-/

namespace AhaTree.Slotted

open Lib (Memory Span)

/-! ## Values and keys of the same size -/

/-- The record at the offset has become another one of the same size. -/
structure Replaced (before after : Page) (offset : Nat) (entry : Entry) : Prop
    extends Overwritten before after offset where
  isEntry : after.decodeEntry offset = entry
  sameSize : encodedLen entry = encodedLen (before.decodeEntry offset)

section replaced

variable {page middle after : Page} {offset : Nat} {entry other : Entry}

theorem Replaced.refl (page : Page) (offset : Nat) :
    Replaced page page offset (page.decodeEntry offset) :=
  ⟨Overwritten.refl page offset, rfl, rfl⟩

theorem Replaced.dirty (replaced : Replaced page after offset entry) :
    Replaced page { after with isDirty := true } offset entry :=
  ⟨⟨replaced.itemNum, replaced.freeStart, replaced.freeEnd, replaced.isLeaf,
    replaced.outside⟩, replaced.isEntry, replaced.sameSize⟩

theorem Replaced.trans (first : Replaced page middle offset other)
    (second : Replaced middle after offset entry) (spaced : Spaced page)
    (inside : offset < page.itemNum) : Replaced page after offset entry where
  itemNum := second.itemNum.trans first.itemNum
  freeStart := second.freeStart.trans first.freeStart
  freeEnd := second.freeEnd.trans first.freeEnd
  isLeaf := second.isLeaf.trans first.isLeaf
  outside address outside := by
    rw [second.outside address, first.outside address outside]
    rw [first.itemId spaced inside inside, first.isEntry, first.sameSize]
    exact outside
  isEntry := second.isEntry
  sameSize := by rw [second.sameSize, first.isEntry, first.sameSize]

variable (replaced : Replaced page after offset entry) (spaced : Spaced page)
  (inside : offset < page.itemNum)

include replaced spaced inside

omit spaced in
theorem Replaced.laid_of (laid : Laid page) : Laid after :=
  replaced.laid_after inside laid (replaced.isEntry ▸ replaced.sameSize)

theorem Replaced.entries_eq : after.entries = page.entries.set offset entry := by
  rw [replaced.entries spaced inside, replaced.isEntry]

end replaced

section replacements

variable {page : Page} {offset : Nat} (spaced : Spaced page) (inside : offset < page.itemNum)

include spaced inside

theorem updatePivotAt_stores (isLeaf : page.isLeaf = true) {val : Slice}
    (sameSize : (page.decodeEntry offset).2.extra = val.length) :
    Replaced page (page.updatePivotAt offset val).1 offset
      ((page.decodeEntry offset).1, .value val) := by
  obtain ⟨overwritten, isEntry⟩ :=
    @overwrite_value page offset spaced inside _ val isLeaf rfl sameSize.symm
  have isSize : val.length = decodeInt32At page.bytes (page.itemId offset + itemIdSize +
      decodeInt32At page.bytes (page.itemId offset)) := by
    rw [decodeEntry_keySize, ← sameSize, ← decodeEntry_payload, isLeaf]
    simp [payloadAt, Payload.extra]
  have isPage : (page.updatePivotAt offset val).1 = page.overwrite (page.itemId offset +
      itemIdSize + (page.decodeEntry offset).1.length + itemIdSize) val := by
    simp only [Page.updatePivotAt]
    rw [if_pos isSize, decodeEntry_keySize]
    have isStart : page.itemId offset + itemIdSize * 2 + (page.decodeEntry offset).1.length =
        page.itemId offset + itemIdSize + (page.decodeEntry offset).1.length + itemIdSize := by
      omega
    rw [isStart]
    rfl
  rw [isPage]
  exact ⟨overwritten, isEntry, by rw [encodedLen, encodedLen, sameSize]; rfl⟩

omit spaced inside in
/-- A value of another size is dropped. -/
theorem updatePivotAt_drops (isLeaf : page.isLeaf = true) {val : Slice}
    (otherSize : (page.decodeEntry offset).2.extra ≠ val.length) :
    (page.updatePivotAt offset val).1 = { page with isDirty := true } := by
  have isOther : ¬ val.length = decodeInt32At page.bytes (page.itemId offset + itemIdSize +
      decodeInt32At page.bytes (page.itemId offset)) := by
    intro isSize
    refine otherSize ?_
    rw [isSize, decodeEntry_keySize, ← decodeEntry_payload, isLeaf]
    simp [payloadAt, Payload.extra]
  simp only [Page.updatePivotAt]
  rw [if_neg isOther]

theorem updateKeyAt_stores {key : Slice}
    (sameSize : key.length = (page.decodeEntry offset).1.length) :
    Replaced page (page.updateKeyAt offset key).1 offset (key, (page.decodeEntry offset).2) := by
  obtain ⟨overwritten, isEntry⟩ := overwrite_key spaced inside sameSize
  have isSize : key.length = decodeInt32At page.bytes (page.itemId offset) := by
    rw [decodeEntry_keySize, sameSize]
  have isPage : (page.updateKeyAt offset key).1 =
      page.overwrite (page.itemId offset + itemIdSize) key := by
    simp only [Page.updateKeyAt]
    rw [if_pos isSize]
    rfl
  rw [isPage]
  exact ⟨overwritten, isEntry, by rw [encodedLen, encodedLen, sameSize]⟩

end replacements

/-! ## Whole keys -/

/-- The key has the value, and nothing else has changed. -/
structure Upserted (before after : Page) (key val : Slice) : Prop where
  wellFormed : WellFormed after
  isLeaf : after.isLeaf = before.isLeaf
  entries : after.entries = Lib.place key (.value val) before.entries

section insertLeafEntry

variable {page after : Page} {key val : Slice} (wellFormed : WellFormed page)
  (isLeaf : page.isLeaf = true)

include wellFormed in
theorem binSearchInsert_of_mem {offset : Nat} (inside : offset < page.itemNum) :
    page.binSearchInsert (page.decodeEntry offset).1 = offset := by
  have isEntry : offset < page.entries.length := by simpa using inside
  refine (wellFormed.parts _).offset_of_key wellFormed.ascending isEntry ?_
  rw [Page.entries_getElem]

/-- The values that may be replaced have the size of the new one. -/
def SameSize (page : Page) (key val : Slice) : Prop :=
  ∀ offset, offset < page.itemNum → (page.decodeEntry offset).1 = key →
    (page.decodeEntry offset).2.extra = val.length

include wellFormed isLeaf

theorem insertLeafEntry_present {offset : Nat} (inside : offset < page.itemNum)
    (isKey : (page.decodeEntry offset).1 = key)
    (done : page.insertLeafEntry key val = some after) :
    Upserted page after key val ↔ (page.decodeEntry offset).2.extra = val.length := by
  have isEntry : offset < page.entries.length := by simpa using inside
  have shown : (Slice.compare key (page.readPivotAtOffset offset)).isEq := by
    rw [Ordering.isEq_iff_eq_eq, Slice.compare_eq_eq, Page.readPivotAtOffset,
      if_neg (by omega), isKey]
  have isUpdate : after = (page.updatePivotAt offset val).1 := by
    simp only [Page.insertLeafEntry] at done
    rw [← isKey, binSearchInsert_of_mem wellFormed inside, isKey, if_pos shown] at done
    split_ifs at done
    exact (Option.some.inj done).symm
  subst isUpdate
  constructor
  · intro upserted
    by_contra otherSize
    have stored : (key, Payload.value val) ∈ page.entries := by
      have placed := upserted.entries
      rw [updatePivotAt_drops isLeaf otherSize] at placed
      change page.entries = _ at placed
      rw [placed]
      exact Lib.mem_place.mpr (.inl rfl)
    have old : (key, (page.decodeEntry offset).2) ∈ page.entries := by
      rw [← isKey, ← Page.entries_getElem isEntry]
      exact List.getElem_mem isEntry
    rw [wellFormed.ascending.value_eq old stored] at otherSize
    exact otherSize rfl
  · intro sameSize
    have replaced := updatePivotAt_stores wellFormed.spaced inside isLeaf sameSize
    have entries : (page.updatePivotAt offset val).1.entries =
        Lib.place key (.value val) page.entries := by
      rw [replaced.entries_eq wellFormed.spaced inside, isKey]
      exact wellFormed.ascending.set_eq_place isEntry (by rw [Page.entries_getElem, isKey])
    refine ⟨⟨replaced.laid_of inside wellFormed.toLaid, ?_⟩, replaced.isLeaf, entries⟩
    rw [entries]
    exact wellFormed.ascending.place

theorem insertLeafEntry_upserted_iff (done : page.insertLeafEntry key val = some after) :
    Upserted page after key val ↔ SameSize page key val ∧ ¬ (page.itemNum = 0 ∧ key = []) := by
  by_cases present : key ∈ page.keys
  · obtain ⟨offset, within, isKey⟩ := List.getElem_of_mem present
    have inside : offset < page.itemNum := by simpa using within
    rw [keys_getElem] at isKey
    have nonempty : ¬ (page.itemNum = 0 ∧ key = []) := fun both => by omega
    rw [insertLeafEntry_present wellFormed isLeaf inside isKey done]
    constructor
    · intro sameSize
      refine ⟨fun other isOther sameKey => ?_, nonempty⟩
      have sameOffset : other = offset := by
        rw [← binSearchInsert_of_mem wellFormed isOther, sameKey, ← isKey,
          binSearchInsert_of_mem wellFormed inside]
      rw [sameOffset, sameSize]
    · rintro ⟨sameSize, -⟩
      exact sameSize offset inside isKey
  · have noOther : SameSize page key val := by
      rintro offset inside rfl
      refine absurd ?_ present
      have within : offset < page.keys.length := by simpa using inside
      rw [← keys_getElem within]
      exact List.getElem_mem within
    constructor
    · rintro upserted
      refine ⟨noOther, ?_⟩
      rintro ⟨isEmpty, rfl⟩
      have entries := upserted.entries
      rw [insertLeafEntry_lost isEmpty done, entries_of_itemNum_zero isEmpty] at entries
      cases entries
    · rintro ⟨-, notLost⟩
      have inserted := (insertLeafEntry_inserted_iff wellFormed isLeaf present done).mpr notLost
      exact ⟨inserted.wellFormed, inserted.isLeaf, inserted.entries⟩

end insertLeafEntry

/-! ## Internal keys -/

namespace Page

variable (page : Page)

/-- The entries by their user keys. -/
def userEntries : List (Slice × Entry) :=
  page.entries.map fun entry => (extractUserKey entry.1, entry)

/-- The offsets whose whole keys `_page_bin_search_insert` compares. -/
def askedOffsets (key : Slice) : List Nat :=
  if page.itemNum = 0 then []
  else Lib.asked (page.compare key) page.itemNum 0 (page.itemNum - 1)

variable {page}

@[simp] theorem userEntries_length : page.userEntries.length = page.itemNum := by
  simp [userEntries]

theorem userEntries_getElem {offset : Nat} (inside : offset < page.userEntries.length) :
    page.userEntries[offset] =
      (extractUserKey (page.decodeEntry offset).1, page.decodeEntry offset) := by
  simp [userEntries, entries_getElem]

theorem userKey_readPivot {offset : Nat} :
    pageReadPivotAtOffset (page.userEntries.map Prod.fst) offset =
      extractUserKey (page.readPivotAtOffset offset) := by
  unfold pageReadPivotAtOffset readPivotAtOffset
  split_ifs with past
  · rw [List.getElem?_eq_none (by simpa using past)]
    rfl
  · rw [List.getElem?_eq_getElem (by simpa using past)]
    simp [userEntries_getElem]

/-- The search by user keys is the one for the place of a key among them. -/
theorem binSearchWithSeq_eq (key : Slice) : page.binSearchWithSeq key =
    Btree.pageBinSearchInsert (page.userEntries.map Prod.fst) (extractUserKey key) := by
  have sameLength : (page.userEntries.map Prod.fst).length = page.itemNum := by simp
  have sameProbe : page.compareUserKey key = fun mid => Slice.compare (extractUserKey key)
      (pageReadPivotAtOffset (page.userEntries.map Prod.fst) mid) :=
    funext fun mid => by rw [compareUserKey, userKey_readPivot]
  rw [binSearchWithSeq, sameProbe, ← sameLength]
  rfl

end Page

/-- The page has internal keys, one for each user key, and in the order of these. -/
structure UserOrdered (page : Page) : Prop extends Laid page where
  internal : ∀ entry ∈ page.entries, 8 ≤ entry.1.length
  ascending : Lib.Ascending page.userEntries

theorem UserOrdered.parts {page : Page} (ordered : UserOrdered page) (key : Slice) :
    Lib.Parts page.userEntries (extractUserKey key) (page.binSearchWithSeq key) := by
  rw [Page.binSearchWithSeq_eq]
  exact Btree.pageBinSearchInsert_parts (ordered.ascending.once _)

/-- The one entry of the user key has the key and the value, and nothing else has
changed. -/
structure UpsertedWithSeq (before after : Page) (key val : Slice) : Prop where
  ordered : UserOrdered after
  isLeaf : after.isLeaf = before.isLeaf
  entries : after.userEntries =
    Lib.place (extractUserKey key) (key, .value val) before.userEntries

section insertLeafEntryWithSeq

variable {page after : Page} {key val : Slice} {isNew : Bool} (ordered : UserOrdered page)
  (isLeaf : page.isLeaf = true) (internal : 8 ≤ key.length)

/-- The value of the user key has the size of the new one. -/
def SameUserSize (page : Page) (key val : Slice) : Prop :=
  ∀ offset, offset < page.itemNum →
    extractUserKey (page.decodeEntry offset).1 = extractUserKey key →
      (page.decodeEntry offset).2.extra = val.length

def HasUserKey (page : Page) (key : Slice) : Prop :=
  ∃ offset, offset < page.itemNum ∧
    extractUserKey (page.decodeEntry offset).1 = extractUserKey key

include ordered in
theorem binSearchWithSeq_of_mem {offset : Nat} (inside : offset < page.itemNum)
    (isKey : extractUserKey (page.decodeEntry offset).1 = extractUserKey key) :
    page.binSearchWithSeq key = offset := by
  have isEntry : offset < page.userEntries.length := by simpa using inside
  refine (ordered.parts key).offset_of_key ordered.ascending isEntry ?_
  rw [Page.userEntries_getElem, isKey]

/-- Internal keys of one user key have one size. -/
theorem length_eq_of_userKey {first second : Slice} (firstInternal : 8 ≤ first.length)
    (secondInternal : 8 ≤ second.length)
    (sameKey : extractUserKey first = extractUserKey second) : first.length = second.length := by
  have sameLength := congrArg List.length sameKey
  simp only [extractUserKey, List.length_take] at sameLength
  omega

theorem binSearchInsert_le (page : Page) (key : Slice) :
    page.binSearchInsert key ≤ page.itemNum := by
  unfold Page.binSearchInsert
  split_ifs with isEmpty
  · exact Nat.zero_le _
  · have found := (@Lib.bisect_spec (page.compare key) page.itemNum 0 (page.itemNum - 1)
      (Nat.zero_le _) (by omega)).settle_le.2
    exact found.trans (by omega)

/-! A user key that the page has. -/

include ordered isLeaf internal

/-- The key is replaced, and the value if it has the same size. -/
theorem insertLeafEntryWithSeq_present {offset : Nat} (inside : offset < page.itemNum)
    (isKey : extractUserKey (page.decodeEntry offset).1 = extractUserKey key)
    (done : page.insertLeafEntryWithSeq key val = some (after, isNew)) :
    isNew = false ∧ ∃ payload, Replaced page after offset (key, payload) ∧
      if (page.decodeEntry offset).2.extra = val.length then payload = .value val
      else payload = (page.decodeEntry offset).2 := by
  have laid := ordered.toLaid
  have shown : page.binSearchWithSeq key < page.itemNum ∧
      (page.compareUserKey key (page.binSearchWithSeq key)).isEq := by
    rw [binSearchWithSeq_of_mem ordered inside isKey]
    refine ⟨inside, ?_⟩
    rw [Page.compareUserKey, Page.readPivotAtOffset, if_neg (by omega), isKey,
      Ordering.isEq_iff_eq_eq, Slice.compare_eq_eq]
  simp only [Page.insertLeafEntryWithSeq] at done
  rw [if_pos shown, binSearchWithSeq_of_mem ordered inside isKey] at done
  split_ifs at done
  obtain ⟨isAfter, isOld⟩ := Prod.mk.inj (Option.some.inj done)
  refine ⟨isOld.symm, ?_⟩
  have isEntry : page.decodeEntry offset ∈ page.entries := by
    rw [← Page.entries_getElem (by simpa using inside)]
    exact List.getElem_mem _
  have sameLength : key.length = (page.decodeEntry offset).1.length :=
    length_eq_of_userKey internal (ordered.internal _ isEntry) isKey.symm
  -- the value is tried first, and then the key, whatever has become of the value
  obtain ⟨payload, replaced, isPayload⟩ : ∃ payload,
      Replaced page (page.updatePivotAt offset val).1 offset
        ((page.decodeEntry offset).1, payload) ∧
      if (page.decodeEntry offset).2.extra = val.length then payload = .value val
      else payload = (page.decodeEntry offset).2 := by
    split_ifs with sameSize
    · exact ⟨_, updatePivotAt_stores laid.spaced inside isLeaf sameSize, rfl⟩
    · rw [updatePivotAt_drops isLeaf sameSize]
      exact ⟨_, (Replaced.refl page offset).dirty, rfl⟩
  refine ⟨payload, ?_, isPayload⟩
  have keyStored := @updateKeyAt_stores (page.updatePivotAt offset val).1 offset
    (replaced.laid_of inside laid).spaced (replaced.itemNum ▸ inside) key
    (by rw [replaced.isEntry]; exact sameLength)
  rw [replaced.isEntry] at keyStored
  rw [← isAfter]
  exact (replaced.trans keyStored laid.spaced inside).dirty

/-- The entry of the user key is there afterwards, and has the value if and only if the
size is right. -/
theorem insertLeafEntryWithSeq_updated_iff {offset : Nat} (inside : offset < page.itemNum)
    (isKey : extractUserKey (page.decodeEntry offset).1 = extractUserKey key)
    (done : page.insertLeafEntryWithSeq key val = some (after, isNew)) :
    UpsertedWithSeq page after key val ↔ (page.decodeEntry offset).2.extra = val.length := by
  have laid := ordered.toLaid
  obtain ⟨-, payload, replaced, isPayload⟩ :=
    insertLeafEntryWithSeq_present ordered isLeaf internal inside isKey done
  have isEntry : offset < page.userEntries.length := by simpa using inside
  have entries : after.userEntries =
      page.userEntries.set offset (extractUserKey key, (key, payload)) := by
    rw [Page.userEntries, replaced.entries_eq laid.spaced inside, List.map_set]
    rfl
  split_ifs at isPayload with sameSize
  · refine iff_of_true ?_ sameSize
    have placed : after.userEntries =
        Lib.place (extractUserKey key) (key, .value val) page.userEntries := by
      rw [entries, isPayload]
      exact ordered.ascending.set_eq_place isEntry (by rw [Page.userEntries_getElem, isKey])
    refine ⟨⟨replaced.laid_of inside laid, ?_, ?_⟩, replaced.isLeaf, placed⟩
    · intro entry member
      rw [replaced.entries_eq laid.spaced inside] at member
      rcases List.mem_or_eq_of_mem_set member with stays | rfl
      · exact ordered.internal entry stays
      · exact internal
    · rw [placed]
      exact ordered.ascending.place
  · refine iff_of_false (fun upserted => sameSize ?_) sameSize
    have stored : (extractUserKey key, (key, payload)) ∈ after.userEntries := by
      rw [entries]
      exact List.mem_set isEntry _
    have wanted : (extractUserKey key, (key, Payload.value val)) ∈ after.userEntries := by
      rw [upserted.entries]
      exact Lib.mem_place.mpr (.inl rfl)
    have same := upserted.ordered.ascending.value_eq stored wanted
    rw [← isPayload, (Prod.mk.inj same).2]
    rfl

/-! A user key that the page does not have. -/

omit isLeaf internal in
theorem compareUserKey_eq (absent : ¬ HasUserKey page key) {index : Nat}
    (within : index < page.itemNum) :
    page.compareUserKey key index = Lib.side (page.binSearchWithSeq key) index := by
  have isEntry : index < page.userEntries.length := by simpa using within
  have other : extractUserKey (page.decodeEntry index).1 ≠ extractUserKey key :=
    fun same => absent ⟨index, within, same⟩
  obtain ⟨-, below, behind⟩ := ordered.parts key
  rw [Page.compareUserKey, Page.readPivotAtOffset, if_neg (by omega)]
  unfold Lib.side
  split_ifs with before
  · have less := below page.userEntries[index]
      (List.mem_take_iff_getElem.mpr ⟨index, by omega, rfl⟩)
    rw [Page.userEntries_getElem] at less
    exact Slice.compare_eq_gt.mpr less
  · have more := behind page.userEntries[index] (List.mem_drop_iff_getElem.mpr
      ⟨index - page.binSearchWithSeq key, by omega, by congr 1; omega⟩)
    rw [Page.userEntries_getElem] at more
    exact Slice.compare_eq_lt.mpr (lt_of_le_of_ne more other.symm)

omit isLeaf in
/-- Whole keys lead to the place of the user key exactly when those that are asked
compare as their user keys do. -/
theorem binSearchInsert_eq_iff (absent : ¬ HasUserKey page key) :
    page.binSearchInsert key = page.binSearchWithSeq key ↔
      ∀ offset ∈ page.askedOffsets key,
        page.compare key offset = page.compareUserKey key offset := by
  have different : ∀ index, page.compare key index ≠ .eq := by
    intro index same
    rw [Page.compare, Slice.compare_eq_eq] at same
    unfold Page.readPivotAtOffset at same
    split_ifs at same with past
    · rw [same] at internal
      exact absurd internal (by decide)
    · exact absent ⟨index, by omega, by rw [← same]⟩
  have inside := (ordered.parts key).inside
  rw [Page.userEntries_length] at inside
  unfold Page.askedOffsets Page.binSearchInsert
  split_ifs with isEmpty
  · simp only [List.not_mem_nil, false_imp_iff, implies_true, iff_true]
    omega
  · have found := @Lib.settle_eq_iff (page.compare key) 0 (page.itemNum - 1) different
      page.itemNum (page.binSearchWithSeq key) (Nat.zero_le _) (by omega) (Nat.zero_le _)
      (by omega)
    refine Iff.trans ?_ (found.trans ?_)
    · rfl
    · refine forall₂_congr fun offset member => ?_
      have bound := Lib.asked_le (Nat.zero_le _) member
      rw [compareUserKey_eq ordered absent (by omega)]

theorem insertLeafEntryWithSeq_added_iff (absent : ¬ HasUserKey page key)
    (done : page.insertLeafEntryWithSeq key val = some (after, isNew)) :
    isNew = true ∧ (UpsertedWithSeq page after key val ↔
      ∀ offset ∈ page.askedOffsets key,
        page.compare key offset = page.compareUserKey key offset) := by
  have laid := ordered.toLaid
  have missing : ¬ (page.binSearchWithSeq key < page.itemNum ∧
      (page.compareUserKey key (page.binSearchWithSeq key)).isEq) := by
    rintro ⟨within, shown⟩
    rw [Page.compareUserKey, Page.readPivotAtOffset, if_neg (by omega),
      Ordering.isEq_iff_eq_eq, Slice.compare_eq_eq] at shown
    exact absent ⟨_, within, shown.symm⟩
  simp only [Page.insertLeafEntryWithSeq] at done
  rw [if_neg missing] at done
  split_ifs at done with room
  obtain ⟨rfl, rfl⟩ := Prod.mk.inj (Option.some.inj done)
  refine ⟨rfl, ?_⟩
  have fits := laid.fits (leaf_need key val) room
  have inside := binSearchInsert_le page key
  have isEntry : page.binSearchInsert key ≤ page.userEntries.length := by simpa using inside
  have noEntry : ∀ item ∈ page.userEntries, item.1 ≠ extractUserKey key := by
    intro item member same
    obtain ⟨index, within, rfl⟩ := List.getElem_of_mem member
    rw [Page.userEntries_getElem] at same
    exact absent ⟨index, by simpa using within, same⟩
  have entries := writeEntryAt_entries laid.spaced fits inside isLeaf.symm
  have userEntries : (page.writeEntryAt (page.binSearchInsert key)
      (key, .value val)).addItem.userEntries = page.userEntries.insertIdx
        (page.binSearchInsert key) (extractUserKey key, (key, .value val)) := by
    rw [Page.userEntries, entries, List.map_insertIdx]
    rfl
  rw [← binSearchInsert_eq_iff ordered internal absent]
  constructor
  · intro upserted
    have ascending := upserted.ordered.ascending
    rw [userEntries] at ascending
    exact (Lib.Parts.of_insertIdx isEntry ascending).unique (ordered.parts key)
  · intro samePlace
    have parts : Lib.Parts page.userEntries (extractUserKey key) (page.binSearchInsert key) :=
      samePlace ▸ ordered.parts key
    rw [parts.insertIdx noEntry] at userEntries
    refine ⟨⟨writeEntryAt_laid fits inside laid isLeaf.symm, ?_, ?_⟩, rfl, userEntries⟩
    · intro entry member
      rw [entries] at member
      rcases (List.mem_insertIdx (by simpa using inside)).mp member with rfl | stays
      · exact internal
      · exact ordered.internal entry stays
    · rw [userEntries]
      exact ordered.ascending.place

theorem insertLeafEntryWithSeq_upserted_iff
    (done : page.insertLeafEntryWithSeq key val = some (after, isNew)) :
    UpsertedWithSeq page after key val ↔ SameUserSize page key val ∧
      (¬ HasUserKey page key → ∀ offset ∈ page.askedOffsets key,
        page.compare key offset = page.compareUserKey key offset) := by
  by_cases present : HasUserKey page key
  · obtain ⟨offset, inside, isKey⟩ := present
    rw [insertLeafEntryWithSeq_updated_iff ordered isLeaf internal inside isKey done]
    constructor
    · intro sameSize
      refine ⟨fun other isOther sameKey => ?_, fun absent => absurd ⟨offset, inside, isKey⟩ absent⟩
      have sameOffset : other = offset := by
        rw [← binSearchWithSeq_of_mem ordered isOther sameKey,
          binSearchWithSeq_of_mem ordered inside isKey]
      rw [sameOffset, sameSize]
    · rintro ⟨sameSize, -⟩
      exact sameSize offset inside isKey
  · rw [(insertLeafEntryWithSeq_added_iff ordered isLeaf internal present done).2]
    constructor
    · intro asked
      exact ⟨fun offset inside isKey => absurd ⟨offset, inside, isKey⟩ present, fun _ => asked⟩
    · rintro ⟨-, asked⟩
      exact asked present

end insertLeafEntryWithSeq

/-- The comparisons agree as long as no user key is a prefix of another one, in particular
for user keys of one length. -/
theorem compare_eq_compareUserKey {page : Page} {key : Slice} {offset : Nat}
    (inside : offset < page.itemNum)
    (notPrefix : ¬ extractUserKey key <+: extractUserKey (page.decodeEntry offset).1)
    (notPrefixed : ¬ extractUserKey (page.decodeEntry offset).1 <+: extractUserKey key) :
    page.compare key offset = page.compareUserKey key offset := by
  have parted : ∀ whole : Slice,
      extractUserKey whole ++ whole.drop (whole.length - 8) = whole := fun whole =>
    List.take_append_drop ..
  have compared := Slice.compare_append (key.drop (key.length - 8))
    ((page.decodeEntry offset).1.drop ((page.decodeEntry offset).1.length - 8))
    notPrefix notPrefixed
  rw [parted, parted] at compared
  rwa [Page.compare, Page.compareUserKey, Page.readPivotAtOffset, if_neg (by omega)]

/-! ## Both upserts -/

/-- An upsert stores what it should as long as the old value, if there is one, has the
size of the new one.  A new internal key must also compare as its user key does with the
entries that the search looks at.  What the second insertion returns is whether the user
key is new, for a value that it drops as for one that it stores. -/
theorem leaf_upserts_iff (page after : Page) (key val : Slice) (isLeaf : page.isLeaf = true) :
    (WellFormed page → page.insertLeafEntry key val = some after →
      (Upserted page after key val ↔
        SameSize page key val ∧ ¬ (page.itemNum = 0 ∧ key = []))) ∧
    ∀ isNew : Bool, UserOrdered page → 8 ≤ key.length →
      page.insertLeafEntryWithSeq key val = some (after, isNew) →
        (isNew = true ↔ ¬ HasUserKey page key) ∧
        (UpsertedWithSeq page after key val ↔ SameUserSize page key val ∧
          (¬ HasUserKey page key → ∀ offset ∈ page.askedOffsets key,
            page.compare key offset = page.compareUserKey key offset)) := by
  refine ⟨fun wellFormed done => insertLeafEntry_upserted_iff wellFormed isLeaf done, ?_⟩
  intro isNew ordered internal done
  refine ⟨?_, insertLeafEntryWithSeq_upserted_iff ordered isLeaf internal done⟩
  by_cases present : HasUserKey page key
  · obtain ⟨offset, inside, isKey⟩ := present
    have isOld := (insertLeafEntryWithSeq_present ordered isLeaf internal inside isKey done).1
    simp [isOld, show HasUserKey page key from ⟨offset, inside, isKey⟩]
  · have isFresh := (insertLeafEntryWithSeq_added_iff ordered isLeaf internal present done).1
    simp [isFresh, present]

/-- A leaf page with the fifth version of a user key. -/
def versionPage : Page :=
  (({ pageInit 3 (fun _ => 0) with isLeaf := true } : Page).writeEntryAt 0
    ([1, 1, 5, 0, 0, 0, 0, 0, 0], .value [9])).addItem

theorem versionPage_ordered : UserOrdered versionPage := by
  have laid := wellFormed_pageInit 3 true fun _ => 0
  have isEmpty : UserOrdered { pageInit 3 (fun _ => 0) with isLeaf := true } :=
    ⟨laid.toLaid, by simp [Page.entries, Page.ids, pageInit], .nil⟩
  have absent : ¬ HasUserKey { pageInit 3 (fun _ => 0) with isLeaf := true }
      [1, 1, 5, 0, 0, 0, 0, 0, 0] := by
    rintro ⟨_, inside, -⟩
    exact Nat.not_lt_zero _ inside
  have added := @insertLeafEntryWithSeq_added_iff _ versionPage [1, 1, 5, 0, 0, 0, 0, 0, 0] [9]
    true isEmpty rfl (by decide) absent rfl
  exact (added.2.mpr (fun _ member => absurd member List.not_mem_nil)).ordered

/-- The page after the sixth version. -/
def nextVersionPage (val : Slice) : Page :=
  { ((versionPage.updatePivotAt 0 val).1.updateKeyAt 0 [1, 1, 6, 0, 0, 0, 0, 0, 0]).1 with
    isDirty := true }

theorem leaf_upserts_iff_same_size :
    Upserted oneEntryPage (oneEntryPage.updatePivotAt 0 []).1 [1] [] ∧
    UpsertedWithSeq versionPage (nextVersionPage [8]) [1, 1, 6, 0, 0, 0, 0, 0, 0] [8] :=
  ⟨((leaf_upserts_iff oneEntryPage _ [1] [] rfl).1 oneEntryPage_wellFormed rfl).mpr
      ⟨by unfold SameSize; decide, by decide⟩,
    ((leaf_upserts_iff versionPage _ [1, 1, 6, 0, 0, 0, 0, 0, 0] [8] rfl).2 false
      versionPage_ordered (by decide) rfl).2.mpr
      ⟨by unfold SameUserSize; decide, fun absent => absurd ⟨0, by decide, by decide⟩ absent⟩⟩

/-- A value of another size is dropped, and the new version gets the old value; the return
value is that of an update. -/
theorem other_size_not_stored :
    (¬ ∀ (page after : Page) (key val : Slice), WellFormed page → page.isLeaf = true →
      page.insertLeafEntry key val = some after → Upserted page after key val) ∧
    ¬ ∃ refused : Bool → Prop, ∀ (page after : Page) (key val : Slice) (isNew : Bool),
      UserOrdered page → page.isLeaf = true → 8 ≤ key.length →
      page.insertLeafEntryWithSeq key val = some (after, isNew) →
        (refused isNew ∧ after = page) ∨
          (¬ refused isNew ∧ UpsertedWithSeq page after key val) := by
  constructor
  · intro always
    have upserted := always oneEntryPage _ [1] [9] oneEntryPage_wellFormed rfl rfl
    have sameSize := ((insertLeafEntry_upserted_iff oneEntryPage_wellFormed rfl rfl).mp
      upserted).1
    exact absurd (sameSize 0 (by decide) (by decide)) (by decide)
  · rintro ⟨refused, always⟩
    rcases always versionPage (nextVersionPage []) [1, 1, 6, 0, 0, 0, 0, 0, 0] [] false
      versionPage_ordered rfl (by decide) rfl with ⟨-, same⟩ | ⟨-, upserted⟩
    · have sameKeys : (nextVersionPage []).keys = versionPage.keys := congrArg Page.keys same
      exact absurd sameKeys (by decide)
    · have sameSize := ((insertLeafEntryWithSeq_upserted_iff versionPage_ordered rfl
        (by decide) rfl).mp upserted).1
      exact absurd (sameSize 0 (by decide) (by decide)) (by decide)

end AhaTree.Slotted
