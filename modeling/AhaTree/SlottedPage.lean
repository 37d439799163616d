import AhaTree.BtreePage
import AhaTree.Lib.Memory
import AhaTree.Lib.Tiling

/-!
# Slotted pages

The functions of `tree_page.cc` on the bytes of a page.  Item ids grow upwards
behind the header, in the order of the keys; records grow downwards from the end
of the page, in the order they have been written.  An item id is the position of
its record.  The header is kept apart from the bytes, and what `std::abort` ends
is `none`.
-/

namespace AhaTree.Slotted

open Lib (Memory Span)

/-! ## Records -/

/-- What a record has behind its key: a child in an index page, and a value with its
length in a leaf page. -/
inductive Payload where
  | child (pgId : UInt32)
  | value (val : Slice)
  deriving DecidableEq

abbrev Entry := Slice × Payload

namespace Payload

def encode : Payload → Slice
  | .child pgId => encodeFixed 4 pgId.toNat
  | .value val => encodeFixed 4 val.length ++ val

/-- The bytes that follow the four of the child or of the value's length. -/
def extra : Payload → Nat
  | .child _ => 0
  | .value val => val.length

def isLeaf : Payload → Bool
  | .child _ => false
  | .value _ => true

end Payload

/-- `encoded_len`. -/
def encodedLen (entry : Entry) : Nat := entry.1.length + itemIdSize * 2 + entry.2.extra

/-- `DecodeFixed32`. -/
def decodeInt32At (bytes : Memory Byte) (pos : Nat) : Nat := decodeFixed (bytes.read pos 4)

/-- `EncodeFixed32`. -/
def encodeInt32At (bytes : Memory Byte) (pos number : Nat) : Memory Byte :=
  bytes.write pos (encodeFixed 4 number)

/-- What is behind the key of a record. -/
def payloadAt (isLeaf : Bool) (bytes : Memory Byte) (pos : Nat) : Payload :=
  if isLeaf then .value (bytes.read (pos + itemIdSize) (decodeInt32At bytes pos))
  else .child (UInt32.ofNat (decodeInt32At bytes pos))

/-- The record at a position. -/
def recordAt (isLeaf : Bool) (bytes : Memory Byte) (pos : Nat) : Entry :=
  let keySize := decodeInt32At bytes pos
  (bytes.read (pos + itemIdSize) keySize, payloadAt isLeaf bytes (pos + itemIdSize + keySize))

/-- The bytes that the record at a position takes. -/
def spanAt (isLeaf : Bool) (bytes : Memory Byte) (pos : Nat) : Span where
  start := pos
  size := encodedLen (recordAt isLeaf bytes pos)

/-! ## Pages -/

structure Page where
  pageId : Nat
  itemNum : Nat
  left : Nat
  right : Nat
  freeStart : Nat
  freeEnd : Nat
  isLeaf : Bool
  isDirty : Bool
  bytes : Memory Byte

def pageInit (pgId : Nat) (bytes : Memory Byte) : Page where
  pageId := pgId
  itemNum := 0
  left := 0
  right := 0
  freeStart := pgHdSize
  freeEnd := pageSize
  isLeaf := false
  isDirty := true
  bytes := bytes

namespace Page

variable (page : Page)

def getFreeSpace : Nat :=
  if page.freeEnd - page.freeStart < itemIdSize then 0 else page.freeEnd - page.freeStart

/-- Where the item id of an offset is. -/
def idPos (offset : Nat) : Nat := pgHdSize + offset * itemIdSize

def itemId (offset : Nat) : Nat := decodeInt32At page.bytes (idPos offset)

def ids : List Nat := (List.range page.itemNum).map page.itemId

/-- `_page_decode_indexEntry` and `_page_decode_leafEntry`. -/
def decodeEntry (offset : Nat) : Entry := recordAt page.isLeaf page.bytes (page.itemId offset)

def entries : List Entry := page.ids.map (recordAt page.isLeaf page.bytes)

def spans : List Span := page.ids.map (spanAt page.isLeaf page.bytes)

def keys : List Slice := page.entries.map Prod.fst

def readPivotAtOffset (offset : Nat) : Slice :=
  if page.itemNum ≤ offset then [] else (page.decodeEntry offset).1

/-! ## Searches -/

/-- `_page_compare`. -/
def compare (key : Slice) (offset : Nat) : Ordering :=
  Slice.compare key (page.readPivotAtOffset offset)

/-- `_page_bin_search_insert`. -/
def binSearchInsert (key : Slice) : Nat :=
  if page.itemNum = 0 then 0
  else
    match Lib.bisect (page.compare key) page.itemNum 0 (page.itemNum - 1) with
    | .hit mid => mid
    | .gap low => if (page.compare key low).isGT then low + 1 else low

/-- `_page_bin_search`. -/
def binSearch (key : Slice) : Nat :=
  if page.itemNum = 0 then 0
  else
    match Lib.bisect (page.compare key) page.itemNum 0 (page.itemNum - 1) with
    | .hit mid => mid
    | .gap low =>
        if (page.compare key low).isGE then low
        else if low = 0 then low
        else low - 1

/-- The comparison of the user keys alone. -/
def compareUserKey (key : Slice) (offset : Nat) : Ordering :=
  Slice.compare (extractUserKey key) (extractUserKey (page.readPivotAtOffset offset))

/-- `_page_bin_search_with_seq`. -/
def binSearchWithSeq (key : Slice) : Nat :=
  if page.itemNum = 0 then 0
  else
    match Lib.bisect (page.compareUserKey key) page.itemNum 0 (page.itemNum - 1) with
    | .hit mid => mid
    | .gap low => if (page.compareUserKey key low).isGT then low + 1 else low

/-! ## Overwriting -/

/-- A value only replaces one of its size. -/
def updatePivotAt (offset : Nat) (val : Slice) : Page × Bool :=
  let oldPos := page.itemId offset
  let keySize := decodeInt32At page.bytes oldPos
  let oldValSize := decodeInt32At page.bytes (oldPos + itemIdSize + keySize)
  if val.length = oldValSize then
    ({ page with
        isDirty := true
        bytes := page.bytes.write (oldPos + itemIdSize * 2 + keySize) val }, true)
  else ({ page with isDirty := true }, false)

/-- A key only replaces one of its size. -/
def updateKeyAt (offset : Nat) (key : Slice) : Page × Bool :=
  let oldPos := page.itemId offset
  let oldItemSize := decodeInt32At page.bytes oldPos
  if key.length = oldItemSize then
    ({ page with isDirty := true, bytes := page.bytes.write (oldPos + itemIdSize) key }, true)
  else (page, false)

/-- For another size the records from `free_end_` on are moved as if the first pivot's
record were the last one, and the first item id is set to the end of the page. -/
def updateMinPivot (key : Slice) : Page :=
  let oldPos := page.itemId 0
  let oldItemSize := decodeInt32At page.bytes oldPos
  if key.length = oldItemSize then
    { page with isDirty := true, bytes := page.bytes.write (oldPos + itemIdSize) key }
  else
    let childPg := decodeInt32At page.bytes (oldPos + itemIdSize + oldItemSize)
    let newEncodedLen := key.length + itemIdSize * 2
    let oldEncodedLen := oldItemSize + itemIdSize * 2
    let chunkSize := pageSize - page.freeEnd - oldEncodedLen
    let freeEnd := pageSize - chunkSize - newEncodedLen
    let newPos := freeEnd + chunkSize
    let moved := page.bytes.move freeEnd page.freeEnd chunkSize
    let written := encodeInt32At ((encodeInt32At moved newPos key.length).write
      (newPos + itemIdSize) key) (newPos + itemIdSize + key.length) childPg
    { page with
      isDirty := true
      freeEnd := freeEnd
      bytes := encodeInt32At written pgHdSize newPos }

/-- `Node::MayUpdateMinPivot`. -/
def mayUpdateMinPivot (key : Slice) : Page :=
  if 0 < page.itemNum ∧ (Slice.compare key (page.readPivotAtOffset 0)).isLT then
    page.updateMinPivot key
  else page

/-- `PageUpdateChild`: the child of the pivot that the search for a key ends at. -/
def updateChild (pivot : Slice) (child : UInt32) : Page :=
  let pos := page.itemId (page.binSearch pivot)
  let keySize := decodeInt32At page.bytes pos
  { page with
    isDirty := true
    bytes := encodeInt32At page.bytes (pos + keySize + itemIdSize) child.toNat }

/-- The first offset that has the child. -/
def getOffsetByChild (child : UInt32) : Option Nat :=
  (List.range page.itemNum).find? fun offset => (page.decodeEntry offset).2 = .child child

/-! ## Inserting -/

/-- `_page_write_indexEntry_at` and `_page_write_leafEntry_at`: the record goes to the
end of the free space, and its item id to the offset. -/
def writeEntryAt (offset : Nat) (entry : Entry) : Page :=
  let up := page.freeEnd - encodedLen entry
  let written := ((encodeInt32At page.bytes up entry.1.length).write (up + itemIdSize)
    entry.1).write (up + itemIdSize + entry.1.length) entry.2.encode
  let low := idPos offset
  let shifted :=
    if offset < page.itemNum then
      written.move (low + itemIdSize) low ((page.itemNum - offset) * itemIdSize)
    else written
  { page with
    bytes := encodeInt32At shifted low up
    freeEnd := up
    freeStart := page.freeStart + itemIdSize }

def addItem : Page := { page with isDirty := true, itemNum := page.itemNum + 1 }

def insertIndexEntry (key : Slice) (pgId : UInt32) : Option Page :=
  if page.getFreeSpace ≤ key.length + itemIdSize * 3 then none
  else some (page.writeEntryAt (page.binSearchInsert key) (key, .child pgId)).addItem

/-- Behind the last entry `PageReadPivotAtOffset` returns an empty slice. -/
def insertLeafEntry (key val : Slice) : Option Page :=
  if page.getFreeSpace ≤ key.length + val.length + itemIdSize * 3 then none
  else
    let off := page.binSearchInsert key
    if (Slice.compare key (page.readPivotAtOffset off)).isEq then
      some (page.updatePivotAt off val).1
    else some (page.writeEntryAt off (key, .value val)).addItem

/-- The page, and whether the entry is new. -/
def insertLeafEntryWithSeq (key val : Slice) : Option (Page × Bool) :=
  if page.getFreeSpace ≤ key.length + val.length + itemIdSize * 3 then none
  else
    let off2 := page.binSearchWithSeq key
    if off2 < page.itemNum ∧ (page.compareUserKey key off2).isEq then
      let updated := ((page.updatePivotAt off2 val).1.updateKeyAt off2 key).1
      some ({ updated with isDirty := true }, false)
    else
      some ((page.writeEntryAt (page.binSearchInsert key) (key, .value val)).addItem, true)

def appendLeafEntry (key val : Slice) : Option Page :=
  if page.getFreeSpace ≤ key.length + val.length + itemIdSize * 3 then none
  else some (page.writeEntryAt page.itemNum (key, .value val)).addItem

/-! ## Removing -/

/-- Item ids of records in front of `pos` move with their records. -/
def shiftIds (bytes : Memory Byte) (pos gapSize itemNum : Nat) : Memory Byte :=
  (List.range itemNum).foldl (fun bytes index =>
    let p := decodeInt32At bytes (idPos index)
    encodeInt32At bytes (idPos index) (if p < pos then p + gapSize else p)) bytes

/-- `--` on 32 bits. -/
def decrement (number : Nat) : Nat := if number = 0 then 2 ^ 32 - 1 else number - 1

/-- The size of the gap is that of the record whose item id is at the offset when the
item ids have moved. -/
def removeOffset (offset : Nat) : Page :=
  let pos := page.itemId offset
  let low := idPos (offset + 1)
  let moved :=
    if offset + 1 < page.itemNum then
      page.bytes.move (low - itemIdSize) low ((page.itemNum - offset - 1) * itemIdSize)
    else page.bytes
  let gapSize := encodedLen (recordAt page.isLeaf moved (decodeInt32At moved (idPos offset)))
  let closed := moved.move (page.freeEnd + gapSize) page.freeEnd (pos - page.freeEnd)
  let itemNum := decrement page.itemNum
  { page with
    itemNum := itemNum
    freeStart := page.freeStart - itemIdSize
    freeEnd := page.freeEnd + gapSize
    isDirty := true
    bytes := shiftIds closed pos gapSize itemNum }

/-- The page, and whether it had the key. -/
def removeEntry (key : Slice) : Page × Bool :=
  let offset := page.binSearch key
  if (Slice.compare key (page.readPivotAtOffset offset)).isEq then
    ({ page.removeOffset offset with isDirty := true }, true)
  else (page, false)

end Page

end AhaTree.Slotted
