import AhaTree.Comparators
import AhaTree.Lib.Cursor
import Mathlib.Order.Defs.LinearOrder

/-!
# Reading a block

The model of `block.cc`.  The iterator works on the bytes: it decodes one entry
behind the other, and it jumps to restart points, by a binary search when it
seeks a key.  On the bytes of a `BlockLayout` whose keys ascend it walks over the
entries of the layout, whatever moves it makes.
-/

namespace AhaTree

open Coding
open Lib (Cursor Decoder)

/-- A block whose contents have passed the checks of the constructor. -/
structure Block where
  data : Slice
  restarts : Nat
  numRestarts : Nat
  deriving DecidableEq, Repr

namespace Block

/-- The constructor, as far as `NewIterator` makes an iterator over the result. -/
def ofContents (data : Slice) : Option Block :=
  if data.length < 4 then none
  else
    let numRestarts := decodeFixed32At data (data.length - 4)
    if (data.length - 4) / 4 < numRestarts then none
    else if numRestarts = 0 then none
    else some
      { data := data
        restarts := data.length - (1 + numRestarts) * 4
        numRestarts := numRestarts }

/-- `shared`, `non_shared` and `value_length`. -/
def entryNumbers : Decoder Byte (Nat × Nat × Nat) :=
  Decoder.pair getVarint32 (Decoder.pair getVarint32 getVarint32)

/-- `DecodeEntry`, with what stands behind the three numbers.  The sum of the two lengths
has 32 bits. -/
def decodeEntry (input : Slice) : Option ((Nat × Nat × Nat) × Slice) :=
  match input with
  | first :: second :: third :: rest =>
      (if (first.val ||| second.val ||| third.val) < 128 then
        some ((first.val, second.val, third.val), rest)
      else entryNumbers (first :: second :: third :: rest)).bind fun read =>
        if read.2.length < (read.1.2.1 + read.1.2.2) % 2 ^ 32 then none else some read
  | _ => none

/-- `Block::Iter`; the value is a piece of the data. -/
structure Iter where
  current : Nat
  restartIndex : Nat
  key : Slice
  valueStart : Nat
  valueLength : Nat
  ok : Bool
  deriving DecidableEq, Repr

variable (block : Block)

def newIterator : Iter where
  current := block.restarts
  restartIndex := block.numRestarts
  key := []
  valueStart := 0
  valueLength := 0
  ok := true

def valid (iter : Iter) : Bool := iter.current < block.restarts

def value (iter : Iter) : Slice := (block.data.drop iter.valueStart).take iter.valueLength

def nextEntryOffset (iter : Iter) : Nat := iter.valueStart + iter.valueLength

def getRestartPoint (index : Nat) : Nat := decodeFixed32At block.data (block.restarts + index * 4)

def seekToRestartPoint (index : Nat) (iter : Iter) : Iter :=
  { iter with
    key := []
    restartIndex := index
    valueStart := block.getRestartPoint index
    valueLength := 0 }

def corruptionError (_ : Iter) : Iter where
  current := block.restarts
  restartIndex := block.numRestarts
  key := []
  valueStart := 0
  valueLength := 0
  ok := false

/-- The loop at the end of `ParseNextKey`. -/
def advanceRestart (current : Nat) : Nat → Nat → Nat
  | 0, index => index
  | fuel + 1, index =>
      if index + 1 < block.numRestarts ∧ block.getRestartPoint (index + 1) < current then
        advanceRestart current fuel (index + 1)
      else index

/-- The answer says whether there was an entry. -/
def parseNextKey (iter : Iter) : Bool × Iter :=
  let current := nextEntryOffset iter
  if block.restarts ≤ current then
    (false, { iter with current := block.restarts, restartIndex := block.numRestarts })
  else
    match decodeEntry ((block.data.take block.restarts).drop current) with
    | none => (false, block.corruptionError iter)
    | some ((shared, nonShared, valueLength), rest) =>
        if iter.key.length < shared then (false, block.corruptionError iter)
        else
          (true,
            { current := current
              restartIndex := block.advanceRestart current block.numRestarts iter.restartIndex
              key := iter.key.take shared ++ rest.take nonShared
              valueStart := block.restarts - rest.length + nonShared
              valueLength := valueLength
              ok := iter.ok })

/-- Parse entries until one of them is where the caller wants to stop. -/
def scan (stop : Iter → Bool) : Nat → Iter → Iter
  | 0, iter => iter
  | fuel + 1, iter =>
      let (found, after) := block.parseNextKey iter
      if found && !stop after then scan stop fuel after else after

def seekToFirst (iter : Iter) : Iter := (block.parseNextKey (block.seekToRestartPoint 0 iter)).2

def seekToLast (iter : Iter) : Iter :=
  block.scan (fun after => block.restarts ≤ nextEntryOffset after) block.data.length
    (block.seekToRestartPoint (block.numRestarts - 1) iter)

def next (iter : Iter) : Iter := (block.parseNextKey iter).2

/-- The loop at the start of `Prev`. -/
def restartBefore (original : Nat) : Nat → Option Nat
  | 0 => if original ≤ block.getRestartPoint 0 then none else some 0
  | index + 1 =>
      if original ≤ block.getRestartPoint (index + 1) then restartBefore original index
      else some (index + 1)

def prev (iter : Iter) : Iter :=
  match block.restartBefore iter.current iter.restartIndex with
  | none => { iter with current := block.restarts, restartIndex := block.numRestarts }
  | some index =>
      block.scan (fun after => iter.current ≤ nextEntryOffset after) block.data.length
        (block.seekToRestartPoint index iter)

/-- The binary search of `Seek`; there is no answer when a restart point is corrupt. -/
def searchRestarts (cmp : Slice → Slice → Ordering) (target : Slice) :
    Nat → Nat → Nat → Option Nat
  | 0, left, _ => some left
  | fuel + 1, left, right =>
      if left < right then
        let mid := (left + right + 1) / 2
        match decodeEntry ((block.data.take block.restarts).drop (block.getRestartPoint mid)) with
        | none => none
        | some ((shared, nonShared, _), rest) =>
            if shared ≠ 0 then none
            else if (cmp (rest.take nonShared) target).isLT then
              searchRestarts cmp target fuel mid right
            else searchRestarts cmp target fuel left (mid - 1)
      else some left

def seek (cmp : Slice → Slice → Ordering) (target : Slice) (iter : Iter) : Iter :=
  let currentKeyCompare := if block.valid iter then some (cmp iter.key target) else none
  if currentKeyCompare = some .eq then iter
  else
    let left := if currentKeyCompare = some .lt then iter.restartIndex else 0
    let right :=
      if currentKeyCompare = some .gt then iter.restartIndex else block.numRestarts - 1
    match block.searchRestarts cmp target block.numRestarts left right with
    | none => block.corruptionError iter
    | some left =>
        block.scan (fun after => (cmp after.key target).isGE) block.data.length
          (if left = iter.restartIndex ∧ currentKeyCompare = some .lt then iter
            else block.seekToRestartPoint left iter)

/-- The iterator as a cursor. -/
def cursor (cmp : Slice → Slice → Ordering) : Cursor Iter (Slice × Slice) Slice where
  current iter := if block.valid iter then some (iter.key, block.value iter) else none
  seekToFirst := block.seekToFirst
  seekToLast := block.seekToLast
  seek := block.seek cmp
  next := block.next
  prev := block.prev

end Block

/-! ## Decoding what was laid out -/

theorem getVarint32_single {byte : Byte} (single : byte.val < 128) (rest : Slice) :
    getVarint32 (byte :: rest) = some (byte.val, rest) := by
  refine if_pos ?_
  have marked := (continues_iff byte).not
  omega

/-- The short cut for three bytes gives what the long way gives. -/
theorem decodeEntry_eq {input : Slice} (enough : 3 ≤ input.length) :
    Block.decodeEntry input = (Block.entryNumbers input).bind fun read =>
      if read.2.length < (read.1.2.1 + read.1.2.2) % 2 ^ 32 then none else some read := by
  match input, enough with
  | first :: second :: third :: rest, _ =>
      rw [Block.decodeEntry]
      by_cases small : (first.val ||| second.val ||| third.val) < 128
      · have thirdSmall := Nat.lt_of_le_of_lt Nat.right_le_or small
        have others := Nat.lt_of_le_of_lt Nat.left_le_or small
        have firstSmall := Nat.lt_of_le_of_lt Nat.left_le_or others
        have secondSmall := Nat.lt_of_le_of_lt Nat.right_le_or others
        have longWay : Block.entryNumbers (first :: second :: third :: rest) =
            some ((first.val, second.val, third.val), rest) := by
          rw [Block.entryNumbers, Decoder.pair, getVarint32_single firstSmall, Option.bind_some,
            Decoder.pair, getVarint32_single secondSmall, Option.bind_some,
            getVarint32_single thirdSmall]
          rfl
        rw [if_pos small, longWay]
      · rw [if_neg small]

theorem encodeVarint32_length_pos (number : Nat) : 0 < (encodeVarint32 number).length := by
  rw [encodeVarint32]
  split_ifs <;> simp

theorem entryNumbers_decodes : Lib.Decodes Block.entryNumbers
    (fun numbers => encodeVarint32 numbers.1 ++
      (encodeVarint32 numbers.2.1 ++ encodeVarint32 numbers.2.2))
    (fun numbers => numbers.1 < 2 ^ 32 ∧ numbers.2.1 < 2 ^ 32 ∧ numbers.2.2 < 2 ^ 32) :=
  getVarint32_decodes.pair (getVarint32_decodes.pair getVarint32_decodes)

theorem decodeEntry_varints {shared nonShared valueLength : Nat} (rest : Slice)
    (sharedFits : shared < 2 ^ 32) (nonSharedFits : nonShared < 2 ^ 32)
    (valueFits : valueLength < 2 ^ 32) :
    Block.decodeEntry (encodeVarint32 shared ++ (encodeVarint32 nonShared ++
        (encodeVarint32 valueLength ++ rest))) =
      if rest.length < (nonShared + valueLength) % 2 ^ 32 then none
      else some ((shared, nonShared, valueLength), rest) := by
  have enough : 3 ≤ (encodeVarint32 shared ++ (encodeVarint32 nonShared ++
      (encodeVarint32 valueLength ++ rest))).length := by
    have first := encodeVarint32_length_pos shared
    have second := encodeVarint32_length_pos nonShared
    have third := encodeVarint32_length_pos valueLength
    simp only [List.length_append]
    omega
  have read := entryNumbers_decodes (shared, nonShared, valueLength)
    ⟨sharedFits, nonSharedFits, valueFits⟩ rest
  rw [List.append_assoc, List.append_assoc] at read
  rw [decodeEntry_eq enough, read]
  rfl

/-- An entry is read back, whatever stands behind it. -/
theorem decodeEntry_encode (record : Record) (rest : Slice)
    (shares : record.shared ≤ record.key.length)
    (fits : record.key.length + record.value.length < 2 ^ 32) :
    Block.decodeEntry (record.encode ++ rest) =
      some ((record.shared, record.key.length - record.shared, record.value.length),
        record.key.drop record.shared ++ (record.value ++ rest)) := by
  have assoc : record.encode ++ rest = encodeVarint32 record.shared ++
      (encodeVarint32 (record.key.length - record.shared) ++
        (encodeVarint32 record.value.length ++
          (record.key.drop record.shared ++ (record.value ++ rest)))) := by
    simp only [Record.encode, encodeEntry, List.append_assoc]
  have there : ¬ (record.key.drop record.shared ++ (record.value ++ rest)).length <
      (record.key.length - record.shared + record.value.length) % 2 ^ 32 := by
    rw [Nat.mod_eq_of_lt (by omega), List.length_append, List.length_append, List.length_drop]
    omega
  rw [assoc, decodeEntry_varints _ (by omega) (by omega) (by omega), if_neg there]

/-! ## The block of a layout -/

namespace BlockLayout

variable (layout : BlockLayout)

def block : Block where
  data := layout.bytes
  restarts := layout.body.length
  numRestarts := layout.starts.length

theorem offsets_length : layout.offsets.length = layout.starts.length := List.length_map _

theorem bytes_length :
    layout.bytes.length = layout.body.length + layout.starts.length * 4 + 4 := by
  rw [bytes, List.length_append, List.length_append, flatMap_encodeFixed_length,
    offsets_length, encodeFixed_length]
  omega

theorem starts_length_pos : 0 < layout.starts.length :=
  List.length_pos_iff.mpr layout.starts_ne_nil

/-- The bytes of a layout pass the checks of the constructor. -/
theorem ofContents_bytes : Block.ofContents layout.bytes = some layout.block := by
  have fits := layout.fits
  have positive := layout.starts_length_pos
  have count : decodeFixed32At layout.bytes (layout.bytes.length - 4) = layout.starts.length := by
    have front : layout.bytes = (layout.body ++ layout.offsets.flatMap (encodeFixed 4)) ++
        (encodeFixed 4 layout.starts.length ++ []) := by
      rw [bytes, List.append_nil, List.append_assoc]
    have there : layout.bytes.length - 4 =
        (layout.body ++ layout.offsets.flatMap (encodeFixed 4)).length := by
      rw [bytes_length, List.length_append, flatMap_encodeFixed_length, offsets_length]
      omega
    rw [there, front, decodeFixed32At_append rfl, decodeFixed_take_encodeFixed (by omega)]
  rw [Block.ofContents, count, bytes_length, if_neg (by omega), if_neg (by omega),
    if_neg (by omega), block]
  congr 2
  omega

theorem getRestartPoint {index start : Nat} (found : layout.starts[index]? = some start) :
    layout.block.getRestartPoint index = layout.offset start := by
  have inOffsets : layout.offsets[index]? = some (layout.offset start) := by
    rw [offsets, List.getElem?_map, found]
    rfl
  have inside := layout.start_le (List.mem_of_getElem? found)
  have fits := Nat.lt_of_le_of_lt (layout.offset_le inside) layout.body_length_lt
  exact decodeFixed32At_flatMap inOffsets fits _ _

theorem linked_getElem {previous : Slice} {records : List Record} (linked : Linked previous records)
    {index : Nat} {record : Record} (found : records[index]? = some record) :
    record.Follows (lastKey previous (records.take index)) := by
  induction records generalizing previous index with
  | nil => cases found
  | cons head records ih =>
      cases index with
      | zero =>
          cases found
          exact linked.1
      | succ index =>
          have follows := ih linked.2 found
          rw [List.take_succ_cons]
          cases taken : records.take index with
          | nil => rwa [taken] at follows
          | cons second others =>
              rw [taken] at follows
              rwa [lastKey, List.getLast?_cons_cons, List.getLast?_eq_getLast_of_ne_nil
                (List.cons_ne_nil second others)] at *

theorem lastKey_take {previous : Slice} {records : List Record} {index : Nat} {record : Record}
    (found : records[index]? = some record) :
    lastKey previous (records.take (index + 1)) = record.key := by
  rw [lastKey, List.take_add_one, found, Option.toList_some, List.getLast?_concat]
  rfl

theorem encode_length_ge (record : Record) :
    record.key.length - record.shared + record.value.length ≤ record.encode.length := by
  simp only [Record.encode, encodeEntry, List.length_append, List.length_drop]
  omega

/-- A key is made of bytes that stand in the block, in its own entry and before it. -/
theorem key_value_le {index : Nat} {record : Record}
    (found : layout.records[index]? = some record) :
    record.key.length + record.value.length ≤ layout.offset (index + 1) := by
  have long := encode_length_ge record
  have follows := linked_getElem layout.linked found
  rw [offset, recordOffset_succ found]
  cases index with
  | zero =>
      have nothing := follows.2.1
      rw [List.take_zero, lastKey, List.getLast?_nil, Option.map_none, Option.getD_none,
        List.length_nil] at nothing
      omega
  | succ index =>
      have inside := (List.getElem?_eq_some_iff.mp found).1
      have earlier := List.getElem?_eq_getElem (show index < layout.records.length by omega)
      have before := key_value_le earlier
      have shares := follows.2.1
      rw [lastKey_take earlier] at shares
      rw [offset] at before
      omega

/-! ### Standing on a record -/

/-- The restart point of the iterator is not behind the record. -/
def Restarted (iter : Block.Iter) (index : Nat) : Prop :=
  ∃ start, layout.starts[iter.restartIndex]? = some start ∧ start ≤ index

/-- The iterator is about to parse the record with this index. -/
structure Ready (iter : Block.Iter) (index : Nat) : Prop where
  within : index ≤ layout.records.length
  nextOffset : Block.nextEntryOffset iter = layout.offset index
  agrees : ∀ record, layout.records[index]? = some record →
    record.shared ≤ iter.key.length ∧
      iter.key.take record.shared = record.key.take record.shared
  restarted : layout.Restarted iter index
  ok : iter.ok = true

structure Shows (iter : Block.Iter) (index : Nat) (record : Record) : Prop where
  found : layout.records[index]? = some record
  current : iter.current = layout.offset index
  key : iter.key = record.key
  value : layout.block.value iter = record.value
  nextOffset : Block.nextEntryOffset iter = layout.offset (index + 1)
  restarted : layout.Restarted iter index
  ok : iter.ok = true

structure Ended (iter : Block.Iter) : Prop where
  current : iter.current = layout.body.length
  ok : iter.ok = true

def Stands (iter : Block.Iter) : Option Nat → Prop
  | none => layout.Ended iter
  | some index => ∃ record, layout.Shows iter index record

variable {layout} {iter : Block.Iter} {index : Nat} {record : Record}

theorem Shows.inside (shows : layout.Shows iter index record) : index < layout.records.length :=
  (List.getElem?_eq_some_iff.mp shows.found).1

theorem Shows.ready (shows : layout.Shows iter index record) : layout.Ready iter (index + 1) where
  within := shows.inside
  nextOffset := shows.nextOffset
  agrees := by
    intro later found
    have follows := linked_getElem layout.linked found
    rw [lastKey_take shows.found, ← shows.key] at follows
    exact follows.2
  restarted := by
    obtain ⟨start, atStart, order⟩ := shows.restarted
    exact ⟨start, atStart, Nat.le_succ_of_le order⟩
  ok := shows.ok

theorem advanceRestart_spec (within : index ≤ layout.records.length) (fuel : Nat)
    {restart start : Nat} (atStart : layout.starts[restart]? = some start)
    (order : start ≤ index) :
    ∃ later, layout.starts[layout.block.advanceRestart (layout.offset index) fuel restart]? =
      some later ∧ later ≤ index := by
  induction fuel generalizing restart start with
  | zero => exact ⟨start, atStart, order⟩
  | succ fuel ih =>
      rw [Block.advanceRestart]
      split
      · rename_i goesOn
        have next :=
          List.getElem?_eq_getElem (show restart + 1 < layout.starts.length from goesOn.1)
        have less := goesOn.2
        rw [layout.getRestartPoint next,
          layout.offset_lt_iff (layout.start_le (List.mem_of_getElem? next)) within] at less
        exact ih next less.le
      · exact ⟨start, atStart, order⟩

theorem entries_length : layout.entries.length = layout.records.length := List.length_map _

/-- What stands behind the numbers of an entry is the end of the body. -/
theorem drop_offset (found : layout.records[index]? = some record) :
    layout.body.drop (layout.offset index) =
      record.encode ++ (layout.records.drop (index + 1)).flatMap Record.encode := by
  have inside := (List.getElem?_eq_some_iff.mp found).1
  rw [body_drop, List.drop_eq_getElem_cons inside, (List.getElem?_eq_some_iff.mp found).2,
    List.flatMap_cons]

/-- The value of a record stands in the data where the iterator points to. -/
theorem value_at (found : layout.records[index]? = some record) :
    (layout.block.data.drop (layout.offset (index + 1) - record.value.length)).take
      record.value.length = record.value := by
  have next := recordOffset_succ found
  have split : layout.block.data.drop (layout.offset index) =
      (record.encode ++ (layout.records.drop (index + 1)).flatMap Record.encode) ++
        (layout.offsets.flatMap (encodeFixed 4) ++ encodeFixed 4 layout.starts.length) := by
    have inside := (List.getElem?_eq_some_iff.mp found).1
    rw [← drop_offset found]
    exact List.drop_append_of_le_length (layout.offset_le inside.le)
  obtain ⟨front, ending⟩ : ∃ front, record.encode = front ++ record.value :=
    ⟨encodeVarint32 record.shared ++ (encodeVarint32 (record.key.length - record.shared) ++
      (encodeVarint32 record.value.length ++ record.key.drop record.shared)),
      by simp only [Record.encode, encodeEntry, List.append_assoc]⟩
  have lengths := congrArg List.length ending
  rw [List.length_append] at lengths
  have there : layout.offset (index + 1) - record.value.length =
      layout.offset index + front.length := by
    rw [offset, offset, next]
    omega
  rw [there, ← List.drop_drop, split, ending, List.append_assoc, List.append_assoc,
    List.drop_left, List.take_left]

/-- One entry is parsed, or the end is reached. -/
theorem Ready.parse (ready : layout.Ready iter index) :
    ((layout.block.parseNextKey iter).1 = decide (index < layout.records.length)) ∧
      layout.Stands (layout.block.parseNextKey iter).2 (Cursor.place layout.entries index) := by
  have ends : layout.block.restarts = layout.offset layout.records.length :=
    layout.offset_length.symm
  rw [Block.parseNextKey, ready.nextOffset]
  rcases Nat.lt_or_eq_of_le ready.within with inside | rfl
  · -- a record follows
    obtain ⟨record, found⟩ : ∃ record, layout.records[index]? = some record :=
      ⟨_, List.getElem?_eq_getElem inside⟩
    have follows := linked_getElem layout.linked found
    have next := recordOffset_succ found
    have within := layout.offset_le (show index + 1 ≤ layout.records.length from inside)
    have fits := layout.body_length_lt
    have whole := layout.key_value_le found
    have agrees := ready.agrees record found
    have notEnded : ¬ layout.block.restarts ≤ layout.offset index := by
      rw [ends, Nat.not_le, layout.offset_lt_iff inside.le (Nat.le_refl _)]
      exact inside
    have input : (layout.block.data.take layout.block.restarts).drop (layout.offset index) =
        record.encode ++ (layout.records.drop (index + 1)).flatMap Record.encode := by
      have body : layout.block.data.take layout.block.restarts = layout.body := List.take_left
      rw [body, drop_offset found]
    have rest : layout.body.length = layout.offset (index + 1) +
        ((layout.records.drop (index + 1)).flatMap Record.encode).length := by
      have bytes := congrArg List.length (layout.body_drop (index + 1))
      rw [List.length_drop] at bytes
      omega
    rw [if_neg notEnded, input, decodeEntry_encode record _ follows.1 (by omega)]
    dsimp only
    rw [if_neg (Nat.not_lt.mpr agrees.1)]
    refine ⟨by simp [inside], ?_⟩
    rw [Cursor.place_of_lt (by rwa [entries_length])]
    have valueStart : layout.block.restarts - (record.key.drop record.shared ++ (record.value ++
          (layout.records.drop (index + 1)).flatMap Record.encode)).length +
        (record.key.length - record.shared) =
          layout.offset (index + 1) - record.value.length := by
      have long := encode_length_ge record
      change layout.body.length - _ + _ = _
      rw [List.length_append, List.length_append, List.length_drop]
      rw [offset] at rest ⊢
      omega
    have shortEnough : record.value.length ≤ layout.offset (index + 1) := by omega
    refine ⟨record, found, rfl, ?_, ?_, ?_, ?_, ready.ok⟩
    · rw [agrees.2, List.take_left' (List.length_drop), List.take_append_drop]
    · rw [Block.value]
      dsimp only
      rw [valueStart, value_at found]
    · rw [Block.nextEntryOffset]
      dsimp only
      rw [valueStart]
      omega
    · obtain ⟨start, atStart, order⟩ := ready.restarted
      exact advanceRestart_spec inside.le _ atStart order
  · -- all records have been read
    rw [if_pos (ends ▸ Nat.le_refl _), Cursor.place_of_ge (by rw [entries_length])]
    exact ⟨by simp, rfl, ready.ok⟩

/-! ### Scanning -/

theorem records_length_le : layout.records.length < layout.block.data.length := by
  have bytes : ∀ records : List Record,
      records.length ≤ (records.flatMap Record.encode).length := by
    intro records
    induction records with
    | nil => exact Nat.le_refl _
    | cons record records ih =>
        have positive := List.length_pos_iff.mpr record.encode_ne_nil
        rw [List.flatMap_cons, List.length_append, List.length_cons]
        omega
  have body := bytes layout.records
  change _ < layout.bytes.length
  rw [bytes_length, BlockLayout.body]
  omega

/-- The scan ends on the first record from `index` on where the caller wants to stop. -/
theorem Ready.scan {stop : Block.Iter → Bool} {wanted : Nat → Bool}
    (agrees : ∀ iter index record, layout.Shows iter index record → stop iter = wanted index)
    {fuel : Nat} (ready : layout.Ready iter index)
    (enough : layout.records.length - index < fuel) :
    ∃ reached, index ≤ reached ∧ reached ≤ layout.records.length ∧
      (∀ earlier, index ≤ earlier → earlier < reached → wanted earlier = false) ∧
      (reached < layout.records.length → wanted reached = true) ∧
      layout.Stands (layout.block.scan stop fuel iter) (Cursor.place layout.entries reached) := by
  induction fuel generalizing iter index with
  | zero => omega
  | succ fuel ih =>
      obtain ⟨answer, standing⟩ := ready.parse
      rw [Block.scan]
      dsimp only
      rcases Nat.lt_or_eq_of_le ready.within with inside | rfl
      · rw [Cursor.place_of_lt (by rwa [entries_length])] at standing
        obtain ⟨record, shows⟩ := standing
        rw [answer, decide_eq_true inside, agrees _ _ _ shows, Bool.true_and]
        cases stops : wanted index with
        | true =>
            refine ⟨index, Nat.le_refl _, inside.le, ?_, fun _ => stops, ?_⟩
            · intro earlier from_ less
              omega
            · rw [Cursor.place_of_lt (by rwa [entries_length])]
              exact ⟨record, shows⟩
        | false =>
            obtain ⟨reached, behind, within, passed, stopped, standing⟩ :=
              ih shows.ready (by omega)
            refine ⟨reached, by omega, within, ?_, stopped, standing⟩
            intro earlier notBefore less
            rcases Nat.lt_or_eq_of_le notBefore with later | rfl
            · exact passed earlier later less
            · exact stops
      · refine ⟨layout.records.length, Nat.le_refl _, Nat.le_refl _, ?_, ?_, ?_⟩
        · intro earlier notBefore less
          omega
        · exact fun impossible => absurd impossible (Nat.lt_irrefl _)
        · rw [answer, decide_eq_false (Nat.lt_irrefl _), Bool.false_and]
          exact standing

/-- A restart point needs no key in front of it. -/
theorem ready_restart {restart start : Nat} (atStart : layout.starts[restart]? = some start)
    (ok : iter.ok = true) :
    layout.Ready (layout.block.seekToRestartPoint restart iter) start where
  within := layout.start_le (List.mem_of_getElem? atStart)
  nextOffset := layout.getRestartPoint atStart
  agrees := by
    intro record found
    rw [layout.restarting start (List.mem_of_getElem? atStart) record found]
    exact ⟨Nat.zero_le _, rfl⟩
  restarted := ⟨start, atStart, Nat.le_refl _⟩
  ok := ok

theorem starts_zero : layout.starts[0]? = some 0 := by
  rw [← List.head?_eq_getElem?]
  exact layout.first

theorem Stands.ok {standing : Option Nat} (stands : layout.Stands iter standing) :
    iter.ok = true := by
  cases standing with
  | none => exact Ended.ok stands
  | some index =>
      obtain ⟨record, shows⟩ := stands
      exact shows.ok

/-! ### The moves that need no key -/

theorem seekToFirst_stands {standing : Option Nat} (stands : layout.Stands iter standing) :
    layout.Stands (layout.block.seekToFirst iter) (Cursor.place layout.entries 0) :=
  (ready_restart starts_zero stands.ok).parse.2

theorem seekToLast_stands {standing : Option Nat} (stands : layout.Stands iter standing) :
    layout.Stands (layout.block.seekToLast iter) (Cursor.before layout.entries.length) := by
  have positive := layout.starts_length_pos
  obtain ⟨start, atStart⟩ : ∃ start, layout.starts[layout.block.numRestarts - 1]? = some start :=
    ⟨_, List.getElem?_eq_getElem (show layout.starts.length - 1 < _ by omega)⟩
  have agrees : ∀ iter index record, layout.Shows iter index record →
      decide (layout.block.restarts ≤ Block.nextEntryOffset iter) =
        decide (layout.records.length ≤ index + 1) := by
    intro iter index record shows
    rw [shows.nextOffset]
    change decide (layout.body.length ≤ _) = _
    rw [← layout.offset_length, decide_eq_decide, ← Nat.not_lt, ← Nat.not_lt,
      layout.offset_lt_iff shows.inside (Nat.le_refl _)]
  have ready := @ready_restart layout iter _ _ atStart stands.ok
  have enough := @records_length_le layout
  obtain ⟨reached, behind, within, passed, stopped, standing⟩ :=
    ready.scan agrees (show _ < layout.block.data.length by omega)
  suffices same : Cursor.place layout.entries reached = Cursor.before layout.entries.length by
    rw [← same]
    exact standing
  rcases layout.inside start (List.mem_of_getElem? atStart) with inside | ⟨none, _⟩
  · -- the last record is at or behind the last restart point
    obtain ⟨last, isLast⟩ : ∃ last, layout.records.length = last + 1 :=
      ⟨layout.records.length - 1, by omega⟩
    have isReached : reached = last := by
      by_contra other
      rcases Nat.lt_or_gt_of_ne other with less | more
      · have stops := of_decide_eq_true (stopped (by omega))
        omega
      · have goesOn := of_decide_eq_false (passed last (by omega) more)
        omega
    rw [entries_length, isLast, isReached,
      Cursor.place_of_lt (by rw [entries_length, isLast]; exact Nat.lt_succ_self _)]
    rfl
  · have noEntry : layout.entries.length = 0 := by rw [entries_length, none, List.length_nil]
    rw [noEntry, Cursor.place_of_ge (by omega)]
    rfl

theorem next_stands (stands : layout.Stands iter (some index)) :
    layout.Stands (layout.block.next iter) (Cursor.place layout.entries (index + 1)) := by
  obtain ⟨record, shows⟩ := stands
  exact shows.ready.parse.2

theorem restartBefore_spec (within : index ≤ layout.records.length) {restart start : Nat}
    (atStart : layout.starts[restart]? = some start) :
    match layout.block.restartBefore (layout.offset index) restart with
    | none => index = 0
    | some found => ∃ start, layout.starts[found]? = some start ∧ start < index := by
  induction restart generalizing start with
  | zero =>
      rw [starts_zero, Option.some_inj] at atStart
      subst atStart
      rw [Block.restartBefore, layout.getRestartPoint starts_zero]
      by_cases here : layout.offset index ≤ layout.offset 0
      · rw [if_pos here]
        rw [← Nat.not_lt, layout.offset_lt_iff (Nat.zero_le _) within] at here
        exact Nat.eq_zero_of_not_pos here
      · rw [if_neg here]
        rw [Nat.not_le, layout.offset_lt_iff (Nat.zero_le _) within] at here
        exact ⟨0, starts_zero, here⟩
  | succ restart ih =>
      have startWithin := layout.start_le (List.mem_of_getElem? atStart)
      rw [Block.restartBefore, layout.getRestartPoint atStart]
      by_cases notBefore : layout.offset index ≤ layout.offset start
      · have inside := (List.getElem?_eq_some_iff.mp atStart).1
        rw [if_pos notBefore]
        exact ih (List.getElem?_eq_getElem (Nat.lt_of_succ_lt inside))
      · rw [if_neg notBefore]
        rw [Nat.not_le, layout.offset_lt_iff startWithin within] at notBefore
        exact ⟨start, atStart, notBefore⟩

theorem prev_stands (stands : layout.Stands iter (some index)) :
    layout.Stands (layout.block.prev iter) (Cursor.before index) := by
  obtain ⟨record, shows⟩ := stands
  obtain ⟨restart, atRestart, _⟩ := shows.restarted
  have found := restartBefore_spec shows.inside.le atRestart
  rw [Block.prev, shows.current]
  cases before : layout.block.restartBefore (layout.offset index) iter.restartIndex with
  | none =>
      rw [before] at found
      subst found
      exact ⟨rfl, shows.ok⟩
  | some restart =>
      rw [before] at found
      obtain ⟨start, atStart, less⟩ := found
      have agrees : ∀ later place record, layout.Shows later place record →
          decide (layout.offset index ≤ Block.nextEntryOffset later) =
            decide (index ≤ place + 1) := by
        intro later place record shown
        rw [shown.nextOffset, decide_eq_decide, ← Nat.not_lt, ← Nat.not_lt,
          layout.offset_lt_iff shown.inside shows.inside.le]
      have ready := @ready_restart layout iter _ _ atStart shows.ok
      have enough := @records_length_le layout
      obtain ⟨reached, behind, within, passed, stopped, standing⟩ :=
        ready.scan agrees (show _ < layout.block.data.length by omega)
      obtain ⟨last, isLast⟩ : ∃ last, index = last + 1 := ⟨index - 1, by omega⟩
      have inside := shows.inside
      have isReached : reached = last := by
        by_contra other
        rcases Nat.lt_or_gt_of_ne other with before | more
        · have stops := of_decide_eq_true (stopped (by omega))
          omega
        · have goesOn := of_decide_eq_false (passed last (by omega) more)
          omega
      have isBefore : Cursor.before index = some last := by
        rw [isLast]
        rfl
      rw [isReached, Cursor.place_of_lt (by rw [entries_length]; omega)] at standing
      rw [isBefore]
      exact standing

/-! ### Seeking -/

section Seeking

variable {cmp : Slice → Slice → Ordering} {target : Slice}

theorem getElem_entries (found : layout.records[index]? = some record) :
    layout.entries[index]? = some record.entry := by
  rw [entries, List.getElem?_map, found]
  rfl

/-- A restart point at which a scan for the target may start. -/
def StartsBelow (layout : BlockLayout) (cmp : Slice → Slice → Ordering) (target : Slice)
    (restart : Nat) : Prop :=
  ∃ start, layout.starts[restart]? = some start ∧
    (start = 0 ∨ ∃ record, layout.records[start]? = some record ∧ cmp record.key target = .lt)

theorem searchRestarts_spec {fuel left right : Nat} (below : layout.StartsBelow cmp target left)
    (inside : right < layout.starts.length) :
    ∃ found, layout.block.searchRestarts cmp target fuel left right = some found ∧
      layout.StartsBelow cmp target found := by
  induction fuel generalizing left right with
  | zero => exact ⟨left, rfl, below⟩
  | succ fuel ih =>
      rw [Block.searchRestarts]
      by_cases open_ : left < right
      · rw [if_pos open_]
        dsimp only
        have midInside : (left + right + 1) / 2 < layout.starts.length := by omega
        have midStart := List.getElem?_eq_getElem midInside
        generalize layout.starts[(left + right + 1) / 2] = start at midStart
        have startInside : start < layout.records.length := by
          rcases layout.inside start (List.mem_of_getElem? midStart) with inside | ⟨_, only⟩
          · exact inside
          · rw [only, List.length_singleton] at midInside
            omega
        have found := List.getElem?_eq_getElem startInside
        generalize layout.records[start] = record at found
        have sharesNone := layout.restarting start (List.mem_of_getElem? midStart) record found
        have follows := linked_getElem layout.linked found
        have whole := layout.key_value_le found
        have bound := layout.offset_le (show start + 1 ≤ layout.records.length from startInside)
        have fits := layout.body_length_lt
        have body : layout.block.data.take layout.block.restarts = layout.body := List.take_left
        rw [layout.getRestartPoint midStart, body, drop_offset found,
          decodeEntry_encode record _ follows.1 (by omega)]
        dsimp only
        rw [if_neg (not_not.mpr sharesNone), sharesNone, List.drop_zero, Nat.sub_zero,
          List.take_left]
        cases order : (cmp record.key target).isLT with
        | true =>
            exact ih ⟨start, midStart, .inr ⟨record, found, by
              simpa [Ordering.isLT_iff_eq_lt] using order⟩⟩ inside
        | false => exact ih below (by omega)
      · rw [if_neg open_]
        exact ⟨left, rfl, below⟩

variable [Std.TransCmp cmp]

/-- The entries that are below the target are the first ones. -/
theorem below_of_lt (ascending : layout.entries.Pairwise fun left right =>
      cmp left.1 right.1 = .lt) {low high : Nat} {lower upper : Record}
    (foundLow : layout.records[low]? = some lower) (foundHigh : layout.records[high]? = some upper)
    (order : low ≤ high) (below : cmp upper.key target = .lt) :
    cmp lower.key target = .lt := by
  rcases Nat.lt_or_eq_of_le order with less | rfl
  · obtain ⟨lowInside, lowIs⟩ := List.getElem?_eq_some_iff.mp (getElem_entries foundLow)
    obtain ⟨highInside, highIs⟩ := List.getElem?_eq_some_iff.mp (getElem_entries foundHigh)
    have keys := List.pairwise_iff_getElem.mp ascending low high lowInside highInside less
    rw [lowIs, highIs] at keys
    exact Std.TransCmp.lt_trans keys below
  · rw [foundLow, Option.some_inj] at foundHigh
    rw [foundHigh]
    exact below

omit [Std.TransCmp cmp] in
/-- From a record in front of which all are below the target, the scan goes to the first one
that is not. -/
theorem Ready.scan_target (ready : layout.Ready iter index)
    (below : ∀ earlier lower, earlier < index → layout.records[earlier]? = some lower →
      cmp lower.key target = .lt) :
    layout.Stands
      (layout.block.scan (fun after => (cmp after.key target).isGE) layout.block.data.length iter)
      (Cursor.place layout.entries
        (layout.entries.findIdx fun entry => !(cmp entry.1 target).isLT)) := by
  have agrees : ∀ later place record, layout.Shows later place record →
      (cmp later.key target).isGE =
        (layout.records[place]?.any fun record => (cmp record.key target).isGE) := by
    intro later place record shown
    rw [shown.found, shown.key]
    rfl
  have enough := @records_length_le layout
  obtain ⟨reached, behind, within, passed, stopped, standing⟩ :=
    ready.scan agrees (show _ < layout.block.data.length by omega)
  have isReached : (layout.entries.findIdx fun entry => !(cmp entry.1 target).isLT) = reached := by
    apply Cursor.findIdx_of_split (by rwa [entries_length])
    · intro earlier entry less found
      obtain ⟨record, isRecord, rfl⟩ : ∃ record, layout.records[earlier]? = some record ∧
          record.entry = entry := by
        rw [entries, List.getElem?_map, Option.map_eq_some_iff] at found
        exact found
      rw [Ordering.isLT_iff_eq_lt]
      rcases Nat.lt_or_ge earlier index with inFront | notInFront
      · exact below earlier record inFront isRecord
      · have notWanted := passed earlier notInFront less
        rw [isRecord] at notWanted
        cases order : cmp record.key target with
        | lt => exact order
        | eq => simp [order] at notWanted
        | gt => simp [order] at notWanted
    · intro entry found
      obtain ⟨record, isRecord, rfl⟩ : ∃ record, layout.records[reached]? = some record ∧
          record.entry = entry := by
        rw [entries, List.getElem?_map, Option.map_eq_some_iff] at found
        exact found
      have wanted := stopped (List.getElem?_eq_some_iff.mp isRecord).1
      rw [isRecord] at wanted
      change (cmp record.key target).isLT = false
      cases order : cmp record.key target with
      | lt => simp [order] at wanted
      | eq => rfl
      | gt => rfl
  rw [isReached]
  exact standing

theorem valid_iff {standing : Option Nat} (stands : layout.Stands iter standing) :
    layout.block.valid iter = standing.isSome := by
  cases standing with
  | none =>
      have ended := Ended.current stands
      simp [Block.valid, block, ended]
  | some index =>
      obtain ⟨record, shows⟩ := stands
      have less : layout.offset index < layout.body.length := by
        rw [← layout.offset_length, layout.offset_lt_iff shows.inside.le (Nat.le_refl _)]
        exact shows.inside
      simp [Block.valid, block, shows.current, less]

theorem seek_stands (ascending : layout.entries.Pairwise fun left right =>
      cmp left.1 right.1 = .lt) {standing : Option Nat} (stands : layout.Stands iter standing) :
    layout.Stands (layout.block.seek cmp target iter)
      (Cursor.place layout.entries
        (layout.entries.findIdx fun entry => !(cmp entry.1 target).isLT)) := by
  have lastRestart : layout.block.numRestarts - 1 < layout.starts.length :=
    Nat.sub_lt layout.starts_length_pos Nat.one_pos
  -- a scan from a restart point that is below the target
  have scans : ∀ restart, layout.StartsBelow cmp target restart →
      layout.Stands (layout.block.scan (fun after => (cmp after.key target).isGE)
          layout.block.data.length (layout.block.seekToRestartPoint restart iter))
        (Cursor.place layout.entries
          (layout.entries.findIdx fun entry => !(cmp entry.1 target).isLT)) := by
    intro restart isBelow
    obtain ⟨start, atStart, isFirst⟩ := isBelow
    apply (ready_restart atStart stands.ok).scan_target
    intro earlier lower less found
    rcases isFirst with rfl | ⟨record, atRecord, below⟩
    · omega
    · exact below_of_lt ascending found atRecord less.le below
  have first : layout.StartsBelow cmp target 0 := ⟨0, starts_zero, .inl rfl⟩
  cases standing with
  | none =>
      have notValid : layout.block.valid iter = false := valid_iff stands
      obtain ⟨found, search, below⟩ :=
        @searchRestarts_spec layout cmp target layout.block.numRestarts 0 _ first lastRestart
      rw [Block.seek, notValid]
      simp only [Bool.false_eq_true, if_false, reduceCtorEq, search, and_false]
      exact scans found below
  | some index =>
      have isValid : layout.block.valid iter = true := valid_iff stands
      obtain ⟨record, shows⟩ := stands
      obtain ⟨start, atStart, order⟩ := shows.restarted
      have restartInside := (List.getElem?_eq_some_iff.mp atStart).1
      rw [Block.seek, isValid, shows.key]
      simp only [if_true, Option.some_inj]
      cases compared : cmp record.key target with
      | eq =>
          -- the iterator stands on the target already
          have isHere : (layout.entries.findIdx fun entry => !(cmp entry.1 target).isLT) =
              index := by
            apply Cursor.findIdx_of_split (by rw [entries_length]; exact shows.inside.le)
            · intro earlier entry less found
              obtain ⟨inside, isEntry⟩ := List.getElem?_eq_some_iff.mp found
              obtain ⟨hereInside, isHere⟩ :=
                List.getElem?_eq_some_iff.mp (getElem_entries shows.found)
              have keys :=
                List.pairwise_iff_getElem.mp ascending earlier index inside hereInside less
              rw [isEntry, isHere] at keys
              rw [Ordering.isLT_iff_eq_lt]
              exact Std.TransCmp.lt_of_lt_of_eq keys compared
            · intro entry found
              rw [getElem_entries shows.found, Option.some_inj] at found
              rw [← found]
              change (cmp record.key target).isLT = false
              rw [compared]
              rfl
          rw [if_pos rfl, isHere, Cursor.place_of_lt (by rw [entries_length]; exact shows.inside)]
          exact ⟨record, shows⟩
      | lt =>
          have startFound := List.getElem?_eq_getElem (Nat.lt_of_le_of_lt order shows.inside)
          have startBelow : layout.StartsBelow cmp target iter.restartIndex :=
            ⟨start, atStart, .inr ⟨_, startFound,
              below_of_lt ascending startFound shows.found order compared⟩⟩
          obtain ⟨found, search, below⟩ :=
            @searchRestarts_spec layout cmp target layout.block.numRestarts _ _ startBelow
              lastRestart
          simp only [reduceCtorEq, if_false, if_true, and_true, search]
          by_cases same : found = iter.restartIndex
          · rw [if_pos same]
            apply shows.ready.scan_target
            intro earlier lower less isLower
            exact below_of_lt ascending isLower shows.found (Nat.le_of_lt_succ less) compared
          · rw [if_neg same]
            exact scans found below
      | gt =>
          obtain ⟨found, search, below⟩ :=
            @searchRestarts_spec layout cmp target layout.block.numRestarts 0 _ first restartInside
          simp only [reduceCtorEq, if_false, if_true, and_false, search]
          exact scans found below

end Seeking

/-- On the bytes of a layout the iterator walks over its entries. -/
theorem walks (layout : BlockLayout) (cmp : Slice → Slice → Ordering) [Std.TransCmp cmp]
    (ascending : layout.entries.Pairwise fun left right => cmp left.1 right.1 = .lt) :
    Cursor.Walks (layout.block.cursor cmp) layout.entries
      (fun target entry => (cmp entry.1 target).isLT) layout.Stands where
  current := by
    intro iter standing stands
    change (if layout.block.valid iter then some (iter.key, layout.block.value iter) else none) = _
    rw [valid_iff stands]
    cases standing with
    | none => rfl
    | some index =>
        obtain ⟨record, shows⟩ := stands
        rw [shows.key, shows.value]
        exact (getElem_entries shows.found).symm
  seekToFirst := seekToFirst_stands
  seekToLast := seekToLast_stands
  seek := fun target stands => seek_stands ascending stands
  next := by
    intro iter standing stands shown
    cases standing with
    | none => cases shown
    | some index => exact next_stands stands
  prev := by
    intro iter standing stands shown
    cases standing with
    | none => cases shown
    | some index => exact prev_stands stands

theorem newIterator_stands (layout : BlockLayout) :
    layout.Stands layout.block.newIterator none := ⟨rfl, rfl⟩

end BlockLayout

/-- What was added to a block comes back from its bytes, in any order of moves. -/
theorem Block.shows_added (cmp : Slice → Slice → Ordering) [Std.TransCmp cmp] (interval : Nat)
    (entries : List (Slice × Slice))
    (ascending : entries.Pairwise fun left right => cmp left.1 right.1 = .lt)
    (fits : ((BlockBuilder.empty interval).addAll entries).currentSizeEstimate < 2 ^ 32) :
    ∃ block, Block.ofContents ((BlockBuilder.empty interval).addAll entries).finish = some block ∧
      ∀ moves, (block.cursor cmp).shows moves block.newIterator =
        (Cursor.onList entries fun target entry => (cmp entry.1 target).isLT).shows moves none := by
  obtain ⟨layout, rfl, bytes⟩ := BlockBuilder.finish_layout interval entries fits
  refine ⟨layout.block, bytes ▸ layout.ofContents_bytes, ?_⟩
  exact fun moves => (layout.walks cmp ascending).shows layout.newIterator_stands moves

theorem Block.shows_added_shared_prefix :
    ∃ block, Block.ofContents
        ((BlockBuilder.empty 2).addAll [([1], [7]), ([1, 2], [8])]).finish = some block ∧
      ∀ moves, (block.cursor Slice.compare).shows moves block.newIterator =
        (Cursor.onList [([1], [7]), ([1, 2], [8])] fun target entry =>
          (Slice.compare entry.1 target).isLT).shows moves none :=
  Block.shows_added Slice.compare 2 [([1], [7]), ([1, 2], [8])] (by decide) (by decide)

end AhaTree
