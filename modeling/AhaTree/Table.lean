import AhaTree.TableLayout
import AhaTree.TwoLevelIterator

/-!
# Reading a table

The model of `table.cc`.  Opening a table reads the footer and the index block,
and the filter if there is one.  Its iterator walks over the index block and
over the data blocks below, each of which is read when the index comes to it.
A table that was built from some entries shows these entries, whatever moves the
iterator makes.
-/

namespace AhaTree

open Coding
open Lib (Cursor)

/-- An iterator over a block, or one without entries. -/
inductive BlockIter where
  | onBlock (block : Block) (iter : Block.Iter)
  | without (status : Option Table.Error)
  deriving DecidableEq, Repr

namespace BlockIter

/-- `Block::NewIterator` on a block with the given contents. -/
def ofContents (contents : Slice) : BlockIter :=
  match Block.ofContents contents with
  | some block => onBlock block block.newIterator
  | none =>
      if contents.length < 4 ∨
          (contents.length - 4) / 4 < decodeFixed32At contents (contents.length - 4) then
        without (some (.corruption "bad block contents"))
      else without none

def status : BlockIter → Option Table.Error
  | onBlock _ iter => if iter.ok then none else some (.corruption "bad entry in block")
  | without status => status

def move (moves : Block → Block.Iter → Block.Iter) : BlockIter → BlockIter
  | onBlock block iter => onBlock block (moves block iter)
  | without status => without status

def cursor (cmp : Slice → Slice → Ordering) : Cursor BlockIter (Slice × Slice) Slice where
  current
    | onBlock block iter => (block.cursor cmp).current iter
    | without _ => none
  seekToFirst := move fun block => block.seekToFirst
  seekToLast := move fun block => block.seekToLast
  seek target := move fun block => block.seek cmp target
  next := move fun block => block.next
  prev := move fun block => block.prev

end BlockIter

/-- The filter, if the table has one, is read with a policy of its own. -/
structure Table where
  options : TableOptions
  file : RandomAccessFile
  filter : Option FilterBlockReader
  metaindexHandle : BlockHandle
  indexBlock : Slice

namespace Table

def paranoid (options : TableOptions) : ReadOptions := ⟨options.paranoidChecks⟩

def readFilter (options : TableOptions) (file : RandomAccessFile) (filterHandleValue : Slice) :
    Option FilterBlockReader :=
  match BlockHandle.decodeFrom filterHandleValue with
  | .error _ => none
  | .ok (filterHandle, _) =>
      match readBlock options.port file (paranoid options) filterHandle with
      | .error _ => none
      | .ok block => some (FilterBlockReader.ofContents block)

def readMeta (options : TableOptions) (file : RandomAccessFile) (footer : Footer) :
    Option FilterBlockReader :=
  options.filterPolicy.bind fun policy =>
    match readBlock options.port file (paranoid options) footer.metaindexHandle with
    | .error _ => none
    | .ok contents =>
        let key := TableBuilder.filterKey policy
        let cursor := BlockIter.cursor bytewiseComparator.compare
        (cursor.current (cursor.seek key (BlockIter.ofContents contents))).bind fun entry =>
          if entry.1 = key then readFilter options file entry.2 else none

/-- `Table::Open`. -/
def openTable (options : TableOptions) (file : RandomAccessFile) (size : Nat) :
    Except Table.Error Table :=
  if size < Footer.kEncodedLength then
    .error (.corruption "file is too short to be an sstable")
  else
    match file (size - Footer.kEncodedLength) Footer.kEncodedLength with
    | .error error => .error error
    | .ok footerInput =>
        match Footer.decodeFrom footerInput with
        | .error error => .error error
        | .ok footer =>
            match readBlock options.port file (paranoid options) footer.indexHandle with
            | .error error => .error error
            | .ok contents =>
                .ok
                  { options := options
                    file := file
                    filter := readMeta options file footer
                    metaindexHandle := footer.metaindexHandle
                    indexBlock := contents }

variable (table : Table)

/-- The block cache is left out: it only saves reading a block again. -/
def blockReader (options : ReadOptions) (indexValue : Slice) : BlockIter :=
  match BlockHandle.decodeFrom indexValue with
  | .error error => .without (some error)
  | .ok (handle, _) =>
      match readBlock table.options.port table.file options handle with
      | .error error => .without (some error)
      | .ok contents => BlockIter.ofContents contents

/-- What `NewIterator` puts together. -/
def levels (options : ReadOptions) :
    TwoLevelIterator BlockIter BlockIter Slice Slice (Slice × Slice) Slice Table.Error where
  index := BlockIter.cursor table.options.comparator.compare
  data := BlockIter.cursor table.options.comparator.compare
  blockFunction := table.blockReader options
  indexStatus := BlockIter.status
  dataStatus := BlockIter.status

def newIterator : TwoLevelIterator.State BlockIter BlockIter Slice Table.Error :=
  TwoLevelIterator.newIterator (BlockIter.ofContents table.indexBlock)

/-- The index has fewer entries than bytes. -/
def cursor (options : ReadOptions) :
    Cursor (TwoLevelIterator.State BlockIter BlockIter Slice Table.Error) (Slice × Slice) Slice :=
  (table.levels options).cursor (table.indexBlock.length + 2)

end Table

/-! ## Walking over a block -/

namespace BlockIter

/-- Where an iterator over the bytes of a layout stands. -/
def Stands (entries : List (Slice × Slice)) (contents : Slice) (iter : BlockIter)
    (standing : Option Nat) : Prop :=
  ∃ layout : BlockLayout, ∃ inner, layout.entries = entries ∧ contents = layout.bytes ∧
    iter = onBlock layout.block inner ∧ layout.Stands inner standing

variable {cmp : Slice → Slice → Ordering} {entries : List (Slice × Slice)} {contents : Slice}

theorem walks [Std.TransCmp cmp] (ascending : KeysAscend cmp entries) :
    Cursor.Walks (cursor cmp) entries (fun target entry => (cmp entry.1 target).isLT)
      (Stands entries contents) where
  current := by
    rintro _ standing ⟨layout, inner, rfl, bytes, rfl, stands⟩
    exact (layout.walks cmp ascending).current stands
  seekToFirst := by
    rintro _ standing ⟨layout, inner, rfl, bytes, rfl, stands⟩
    exact ⟨layout, _, rfl, bytes, rfl, (layout.walks cmp ascending).seekToFirst stands⟩
  seekToLast := by
    rintro _ standing ⟨layout, inner, rfl, bytes, rfl, stands⟩
    exact ⟨layout, _, rfl, bytes, rfl, (layout.walks cmp ascending).seekToLast stands⟩
  seek := by
    rintro _ standing sought ⟨layout, inner, rfl, bytes, rfl, stands⟩
    exact ⟨layout, _, rfl, bytes, rfl, (layout.walks cmp ascending).seek sought stands⟩
  next := by
    rintro _ standing ⟨layout, inner, rfl, bytes, rfl, stands⟩ shown
    exact ⟨layout, _, rfl, bytes, rfl, (layout.walks cmp ascending).next stands shown⟩
  prev := by
    rintro _ standing ⟨layout, inner, rfl, bytes, rfl, stands⟩ shown
    exact ⟨layout, _, rfl, bytes, rfl, (layout.walks cmp ascending).prev stands shown⟩

theorem ofContents_stands {interval : Nat}
    (fits : ((BlockBuilder.empty interval).addAll entries).currentSizeEstimate < 2 ^ 32) :
    Stands entries ((BlockBuilder.empty interval).addAll entries).finish
      (ofContents ((BlockBuilder.empty interval).addAll entries).finish) none := by
  obtain ⟨layout, same, bytes⟩ := BlockBuilder.finish_layout interval entries fits
  refine ⟨layout, layout.block.newIterator, same, bytes, ?_, layout.newIterator_stands⟩
  rw [bytes, ofContents, layout.ofContents_bytes]

theorem Stands.status {iter : BlockIter} {standing : Option Nat}
    (stands : Stands entries contents iter standing) : iter.status = none := by
  obtain ⟨layout, inner, -, -, rfl, stands⟩ := stands
  exact if_pos stands.ok

end BlockIter

/-! ## Walking over a table -/

namespace TableFile

variable {options : TableOptions} {file : Slice} {index : List (Slice × Slice)}
  {handles : List BlockHandle} {blocks : List (List (Slice × Slice))} {footer : Footer}

theorem handle_fits (tableFile : TableFile options file index handles blocks footer)
    (small : file.length < 2 ^ 64) {number : Nat} {handle : BlockHandle}
    (found : handles[number]? = some handle) : handle.Fits := by
  have inside := tableFile.dataBlocks.inside handle (List.mem_of_getElem? found)
  exact ⟨by omega, by omega⟩

theorem blockReader_eq (tableFile : TableFile options file index handles blocks footer)
    (small : file.length < 2 ^ 64) {table : Table} (sameOptions : table.options = options)
    (sameFile : table.file = .ofBytes file) (readOptions : ReadOptions) {number : Nat}
    {entry : Slice × Slice} {block : List (Slice × Slice)} (found : index[number]? = some entry)
    (foundBlock : blocks[number]? = some block) :
    table.blockReader readOptions entry.2 =
      BlockIter.ofContents (options.blockOf block).finish := by
  obtain ⟨handle, foundHandle, encoded⟩ := tableFile.indexes.value found
  have decoded := BlockHandle.decodeFrom_encodeTo (tableFile.handle_fits small foundHandle) []
  rw [List.append_nil] at decoded
  have read := readBlock_of_stored (tableFile.dataBlocks.stored foundBlock foundHandle) readOptions
  rw [Table.blockReader, encoded, decoded]
  dsimp only
  rw [sameOptions, sameFile, read]

/-- The keys of the index ascend, since every block has an entry between two of them. -/
theorem index_ascending (tableFile : TableFile options file index handles blocks footer)
    (lawful : options.comparator.Lawful) : KeysAscend options.comparator.compare index := by
  have trans := lawful.trans
  apply List.pairwise_iff_getElem.mpr
  intro low high lowInside highInside less
  have blockInside : high < blocks.length := tableFile.complete ▸ highInside
  have foundBlock := List.getElem?_eq_getElem blockInside
  obtain ⟨inner, member⟩ := List.exists_mem_of_ne_nil _
    (tableFile.dataBlocks.nonempty _ (List.getElem_mem blockInside))
  have below := tableFile.indexes.beyond (List.getElem?_eq_getElem lowInside) less foundBlock member
  have upTo := tableFile.indexes.upTo (List.getElem?_eq_getElem highInside) foundBlock member
  exact Std.TransCmp.lt_of_lt_of_isLE below upTo

/-- The index of the table points to its blocks and separates them. -/
theorem spans (tableFile : TableFile options file index handles blocks footer)
    (small : file.length < 2 ^ 64) (lawful : options.comparator.Lawful)
    (ascending : KeysAscend options.comparator.compare blocks.flatten) {table : Table}
    (sameOptions : table.options = options) (sameFile : table.file = .ofBytes file)
    (readOptions : ReadOptions) :
    (table.levels readOptions).Spans index blocks
      (fun target entry => (options.comparator.compare entry.1 target).isLT)
      (fun target entry => (options.comparator.compare entry.1 target).isLT)
      (BlockIter.Stands index ((BlockBuilder.empty 1).addAll index).finish)
      (fun number iter standing => ∃ block, blocks[number]? = some block ∧
        BlockIter.Stands block (options.blockOf block).finish iter standing) := by
  have trans := lawful.trans
  have blockAt : ∀ {number : Nat} {entry}, index[number]? = some entry →
      ∃ block, blocks[number]? = some block := by
    intro number entry found
    have inside := (List.getElem?_eq_some_iff.mp found).1
    exact ⟨_, List.getElem?_eq_getElem (tableFile.complete ▸ inside)⟩
  constructor
  case sameLength => exact tableFile.complete.symm
  case index =>
    rw [Table.levels, sameOptions]
    exact BlockIter.walks (tableFile.index_ascending lawful)
  case data =>
    intro number block found
    have blockAscending : KeysAscend options.comparator.compare block :=
      (List.pairwise_flatten.mp ascending).1 block (List.mem_of_getElem? found)
    have only : (fun iter standing => ∃ block, blocks[number]? = some block ∧
        BlockIter.Stands block (options.blockOf block).finish iter standing) =
          BlockIter.Stands block (options.blockOf block).finish := by
      funext iter standing
      simp [found]
    rw [Table.levels, sameOptions, only]
    exact BlockIter.walks blockAscending
  case opens =>
    intro number entry found
    obtain ⟨block, foundBlock⟩ := blockAt found
    have sized := tableFile.dataBlocks.sized block (List.mem_of_getElem? foundBlock)
    refine ⟨block, foundBlock, ?_⟩
    change BlockIter.Stands block _ (table.blockReader readOptions entry.2) none
    rw [tableFile.blockReader_eq small sameOptions sameFile readOptions found foundBlock]
    exact BlockIter.ofContents_stands sized
  case distinct =>
    intro number other entry otherEntry found foundOther same
    obtain ⟨handle, foundHandle, encoded⟩ := tableFile.indexes.value found
    obtain ⟨otherHandle, foundOtherHandle, otherEncoded⟩ := tableFile.indexes.value foundOther
    have sameHandle := BlockHandle.encodeTo_injective (tableFile.handle_fits small foundHandle)
      (tableFile.handle_fits small foundOtherHandle)
      (encoded.symm.trans (same.trans otherEncoded))
    obtain ⟨inside, isHandle⟩ := List.getElem?_eq_some_iff.mp foundHandle
    obtain ⟨otherInside, isOther⟩ := List.getElem?_eq_some_iff.mp foundOtherHandle
    have offsets := List.pairwise_iff_getElem.mp tableFile.dataBlocks.ascending
    rcases Nat.lt_trichotomy number other with less | rfl | more
    · have order := offsets number other inside otherInside less
      rw [isHandle, isOther, sameHandle] at order
      exact absurd order (Nat.lt_irrefl _)
    · rfl
    · have order := offsets other number otherInside inside more
      rw [isHandle, isOther, sameHandle] at order
      exact absurd order (Nat.lt_irrefl _)
  case upTo =>
    intro number entry block inner sought found foundBlock member isBelow
    have below := tableFile.indexes.upTo found foundBlock member
    rw [Ordering.isLT_iff_eq_lt] at isBelow ⊢
    exact Std.TransCmp.lt_of_isLE_of_lt below isBelow
  case beyond =>
    intro number later entry block inner sought found less foundBlock member notBelow
    have above := tableFile.indexes.beyond found less foundBlock member
    apply Bool.eq_false_iff.mpr
    intro isBelow
    rw [Ordering.isLT_iff_eq_lt] at isBelow
    rw [Std.TransCmp.lt_trans above isBelow] at notBelow
    cases notBelow

/-- The footer at the end of the file is found, and through it the index. -/
theorem openTable_ok (tableFile : TableFile options file index handles blocks footer)
    (small : file.length < 2 ^ 64) :
    ∃ table, Table.openTable options (.ofBytes file) file.length = .ok table ∧
      table.options = options ∧ table.file = .ofBytes file ∧
      table.indexBlock = ((BlockBuilder.empty 1).addAll index).finish := by
  obtain ⟨front, ends⟩ := tableFile.ends
  have metaindexInside := tableFile.metaindexInside
  have indexInside := tableFile.indexInside
  have length : file.length = front.length + Footer.kEncodedLength := by
    rw [ends, List.length_append, Footer.encodeTo_length]
  have footerInput : RandomAccessFile.ofBytes file (file.length - Footer.kEncodedLength)
      Footer.kEncodedLength = .ok footer.encodeTo := by
    rw [RandomAccessFile.ofBytes, length, Nat.add_sub_cancel, ends, List.drop_left,
      List.take_of_length_le footer.encodeTo_length.le]
  have decoded := @Footer.decodeFrom_encodeTo footer ⟨by omega, by omega⟩ ⟨by omega, by omega⟩
  have read := readBlock_of_stored tableFile.indexStored (Table.paranoid options)
  refine
    ⟨{ options := options
       file := .ofBytes file
       filter := Table.readMeta options (.ofBytes file) footer
       metaindexHandle := footer.metaindexHandle
       indexBlock := ((BlockBuilder.empty 1).addAll index).finish }, ?_, rfl, rfl, rfl⟩
  rw [Table.openTable, if_neg (by omega), footerInput]
  dsimp only
  rw [decoded]
  dsimp only
  rw [read]

/-- The file opens as a table that walks over the entries of the blocks. -/
theorem walks (tableFile : TableFile options file index handles blocks footer)
    (small : file.length < 2 ^ 64) (lawful : options.comparator.Lawful)
    (ascending : KeysAscend options.comparator.compare blocks.flatten) :
    ∃ table, Table.openTable options (.ofBytes file) file.length = .ok table ∧
      BlockIter.status (BlockIter.ofContents table.indexBlock) = none ∧
      ∀ readOptions, ∃ stands,
        Cursor.Walks (table.cursor readOptions) blocks.flatten
          (fun target entry => (options.comparator.compare entry.1 target).isLT) stands ∧
        stands table.newIterator none := by
  obtain ⟨table, opened, sameOptions, sameFile, indexBlock⟩ := tableFile.openTable_ok small
  have starts := @BlockIter.ofContents_stands _ 1 tableFile.indexSized
  refine ⟨table, opened, ?_, ?_⟩
  · rw [indexBlock]
    exact starts.status
  · intro readOptions
    have spans := tableFile.spans small lawful ascending sameOptions sameFile readOptions
    refine ⟨_, spans.walks ?_, rfl, none, ?_⟩
    · rw [indexBlock]
      exact Nat.succ_lt_succ (Nat.lt_succ_of_lt (BlockBuilder.length_lt_finish 1 index))
    · rw [Table.newIterator, TwoLevelIterator.newIterator, indexBlock]
      exact starts

end TableFile

/-- What was added to a table comes back from its file, in any order of moves, if the builder
met no error. -/
theorem Table.round_trip (options : TableOptions) (lawful : options.comparator.Lawful)
    (lossless : options.port.Lossless) (outcomes : List WriteOutcome)
    (entries : List (Slice × Slice)) (ascending : KeysAscend options.comparator.compare entries)
    (fits : (TableBuilder.new options ⟨[], outcomes⟩).Fits entries)
    (done : ((TableBuilder.new options ⟨[], outcomes⟩).addAll entries).finish.status = none)
    (small : ((TableBuilder.new options ⟨[], outcomes⟩).addAll
      entries).finish.file.contents.length < 2 ^ 64) :
    ∃ table,
      Table.openTable options
          (.ofBytes ((TableBuilder.new options ⟨[], outcomes⟩).addAll entries).finish.file.contents)
          ((TableBuilder.new options ⟨[], outcomes⟩).addAll entries).finish.file.contents.length =
        .ok table ∧
      ∀ readOptions moves,
        (table.cursor readOptions).shows moves table.newIterator =
          (Cursor.onList entries fun target entry =>
            (options.comparator.compare entry.1 target).isLT).shows moves none := by
  obtain ⟨index, handles, blocks, footer, tableFile, rfl, -⟩ :=
    TableBuilder.finish_tableFile lawful lossless outcomes ascending fits done
  obtain ⟨table, opened, -, walks⟩ := tableFile.walks small lawful ascending
  refine ⟨table, opened, ?_⟩
  intro readOptions moves
  obtain ⟨stands, walks, start⟩ := walks readOptions
  exact walks.shows start moves

/-- Blocks of one entry each, without a filter. -/
def Table.smallBlocks : TableOptions where
  comparator := bytewiseComparator
  blockSize := 1
  blockRestartInterval := 2
  compression := .kSnappyCompression
  zstdCompressionLevel := 1
  filterPolicy := none
  paranoidChecks := true
  port := .unsupported

theorem Table.round_trip_small_blocks :
    ∃ table,
      Table.openTable Table.smallBlocks
          (.ofBytes ((TableBuilder.new Table.smallBlocks ⟨[], [.done]⟩).addAll
            [([1], [7]), ([3], [9])]).finish.file.contents)
          ((TableBuilder.new Table.smallBlocks ⟨[], [.done]⟩).addAll
            [([1], [7]), ([3], [9])]).finish.file.contents.length =
        .ok table ∧
      ∀ readOptions moves,
        (table.cursor readOptions).shows moves table.newIterator =
          (Cursor.onList [([1], [7]), ([3], [9])] fun target entry =>
            (Table.smallBlocks.comparator.compare entry.1 target).isLT).shows moves none :=
  Table.round_trip Table.smallBlocks bytewiseComparator_lawful Port.unsupported_lossless [.done]
    [([1], [7]), ([3], [9])]
    (List.pairwise_pair.mpr (by decide : Slice.compare [1] [3] = .lt))
    ⟨by decide, by decide, by change _ < 2 ^ 32; decide +kernel⟩ (by decide +kernel)
    (by decide +kernel)

end AhaTree
