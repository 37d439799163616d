import AhaTree.TableFormat
import AhaTree.FilterBlock
import AhaTree.BlockIterator

/-!
# Building a table

The model of `table_builder.cc`.  Entries go to a data block until it is large
enough to be written.  The index entry of a written block waits for the first
key of the next block, so that its key may be any short one between the two.
Writing to the file may fail at any point; from then on nothing is written.
-/

namespace AhaTree

open Coding

/-- What the file does when it is written to the next time. -/
inductive WriteOutcome where
  | done
  | failed (written : Slice) (error : Table.Error)
  deriving DecidableEq, Repr

/-- Writes succeed when no outcomes are left. -/
structure WritableFile where
  contents : Slice
  outcomes : List WriteOutcome
  deriving DecidableEq, Repr

namespace WritableFile

/-- A write that fails may have written anything. -/
def append (file : WritableFile) (data : Slice) : Option Table.Error × WritableFile :=
  match file.outcomes with
  | [] => (none, { file with contents := file.contents ++ data })
  | .done :: outcomes => (none, ⟨file.contents ++ data, outcomes⟩)
  | .failed written error :: outcomes => (some error, ⟨file.contents ++ written, outcomes⟩)

def flush (file : WritableFile) : Option Table.Error × WritableFile :=
  match file.outcomes with
  | [] => (none, file)
  | .done :: outcomes => (none, ⟨file.contents, outcomes⟩)
  | .failed written error :: outcomes => (some error, ⟨file.contents ++ written, outcomes⟩)

end WritableFile

/-- The options that a table is built and read with. -/
structure TableOptions where
  comparator : Comparator
  blockSize : Nat
  blockRestartInterval : Nat
  compression : CompressionType
  zstdCompressionLevel : Nat
  filterPolicy : Option FilterPolicy
  paranoidChecks : Bool
  port : Port

/-- A handle whose fields have not been set. -/
def BlockHandle.unset : BlockHandle := ⟨2 ^ 64 - 1, 2 ^ 64 - 1⟩

/-- A status of OK is `none`. -/
structure TableBuilder where
  options : TableOptions
  file : WritableFile
  offset : Nat
  status : Option Table.Error
  dataBlock : BlockBuilder
  indexBlock : BlockBuilder
  lastKey : Slice
  numEntries : Nat
  closed : Bool
  filterBlock : Option (FilterPolicy × FilterBlockBuilder)
  pendingIndexEntry : Bool
  pendingHandle : BlockHandle

namespace TableBuilder

def new (options : TableOptions) (file : WritableFile) : TableBuilder where
  options := options
  file := file
  offset := 0
  status := none
  dataBlock := .empty options.blockRestartInterval
  indexBlock := .empty 1
  lastKey := []
  numEntries := 0
  closed := false
  filterBlock := options.filterPolicy.map fun policy =>
    (policy, FilterBlockBuilder.empty.startBlock policy 0)
  pendingIndexEntry := false
  pendingHandle := .unset

variable (builder : TableBuilder)

def ok : Bool := builder.status.isNone

/-- What `WriteBlock` stores for a block, and the type it gives it. -/
def blockContents (raw : Slice) : Slice × CompressionType :=
  let unlessSmaller := fun (compressed : Option Slice) (type : CompressionType) =>
    match compressed with
    | some bytes =>
        if bytes.length < raw.length - raw.length / 8 then (bytes, type)
        else (raw, .kNoCompression)
    | none => (raw, .kNoCompression)
  match builder.options.compression with
  | .kNoCompression => (raw, .kNoCompression)
  | .kSnappyCompression =>
      unlessSmaller (builder.options.port.snappyCompress raw) .kSnappyCompression
  | .kZstdCompression =>
      unlessSmaller (builder.options.port.zstdCompress builder.options.zstdCompressionLevel raw)
        .kZstdCompression

def writeRawBlock (blockContents : Slice) (type : CompressionType) : BlockHandle × TableBuilder :=
  let handle : BlockHandle := ⟨builder.offset, blockContents.length⟩
  let appended := builder.file.append blockContents
  if appended.1.isNone then
    let trailed := appended.2.append (blockTrailer type blockContents)
    if trailed.1.isNone then
      (handle, { builder with
        file := trailed.2
        status := none
        offset := builder.offset + (blockContents.length + kBlockTrailerSize) })
    else (handle, { builder with file := trailed.2, status := trailed.1 })
  else (handle, { builder with file := appended.2, status := appended.1 })

/-- The block is reset by the caller. -/
def writeBlock (block : BlockBuilder) : BlockHandle × TableBuilder :=
  let contents := builder.blockContents block.finish
  builder.writeRawBlock contents.1 contents.2

def flush : TableBuilder :=
  if ¬ builder.ok then builder
  else if builder.dataBlock.buffer = [] then builder
  else
    let written := builder.writeBlock builder.dataBlock
    let reset := { written.2 with
      dataBlock := .empty builder.options.blockRestartInterval
      pendingHandle := written.1 }
    let flushed :=
      if reset.ok then
        { reset with
          pendingIndexEntry := true
          status := reset.file.flush.1
          file := reset.file.flush.2 }
      else reset
    { flushed with
      filterBlock := flushed.filterBlock.map fun filter =>
        (filter.1, filter.2.startBlock filter.1 flushed.offset) }

/-- The entry of the last block that was written. -/
def addIndexEntry (key : Slice) : TableBuilder :=
  { builder with
    indexBlock := builder.indexBlock.add key builder.pendingHandle.encodeTo
    lastKey := key
    pendingIndexEntry := false }

/-- Everything in `Add` but the flush at its end. -/
def addEntry (key value : Slice) : TableBuilder :=
  let separated :=
    if builder.pendingIndexEntry then
      builder.addIndexEntry
        (builder.options.comparator.findShortestSeparator builder.lastKey key)
    else builder
  { separated with
    filterBlock := separated.filterBlock.map fun filter => (filter.1, filter.2.addKey key)
    lastKey := key
    numEntries := separated.numEntries + 1
    dataBlock := separated.dataBlock.add key value }

def add (key value : Slice) : TableBuilder :=
  if ¬ builder.ok then builder
  else
    let added := builder.addEntry key value
    if added.options.blockSize ≤ added.dataBlock.currentSizeEstimate then added.flush else added

def addAll (entries : List (Slice × Slice)) : TableBuilder :=
  entries.foldl (fun builder entry => builder.add entry.1 entry.2) builder

/-- The entry of the last block of all. -/
def closeIndex : TableBuilder :=
  if builder.pendingIndexEntry then
    builder.addIndexEntry (builder.options.comparator.findShortSuccessor builder.lastKey)
  else builder

/-- The key of the filter block in the metaindex. -/
def filterKey (policy : FilterPolicy) : Slice :=
  ("filter.".toList.map fun char => Fin.ofNat 256 char.toNat) ++ policy.name

def writeFilter : BlockHandle × TableBuilder :=
  match builder.filterBlock with
  | some (policy, filter) =>
      if builder.ok then builder.writeRawBlock (filter.finish policy) .kNoCompression
      else (.unset, builder)
  | none => (.unset, builder)

def writeMetaindex (filterBlockHandle : BlockHandle) : BlockHandle × TableBuilder :=
  if builder.ok then
    let metaIndexBlock : BlockBuilder := .empty builder.options.blockRestartInterval
    builder.writeBlock
      (match builder.filterBlock with
      | some (policy, _) => metaIndexBlock.add (filterKey policy) filterBlockHandle.encodeTo
      | none => metaIndexBlock)
  else (.unset, builder)

def writeIndex : BlockHandle × TableBuilder :=
  if builder.ok then
    let written := builder.closeIndex.writeBlock builder.closeIndex.indexBlock
    (written.1, { written.2 with indexBlock := .empty 1 })
  else (.unset, builder)

def writeFooter (metaindexHandle indexHandle : BlockHandle) : TableBuilder :=
  if builder.ok then
    let footer : Footer := ⟨metaindexHandle, indexHandle⟩
    let appended := builder.file.append footer.encodeTo
    { builder with
      status := appended.1
      file := appended.2
      offset :=
        if appended.1.isNone then builder.offset + footer.encodeTo.length else builder.offset }
  else builder

/-! `Finish`, step by step. -/

def flushed : TableBuilder := { builder.flush with closed := true }

def filtered : BlockHandle × TableBuilder := builder.flushed.writeFilter

def metaindexed : BlockHandle × TableBuilder :=
  builder.filtered.2.writeMetaindex builder.filtered.1

def indexed : BlockHandle × TableBuilder := builder.metaindexed.2.writeIndex

def finish : TableBuilder := builder.indexed.2.writeFooter builder.metaindexed.1 builder.indexed.1

/-! ## What a successful write leaves in the file -/

theorem append_ok {file : WritableFile} {data : Slice} (done : (file.append data).1 = none) :
    (file.append data).2.contents = file.contents ++ data := by
  rw [WritableFile.append] at done ⊢
  split
  · rfl
  · rfl
  · rename_i failed
    rw [failed] at done
    cases done

theorem flush_ok {file : WritableFile} (done : file.flush.1 = none) :
    file.flush.2.contents = file.contents := by
  rw [WritableFile.flush] at done ⊢
  split
  · rfl
  · rfl
  · rename_i failed
    rw [failed] at done
    cases done

variable {builder : TableBuilder}

theorem writeRawBlock_ok {contents : Slice} {type : CompressionType}
    (done : (builder.writeRawBlock contents type).2.status = none) :
    ∃ file, builder.writeRawBlock contents type =
        (⟨builder.offset, contents.length⟩, { builder with
          file := file
          status := none
          offset := builder.offset + (contents.length + kBlockTrailerSize) }) ∧
      file.contents = builder.file.contents ++ (contents ++ blockTrailer type contents) := by
  rw [writeRawBlock] at done ⊢
  dsimp only at done ⊢
  split at done
  · rename_i appended
    have first := append_ok (Option.isNone_iff_eq_none.mp appended)
    split at done
    · rename_i trailed
      have second := append_ok (Option.isNone_iff_eq_none.mp trailed)
      refine ⟨_, by rw [if_pos appended, if_pos trailed], ?_⟩
      rw [second, first, List.append_assoc]
    · rename_i failed
      exact absurd (Option.isNone_iff_eq_none.mpr done) failed
  · rename_i failed
    exact absurd (Option.isNone_iff_eq_none.mpr done) failed

theorem uncompress_blockContents (lossless : builder.options.port.Lossless) {raw : Slice}
    (some : raw ≠ []) :
    builder.options.port.uncompress (builder.blockContents raw).2.code
      (builder.blockContents raw).1 = .ok raw := by
  have plain : builder.options.port.uncompress CompressionType.kNoCompression.code raw = .ok raw :=
    if_pos rfl
  rw [blockContents]
  cases builder.options.compression with
  | kNoCompression => exact plain
  | kSnappyCompression =>
      dsimp only
      cases compressed : builder.options.port.snappyCompress raw with
      | none => exact plain
      | some bytes =>
          dsimp only
          split
          · change builder.options.port.uncompress CompressionType.kSnappyCompression.code bytes = _
            rw [Port.uncompress, if_neg (by decide), if_pos rfl, lossless.snappyLength compressed,
              lossless.snappy compressed]
          · exact plain
  | kZstdCompression =>
      dsimp only
      cases compressed : builder.options.port.zstdCompress
          builder.options.zstdCompressionLevel raw with
      | none => exact plain
      | some bytes =>
          dsimp only
          split
          · change builder.options.port.uncompress CompressionType.kZstdCompression.code bytes = _
            rw [Port.uncompress, if_neg (by decide), if_neg (by decide), if_pos rfl,
              lossless.zstdLength some compressed, lossless.zstd compressed]
          · exact plain

theorem finish_ne_nil (block : BlockBuilder) : block.finish ≠ [] := by
  intro none
  have length := @BlockBuilder.finish_length block
  rw [none, BlockBuilder.currentSizeEstimate] at length
  cases length

/-- A block that was written stands at the end of the file. -/
theorem writeBlock_ok (lossless : builder.options.port.Lossless) {block : BlockBuilder}
    (offset : builder.offset = builder.file.contents.length)
    (done : (builder.writeBlock block).2.status = none) :
    ∃ file size more, builder.writeBlock block =
        (⟨builder.offset, size⟩, { builder with
          file := file
          status := none
          offset := file.contents.length }) ∧
      file.contents = builder.file.contents ++ more ∧ size < more.length ∧
      Stored builder.options.port file.contents ⟨builder.offset, size⟩ block.finish := by
  obtain ⟨file, whole, contents⟩ := writeRawBlock_ok done
  have trailer := blockTrailer_length (builder.blockContents block.finish).2
    (builder.blockContents block.finish).1
  have grown : file.contents.length =
      builder.offset + ((builder.blockContents block.finish).1.length + kBlockTrailerSize) := by
    rw [contents, List.length_append, List.length_append, trailer, offset]
  refine ⟨file, _, _, ?_, contents, ?_, builder.file.contents, _, _, [], ?_, offset.symm, rfl,
    uncompress_blockContents lossless (finish_ne_nil block)⟩
  · rw [grown]
    exact whole
  · rw [List.length_append, trailer, kBlockTrailerSize]
    omega
  · rw [List.append_nil]
    exact contents

end TableBuilder

end AhaTree
