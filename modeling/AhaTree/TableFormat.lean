import AhaTree.Crc32c

/-!
# The format of a table file

The model of `format.cc`.  A block is found by its handle, and behind it stand
its compression type and a checksum over both.  The footer at the end of the
file has a fixed length; it holds the handles of the metaindex block and of the
index block.
-/

namespace AhaTree

open Coding
open Lib (Decodes)

namespace Table

/-- What a status other than OK says. -/
inductive Error where
  | ioError (message : String)
  | corruption (message : String)
  deriving DecidableEq, Repr

end Table

/-- The offset and the number of bytes that are asked for; at the end of the file there may be
fewer. -/
abbrev RandomAccessFile := Nat → Nat → Except Table.Error Slice

/-- A file that can be read without errors. -/
def RandomAccessFile.ofBytes (bytes : Slice) : RandomAccessFile :=
  fun offset count => .ok ((bytes.drop offset).take count)

/-! ## Compression -/

inductive CompressionType where
  | kNoCompression
  | kSnappyCompression
  | kZstdCompression
  deriving DecidableEq, Repr

def CompressionType.code : CompressionType → Byte
  | kNoCompression => 0
  | kSnappyCompression => 1
  | kZstdCompression => 2

/-- The compression libraries behind `port.h`; what is not supported never succeeds. -/
structure Port where
  snappyCompress : Slice → Option Slice
  snappyUncompressedLength : Slice → Option Nat
  snappyUncompress : Slice → Option Slice
  zstdCompress : Nat → Slice → Option Slice
  zstdUncompressedLength : Slice → Option Nat
  zstdUncompress : Slice → Option Slice

/-- Compressed bytes uncompress to what they were made from. -/
structure Port.Lossless (port : Port) : Prop where
  snappyLength : ∀ {raw compressed}, port.snappyCompress raw = some compressed →
    port.snappyUncompressedLength compressed = some raw.length
  snappy : ∀ {raw compressed}, port.snappyCompress raw = some compressed →
    port.snappyUncompress compressed = some raw
  zstdLength : ∀ {level raw compressed}, raw ≠ [] → port.zstdCompress level raw = some compressed →
    port.zstdUncompressedLength compressed = some raw.length
  zstd : ∀ {level raw compressed}, port.zstdCompress level raw = some compressed →
    port.zstdUncompress compressed = some raw

/-- A port without the libraries. -/
def Port.unsupported : Port where
  snappyCompress _ := none
  snappyUncompressedLength _ := none
  snappyUncompress _ := none
  zstdCompress _ _ := none
  zstdUncompressedLength _ := none
  zstdUncompress _ := none

theorem Port.unsupported_lossless : Port.unsupported.Lossless where
  snappyLength := by rintro _ _ ⟨⟩
  snappy := by rintro _ _ ⟨⟩
  zstdLength := by rintro _ _ _ _ ⟨⟩
  zstd := by rintro _ _ _ ⟨⟩

/-! ## Handles and the footer -/

structure BlockHandle where
  offset : Nat
  size : Nat
  deriving DecidableEq, Repr

namespace BlockHandle

def kMaxEncodedLength : Nat := 10 + 10

def encodeTo (handle : BlockHandle) : Slice :=
  encodeVarint64 handle.offset ++ encodeVarint64 handle.size

def decodeFrom (input : Slice) : Except Table.Error (BlockHandle × Slice) :=
  match getVarint64 input with
  | none => .error (.corruption "bad block handle")
  | some (offset, rest) =>
      match getVarint64 rest with
      | none => .error (.corruption "bad block handle")
      | some (size, rest) => .ok (⟨offset, size⟩, rest)

/-- Both numbers have 64 bits. -/
def Fits (handle : BlockHandle) : Prop := handle.offset < 2 ^ 64 ∧ handle.size < 2 ^ 64

theorem decodeFrom_encodeTo {handle : BlockHandle} (fits : handle.Fits) (rest : Slice) :
    decodeFrom (handle.encodeTo ++ rest) = .ok (handle, rest) := by
  rw [encodeTo, List.append_assoc, decodeFrom, getVarint64_decodes handle.offset fits.1]
  dsimp only
  rw [getVarint64_decodes handle.size fits.2]

theorem encodeTo_injective {left right : BlockHandle} (leftFits : left.Fits)
    (rightFits : right.Fits) (same : left.encodeTo = right.encodeTo) : left = right := by
  have first := decodeFrom_encodeTo leftFits []
  rw [same, decodeFrom_encodeTo rightFits] at first
  cases first
  rfl

end BlockHandle

def kTableMagicNumber : Nat := 0xdb4775248b80fb57

def kBlockTrailerSize : Nat := 5

structure Footer where
  metaindexHandle : BlockHandle
  indexHandle : BlockHandle
  deriving DecidableEq, Repr

namespace Footer

def kEncodedLength : Nat := 2 * BlockHandle.kMaxEncodedLength + 8

/-- The handles are padded with zeros; a longer encoding would be cut off. -/
def encodeTo (footer : Footer) : Slice :=
  let handles := footer.metaindexHandle.encodeTo ++ footer.indexHandle.encodeTo
  (handles ++ List.replicate (2 * BlockHandle.kMaxEncodedLength - handles.length) 0).take
      (2 * BlockHandle.kMaxEncodedLength) ++
    (encodeFixed 4 (kTableMagicNumber % 2 ^ 32) ++ encodeFixed 4 (kTableMagicNumber >>> 32))

def decodeFrom (input : Slice) : Except Table.Error Footer :=
  if input.length < kEncodedLength then
    .error (.corruption "not an sstable (footer too short)")
  else
    let magicLo := decodeFixed32At input (kEncodedLength - 8)
    let magicHi := decodeFixed32At input (kEncodedLength - 8 + 4)
    if (magicHi <<< 32 ||| magicLo) ≠ kTableMagicNumber then
      .error (.corruption "not an sstable (bad magic number)")
    else
      match BlockHandle.decodeFrom input with
      | .error error => .error error
      | .ok (metaindexHandle, rest) =>
          match BlockHandle.decodeFrom rest with
          | .error error => .error error
          | .ok (indexHandle, _) => .ok ⟨metaindexHandle, indexHandle⟩

end Footer

/-! ## Blocks -/

structure ReadOptions where
  verifyChecksums : Bool
  deriving DecidableEq, Repr

/-- What stands behind the contents of a block; the checksum is extended over the type. -/
def blockTrailer (type : CompressionType) (contents : Slice) : Slice :=
  let crc := Crc32c.extend 0 (Crc32c.value 0 contents) [type.code]
  type.code :: encodeFixed 4 (Crc32c.mask crc)

def Port.uncompress (port : Port) (type : Byte) (data : Slice) : Except Table.Error Slice :=
  if type = CompressionType.kNoCompression.code then .ok data
  else if type = CompressionType.kSnappyCompression.code then
    match port.snappyUncompressedLength data with
    | none => .error (.corruption "corrupted snappy compressed block length")
    | some _ =>
        match port.snappyUncompress data with
        | none => .error (.corruption "corrupted snappy compressed block contents")
        | some uncompressed => .ok uncompressed
  else if type = CompressionType.kZstdCompression.code then
    match port.zstdUncompressedLength data with
    | none => .error (.corruption "corrupted zstd compressed block length")
    | some _ =>
        match port.zstdUncompress data with
        | none => .error (.corruption "corrupted zstd compressed block contents")
        | some uncompressed => .ok uncompressed
  else .error (.corruption "bad block type")

def readBlock (port : Port) (file : RandomAccessFile) (options : ReadOptions)
    (handle : BlockHandle) : Except Table.Error Slice :=
  match file handle.offset (handle.size + kBlockTrailerSize) with
  | .error error => .error error
  | .ok contents =>
      let n := handle.size
      if contents.length ≠ n + kBlockTrailerSize then .error (.corruption "truncated block read")
      else if options.verifyChecksums = true ∧
          Crc32c.value 0 (contents.take (n + 1)) ≠
            Crc32c.unmask (decodeFixed32At contents (n + 1)) then
        .error (.corruption "block checksum mismatch")
      else port.uncompress (contents.getD n 0) (contents.take n)

/-! ## Reading what was written -/

/-- The checksum as it is written. -/
def checksumOf (message : Slice) : Slice := encodeFixed 4 (Crc32c.mask (Crc32c.value 0 message))

theorem decodeFixed_checksumOf (message : Slice) :
    decodeFixed (checksumOf message) = Crc32c.mask (Crc32c.value 0 message) := by
  rw [checksumOf, decodeFixed_encodeFixed]
  exact Nat.mod_eq_of_lt (Nat.mod_lt _ (by decide))

theorem blockTrailer_eq (type : CompressionType) (contents : Slice) :
    blockTrailer type contents =
      [type.code] ++ checksumOf (contents ++ [type.code]) := by
  rw [blockTrailer, Crc32c.extend_value 0]
  rfl

theorem blockTrailer_length (type : CompressionType) (contents : Slice) :
    (blockTrailer type contents).length = kBlockTrailerSize := by
  rw [blockTrailer_eq, List.length_append, checksumOf, encodeFixed_length]
  rfl

/-- The checks that are made on a block that is read whole. -/
theorem readBlock_whole (port : Port) (options : ReadOptions) {front message checksum back : Slice}
    {size : Nat} (messageLength : message.length = size + 1)
    (checksumLength : checksum.length = 4) :
    readBlock port (.ofBytes (front ++ (message ++ (checksum ++ back)))) options
        ⟨front.length, size⟩ =
      if options.verifyChecksums = true ∧
          Crc32c.value 0 message ≠ Crc32c.unmask (decodeFixed checksum) then
        .error (.corruption "block checksum mismatch")
      else port.uncompress (message.getD size 0) (message.take size) := by
  have read : RandomAccessFile.ofBytes (front ++ (message ++ (checksum ++ back))) front.length
      (size + kBlockTrailerSize) = .ok (message ++ checksum) := by
    rw [RandomAccessFile.ofBytes, List.drop_left, ← List.append_assoc, List.take_left']
    rw [List.length_append, messageLength, checksumLength, kBlockTrailerSize]
  have whole : (message ++ checksum).length = size + kBlockTrailerSize := by
    rw [List.length_append, messageLength, checksumLength, kBlockTrailerSize]
  have first : (message ++ checksum).take (size + 1) = message := List.take_left' messageLength
  have second : decodeFixed32At (message ++ checksum) (size + 1) = decodeFixed checksum := by
    rw [decodeFixed32At_append messageLength.symm, List.take_of_length_le checksumLength.le]
  have type : (message ++ checksum).getD size 0 = message.getD size 0 :=
    List.getD_append _ _ _ _ (by omega)
  have contents : (message ++ checksum).take size = message.take size :=
    List.take_append_of_le_length (by omega)
  rw [readBlock]
  dsimp only
  rw [read]
  dsimp only
  rw [if_neg (not_not.mpr whole), first, second, type, contents]

/-- A block of the file, and what it uncompresses to. -/
def Stored (port : Port) (file : Slice) (handle : BlockHandle) (raw : Slice) : Prop :=
  ∃ front type stored back, file = front ++ (stored ++ (blockTrailer type stored ++ back)) ∧
    front.length = handle.offset ∧ stored.length = handle.size ∧
    port.uncompress type.code stored = .ok raw

theorem Stored.append {port : Port} {file raw : Slice} {handle : BlockHandle}
    (stored : Stored port file handle raw) (more : Slice) :
    Stored port (file ++ more) handle raw := by
  obtain ⟨front, type, contents, back, rfl, start, size, uncompressed⟩ := stored
  refine ⟨front, type, contents, back ++ more, ?_, start, size, uncompressed⟩
  simp only [List.append_assoc]

theorem readBlock_of_stored {port : Port} {file raw : Slice} {handle : BlockHandle}
    (stored : Stored port file handle raw) (options : ReadOptions) :
    readBlock port (.ofBytes file) options handle = .ok raw := by
  obtain ⟨front, type, contents, back, rfl, start, size, uncompressed⟩ := stored
  obtain ⟨offset, count⟩ := handle
  dsimp only at start size
  subst start size
  have whole := @readBlock_whole port options front (contents ++ [type.code])
    (checksumOf (contents ++ [type.code])) back contents.length
    (by simp) (encodeFixed_length 4 _)
  have valid : Crc32c.unmask (decodeFixed (checksumOf (contents ++ [type.code]))) =
      Crc32c.value 0 (contents ++ [type.code]) := by
    rw [decodeFixed_checksumOf, Crc32c.unmask_mask (Crc32c.value_lt 0 _)]
  rw [valid, if_neg (fun mismatch => mismatch.2 rfl),
    List.getD_append_right _ _ _ _ (Nat.le_refl _),
    Nat.sub_self, List.take_left] at whole
  rw [blockTrailer_eq]
  simp only [List.append_assoc] at whole ⊢
  exact whole.trans uncompressed

/-! ## Damaged blocks -/

/-- A burst hit the contents and the type, or any bits of the checksum changed. -/
inductive Damage (type : CompressionType) (contents : Slice) : Slice → Slice → Prop where
  | message {message : Slice} (burst : Crc32c.Burst (contents ++ [type.code]) message) :
      Damage type contents message (checksumOf (contents ++ [type.code]))
  | checksum {checksum : Slice} (sameLength : checksum.length = 4)
      (differ : checksum ≠ checksumOf (contents ++ [type.code])) :
      Damage type contents (contents ++ [type.code]) checksum

theorem Damage.mismatch {type : CompressionType} {contents message checksum : Slice}
    (damage : Damage type contents message checksum) :
    message.length = contents.length + 1 ∧ checksum.length = 4 ∧
      Crc32c.value 0 message ≠ Crc32c.unmask (decodeFixed checksum) := by
  have small : Crc32c.mask (Crc32c.value 0 (contents ++ [type.code])) < 2 ^ 32 :=
    Nat.mod_lt _ (by decide)
  have written := decodeFixed_checksumOf (contents ++ [type.code])
  have valid := Crc32c.unmask_mask (Crc32c.value_lt 0 (contents ++ [type.code]))
  cases damage with
  | message burst =>
      refine ⟨by simp [← burst.sameLength], encodeFixed_length 4 _, ?_⟩
      rw [written, valid]
      exact (Crc32c.value_ne_of_burst burst 0 0).symm
  | checksum sameLength differ =>
      refine ⟨by simp, sameLength, ?_⟩
      intro same
      have bounded := Crc32c.decodeFixed_lt checksum
      rw [sameLength] at bounded
      apply differ
      apply Crc32c.decodeFixed_injective (by rw [sameLength, checksumOf, encodeFixed_length])
      rw [written]
      apply Crc32c.unmask_injective bounded small
      rw [valid, same]

/-- A damaged block is not read when checksums are verified. -/
theorem readBlock_damaged (port : Port) {type : CompressionType}
    {contents message checksum : Slice} (damage : Damage type contents message checksum)
    (front back : Slice) :
    readBlock port (.ofBytes (front ++ (message ++ (checksum ++ back)))) ⟨true⟩
        ⟨front.length, contents.length⟩ =
      .error (.corruption "block checksum mismatch") := by
  obtain ⟨messageLength, checksumLength, mismatch⟩ := damage.mismatch
  rw [readBlock_whole port ⟨true⟩ messageLength checksumLength, if_pos ⟨rfl, mismatch⟩]

theorem readBlock_damaged_bytes :
    readBlock .unsupported
        (.ofBytes ([8] ++ (([1] ++ ([5, 6] ++ [0])) ++
          (checksumOf ([1] ++ ([2, 3] ++ [0])) ++ [9])))) ⟨true⟩
        ⟨1, 3⟩ =
      .error (.corruption "block checksum mismatch") :=
  readBlock_damaged .unsupported (@Damage.message .kNoCompression [1, 2, 3] _
    (@Crc32c.Burst.of_bytes [2, 3] [5, 6] [1] [0] rfl (by decide) (by decide))) [8] [9]

/-! ## The footer -/

theorem encodeVarintLoop_length (rounds number : Nat) :
    (encodeVarintLoop rounds number).length ≤ rounds + 1 := by
  induction rounds generalizing number with
  | zero => exact Nat.le_refl _
  | succ rounds ih =>
      rw [encodeVarintLoop]
      split
      · exact Nat.succ_le_succ (ih _)
      · exact Nat.succ_le_succ (Nat.zero_le _)

theorem BlockHandle.encodeTo_length (handle : BlockHandle) :
    handle.encodeTo.length ≤ kMaxEncodedLength := by
  have first := encodeVarintLoop_length 9 handle.offset
  have second := encodeVarintLoop_length 9 handle.size
  rw [encodeTo, List.length_append, encodeVarint64, encodeVarint64, kMaxEncodedLength]
  omega

namespace Footer

theorem encodeTo_eq (footer : Footer) :
    ∃ padding, footer.encodeTo =
        (footer.metaindexHandle.encodeTo ++ (footer.indexHandle.encodeTo ++ padding)) ++
          (encodeFixed 4 (kTableMagicNumber % 2 ^ 32) ++
            encodeFixed 4 (kTableMagicNumber >>> 32)) ∧
      (footer.metaindexHandle.encodeTo ++ (footer.indexHandle.encodeTo ++ padding)).length =
        2 * BlockHandle.kMaxEncodedLength := by
  have metaindexFits := footer.metaindexHandle.encodeTo_length
  have indexFits := footer.indexHandle.encodeTo_length
  refine ⟨List.replicate (2 * BlockHandle.kMaxEncodedLength -
    (footer.metaindexHandle.encodeTo ++ footer.indexHandle.encodeTo).length) 0, ?_, ?_⟩
  · rw [encodeTo, List.take_of_length_le]
    · simp only [List.append_assoc]
    · rw [List.length_append, List.length_replicate, List.length_append]
      omega
  · rw [List.length_append, List.length_append, List.length_replicate, List.length_append]
    omega

theorem encodeTo_length (footer : Footer) : footer.encodeTo.length = kEncodedLength := by
  obtain ⟨padding, whole, length⟩ := footer.encodeTo_eq
  rw [whole, List.length_append, length, List.length_append, encodeFixed_length,
    encodeFixed_length]
  rfl

theorem decodeFrom_encodeTo {footer : Footer} (metaindexFits : footer.metaindexHandle.Fits)
    (indexFits : footer.indexHandle.Fits) : decodeFrom footer.encodeTo = .ok footer := by
  obtain ⟨padding, whole, length⟩ := footer.encodeTo_eq
  have magicLo : decodeFixed32At footer.encodeTo (kEncodedLength - 8) =
      kTableMagicNumber % 2 ^ 32 := by
    rw [whole, decodeFixed32At_append (by rw [length]; rfl),
      decodeFixed_take_encodeFixed (by decide)]
  have magicHi : decodeFixed32At footer.encodeTo (kEncodedLength - 8 + 4) =
      kTableMagicNumber >>> 32 := by
    rw [whole, ← List.append_assoc, ← List.append_nil (encodeFixed 4 (kTableMagicNumber >>> 32)),
      decodeFixed32At_append (by rw [List.length_append, length, encodeFixed_length]; rfl),
      decodeFixed_take_encodeFixed (by decide)]
  rw [decodeFrom, if_neg (by rw [encodeTo_length]; exact Nat.lt_irrefl _)]
  dsimp only
  rw [magicLo, magicHi, if_neg (by decide), whole, List.append_assoc,
    BlockHandle.decodeFrom_encodeTo metaindexFits]
  dsimp only
  rw [List.append_assoc, BlockHandle.decodeFrom_encodeTo indexFits]

end Footer

end AhaTree
