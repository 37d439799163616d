import AhaTree.Slice

/-!
# Internal keys and file descriptions

The model of `dbformat.h` and of `FileMetaData` in `builder.h`.  A stored key is
a user key followed by eight bytes that hold the sequence number and the value
type, least significant byte first.
Internal keys are ordered by user key, and versions of one user key by
descending trailer, so that the newest version comes first.
-/

namespace AhaTree

inductive ValueType where
  | kTypeDeletion
  | kTypeValue
  deriving DecidableEq, Repr

namespace ValueType

def code : ValueType → Nat
  | kTypeDeletion => 0
  | kTypeValue => 1

theorem code_le (type : ValueType) : type.code ≤ 1 := by
  cases type <;> simp [code]

theorem code_lt (type : ValueType) : type.code < 256 :=
  Nat.lt_of_le_of_lt type.code_le (by decide)

end ValueType

def kValueTypeForSeek : ValueType := .kTypeValue

def kMaxSequenceNumber : Nat := 2 ^ 56 - 1

/-- `EncodeFixed64` with `count = 8`. -/
def encodeFixed : Nat → Nat → Slice
  | 0, _ => []
  | count + 1, number => Fin.ofNat 256 number :: encodeFixed count (number / 256)

/-- `DecodeFixed64` on eight bytes. -/
def decodeFixed : Slice → Nat
  | [] => 0
  | byte :: bytes => byte.val + 256 * decodeFixed bytes

@[simp] theorem encodeFixed_length (count number : Nat) :
    (encodeFixed count number).length = count := by
  induction count generalizing number with
  | zero => rfl
  | succ count ih => simp [encodeFixed, ih]

theorem decodeFixed_encodeFixed (count number : Nat) :
    decodeFixed (encodeFixed count number) = number % 256 ^ count := by
  induction count generalizing number with
  | zero => simp [encodeFixed, decodeFixed, Nat.mod_one]
  | succ count ih =>
      simp only [encodeFixed, decodeFixed, ih, Fin.val_ofNat]
      rw [Nat.pow_succ', Nat.mod_mul]

theorem encodeFixed_mod (count number : Nat) :
    encodeFixed count (number % 256 ^ count) = encodeFixed count number := by
  induction count generalizing number with
  | zero => rfl
  | succ count ih =>
      have rest : number % 256 ^ (count + 1) / 256 = number / 256 % 256 ^ count := by
        rw [Nat.pow_succ', Nat.mod_mul_right_div_self]
      have first : number % 256 ^ (count + 1) % 256 = number % 256 :=
        Nat.mod_mod_of_dvd _ ⟨256 ^ count, Nat.pow_succ'⟩
      rw [encodeFixed, encodeFixed, rest, ih]
      exact congrArg (· :: _) (Fin.ext (by simpa only [Fin.val_ofNat] using first))

/-- `ExtractUserKey` on an encoded internal key. -/
def extractUserKey (key : Slice) : Slice :=
  key.take (key.length - 8)

def decodeTrailer (key : Slice) : Nat :=
  decodeFixed (key.drop (key.length - 8))

/-- `InternalKeyComparator::Compare` on encoded keys. -/
def compareInternalKey (left right : Slice) : Ordering :=
  match Slice.compare (extractUserKey left) (extractUserKey right) with
  | .eq => Ord.compare (decodeTrailer right) (decodeTrailer left)
  | result => result

@[simp] theorem compareInternalKey_self (key : Slice) :
    compareInternalKey key key = .eq := by
  have same : Slice.compare (extractUserKey key) (extractUserKey key) = .eq :=
    Slice.compare_eq_eq.mpr rfl
  simp [compareInternalKey, same]

theorem extractUserKey_le_of_compare {left right : Slice}
    (less : compareInternalKey left right = .lt) :
    extractUserKey left ≤ extractUserKey right := by
  rcases Slice.compare_spec (extractUserKey left) (extractUserKey right) with
    ⟨-, order⟩ | ⟨-, same⟩ | ⟨result, -⟩
  · exact order.le
  · exact same.le
  · simp [compareInternalKey, result] at less

/-- On keys of one length the order of the encodings never contradicts the
order of the user keys. -/
theorem extractUserKey_le_of_le {left right : Slice}
    (sameLength : left.length = right.length) (order : left ≤ right) :
    extractUserKey left ≤ extractUserKey right := by
  rw [extractUserKey, extractUserKey, sameLength]
  exact Slice.take_le_take order _

/-- A parsed internal key. -/
structure InternalKey where
  userKey : Slice
  sequence : Nat
  type : ValueType
  deriving DecidableEq, Repr

namespace InternalKey

/-- `PackSequenceAndType`. -/
def pack (key : InternalKey) : Nat :=
  key.sequence * 256 + key.type.code

/-- `AppendInternalKey`. -/
def encode (key : InternalKey) : Slice :=
  key.userKey ++ encodeFixed 8 key.pack

/-- The comparison of two parsed keys; `compareInternalKey_encode` says that it
is the comparator's result on their encodings. -/
def compare (left right : InternalKey) : Ordering :=
  match Slice.compare left.userKey right.userKey with
  | .eq => Ord.compare right.pack left.pack
  | result => result

theorem pack_lt {key : InternalKey} (bounded : key.sequence ≤ kMaxSequenceNumber) :
    key.pack < 256 ^ 8 := by
  have type := key.type.code_lt
  simp only [kMaxSequenceNumber, pack] at *
  omega

theorem pack_lt_of_sequence_lt {left right : InternalKey}
    (less : left.sequence < right.sequence) : left.pack < right.pack := by
  have type := left.type.code_lt
  simp only [pack]
  omega

@[simp] theorem extractUserKey_encode (key : InternalKey) :
    extractUserKey key.encode = key.userKey := by
  simp [extractUserKey, encode]

theorem decodeTrailer_encode {key : InternalKey}
    (bounded : key.sequence ≤ kMaxSequenceNumber) :
    decodeTrailer key.encode = key.pack := by
  have fits := pack_lt bounded
  simp only [decodeTrailer, encode, List.length_append, encodeFixed_length,
    Nat.add_sub_cancel, List.drop_left, decodeFixed_encodeFixed]
  exact Nat.mod_eq_of_lt fits

theorem compareInternalKey_encode {left right : InternalKey}
    (leftBounded : left.sequence ≤ kMaxSequenceNumber)
    (rightBounded : right.sequence ≤ kMaxSequenceNumber) :
    compareInternalKey left.encode right.encode = left.compare right := by
  simp only [compareInternalKey, compare, extractUserKey_encode,
    decodeTrailer_encode leftBounded, decodeTrailer_encode rightBounded]

theorem compare_eq_lt {left right : InternalKey} :
    left.compare right = .lt ↔
      left.userKey < right.userKey ∨
        (left.userKey = right.userKey ∧ right.pack < left.pack) := by
  rcases Slice.compare_spec left.userKey right.userKey with
    ⟨result, less⟩ | ⟨result, same⟩ | ⟨result, more⟩
  · simp [compare, result, less]
  · simp only [compare, result, compare_lt_iff_lt]
    simp [same]
  · simp [compare, result, more.not_gt, more.ne']

/-- Among the versions of one user key the newer one comes first. -/
theorem compare_lt_of_newer {older newer : InternalKey}
    (same : newer.userKey = older.userKey)
    (later : older.sequence < newer.sequence) :
    newer.compare older = .lt :=
  compare_eq_lt.mpr (.inr ⟨same, pack_lt_of_sequence_lt later⟩)

end InternalKey

/-- The description of a table file.  Its smallest key is not above its largest
one, because both were read off the same ascending iterator. -/
structure FileMetaData where
  number : Nat
  fileSize : Nat
  fileEntry : Nat
  smallest : InternalKey
  largest : InternalKey
  ordered : smallest.userKey ≤ largest.userKey
  deriving DecidableEq, Repr

namespace FileMetaData

/-- A file of one byte for each of its two ends, to write examples with. -/
def spanning (number : Nat) (start limit : Slice) (ordered : start ≤ limit) :
    FileMetaData where
  number := number
  fileSize := 2
  fileEntry := 2
  smallest := ⟨start, 1, .kTypeValue⟩
  largest := ⟨limit, 1, .kTypeValue⟩
  ordered := ordered

/-- The user key a file starts with. -/
def start (file : FileMetaData) : Slice := file.smallest.userKey

/-- The user key a file ends with. -/
def limit (file : FileMetaData) : Slice := file.largest.userKey

theorem start_le_limit (file : FileMetaData) : file.start ≤ file.limit :=
  file.ordered

/-- The user key lies in the closed range of the file. -/
def Covers (file : FileMetaData) (key : Slice) : Prop :=
  file.start ≤ key ∧ key ≤ file.limit

end FileMetaData

end AhaTree
