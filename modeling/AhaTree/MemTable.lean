import AhaTree.Coding
import AhaTree.Comparators
import AhaTree.SkipList
import AhaTree.Lib.Newest
import Mathlib.Data.List.Find

/-!
# The memtable

The model of `memtable.cc`.  The keys of the skip list are pointers to entries,
each an internal key and a value behind their lengths.  A pointer is modelled by
the bytes from there to the end of the entry.  The heights of the new nodes are
random.
-/

namespace AhaTree

open Coding
open Lib (Cursor)
open SkipList (Shape insertKey keyIsAfterNode)

namespace MemTable

/-- `GetLengthPrefixedSlice` of `memtable.cc`, and the bytes behind; it assumes that the
length is not corrupted. -/
def lengthPrefixedSlice (data : Slice) : Slice × Slice :=
  match getVarint32 data with
  | some (length, rest) => (rest.take length, rest.drop length)
  | none => ([], [])

def keyComparator (left right : Slice) : Ordering :=
  compareInternalKey (lengthPrefixedSlice left).1 (lengthPrefixedSlice right).1

instance : Std.TransCmp keyComparator where
  eq_swap := @fun _ _ => @Std.OrientedCmp.eq_swap _ compareInternalKey _ _ _
  isLE_trans := @fun _ _ _ lower upper =>
    @Std.TransCmp.isLE_trans _ compareInternalKey _ _ _ _ lower upper

def encodeKey (target : Slice) : Slice := encodeVarint32 target.length ++ target

end MemTable

/-- The arena is left out, except for the entries in it. -/
structure MemTable where
  table : SkipList Slice
  entryNum : Nat

namespace MemTable

def new : MemTable := ⟨SkipList.new [], 0⟩

variable (mem : MemTable)

/-- The buffer that `Add` fills. -/
def buffer (sequence : Nat) (type : ValueType) (key value : Slice) : Slice :=
  encodeVarint32 (key.length + 8) ++
    (key ++ (encodeFixed 8 (sequence <<< 8 ||| type.code) ++
      (encodeVarint32 value.length ++ value)))

def add (sequence : Nat) (type : ValueType) (key value : Slice) (height : Nat) : MemTable where
  table := mem.table.insert keyComparator (buffer sequence type key value) height
  entryNum := mem.entryNum + 1

/-- The seek of `EncodeKey` is right for keys whose length has 32 bits. -/
abbrev Target := { target : Slice // target.length < 2 ^ 32 }

def readEntry (data : Slice) : Slice × Slice :=
  let (key, rest) := lengthPrefixedSlice data
  (key, (lengthPrefixedSlice rest).1)

/-- `MemTableIterator`. -/
def iterator : Cursor (Option Nat) (Slice × Slice) Target :=
  (mem.table.cursor keyComparator).mapped readEntry fun target => encodeKey target.1

/-- `LookupKey::memtable_key`. -/
def memtableKey (userKey : Slice) (sequence : Nat) : Slice :=
  encodeVarint32 (userKey.length + 8) ++
    (userKey ++ encodeFixed 8 (InternalKey.mk userKey sequence kValueTypeForSeek).pack)

/-- What `Get` makes of the entry that the seek has come to. -/
def readFound (userKey data : Slice) : Option (Option Slice) :=
  let (key, rest) := lengthPrefixedSlice data
  if Slice.compare (extractUserKey key) userKey = .eq then
    match decodeTrailer key &&& 0xff with
    | 1 => some (some (lengthPrefixedSlice rest).1)
    | 0 => some none
    | _ => none
  else none

/-- The answer is a value, a mark of deletion, or nothing. -/
def get (userKey : Slice) (sequence : Nat) : Option (Option Slice) :=
  (mem.table.findGreaterOrEqual keyComparator (memtableKey userKey sequence)).bind fun node =>
    readFound userKey (mem.table.key node)

/-! ## Entries -/

end MemTable

namespace Entry

/-- The key and the value have lengths of 32 bits, and the number fits. -/
structure Fits (entry : Entry) : Prop where
  sequence : entry.key.sequence ≤ kMaxSequenceNumber
  key : entry.key.userKey.length + 8 < 2 ^ 32
  value : entry.value.length < 2 ^ 32

instance (entry : Entry) : Decidable entry.Fits :=
  decidable_of_iff (entry.key.sequence ≤ kMaxSequenceNumber ∧
      entry.key.userKey.length + 8 < 2 ^ 32 ∧ entry.value.length < 2 ^ 32)
    ⟨fun ⟨sequence, key, value⟩ => ⟨sequence, key, value⟩,
      fun fits => ⟨fits.sequence, fits.key, fits.value⟩⟩

def buffer (entry : Entry) : Slice :=
  MemTable.buffer entry.key.sequence entry.key.type entry.key.userKey entry.value

def compare (left right : Entry) : Ordering := left.key.compare right.key

/-- A mark of deletion shows nothing. -/
def shown (entry : Entry) : Option Slice :=
  match entry.key.type with
  | .kTypeValue => some entry.value
  | .kTypeDeletion => none

end Entry

namespace InternalKey

theorem encode_length (key : InternalKey) : key.encode.length = key.userKey.length + 8 := by
  rw [encode, List.length_append, encodeFixed_length]

theorem shifted_eq_pack (key : InternalKey) : key.sequence <<< 8 ||| key.type.code = key.pack := by
  rw [← Nat.shiftLeft_add_eq_or_of_lt key.type.code_lt, Nat.shiftLeft_eq]
  rfl

theorem pack_injective : ∀ {left right : InternalKey}, left.userKey = right.userKey →
    left.pack = right.pack → left = right := by
  rintro ⟨userKey, sequence, type⟩ ⟨_, sequenceToo, typeToo⟩ rfl same
  have small := type.code_lt
  have smallToo := typeToo.code_lt
  simp only [pack] at same
  have sameSequence : sequence = sequenceToo := by omega
  have sameCode : type.code = typeToo.code := by omega
  cases type <;> cases typeToo <;> simp_all [ValueType.code]

theorem compare_ne_eq {left right : InternalKey} (differs : left ≠ right) :
    left.compare right ≠ .eq := by
  rcases Slice.compare_spec left.userKey right.userKey with
    ⟨result, -⟩ | ⟨result, same⟩ | ⟨result, -⟩
  · simp [compare, result]
  · simp only [compare, result, ne_eq, Nat.compare_eq_eq]
    exact fun samePack => differs (pack_injective same samePack.symm)
  · simp [compare, result]

end InternalKey

namespace MemTable

theorem buffer_eq (entry : Entry) :
    entry.buffer = lengthPrefixed entry.key.encode ++ lengthPrefixed entry.value := by
  rw [Entry.buffer, buffer, entry.key.shifted_eq_pack, lengthPrefixed, lengthPrefixed,
    entry.key.encode_length, InternalKey.encode]
  simp only [List.append_assoc]

theorem lengthPrefixedSlice_append {value : Slice} (fits : value.length < 2 ^ 32) (rest : Slice) :
    lengthPrefixedSlice (lengthPrefixed value ++ rest) = (value, rest) := by
  rw [lengthPrefixedSlice, lengthPrefixed, List.append_assoc,
    getVarint32_decodes value.length fits]
  simp

theorem lengthPrefixedSlice_self {value : Slice} (fits : value.length < 2 ^ 32) :
    lengthPrefixedSlice (lengthPrefixed value) = (value, []) := by
  have read := lengthPrefixedSlice_append fits []
  rwa [List.append_nil] at read

section Reading

variable {entry other : Entry} (fits : entry.Fits)
include fits

theorem lengthPrefixedSlice_buffer :
    lengthPrefixedSlice entry.buffer = (entry.key.encode, lengthPrefixed entry.value) := by
  rw [buffer_eq]
  exact lengthPrefixedSlice_append (by rw [entry.key.encode_length]; exact fits.key) _

theorem keyComparator_buffer (fitsToo : other.Fits) :
    keyComparator entry.buffer other.buffer = entry.compare other := by
  rw [keyComparator, lengthPrefixedSlice_buffer fits, lengthPrefixedSlice_buffer fitsToo]
  exact InternalKey.compareInternalKey_encode fits.sequence fitsToo.sequence

theorem keyComparator_encodeKey {target : Slice} (small : target.length < 2 ^ 32) :
    keyComparator entry.buffer (encodeKey target) = compareInternalKey entry.key.encode target := by
  have read : lengthPrefixedSlice (encodeKey target) = (target, []) :=
    lengthPrefixedSlice_self small
  rw [keyComparator, lengthPrefixedSlice_buffer fits, read]

theorem readFound_buffer (userKey : Slice) :
    readFound userKey entry.buffer =
      if entry.key.userKey = userKey then some entry.shown else none := by
  have tag : decodeTrailer entry.key.encode &&& 0xff = entry.key.type.code := by
    rw [InternalKey.decodeTrailer_encode fits.sequence, Nat.and_two_pow_sub_one_eq_mod _ 8,
      InternalKey.pack]
    have small := entry.key.type.code_lt
    omega
  rw [readFound, lengthPrefixedSlice_buffer fits]
  dsimp only
  rw [InternalKey.extractUserKey_encode, tag, lengthPrefixedSlice_self fits.value, Entry.shown]
  simp only [Slice.compare_eq_eq]
  cases entry.key.type <;> rfl

end Reading

/-! ## The entries of a memtable -/

/-- The memtable has the entries, in ascending order. -/
structure Holds (mem : MemTable) (entries : List Entry) : Prop where
  shape : ∃ levels, mem.table.Shape keyComparator levels ∧
    (levels 0).map mem.table.key = entries.map Entry.buffer
  fits : ∀ entry ∈ entries, entry.Fits
  count : mem.entryNum = entries.length

theorem new_holds : new.Holds [] where
  shape := ⟨fun _ => [], SkipList.new_shape keyComparator [], rfl⟩
  fits := by simp
  count := rfl

namespace Holds

variable {mem : MemTable} {entries : List Entry} (holds : mem.Holds entries)
include holds

theorem ascending : entries.Pairwise fun left right => left.compare right = .lt := by
  obtain ⟨levels, shape, keys⟩ := holds.shape
  have ascending : ((levels 0).map mem.table.key).Pairwise fun left right =>
      keyComparator left right = .lt := List.pairwise_map.mpr (shape.ascending 0)
  rw [keys, List.pairwise_map] at ascending
  apply ascending.imp_of_mem
  intro left right isLeft isRight less
  rwa [keyComparator_buffer (holds.fits left isLeft) (holds.fits right isRight)] at less

/-- A new entry goes to its place. -/
theorem add {entry : Entry} {height : Nat} (fits : entry.Fits)
    (allowed : 0 < height ∧ height ≤ kMaxHeight)
    (fresh : ∀ other ∈ entries, other.compare entry ≠ .eq) :
    (mem.add entry.key.sequence entry.key.type entry.key.userKey entry.value height).Holds
      (insertKey Entry.compare entry entries) := by
  obtain ⟨levels, shape, keys⟩ := holds.shape
  have freshKeys : ∀ node ∈ levels 0, keyComparator (mem.table.key node) entry.buffer ≠ .eq := by
    intro node member
    have isKey : mem.table.key node ∈ entries.map Entry.buffer :=
      keys ▸ List.mem_map_of_mem member
    obtain ⟨other, isEntry, same⟩ := List.mem_map.mp isKey
    rw [← same, keyComparator_buffer (holds.fits other isEntry) fits]
    exact fresh other isEntry
  obtain ⟨linked, shape, inserted⟩ := shape.insert allowed.1 allowed.2 freshKeys
  have perm := SkipList.insertKey_perm Entry.compare entry entries
  refine ⟨⟨linked, shape, ?_⟩, ?_, ?_⟩
  · rw [keys] at inserted
    apply inserted.trans
    apply SkipList.insertKey_map
    exact fun other member => keyComparator_buffer (holds.fits other member) fits
  · intro other member
    rcases List.mem_cons.mp (perm.mem_iff.mp member) with rfl | member
    · exact fits
    · exact holds.fits other member
  · rw [perm.length_eq, List.length_cons, ← holds.count]
    rfl

/-- The entry that a lookup comes to. -/
theorem get_eq {userKey : Slice} {sequence : Nat} (small : userKey.length + 8 < 2 ^ 32)
    (bounded : sequence ≤ kMaxSequenceNumber) :
    mem.get userKey sequence =
      (entries.find? fun entry =>
        !(entry.key.compare ⟨userKey, sequence, kValueTypeForSeek⟩).isLT).bind fun entry =>
          if entry.key.userKey = userKey then some entry.shown else none := by
  obtain ⟨levels, shape, keys⟩ := holds.shape
  have target : memtableKey userKey sequence =
      encodeKey (InternalKey.mk userKey sequence kValueTypeForSeek).encode := by
    rw [memtableKey, encodeKey, InternalKey.encode_length]
    rfl
  have order : ∀ entry ∈ entries, keyComparator entry.buffer (memtableKey userKey sequence) =
      entry.key.compare ⟨userKey, sequence, kValueTypeForSeek⟩ := by
    intro entry member
    have fits := holds.fits entry member
    rw [target, keyComparator_encodeKey fits (by rw [InternalKey.encode_length]; exact small)]
    exact InternalKey.compareInternalKey_encode fits.sequence bounded
  have same : (entries.find? fun entry =>
      !keyIsAfterNode keyComparator (memtableKey userKey sequence) entry.buffer) =
      entries.find? fun entry =>
        !(entry.key.compare ⟨userKey, sequence, kValueTypeForSeek⟩).isLT :=
    List.find?_congr fun entry member =>
      congrArg (fun order => !Ordering.isLT order) (order entry member)
  have found := mem.table.firstBehind_key
    (keyIsAfterNode keyComparator (memtableKey userKey sequence)) (levels 0)
  rw [keys, List.find?_map] at found
  rw [← same, get, shape.findGreaterOrEqual]
  cases first : entries.find? fun entry =>
      !keyIsAfterNode keyComparator (memtableKey userKey sequence) entry.buffer with
  | none =>
      have nothing := found.trans (congrArg (Option.map Entry.buffer) first)
      rw [Option.map_eq_none_iff.mp nothing]
      rfl
  | some entry =>
      have something := found.trans (congrArg (Option.map Entry.buffer) first)
      obtain ⟨node, isNode, isEntry⟩ := Option.map_eq_some_iff.mp something
      rw [isNode, Option.bind_some, Option.bind_some, isEntry]
      exact readFound_buffer (holds.fits entry (List.mem_of_find?_eq_some first)) userKey

/-- The iterator shows the internal keys and the values of the entries. -/
theorem walks : ∃ stands, Cursor.Walks mem.iterator
    (entries.map fun entry => (entry.key.encode, entry.value))
    (fun target shown => (compareInternalKey shown.1 target.1).isLT) stands ∧ stands none none := by
  obtain ⟨levels, shape, keys⟩ := holds.shape
  have shown : (entries.map fun entry => (entry.key.encode, entry.value)) =
      ((levels 0).map mem.table.key).map readEntry := by
    rw [keys, List.map_map]
    apply List.map_congr_left
    intro entry member
    have fits := holds.fits entry member
    rw [Function.comp_apply, readEntry, lengthPrefixedSlice_buffer fits]
    exact congrArg (fun read => (entry.key.encode, read.1))
      (lengthPrefixedSlice_self fits.value).symm
  refine ⟨SkipList.At (levels 0), ?_, rfl, by simp⟩
  rw [shown]
  apply Cursor.Walks.mapped shape.walks
  intro target key isKey
  rw [keys] at isKey
  obtain ⟨entry, member, rfl⟩ := List.mem_map.mp isKey
  have fits := holds.fits entry member
  rw [keyIsAfterNode, keyComparator_encodeKey fits target.2, readEntry,
    lengthPrefixedSlice_buffer fits]

end Holds

/-! ## Lookups -/

/-- What a lookup at a sequence number may see of a user key. -/
def visible (entries : List Entry) (userKey : Slice) (sequence : Nat) : Set Entry :=
  { entry | entry ∈ entries ∧ entry.userKey = userKey ∧ entry.sequence ≤ sequence }

def rank (entry : Entry) : Nat := entry.key.pack

theorem not_before_lookup_iff {entry : Entry} {userKey : Slice} {sequence : Nat}
    (same : entry.userKey = userKey) :
    entry.key.compare ⟨userKey, sequence, kValueTypeForSeek⟩ ≠ .lt ↔ entry.sequence ≤ sequence := by
  have small := entry.key.type.code_le
  rw [ne_eq, InternalKey.compare_eq_lt, not_or, not_and]
  have seekCode : kValueTypeForSeek.code = 1 := rfl
  simp only [InternalKey.pack, seekCode]
  constructor
  · rintro ⟨-, notNewer⟩
    have older := notNewer same
    change entry.key.sequence ≤ sequence
    omega
  · intro older
    change entry.key.sequence ≤ sequence at older
    refine ⟨?_, fun _ => by omega⟩
    change ¬ entry.userKey < userKey
    rw [same]
    exact lt_irrefl userKey

section Lookups

variable {entries : List Entry} {userKey : Slice} {sequence : Nat} {found : Entry}

/-- A lookup passes what comes before it, and comes to what is greater. -/
theorem find?_split
    (ascending : entries.Pairwise fun left right => left.compare right = .lt)
    (isFound : (entries.find? fun entry =>
      !(entry.key.compare ⟨userKey, sequence, kValueTypeForSeek⟩).isLT) = some found)
    {other : Entry} (seen : other ∈ visible entries userKey sequence) :
    other = found ∨ found.compare other = .lt := by
  obtain ⟨member, same, older⟩ := seen
  obtain ⟨-, front, back, whole, inFront⟩ := List.find?_eq_some_iff_append.mp isFound
  rw [whole] at ascending member
  rcases List.mem_append.mp member with isFront | isBack
  · have isBefore := inFront other isFront
    rw [Bool.not_not, Ordering.isLT_iff_eq_lt] at isBefore
    exact absurd isBefore ((not_before_lookup_iff same).mpr older)
  · rcases List.mem_cons.mp isBack with isFound | isBack
    · exact .inl isFound
    · exact .inr ((List.pairwise_cons.mp (List.pairwise_append.mp ascending).2.1).1 other isBack)

theorem find?_not_before
    (isFound : (entries.find? fun entry =>
      !(entry.key.compare ⟨userKey, sequence, kValueTypeForSeek⟩).isLT) = some found) :
    found.key.compare ⟨userKey, sequence, kValueTypeForSeek⟩ ≠ .lt := by
  have notBefore := List.find?_some isFound
  rwa [Bool.not_eq_true', ← Bool.not_eq_true, Ordering.isLT_iff_eq_lt] at notBefore

/-- Among entries in ascending order a lookup comes to the newest one that it may see. -/
theorem find?_newest (ascending : entries.Pairwise fun left right => left.compare right = .lt)
    (isFound : (entries.find? fun entry =>
      !(entry.key.compare ⟨userKey, sequence, kValueTypeForSeek⟩).isLT) = some found)
    (same : found.userKey = userKey) :
    Lib.Newest rank (visible entries userKey sequence) found := by
  refine ⟨⟨List.mem_of_find?_eq_some isFound, same, ?_⟩, ?_⟩
  · exact (not_before_lookup_iff same).mp (find?_not_before isFound)
  · intro other seen
    rcases find?_split ascending isFound seen with rfl | behind
    · exact Nat.le_refl _
    · rcases InternalKey.compare_eq_lt.mp behind with less | ⟨-, older⟩
      · change found.userKey < other.userKey at less
        rw [same, seen.2.1] at less
        exact absurd less (lt_irrefl userKey)
      · exact older.le

theorem find?_invisible
    (ascending : entries.Pairwise fun left right => left.compare right = .lt)
    (notFound : ∀ found, (entries.find? fun entry =>
      !(entry.key.compare ⟨userKey, sequence, kValueTypeForSeek⟩).isLT) = some found →
        found.userKey ≠ userKey) :
    visible entries userKey sequence = ∅ := by
  apply Set.eq_empty_iff_forall_notMem.mpr
  intro other seen
  cases first : entries.find? fun entry =>
      !(entry.key.compare ⟨userKey, sequence, kValueTypeForSeek⟩).isLT with
  | none =>
      have isBefore := List.find?_eq_none.mp first other seen.1
      rw [Bool.not_eq_true', Bool.not_eq_false, Ordering.isLT_iff_eq_lt] at isBefore
      exact (not_before_lookup_iff seen.2.1).mpr seen.2.2 isBefore
  | some found =>
      have differs := notFound found first
      rcases find?_split ascending first seen with rfl | behind
      · exact differs seen.2.1
      · rcases InternalKey.compare_eq_lt.mp behind with less | ⟨same, -⟩
        · change found.userKey < other.userKey at less
          rw [seen.2.1] at less
          exact find?_not_before first (InternalKey.compare_eq_lt.mpr (.inl less))
        · exact differs (Eq.trans same seen.2.1)

end Lookups

/-- What an answer says about the versions that a lookup may see. -/
def Answers (seen : Set Entry) : Option (Option Slice) → Prop
  | some shown => ∃ found, Lib.Newest rank seen found ∧ found.shown = shown
  | none => seen = ∅

theorem Holds.get_answers {mem : MemTable} {entries : List Entry} (holds : mem.Holds entries)
    {userKey : Slice} {sequence : Nat} (small : userKey.length + 8 < 2 ^ 32)
    (bounded : sequence ≤ kMaxSequenceNumber) :
    Answers (visible entries userKey sequence) (mem.get userKey sequence) := by
  rw [holds.get_eq small bounded]
  cases first : entries.find? fun entry =>
      !(entry.key.compare ⟨userKey, sequence, kValueTypeForSeek⟩).isLT with
  | none =>
      apply find?_invisible holds.ascending
      intro found isFound
      cases first.symm.trans isFound
  | some found =>
      rw [Option.bind_some]
      by_cases same : found.key.userKey = userKey
      · rw [if_pos same]
        exact ⟨found, find?_newest holds.ascending first same, rfl⟩
      · rw [if_neg same]
        apply find?_invisible holds.ascending
        intro other isFound
        cases first.symm.trans isFound
        exact same

/-- Calls of `Add`, each with the height of its node. -/
def addAll (mem : MemTable) (adds : List (Entry × Nat)) : MemTable :=
  adds.foldl (fun mem (entry, height) =>
    mem.add entry.key.sequence entry.key.type entry.key.userKey entry.value height) mem

theorem addAll_holds {mem : MemTable} {entries : List Entry} (holds : mem.Holds entries)
    {adds : List (Entry × Nat)} (fits : ∀ add ∈ adds, add.1.Fits)
    (heights : ∀ add ∈ adds, 0 < add.2 ∧ add.2 ≤ kMaxHeight)
    (distinct : (adds.map fun add => add.1.key).Nodup)
    (fresh : ∀ add ∈ adds, ∀ entry ∈ entries, entry.key ≠ add.1.key) :
    ∃ more, (mem.addAll adds).Holds more ∧ more.Perm (adds.map Prod.fst ++ entries) := by
  induction adds generalizing mem entries with
  | nil => exact ⟨entries, holds, List.Perm.refl _⟩
  | cons add adds ih =>
      obtain ⟨notLater, distinct⟩ := List.nodup_cons.mp distinct
      have added := holds.add (fits add List.mem_cons_self) (heights add List.mem_cons_self)
        fun other member => InternalKey.compare_ne_eq (fresh add List.mem_cons_self other member)
      have perm := SkipList.insertKey_perm Entry.compare add.1 entries
      obtain ⟨more, holds, permToo⟩ := ih added
        (fun later member => fits later (List.mem_cons_of_mem add member))
        (fun later member => heights later (List.mem_cons_of_mem add member)) distinct (by
          intro later member entry isEntry
          rcases List.mem_cons.mp (perm.mem_iff.mp isEntry) with rfl | isEntry
          · intro same
            exact notLater (List.mem_map.mpr ⟨later, member, same.symm⟩)
          · exact fresh later (List.mem_cons_of_mem add member) entry isEntry)
      refine ⟨more, holds, permToo.trans ?_⟩
      exact (List.Perm.append_left _ perm).trans List.perm_middle

/-- A lookup finds the newest version that was added and that it may see. -/
theorem get_after_adds (adds : List (Entry × Nat)) (fits : ∀ add ∈ adds, add.1.Fits)
    (heights : ∀ add ∈ adds, 0 < add.2 ∧ add.2 ≤ kMaxHeight)
    (distinct : (adds.map fun add => add.1.key).Nodup) {userKey : Slice} {sequence : Nat}
    (small : userKey.length + 8 < 2 ^ 32) (bounded : sequence ≤ kMaxSequenceNumber) :
    Answers (visible (adds.map Prod.fst) userKey sequence)
      ((new.addAll adds).get userKey sequence) := by
  obtain ⟨entries, holds, perm⟩ := addAll_holds new_holds fits heights distinct (by simp)
  rw [List.append_nil] at perm
  have same : visible entries userKey sequence = visible (adds.map Prod.fst) userKey sequence := by
    ext entry
    exact and_congr_left fun _ => perm.mem_iff
  rw [← same]
  exact holds.get_answers small bounded

theorem get_after_adds_below_deletion :
    Answers (visible [⟨⟨[1], 5, .kTypeDeletion⟩, []⟩, ⟨⟨[1], 3, .kTypeValue⟩, [7]⟩] [1] 4)
      ((new.addAll [(⟨⟨[1], 5, .kTypeDeletion⟩, []⟩, 2), (⟨⟨[1], 3, .kTypeValue⟩, [7]⟩, 1)]).get
        [1] 4) :=
  get_after_adds [(⟨⟨[1], 5, .kTypeDeletion⟩, []⟩, 2), (⟨⟨[1], 3, .kTypeValue⟩, [7]⟩, 1)]
    (by decide) (by decide) (by decide) (by decide) (by decide)

end MemTable

end AhaTree
