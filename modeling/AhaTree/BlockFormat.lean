import AhaTree.Coding
import Mathlib.Data.List.TakeDrop

/-!
# The block format

The model of `block_builder.cc`.  A block holds entries in the order in which they
were added.  An entry drops the prefix that its key shares with the key in front
of it, except at the restart points, where the whole key is stored.  The offsets
of the restart points stand behind the entries, and their number at the end.

`BlockLayout` says what the bytes of a block mean: which records they hold and
which of them are restart points.
-/

namespace AhaTree

open Coding

/-! ## Building -/

namespace BlockBuilder

/-- The loop that measures the shared prefix. -/
def sharedLength : Slice → Slice → Nat
  | left :: lefts, right :: rights =>
      if left = right then sharedLength lefts rights + 1 else 0
  | _, _ => 0

theorem sharedLength_le_left (left right : Slice) : sharedLength left right ≤ left.length := by
  induction left generalizing right with
  | nil => exact Nat.zero_le _
  | cons head lefts ih =>
      cases right with
      | nil => exact Nat.zero_le _
      | cons other rights =>
          rw [sharedLength]
          split
          · exact Nat.succ_le_succ (ih rights)
          · exact Nat.zero_le _

theorem sharedLength_le_right (left right : Slice) :
    sharedLength left right ≤ right.length := by
  induction left generalizing right with
  | nil => exact Nat.zero_le _
  | cons head lefts ih =>
      cases right with
      | nil => exact Nat.zero_le _
      | cons other rights =>
          rw [sharedLength]
          split
          · exact Nat.succ_le_succ (ih rights)
          · exact Nat.zero_le _

theorem take_sharedLength (left right : Slice) :
    left.take (sharedLength left right) = right.take (sharedLength left right) := by
  induction left generalizing right with
  | nil => simp [sharedLength]
  | cons head lefts ih =>
      cases right with
      | nil => simp [sharedLength]
      | cons other rights =>
          rw [sharedLength]
          by_cases same : head = other
          · rw [if_pos same, List.take_succ_cons, List.take_succ_cons, ih, same]
          · rw [if_neg same, List.take_zero, List.take_zero]

end BlockBuilder

/-- What `Add` appends: an entry that leaves out the first `shared` bytes of its key. -/
def encodeEntry (shared : Nat) (key value : Slice) : Slice :=
  encodeVarint32 shared ++ (encodeVarint32 (key.length - shared) ++
    (encodeVarint32 value.length ++ (key.drop shared ++ value)))

structure BlockBuilder where
  blockRestartInterval : Nat
  buffer : Slice
  restarts : List Nat
  counter : Nat
  lastKey : Slice
  deriving DecidableEq, Repr

namespace BlockBuilder

/-- The constructor, and `Reset`. -/
def empty (blockRestartInterval : Nat) : BlockBuilder where
  blockRestartInterval := blockRestartInterval
  buffer := []
  restarts := [0]
  counter := 0
  lastKey := []

def add (builder : BlockBuilder) (key value : Slice) : BlockBuilder :=
  let shares := builder.counter < builder.blockRestartInterval
  let shared := if shares then sharedLength builder.lastKey key else 0
  { builder with
    buffer := builder.buffer ++ encodeEntry shared key value
    restarts := if shares then builder.restarts else builder.restarts ++ [builder.buffer.length]
    counter := if shares then builder.counter + 1 else 1
    lastKey := builder.lastKey.take shared ++ key.drop shared }

def currentSizeEstimate (builder : BlockBuilder) : Nat :=
  builder.buffer.length + builder.restarts.length * 4 + 4

def finish (builder : BlockBuilder) : Slice :=
  builder.buffer ++ (builder.restarts.flatMap (encodeFixed 4) ++
    encodeFixed 4 builder.restarts.length)

end BlockBuilder

/-! ## What the bytes mean -/

structure Record where
  shared : Nat
  key : Slice
  value : Slice
  deriving DecidableEq, Repr

namespace Record

def encode (record : Record) : Slice := encodeEntry record.shared record.key record.value

def entry (record : Record) : Slice × Slice := (record.key, record.value)

/-- What the record leaves out stands at the front of the key before it. -/
def Follows (record : Record) (previous : Slice) : Prop :=
  record.shared ≤ record.key.length ∧ record.shared ≤ previous.length ∧
    previous.take record.shared = record.key.take record.shared

theorem encode_ne_nil (record : Record) : record.encode ≠ [] := by
  have nonempty : ∀ number, encodeVarint32 number ≠ [] := by
    intro number
    rw [encodeVarint32]
    split_ifs <;> simp
  simp [encode, encodeEntry, nonempty]

end Record

/-- Every record follows the key in front of it. -/
def Linked : Slice → List Record → Prop
  | _, [] => True
  | previous, record :: records => record.Follows previous ∧ Linked record.key records

/-- The place of a record in the bytes. -/
def recordOffset (records : List Record) (index : Nat) : Nat :=
  ((records.take index).flatMap Record.encode).length

@[simp] theorem recordOffset_zero (records : List Record) : recordOffset records 0 = 0 := rfl

theorem recordOffset_length (records : List Record) :
    recordOffset records records.length = (records.flatMap Record.encode).length := by
  rw [recordOffset, List.take_length]

theorem recordOffset_append {records : List Record} {index : Nat}
    (within : index ≤ records.length) (more : List Record) :
    recordOffset (records ++ more) index = recordOffset records index := by
  rw [recordOffset, recordOffset, List.take_append_of_le_length within]

theorem recordOffset_succ {records : List Record} {index : Nat} {record : Record}
    (found : records[index]? = some record) :
    recordOffset records (index + 1) = recordOffset records index + record.encode.length := by
  rw [recordOffset, List.take_add_one, found]
  simp [recordOffset]

theorem recordOffset_lt {records : List Record} {low high : Nat} (less : low < high)
    (within : high ≤ records.length) : recordOffset records low < recordOffset records high := by
  induction high with
  | zero => omega
  | succ high ih =>
      have inside : high < records.length := by omega
      have positive := List.length_pos_iff.mpr (Record.encode_ne_nil records[high])
      rw [recordOffset_succ (List.getElem?_eq_getElem inside)]
      rcases Nat.lt_or_eq_of_le (Nat.le_of_lt_succ less) with below | rfl
      · have earlier := ih below (by omega)
        omega
      · omega

theorem recordOffset_le {records : List Record} {low high : Nat} (order : low ≤ high)
    (within : high ≤ records.length) : recordOffset records low ≤ recordOffset records high := by
  rcases Nat.lt_or_eq_of_le order with less | rfl
  · exact (recordOffset_lt less within).le
  · exact Nat.le_refl _

theorem recordOffset_lt_iff {records : List Record} {low high : Nat}
    (lowWithin : low ≤ records.length) (highWithin : high ≤ records.length) :
    recordOffset records low < recordOffset records high ↔ low < high := by
  constructor
  · intro less
    by_contra notLess
    have order := recordOffset_le (Nat.not_lt.mp notLess) lowWithin
    omega
  · exact fun less => recordOffset_lt less highWithin

/-- The records of a block and the indices of those that are restart points. -/
structure BlockLayout where
  records : List Record
  starts : List Nat
  linked : Linked [] records
  first : starts.head? = some 0
  inside : ∀ start ∈ starts, start < records.length ∨ (records = [] ∧ starts = [0])
  restarting : ∀ start ∈ starts, ∀ record, records[start]? = some record → record.shared = 0
  fits : (records.flatMap Record.encode).length + starts.length * 4 + 4 < 2 ^ 32

namespace BlockLayout

variable (layout : BlockLayout)

def body : Slice := layout.records.flatMap Record.encode

def offsets : List Nat := layout.starts.map (recordOffset layout.records)

def bytes : Slice :=
  layout.body ++ (layout.offsets.flatMap (encodeFixed 4) ++ encodeFixed 4 layout.starts.length)

def entries : List (Slice × Slice) := layout.records.map Record.entry

/-- Where the record with this index begins. -/
def offset (index : Nat) : Nat := recordOffset layout.records index

theorem offset_length : layout.offset layout.records.length = layout.body.length :=
  recordOffset_length layout.records

theorem starts_ne_nil : layout.starts ≠ [] := by
  intro none
  have first := layout.first
  rw [none] at first
  cases first

theorem start_le {start : Nat} (member : start ∈ layout.starts) :
    start ≤ layout.records.length := by
  rcases layout.inside start member with inside | ⟨_, only⟩
  · exact inside.le
  · rw [only, List.mem_singleton] at member
    omega

theorem body_length_lt : layout.body.length < 2 ^ 32 := by
  have fits := layout.fits
  rw [body]
  omega

theorem offset_le {index : Nat} (within : index ≤ layout.records.length) :
    layout.offset index ≤ layout.body.length := by
  rw [← layout.offset_length]
  exact recordOffset_le within (Nat.le_refl _)

theorem offset_lt_iff {low high : Nat} (lowWithin : low ≤ layout.records.length)
    (highWithin : high ≤ layout.records.length) :
    layout.offset low < layout.offset high ↔ low < high :=
  recordOffset_lt_iff lowWithin highWithin

theorem body_drop (index : Nat) :
    layout.body.drop (layout.offset index) = (layout.records.drop index).flatMap Record.encode := by
  have split : layout.body = (layout.records.take index).flatMap Record.encode ++
      (layout.records.drop index).flatMap Record.encode := by
    rw [body, ← List.flatMap_append, List.take_append_drop]
  rw [split, offset, recordOffset, List.drop_left]

end BlockLayout

/-! ## The builder lays out what was added -/

/-- The last key of some records, behind another key. -/
def lastKey (previous : Slice) (records : List Record) : Slice :=
  (records.getLast?.map Record.key).getD previous

theorem linked_concat {previous : Slice} {records : List Record} {record : Record}
    (linked : Linked previous records) (follows : record.Follows (lastKey previous records)) :
    Linked previous (records ++ [record]) := by
  induction records generalizing previous with
  | nil => exact ⟨follows, trivial⟩
  | cons head records ih =>
      refine ⟨linked.1, ih linked.2 ?_⟩
      cases records with
      | nil => exact follows
      | cons second records =>
          rwa [lastKey, List.getLast?_cons_cons, List.getLast?_eq_getLast_of_ne_nil
            (List.cons_ne_nil second records)] at follows

namespace BlockBuilder

/-- What the builder holds: the records and which of them are restart points. -/
structure Holds (builder : BlockBuilder) (records : List Record) (starts : List Nat) : Prop where
  linked : Linked [] records
  lastKey : builder.lastKey = AhaTree.lastKey [] records
  buffer : builder.buffer = records.flatMap Record.encode
  restarts : builder.restarts = starts.map (recordOffset records)
  first : starts.head? = some 0
  inside : ∀ start ∈ starts, start < records.length ∨ (records = [] ∧ starts = [0])
  restarting : ∀ start ∈ starts, ∀ record, records[start]? = some record → record.shared = 0

theorem holds_empty (interval : Nat) : (empty interval).Holds [] [0] where
  linked := trivial
  lastKey := rfl
  buffer := rfl
  restarts := rfl
  first := rfl
  inside := by simp
  restarting := by simp

/-- The record that the next `Add` writes. -/
def nextRecord (builder : BlockBuilder) (key value : Slice) : Record where
  shared :=
    if builder.counter < builder.blockRestartInterval then
      sharedLength builder.lastKey key else 0
  key := key
  value := value

theorem nextRecord_follows (builder : BlockBuilder) (key value : Slice) :
    (builder.nextRecord key value).Follows builder.lastKey := by
  rw [Record.Follows, nextRecord]
  dsimp only
  split
  · exact ⟨sharedLength_le_right _ _, sharedLength_le_left _ _, take_sharedLength _ _⟩
  · exact ⟨Nat.zero_le _, Nat.zero_le _, rfl⟩

theorem add_lastKey (builder : BlockBuilder) (key value : Slice) :
    (builder.add key value).lastKey = key := by
  have follows := (builder.nextRecord_follows key value).2.2
  change builder.lastKey.take (builder.nextRecord key value).shared ++
    key.drop (builder.nextRecord key value).shared = key
  rw [follows]
  exact List.take_append_drop _ key

theorem add_buffer (builder : BlockBuilder) (key value : Slice) :
    (builder.add key value).buffer =
      builder.buffer ++ (builder.nextRecord key value).encode := rfl

/-- Only the restart points and the fill of the builder decide where the next one is. -/
theorem Holds.add {builder : BlockBuilder} {records : List Record} {starts : List Nat}
    (holds : builder.Holds records starts) (key value : Slice) :
    (builder.add key value).Holds (records ++ [builder.nextRecord key value])
      (if builder.counter < builder.blockRestartInterval then starts
        else starts ++ [records.length]) := by
  have follows := builder.nextRecord_follows key value
  rw [holds.lastKey] at follows
  have within : ∀ start ∈ starts, start ≤ records.length := by
    intro start member
    rcases holds.inside start member with inside | ⟨_, only⟩
    · exact inside.le
    · rw [only, List.mem_singleton] at member
      omega
  have sameOffsets : starts.map (recordOffset (records ++ [builder.nextRecord key value])) =
      starts.map (recordOffset records) :=
    List.map_congr_left fun start member => recordOffset_append (within start member) _
  have restartsBefore : ∀ start ∈ starts, ∀ record,
      (records ++ [builder.nextRecord key value])[start]? = some record →
        record.shared = 0 := by
    intro start member record found
    rcases holds.inside start member with inside | ⟨none, only⟩
    · rw [List.getElem?_append_left inside] at found
      exact holds.restarting start member record found
    · -- the block has no record yet, and the first one shares nothing
      subst none
      rw [only, List.mem_singleton] at member
      subst member
      rw [List.nil_append, List.getElem?_cons_zero, Option.some_inj] at found
      subst found
      exact Nat.le_zero.mp follows.2.1
  have whole : ∀ start ∈ starts, start < (records ++ [builder.nextRecord key value]).length := by
    intro start member
    rw [List.length_append, List.length_singleton]
    exact Nat.lt_succ_of_le (within start member)
  refine ⟨linked_concat holds.linked follows, ?_, ?_, ?_, ?_, ?_, ?_⟩
  · rw [add_lastKey, AhaTree.lastKey, List.getLast?_concat]
    rfl
  · rw [add_buffer, holds.buffer, List.flatMap_append, List.flatMap_singleton]
  · change (if _ then builder.restarts else builder.restarts ++ [builder.buffer.length]) = _
    rw [holds.restarts]
    split
    · exact sameOffsets.symm
    · rw [List.map_append, sameOffsets, List.map_singleton, recordOffset_append (Nat.le_refl _),
        recordOffset_length, holds.buffer]
  · split
    · exact holds.first
    · rw [List.head?_append_of_ne_nil, holds.first]
      intro none
      have first := holds.first
      rw [none] at first
      cases first
  · intro start member
    split at member
    · exact .inl (whole start member)
    · rcases List.mem_append.mp member with earlier | isLast
      · exact .inl (whole start earlier)
      · rw [List.mem_singleton.mp isLast, List.length_append]
        exact .inl (Nat.lt_succ_self _)
  · intro start member record found
    split at member
    · exact restartsBefore start member record found
    · rename_i restarts
      rcases List.mem_append.mp member with earlier | isLast
      · exact restartsBefore start earlier record found
      · rw [List.mem_singleton.mp isLast, List.getElem?_concat_length, Option.some_inj] at found
        subst found
        exact if_neg restarts

/-- All entries of a list, one behind the other. -/
def addAll (builder : BlockBuilder) (entries : List (Slice × Slice)) : BlockBuilder :=
  entries.foldl (fun builder entry => builder.add entry.1 entry.2) builder

theorem addAll_concat (builder : BlockBuilder) (entries : List (Slice × Slice))
    (key value : Slice) :
    builder.addAll (entries ++ [(key, value)]) = (builder.addAll entries).add key value := by
  rw [addAll, List.foldl_append]
  rfl

theorem Holds.addAll {builder : BlockBuilder} {records : List Record} {starts : List Nat}
    (holds : builder.Holds records starts) (entries : List (Slice × Slice)) :
    ∃ records' starts', (builder.addAll entries).Holds records' starts' ∧
      records'.map Record.entry = records.map Record.entry ++ entries := by
  induction entries generalizing builder records starts with
  | nil => exact ⟨records, starts, holds, (List.append_nil _).symm⟩
  | cons entry entries ih =>
      obtain ⟨records', starts', later, same⟩ := ih (holds.add entry.1 entry.2)
      refine ⟨records', starts', later, ?_⟩
      rw [same, List.map_append, List.append_assoc]
      rfl

theorem finish_length {builder : BlockBuilder} :
    builder.finish.length = builder.currentSizeEstimate := by
  have restarts : (builder.restarts.flatMap (encodeFixed 4)).length =
      builder.restarts.length * 4 := by
    simp [List.length_flatMap]
  rw [finish, List.length_append, List.length_append, restarts, encodeFixed_length,
    currentSizeEstimate, Nat.add_assoc]

theorem Holds.layout {builder : BlockBuilder} {records : List Record} {starts : List Nat}
    (holds : builder.Holds records starts) (fits : builder.currentSizeEstimate < 2 ^ 32) :
    ∃ layout : BlockLayout, layout.records = records ∧ builder.finish = layout.bytes := by
  have sameCount : builder.restarts.length = starts.length := by
    rw [holds.restarts, List.length_map]
  have room : (records.flatMap Record.encode).length + starts.length * 4 + 4 < 2 ^ 32 := by
    rw [← holds.buffer, ← sameCount]
    exact fits
  refine ⟨⟨records, starts, holds.linked, holds.first, holds.inside, holds.restarting, room⟩,
    rfl, ?_⟩
  change builder.buffer ++ (_ ++ encodeFixed 4 builder.restarts.length) =
    records.flatMap Record.encode ++
      ((starts.map (recordOffset records)).flatMap (encodeFixed 4) ++
        encodeFixed 4 starts.length)
  rw [sameCount, holds.buffer, holds.restarts]

theorem records_le_bytes (records : List Record) :
    records.length ≤ (records.flatMap Record.encode).length := by
  induction records with
  | nil => exact Nat.le_refl _
  | cons record records ih =>
      have positive := List.length_pos_iff.mpr record.encode_ne_nil
      rw [List.flatMap_cons, List.length_append, List.length_cons]
      omega

/-- A block has more bytes than entries. -/
theorem length_lt_finish (interval : Nat) (entries : List (Slice × Slice)) :
    entries.length < ((empty interval).addAll entries).finish.length := by
  obtain ⟨records, starts, holds, same⟩ := (holds_empty interval).addAll entries
  have bytes := records_le_bytes records
  rw [List.map_nil, List.nil_append] at same
  rw [finish_length, currentSizeEstimate, holds.buffer, ← same, List.length_map]
  omega

/-- Whatever is added in turn, the finished bytes are laid out as its entries. -/
theorem finish_layout (interval : Nat) (entries : List (Slice × Slice))
    (fits : ((empty interval).addAll entries).currentSizeEstimate < 2 ^ 32) :
    ∃ layout : BlockLayout, layout.entries = entries ∧
      ((empty interval).addAll entries).finish = layout.bytes := by
  obtain ⟨records, starts, holds, same⟩ := (holds_empty interval).addAll entries
  obtain ⟨layout, rfl, bytes⟩ := holds.layout fits
  exact ⟨layout, same, bytes⟩

end BlockBuilder

end AhaTree
