import AhaTree.GroupCommit
import AhaTree.MemTable

/-!
# The bytes of a write batch

The model of `write_batch.cc`.  A batch is a string: a sequence number, a count,
and the records one behind the other.  A batch that was filled by its own
operations represents a `BatchObject`, and inserting it puts the records of that
object into a memtable, each under the next sequence number.
-/

namespace AhaTree

open Coding
open Lib (Decodes Decoder)

/-- The header has a sequence number of eight bytes and a count of four. -/
def kHeader : Nat := 12

structure BatchRep where
  rep : Slice
  hasHot : Bool
  deriving DecidableEq, Repr

namespace BatchRep

variable (batch : BatchRep)

/-- `WriteBatch::Clear`. -/
def clear : BatchRep := { batch with rep := List.replicate kHeader 0 }

def new : BatchRep := ⟨List.replicate kHeader 0, true⟩

def approximateSize : Nat := batch.rep.length

def count : Nat := decodeFixed32At batch.rep 8

/-- `EncodeFixed32` at the place of the count. -/
def setCount (number : Nat) : BatchRep :=
  { batch with rep := batch.rep.take 8 ++ (encodeFixed 4 number ++ batch.rep.drop kHeader) }

def sequence : Nat := decodeFixed (batch.rep.take 8)

def setSequence (number : Nat) : BatchRep :=
  { batch with rep := encodeFixed 8 number ++ batch.rep.drop 8 }

def put (key value : Slice) : BatchRep :=
  let counted := batch.setCount (batch.count + 1)
  { counted with
    rep := counted.rep ++
      (Fin.ofNat 256 ValueType.kTypeValue.code :: (lengthPrefixed key ++ lengthPrefixed value)) }

def delete (key : Slice) : BatchRep :=
  let counted := batch.setCount (batch.count + 1)
  { counted with
    rep := counted.rep ++ (Fin.ofNat 256 ValueType.kTypeDeletion.code :: lengthPrefixed key) }

/-- `WriteBatchInternal::Append`. -/
def append (source : BatchRep) : BatchRep :=
  let counted := batch.setCount (batch.count + source.count)
  { counted with rep := counted.rep ++ source.rep.drop kHeader }

/-! ## Iterating -/

/-- A turn of the loop of `Iterate`, after it has taken the tag. -/
def readRecord (tag : Byte) (input : Slice) : Except String (Op × Slice) :=
  match tag.val with
  | 1 =>
      match getLengthPrefixedSlice input with
      | some (key, rest) =>
          match getLengthPrefixedSlice rest with
          | some (value, rest) => .ok (⟨.kTypeValue, key, value⟩, rest)
          | none => .error "bad WriteBatch Put"
      | none => .error "bad WriteBatch Put"
  | 0 =>
      match getLengthPrefixedSlice input with
      | some (key, rest) => .ok (⟨.kTypeDeletion, key, []⟩, rest)
      | none => .error "bad WriteBatch Delete"
  | _ => .error "unknown WriteBatch tag"

variable {σ : Type}

/-- The loop; the handler has already been called for the records in front of a bad one.
Every turn takes a byte at least, so the bytes are fuel enough. -/
def iterateLoop (handler : Op → σ → σ) : Nat → Slice → Nat → σ → σ × Except String Nat
  | _, [], found, state => (state, .ok found)
  | 0, _ :: _, found, state => (state, .ok found)
  | fuel + 1, tag :: input, found, state =>
      match readRecord tag input with
      | .ok (op, rest) => iterateLoop handler fuel rest (found + 1) (handler op state)
      | .error message => (state, .error message)

def iterate (handler : Op → σ → σ) (state : σ) : σ × Status :=
  if batch.rep.length < kHeader then
    (state, .corruption "malformed WriteBatch (too small)")
  else
    let input := batch.rep.drop kHeader
    match iterateLoop handler input.length input 0 state with
    | (state, .error message) => (state, .corruption message)
    | (state, .ok found) =>
        if found ≠ batch.count then (state, .corruption "WriteBatch has wrong count")
        else (state, .ok)

/-- `MemTableInserter`; the heights of the nodes are random. -/
structure Inserter where
  sequence : Nat
  mem : MemTable

def Inserter.handle (height : Nat → Nat) (op : Op) (inserter : Inserter) : Inserter where
  sequence := inserter.sequence + 1
  mem := inserter.mem.add inserter.sequence op.type op.key
    (match op.type with
    | .kTypeValue => op.value
    | .kTypeDeletion => [])
    (height inserter.sequence)

def insertInto (height : Nat → Nat) (mem : MemTable) : MemTable × Status :=
  let (inserter, status) := batch.iterate (Inserter.handle height) ⟨batch.sequence, mem⟩
  (inserter.mem, status)

end BatchRep

/-! ## What a batch represents -/

namespace Op

/-- What follows the tag of a record. -/
def payload (op : Op) : Slice :=
  match op.type with
  | .kTypeValue => lengthPrefixed op.key ++ lengthPrefixed op.value
  | .kTypeDeletion => lengthPrefixed op.key

def record (op : Op) : Slice := Fin.ofNat 256 op.type.code :: op.payload

/-- A record of a deletion has no value. -/
def read (op : Op) : Op :=
  match op.type with
  | .kTypeValue => op
  | .kTypeDeletion => { op with value := [] }

/-- Both lengths have 32 bits. -/
def Fits (op : Op) : Prop :=
  op.key.length < 2 ^ 32 ∧ op.read.value.length < 2 ^ 32

end Op

theorem encodeVarint32_length (number : Nat) :
    (encodeVarint32 number).length = varintLength number := by
  rw [encodeVarint32, varintLength]
  split_ifs <;> rfl

theorem lengthPrefixed_length (value : Slice) :
    (lengthPrefixed value).length = varintLength value.length + value.length := by
  rw [lengthPrefixed, List.length_append, encodeVarint32_length]

namespace Op

theorem record_length (op : Op) : op.record.length = op.byteSize := by
  rw [record, byteSize, payload, List.length_cons]
  cases op.type with
  | kTypeValue =>
      rw [List.length_append, lengthPrefixed_length, lengthPrefixed_length]
      dsimp only
      omega
  | kTypeDeletion =>
      rw [lengthPrefixed_length]
      dsimp only
      omega

/-- The loop reads a record back, whatever follows. -/
theorem readRecord_payload {op : Op} (fits : op.Fits) (rest : Slice) :
    BatchRep.readRecord (Fin.ofNat 256 op.type.code) (op.payload ++ rest) =
      .ok (op.read, rest) := by
  obtain ⟨type, key, value⟩ := op
  obtain ⟨keyFits, valueFits⟩ := fits
  cases type with
  | kTypeValue =>
      have first := getLengthPrefixedSlice_decodes key keyFits (lengthPrefixed value ++ rest)
      have second := getLengthPrefixedSlice_decodes value valueFits rest
      rw [← List.append_assoc] at first
      simp only [BatchRep.readRecord, ValueType.code, Fin.val_ofNat, payload, first, second]
      rfl
  | kTypeDeletion =>
      have first := getLengthPrefixedSlice_decodes key keyFits rest
      simp only [BatchRep.readRecord, ValueType.code, Fin.val_ofNat, payload, first]
      rfl

end Op

/-- `Put` and `Delete`. -/
def BatchObject.push (object : BatchObject) (op : Op) : BatchObject :=
  { object with batch := { object.batch with ops := object.batch.ops ++ [op] } }

namespace BatchRep

/-- The string of a batch with the given contents. -/
structure Represents (batch : BatchRep) (object : BatchObject) : Prop where
  bytes : batch.rep = encodeFixed 8 object.sequence ++
    (encodeFixed 4 object.batch.ops.length ++ object.batch.ops.flatMap Op.record)
  hot : batch.hasHot = object.batch.hasHotspot

theorem new_represents : new.Represents ⟨⟨[], true⟩, 0⟩ := ⟨rfl, rfl⟩

namespace Represents

variable {batch source : BatchRep} {object other : BatchObject}
  (represents : batch.Represents object)
include represents

theorem records : batch.rep.drop kHeader = object.batch.ops.flatMap Op.record := by
  rw [represents.bytes, ← List.append_assoc]
  exact List.drop_left' (by simp [kHeader])

theorem count_eq : batch.count = object.batch.ops.length % 256 ^ 4 := by
  rw [count, represents.bytes, decodeFixed32At_append (encodeFixed_length 8 _).symm,
    List.take_left' (encodeFixed_length 4 _), decodeFixed_encodeFixed]

theorem sequence_eq (bounded : object.sequence < 256 ^ 8) : batch.sequence = object.sequence := by
  rw [sequence, represents.bytes, List.take_left' (encodeFixed_length 8 _),
    decodeFixed_encodeFixed]
  exact Nat.mod_eq_of_lt bounded

theorem setCount (number : Nat) :
    (batch.setCount number).rep = encodeFixed 8 object.sequence ++
      (encodeFixed 4 number ++ object.batch.ops.flatMap Op.record) := by
  have front : batch.rep.take 8 = encodeFixed 8 object.sequence := by
    rw [represents.bytes]
    exact List.take_left' (encodeFixed_length 8 _)
  rw [BatchRep.setCount, front, represents.records]

theorem byteSize_eq : batch.approximateSize = object.batch.byteSize := by
  rw [approximateSize, represents.bytes, WriteBatch.byteSize, List.length_append,
    List.length_append, encodeFixed_length, encodeFixed_length, List.length_flatMap,
    List.map_congr_left fun op _ => op.record_length]
  omega

/-- A count has four bytes. -/
theorem encode_count (more : Nat) :
    encodeFixed 4 (batch.count + more) = encodeFixed 4 (object.batch.ops.length + more) := by
  rw [represents.count_eq, ← encodeFixed_mod, ← encodeFixed_mod 4 (_ + more), Nat.mod_add_mod]

theorem clear : batch.clear.Represents object.clear where
  bytes := new_represents.bytes
  hot := represents.hot

theorem setSequence (number : Nat) :
    (batch.setSequence number).Represents (object.setSequence number) where
  bytes := by
    have rest : batch.rep.drop 8 =
        encodeFixed 4 object.batch.ops.length ++ object.batch.ops.flatMap Op.record := by
      rw [represents.bytes]
      exact List.drop_left' (encodeFixed_length 8 _)
    rw [BatchRep.setSequence, rest]
    rfl
  hot := represents.hot

/-- Both `Put` and `Delete` count a record, and put it behind the others. -/
theorem push (op : Op) :
    (BatchRep.mk ((batch.setCount (batch.count + 1)).rep ++ op.record) batch.hasHot).Represents
      (object.push op) where
  bytes := by
    rw [represents.setCount, represents.encode_count, BatchObject.push]
    simp only [List.length_append, List.length_singleton, List.flatMap_append, List.append_assoc,
      List.flatMap_cons, List.flatMap_nil, List.append_nil]
  hot := represents.hot

theorem put (key value : Slice) :
    (batch.put key value).Represents (object.push ⟨.kTypeValue, key, value⟩) :=
  represents.push ⟨.kTypeValue, key, value⟩

theorem delete (key : Slice) :
    (batch.delete key).Represents (object.push ⟨.kTypeDeletion, key, []⟩) :=
  represents.push ⟨.kTypeDeletion, key, []⟩

theorem append (sourceRepresents : source.Represents other) :
    (batch.append source).Represents (object.append other) where
  bytes := by
    have counts : encodeFixed 4 (batch.count + source.count) =
        encodeFixed 4 (object.batch.ops.length + other.batch.ops.length) := by
      rw [represents.encode_count, Nat.add_comm, sourceRepresents.encode_count, Nat.add_comm]
    rw [BatchRep.append, represents.setCount, counts, sourceRepresents.records, BatchObject.append]
    simp only [List.length_append, List.flatMap_append, List.append_assoc]
  hot := represents.hot

end Represents

/-! ## Reading a batch -/

theorem iterateLoop_records {σ : Type} (handler : Op → σ → σ) {ops : List Op}
    (fits : ∀ op ∈ ops, op.Fits) {fuel found : Nat} {state : σ}
    (enough : (ops.flatMap Op.record).length ≤ fuel) :
    iterateLoop handler fuel (ops.flatMap Op.record) found state =
      ((ops.map Op.read).foldl (fun state op => handler op state) state,
        .ok (found + ops.length)) := by
  induction ops generalizing fuel found state with
  | nil => cases fuel <;> rfl
  | cons op ops ih =>
      have read := op.readRecord_payload (fits op List.mem_cons_self) (ops.flatMap Op.record)
      rw [List.flatMap_cons, List.length_append, Op.record, List.length_cons] at enough
      cases fuel with
      | zero => omega
      | succ fuel =>
          rw [List.flatMap_cons, Op.record, List.cons_append, iterateLoop, read]
          dsimp only
          rw [ih (fun later member => fits later (List.mem_cons_of_mem op member)) (by omega),
            List.length_cons, Nat.add_right_comm, Nat.add_assoc]
          rfl

theorem Represents.iterate {σ : Type} {batch : BatchRep} {object : BatchObject}
    (represents : batch.Represents object) (handler : Op → σ → σ) (state : σ)
    (fits : ∀ op ∈ object.batch.ops, op.Fits) (few : object.batch.ops.length < 2 ^ 31) :
    batch.iterate handler state =
      ((object.batch.ops.map Op.read).foldl (fun state op => handler op state) state, .ok) := by
  have long : ¬ batch.rep.length < kHeader := by
    rw [represents.bytes, List.length_append, List.length_append, encodeFixed_length,
      encodeFixed_length, kHeader]
    omega
  have counted : batch.count = object.batch.ops.length := by
    rw [represents.count_eq]
    exact Nat.mod_eq_of_lt (by omega)
  have read := @iterateLoop_records _ handler _ fits _ 0 state (Nat.le_refl _)
  rw [BatchRep.iterate, if_neg long, represents.records]
  dsimp only
  rw [read, Nat.zero_add, counted]
  exact if_neg (not_not_intro rfl)

/-! ## Calls on several batches -/

inductive BatchCall where
  | clear (target : Nat)
  | put (target : Nat) (key value : Slice)
  | delete (target : Nat) (key : Slice)
  | append (target source : Nat)
  | setSequence (target number : Nat)
  deriving DecidableEq, Repr

namespace BatchCall

def onBytes (heap : Nat → BatchRep) : BatchCall → Nat → BatchRep
  | clear target => Function.update heap target (heap target).clear
  | put target key value => Function.update heap target ((heap target).put key value)
  | delete target key => Function.update heap target ((heap target).delete key)
  | append target source => Function.update heap target ((heap target).append (heap source))
  | setSequence target number => Function.update heap target ((heap target).setSequence number)

def onObjects (heap : Nat → BatchObject) : BatchCall → Nat → BatchObject
  | clear target => Function.update heap target (heap target).clear
  | put target key value =>
      Function.update heap target ((heap target).push ⟨.kTypeValue, key, value⟩)
  | delete target key => Function.update heap target ((heap target).push ⟨.kTypeDeletion, key, []⟩)
  | append target source => Function.update heap target ((heap target).append (heap source))
  | setSequence target number => Function.update heap target ((heap target).setSequence number)

end BatchCall

def afterCalls (calls : List BatchCall) : Nat → BatchRep :=
  calls.foldl BatchCall.onBytes fun _ => new

def objectsAfterCalls (calls : List BatchCall) : Nat → BatchObject :=
  calls.foldl BatchCall.onObjects fun _ => ⟨⟨[], true⟩, 0⟩

section Calls

variable {heap : Nat → BatchRep} {objects : Nat → BatchObject}

theorem update_represents (represent : ∀ address, (heap address).Represents (objects address))
    {target : Nat} {batch : BatchRep} {object : BatchObject} (isTarget : batch.Represents object)
    (address : Nat) :
    (Function.update heap target batch address).Represents
      (Function.update objects target object address) := by
  by_cases same : address = target
  · subst same
    rwa [Function.update_self, Function.update_self]
  · rw [Function.update_of_ne same, Function.update_of_ne same]
    exact represent address

theorem call_represents (represent : ∀ address, (heap address).Represents (objects address))
    (call : BatchCall) (address : Nat) :
    (call.onBytes heap address).Represents (call.onObjects objects address) := by
  cases call with
  | clear target => exact update_represents represent (represent target).clear address
  | put target key value =>
      exact update_represents represent ((represent target).put key value) address
  | delete target key => exact update_represents represent ((represent target).delete key) address
  | append target source =>
      exact update_represents represent ((represent target).append (represent source)) address
  | setSequence target number =>
      exact update_represents represent ((represent target).setSequence number) address

theorem calls_represent (represent : ∀ address, (heap address).Represents (objects address))
    (calls : List BatchCall) (address : Nat) :
    (calls.foldl BatchCall.onBytes heap address).Represents
      (calls.foldl BatchCall.onObjects objects address) := by
  induction calls generalizing heap objects with
  | nil => exact represent address
  | cons call calls ih => exact ih (call_represents represent call)

end Calls

/-! ## Inserting a batch -/

/-- The entries that a batch is inserted as. -/
def insertedEntries (object : BatchObject) : List Entry :=
  (numbered object.sequence (object.batch.ops.map fun op => (0, op))).map Prod.snd

theorem insertedEntries_cons (hot : Bool) (sequence : Nat) (op : Op) (ops : List Op) :
    insertedEntries ⟨⟨op :: ops, hot⟩, sequence⟩ =
      ⟨⟨op.key, sequence, op.type⟩, op.read.value⟩ ::
        insertedEntries ⟨⟨ops, hot⟩, sequence + 1⟩ := by
  obtain ⟨type, key, value⟩ := op
  cases type <;> rfl

theorem sequence_of_mem {hot : Bool} {ops : List Op} {sequence : Nat} {entry : Entry}
    (member : entry ∈ insertedEntries ⟨⟨ops, hot⟩, sequence⟩) :
    sequence ≤ entry.key.sequence ∧ entry.key.sequence < sequence + ops.length := by
  induction ops generalizing sequence with
  | nil => cases member
  | cons op ops ih =>
      rw [insertedEntries_cons] at member
      rw [List.length_cons]
      rcases List.mem_cons.mp member with rfl | member
      · exact ⟨Nat.le_refl _, by simp only; omega⟩
      · have bounds := ih member
        omega

theorem fits_of_insertedEntries {hot : Bool} {ops : List Op} {sequence : Nat}
    (fits : ∀ entry ∈ insertedEntries ⟨⟨ops, hot⟩, sequence⟩, entry.Fits) :
    ∀ op ∈ ops, op.Fits := by
  induction ops generalizing sequence with
  | nil => simp
  | cons op ops ih =>
      rw [insertedEntries_cons] at fits
      intro other member
      rcases List.mem_cons.mp member with rfl | member
      · have entryFits := fits _ List.mem_cons_self
        exact ⟨by have := entryFits.key; simp only at this; omega, entryFits.value⟩
      · exact ih (fun entry isLater => fits entry (List.mem_cons_of_mem _ isLater)) other member

theorem insertedEntries_nodup (hot : Bool) (ops : List Op) (sequence : Nat) :
    ((insertedEntries ⟨⟨ops, hot⟩, sequence⟩).map Entry.key).Nodup := by
  induction ops generalizing sequence with
  | nil => exact List.nodup_nil
  | cons op ops ih =>
      rw [insertedEntries_cons, List.map_cons]
      refine List.nodup_cons.mpr ⟨?_, ih (sequence + 1)⟩
      intro member
      obtain ⟨later, isLater, same⟩ := List.mem_map.mp member
      have bounds := sequence_of_mem isLater
      rw [same] at bounds
      simp only at bounds
      omega

/-- The inserter adds the entries one after the other. -/
theorem handle_all (height : Nat → Nat) (hot : Bool) (ops : List Op) (sequence : Nat)
    (mem : MemTable) :
    ((ops.map Op.read).foldl (fun inserter op => Inserter.handle height op inserter)
        ⟨sequence, mem⟩).mem =
      mem.addAll ((insertedEntries ⟨⟨ops, hot⟩, sequence⟩).map fun entry =>
        (entry, height entry.key.sequence)) := by
  induction ops generalizing sequence mem with
  | nil => rfl
  | cons op ops ih =>
      rw [insertedEntries_cons]
      obtain ⟨type, key, value⟩ := op
      cases type with
      | kTypeValue => exact ih (sequence + 1) _
      | kTypeDeletion => exact ih (sequence + 1) _

/-- A batch that is inserted is read without an error, and its records go into the memtable
under one sequence number after the other. -/
theorem Represents.insertInto {batch : BatchRep} {object : BatchObject}
    (represents : batch.Represents object) {mem : MemTable} {entries : List Entry}
    (holds : mem.Holds entries) (few : object.batch.ops.length < 2 ^ 31)
    (fits : ∀ entry ∈ insertedEntries object, entry.Fits)
    (fresh : ∀ added ∈ insertedEntries object, ∀ entry ∈ entries, entry.key ≠ added.key)
    {height : Nat → Nat}
    (heights : ∀ sequence, 0 < height sequence ∧ height sequence ≤ kMaxHeight) :
    (batch.insertInto height mem).2 = .ok ∧
      ∃ more, (batch.insertInto height mem).1.Holds more ∧
        more.Perm (insertedEntries object ++ entries) := by
  obtain ⟨⟨ops, hot⟩, sequence⟩ := object
  have read := represents.iterate (Inserter.handle height) ⟨batch.sequence, mem⟩
    (fits_of_insertedEntries fits) few
  have sameEntries : insertedEntries ⟨⟨ops, hot⟩, batch.sequence⟩ =
      insertedEntries ⟨⟨ops, hot⟩, sequence⟩ := by
    cases ops with
    | nil => rfl
    | cons op ops =>
        rw [insertedEntries_cons] at fits
        have bounded := (fits _ List.mem_cons_self).sequence
        have small : kMaxSequenceNumber < 256 ^ 8 := by decide
        rw [represents.sequence_eq (Nat.lt_of_le_of_lt bounded small)]
  let adds := (insertedEntries ⟨⟨ops, hot⟩, sequence⟩).map fun entry =>
    (entry, height entry.key.sequence)
  have entriesAdded : adds.map Prod.fst = insertedEntries ⟨⟨ops, hot⟩, sequence⟩ := by
    rw [List.map_map]
    exact List.map_id _
  have isAdded : ∀ add ∈ adds, add.1 ∈ insertedEntries ⟨⟨ops, hot⟩, sequence⟩ :=
    fun add member => entriesAdded ▸ List.mem_map_of_mem member
  have allowed : ∀ add ∈ adds, 0 < add.2 ∧ add.2 ≤ kMaxHeight := by
    intro add member
    obtain ⟨entry, -, rfl⟩ := List.mem_map.mp member
    exact heights entry.key.sequence
  have distinct : (adds.map fun add => add.1.key).Nodup := by
    rw [List.map_map]
    exact insertedEntries_nodup hot ops sequence
  obtain ⟨more, added, perm⟩ := MemTable.addAll_holds holds
    (fun add member => fits add.1 (isAdded add member)) allowed distinct
    (fun add member => fresh add.1 (isAdded add member))
  rw [entriesAdded] at perm
  rw [BatchRep.insertInto, read]
  refine ⟨rfl, more, ?_, perm⟩
  dsimp only
  rw [handle_all height hot, sameEntries]
  exact added

/-- A batch that takes over the records of another one, and then its own. -/
def appendingCalls : List BatchCall :=
  [.put 0 [1] [7], .delete 1 [2], .append 0 1, .append 0 0, .setSequence 0 10]

end BatchRep

end AhaTree
