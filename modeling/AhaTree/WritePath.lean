import AhaTree.VisibleMap
import AhaTree.Lib.Run
import Mathlib.Logic.Function.Basic

/-!
# The write path

Writers, memtables and the threads that flush them, as a step function.  A step
is a critical section of `mutex_` (and of lock -1 where the code takes both), a
single operation on `seq_no_`, or a part of the work that is done with the mutex
released: reading `mem_` for an insertion, putting one entry, building a table.
The state of the root LSMT enters only through answers that a step is given,
such as whether level 0 has too many files.
-/

namespace AhaTree

/-! ## Write batches -/

/-- A record of a `WriteBatch`. -/
structure Op where
  type : ValueType
  key : Slice
  value : Slice
  deriving DecidableEq, Repr

structure WriteBatch where
  ops : List Op
  hasHotspot : Bool
  deriving DecidableEq, Repr

/-- `VarintLength` of a 32-bit length. -/
def varintLength (number : Nat) : Nat :=
  if number < 2 ^ 7 then 1
  else if number < 2 ^ 14 then 2
  else if number < 2 ^ 21 then 3
  else if number < 2 ^ 28 then 4
  else 5

def Op.byteSize (op : Op) : Nat :=
  let keySize := varintLength op.key.length + op.key.length
  match op.type with
  | .kTypeDeletion => 1 + keySize
  | .kTypeValue => 1 + keySize + (varintLength op.value.length + op.value.length)

/-- `WriteBatchInternal::ByteSize`; the header has twelve bytes. -/
def WriteBatch.byteSize (batch : WriteBatch) : Nat :=
  12 + (batch.ops.map Op.byteSize).sum

/-- A call of `Insert(WriteBatch*)` in the queue; a missing batch forces a
compaction. -/
structure Writer where
  id : Nat
  batch : Option WriteBatch
  deriving DecidableEq, Repr

/-- The records of a writer's batch, each with the writer it belongs to. -/
def Writer.ops (writer : Writer) : List (Nat × Op) :=
  (writer.batch.map WriteBatch.ops).getD [] |>.map (fun op => (writer.id, op))

/-- The loop of `BuildBatchGroup` over the writers behind the first one: the
part of the queue that joins the group. -/
def joinGroup (maxSize : Nat) : Nat → List Writer → List Writer
  | _, [] => []
  | size, writer :: writers =>
      match writer.batch with
      | none => writer :: joinGroup maxSize size writers
      | some batch =>
          if maxSize < size + batch.byteSize then []
          else writer :: joinGroup maxSize (size + batch.byteSize) writers

/-- `BuildBatchGroup`: the writers whose batches are applied together.  No
writer asks for a sync, so only the size ends a group. -/
def buildBatchGroup (first : Writer) (batch : WriteBatch) (rest : List Writer) :
    List Writer :=
  let size := batch.byteSize
  let maxSize := if size ≤ 128 * 2 ^ 10 then size + 128 * 2 ^ 10 else 2 ^ 20
  first :: joinGroup maxSize size rest

/-- `SetSequence` and the numbering of `MemTableInserter`. -/
def numbered : Nat → List (Nat × Op) → List (Nat × Entry)
  | _, [] => []
  | sequence, (owner, op) :: ops =>
      (owner, ⟨⟨op.key, sequence, op.type⟩,
        match op.type with
        | .kTypeDeletion => []
        | .kTypeValue => op.value⟩) :: numbered (sequence + 1) ops

/-! ## States -/

/-- How far the writer at the front of the queue has come. -/
inductive Leader where
  /-- Nobody, or a writer that has not been woken yet. -/
  | idle
  /-- The first writer of an empty queue, still in its first section. -/
  | entering
  /-- In a wait of `MakeRoomForWrite`. -/
  | waiting (force allowDelay : Bool)
  /-- Past `seq_no_.load()`, with the mutex held. -/
  | loaded (last : Nat)
  /-- The mutex is released; `mem_` has not been read yet. -/
  | grouped (group : Nat) (entries : List (Nat × Entry))
  /-- In `InsertInto` on this memtable. -/
  | inserting (table group : Nat) (put left : List (Nat × Entry))
  deriving DecidableEq, Repr

/-- What a background thread does. -/
inductive Worker where
  | idle
  /-- In `DoCompact`: lock -1 is held, the mutex is not. -/
  | compacting
  /-- In `BuildTable` on an iterator that was opened on this memtable when it
  had `base` entries. -/
  | building (table base : Nat)
  /-- `BuildTable` has returned. -/
  | built (table : Nat) (contents : List Entry)
  deriving DecidableEq, Repr

/-- The fields of the tree that the write path uses, the parties at work, and a
record of what has happened. -/
structure Tree where
  seqNo : Nat
  writers : List Writer
  leader : Leader
  /-- The contents of all memtables, in the order they were put. -/
  tables : Nat → List Entry
  nextTable : Nat
  mem : Nat
  imm : Option Nat
  hasImm : Bool
  memEmpty : Bool
  memColdOnly : Bool
  immColdOnly : Bool
  lsmtHotspot : Bool
  /-- `background_compaction_scheduled_`, and the calls that wait for the
  compaction thread. -/
  scheduled : Bool
  jobs : Nat
  compaction : Worker
  pushDown : Worker
  /-- Scans, which share lock -1. -/
  scans : Nat
  /-- The calls of `AddFile`, each with the memtable the table was built from. -/
  added : List (Nat × List Entry)
  /-- A null `imm_` has been dereferenced. -/
  crashed : Bool
  /-- The memtables that have become `imm_`. -/
  switched : List Nat
  nextInsert : Nat
  /-- Calls of `Insert(key, value)` that have no number yet, and those that have
  one and are at work in the tree. -/
  calls : List (Nat × Slice × Slice)
  inTree : List Nat
  /-- All numbered entries, each with the insert it belongs to. -/
  given : List (Nat × Entry)
  /-- Every insert, with the inserts that had returned when it started. -/
  started : List (Nat × List Nat)
  returned : List Nat
  /-- The entries of the inserts that have returned OK. -/
  acked : List Entry
  /-- The number that the latest group with entries read, and their count. -/
  lastGroup : Nat × Nat

namespace Tree

def initial : Tree where
  seqNo := 1
  writers := []
  leader := .idle
  tables := fun _ => []
  nextTable := 1
  mem := 0
  imm := none
  hasImm := false
  memEmpty := true
  memColdOnly := true
  immColdOnly := true
  lsmtHotspot := false
  scheduled := false
  jobs := 0
  compaction := .idle
  pushDown := .idle
  scans := 0
  added := []
  crashed := false
  switched := []
  nextInsert := 0
  calls := []
  inTree := []
  given := []
  started := []
  returned := []
  acked := []
  lastGroup := (0, 0)

/-- No writer is inside a section of the mutex that is cut into two steps. -/
def mutexFree (tree : Tree) : Bool :=
  match tree.leader with
  | .entering => false
  | .loaded _ => false
  | _ => true

/-- Lock -1 can be taken exclusively, and then the mutex. -/
def locksFree (tree : Tree) : Bool :=
  tree.mutexFree && tree.scans == 0 && tree.compaction != .compacting

/-! ## The functions of the source -/

/-- `imm_ = mem_` and what goes with it. -/
def switchMem (tree : Tree) : Tree :=
  { tree with
    imm := some tree.mem
    hasImm := true
    mem := tree.nextTable
    nextTable := tree.nextTable + 1
    memEmpty := true
    immColdOnly := tree.memColdOnly
    memColdOnly := true
    switched := tree.switched ++ [tree.mem] }

/-- `MaybeScheduleCompaction`, told whether the LSMT needs a compaction. -/
def maybeScheduleCompaction (needs : Bool) (tree : Tree) : Tree :=
  if tree.scheduled then tree
  else if tree.imm.isNone && !needs then tree
  else { tree with scheduled := true, jobs := tree.jobs + 1 }

/-- What the loop of `MakeRoomForWrite` reads in one round: whether level 0 has
enough files to slow down or to stop, whether `mem_` is full, and whether the
LSMT needs a compaction. -/
structure RoomView where
  slow : Bool
  full : Bool
  stop : Bool
  needs : Bool
  deriving DecidableEq, Repr

/-- One section of `MakeRoomForWrite`.  It ends in a wait, with the flags kept
for the next round, or by leaving the loop. -/
def makeRoomForWrite : List RoomView → Bool → Bool → Tree →
    Option (Tree × Option (Bool × Bool))
  | [], _, _, _ => none
  | view :: views, force, allowDelay, tree =>
      if allowDelay && view.slow then some (tree, some (force, false))
      else if !force && !view.full then some (tree, none)
      else if tree.imm.isSome then some (tree, some (force, allowDelay))
      else if tree.scheduled && view.stop then some (tree, some (force, allowDelay))
      else makeRoomForWrite views false allowDelay
        (tree.switchMem.maybeScheduleCompaction view.needs)

/-- The first section of `Insert(WriteBatch*)`. -/
def insertBatch (batch : Option WriteBatch) (tree : Tree) : Option Tree :=
  if tree.mutexFree then
    some { tree with
      writers := tree.writers ++ [⟨tree.nextInsert, batch⟩]
      leader := if tree.writers.isEmpty then .entering else tree.leader
      nextInsert := tree.nextInsert + 1
      started := (tree.nextInsert, tree.returned) :: tree.started }
  else none

/-- The front writer may run its next section of `MakeRoomForWrite`, with these
flags. -/
def roomFlags (writer : Writer) : Leader → Option (Bool × Bool)
  | .idle => some (writer.batch.isNone, writer.batch.isSome)
  | .entering => some (writer.batch.isNone, writer.batch.isSome)
  | .waiting force allowDelay => some (force, allowDelay)
  | _ => none

/-- The writer at the front has returned from `MakeRoomForWrite`: it loads
`seq_no_`, or leaves the queue if it has no batch. -/
def leaveRoom (writer : Writer) (rest : List Writer) (tree : Tree) : Tree :=
  match writer.batch with
  | some _ => { tree with leader := .loaded tree.seqNo }
  | none => { tree with
      leader := .idle
      writers := rest
      returned := tree.returned ++ [writer.id] }

def makeRoom (views : List RoomView) (tree : Tree) : Option Tree :=
  match tree.writers with
  | [] => none
  | writer :: rest => do
      let (force, allowDelay) ← roomFlags writer tree.leader
      let (after, waits) ← makeRoomForWrite views force allowDelay tree
      match waits with
      | some (force, allowDelay) =>
          some { after with leader := .waiting force allowDelay }
      | none => some (leaveRoom writer rest after)

/-- The group whose front writer has loaded `seq_no_`. -/
def nextGroup (tree : Tree) : List Writer :=
  match tree.writers with
  | writer :: rest => (writer.batch.map (fun batch =>
      buildBatchGroup writer batch rest)).getD []
  | [] => []

/-- From `BuildBatchGroup` to the release of the mutex. -/
def group (tree : Tree) : Option Tree :=
  match tree.leader, tree.writers with
  | .loaded last, writer :: _ =>
      let entries := numbered (last + 1) (tree.nextGroup.flatMap Writer.ops)
      some { tree with
        seqNo := tree.seqNo + entries.length
        memEmpty := false
        memColdOnly := tree.memColdOnly &&
          !(writer.batch.map WriteBatch.hasHotspot).getD false
        leader := .grouped tree.nextGroup.length entries
        given := tree.given ++ entries
        lastGroup := if entries.isEmpty then tree.lastGroup
          else (last, entries.length) }
  | _, _ => none

/-- The argument `mem_` of `InsertInto` is read after the mutex was released. -/
def fetchMem (tree : Tree) : Option Tree :=
  match tree.leader with
  | .grouped group entries =>
      some { tree with leader := .inserting tree.mem group [] entries }
  | _ => none

/-- `InsertInto` puts one entry. -/
def putEntry (tree : Tree) : Option Tree :=
  match tree.leader with
  | .inserting table group put (entry :: left) =>
      some { tree with
        leader := .inserting table group (put ++ [entry]) left
        tables := Function.update tree.tables table
          (tree.tables table ++ [entry.2]) }
  | _ => none

/-- The last section of `Insert(WriteBatch*)`, where the whole group leaves the
queue. -/
def finishGroup (tree : Tree) : Option Tree :=
  match tree.leader with
  | .inserting _ group put [] =>
      some { tree with
        leader := .idle
        writers := tree.writers.drop group
        returned := tree.returned ++ (tree.writers.take group).map Writer.id
        acked := tree.acked ++ put.map Prod.snd }
  | _ => none

/-- The first half of `CompactMemTable`: an iterator is opened on `imm_` and the
locks are released. -/
def openImm (tree : Tree) : Worker :=
  match tree.imm with
  | none => .idle
  | some table => .building table (tree.tables table).length

/-- The second half of `CompactMemTable`, for a table with these contents. -/
def commitImm (table : Nat) (contents : List Entry) (tree : Tree) : Tree :=
  match tree.imm with
  | none => { tree with crashed := true }
  | some _ =>
      let retired := { tree with imm := none, hasImm := false, immColdOnly := true }
      if contents.isEmpty then retired
      else { retired with
        added := tree.added ++ [(table, contents)]
        lsmtHotspot := tree.lsmtHotspot || !tree.immColdOnly }

/-- `BackgroundCall` up to the release of the mutex. -/
def backgroundCall (tree : Tree) : Option Tree :=
  if tree.locksFree && tree.compaction == .idle && decide (0 < tree.jobs) then
    let started := { tree with jobs := tree.jobs - 1 }
    match tree.imm with
    | some _ => some { started with compaction := tree.openImm }
    | none => some { started with compaction := .compacting }
  else none

/-- The end of `BackgroundCall`. -/
def endBackgroundCall (needs : Bool) (tree : Tree) : Tree :=
  { tree with compaction := .idle, scheduled := false }.maybeScheduleCompaction needs

/-- `BuildTable` has seen the first `seen` entries that were put: at least those
that were there when its iterator was opened. -/
def buildTable (seen : Nat) (worker : Worker) (tree : Tree) : Option Worker :=
  match worker with
  | .building table base =>
      if base ≤ seen ∧ seen ≤ (tree.tables table).length then
        some (.built table ((tree.tables table).take seen))
      else none
  | _ => none

def commitCompaction (needs : Bool) (tree : Tree) : Option Tree :=
  match tree.compaction with
  | .built table contents =>
      if tree.locksFree then
        some ((tree.commitImm table contents).endBackgroundCall needs)
      else none
  | _ => none

def endCompact (needs : Bool) (tree : Tree) : Option Tree :=
  if tree.mutexFree && tree.compaction == .compacting then
    some (tree.endBackgroundCall needs)
  else none

/-- `AdaptMem` up to the release of the mutex. -/
def adaptMem (tree : Tree) : Option Tree :=
  if tree.locksFree && tree.pushDown == .idle then
    if tree.hasImm then some tree
    else if tree.scheduled then some tree.switchMem
    else some { tree.switchMem with pushDown := tree.switchMem.openImm }
  else none

/-- `AdaptImm` up to the release of the mutex. -/
def adaptImm (tree : Tree) : Option Tree :=
  if tree.locksFree && tree.pushDown == .idle then
    if tree.imm.isNone then some tree
    else if tree.scheduled then some tree
    else some { tree with pushDown := tree.openImm }
  else none

def commitPushDown (tree : Tree) : Option Tree :=
  match tree.pushDown with
  | .built table contents =>
      if tree.locksFree then
        some { tree.commitImm table contents with pushDown := .idle }
      else none
  | _ => none

end Tree

/-- The steps of all parties. -/
inductive Act where
  | insertBatch (batch : Option WriteBatch)
  | makeRoom (views : List Tree.RoomView)
  | group
  | fetchMem
  | putEntry
  | finishGroup
  /-- `Insert(key, value)` is called, takes its number, and returns. -/
  | callSingle (key value : Slice)
  | takeSingle (id : Nat)
  | returnSingle (id : Nat)
  | backgroundCall
  | buildCompaction (seen : Nat)
  | commitCompaction (needs : Bool)
  | endCompact (needs : Bool)
  | adaptMem
  | adaptImm
  | buildPushDown (seen : Nat)
  | commitPushDown
  /-- The end of `InstallLSMTfilesToBol`, on the push-down thread. -/
  | installed (needs : Bool)
  | beginScan
  | endScan
  /-- `RecordReadSample`, when a file has used up its seeks. -/
  | readSample
  deriving DecidableEq, Repr

/-- Steps that neither switch, fill, build, retire nor schedule anything. -/
def Act.writesOnly : Act → Bool
  | .insertBatch _ | .group | .fetchMem | .finishGroup => true
  | .callSingle _ _ | .takeSingle _ | .returnSingle _ => true
  | .beginScan | .endScan => true
  | _ => false

namespace Tree

def callSingle (key value : Slice) (tree : Tree) : Tree :=
  { tree with
    calls := (tree.nextInsert, key, value) :: tree.calls
    nextInsert := tree.nextInsert + 1
    started := (tree.nextInsert, tree.returned) :: tree.started }

/-- `seq_no_.fetch_add(1)` of `Insert(key, value)`. -/
def takeSingle (id : Nat) (tree : Tree) : Option Tree :=
  (tree.calls.find? (fun call => call.1 == id)).map (fun call =>
    { tree with
      seqNo := tree.seqNo + 1
      calls := tree.calls.filter (fun call => call.1 != id)
      inTree := id :: tree.inTree
      given := tree.given ++
        [(id, ⟨⟨call.2.1, tree.seqNo, .kTypeValue⟩, call.2.2⟩)] })

/-- `TreeInsert` is done. -/
def returnSingle (id : Nat) (tree : Tree) : Option Tree :=
  if id ∈ tree.inTree then
    some { tree with
      inTree := tree.inTree.filter (fun open_ => open_ != id)
      returned := tree.returned ++ [id] }
  else none

/-- What each step does while the process is alive. -/
def perform (tree : Tree) : Act → Option Tree
  | .insertBatch batch => tree.insertBatch batch
  | .makeRoom views => tree.makeRoom views
  | .group => tree.group
  | .fetchMem => tree.fetchMem
  | .putEntry => tree.putEntry
  | .finishGroup => tree.finishGroup
  | .callSingle key value => some (tree.callSingle key value)
  | .takeSingle id => tree.takeSingle id
  | .returnSingle id => tree.returnSingle id
  | .backgroundCall => tree.backgroundCall
  | .buildCompaction seen => (tree.buildTable seen tree.compaction).map
      (fun worker => { tree with compaction := worker })
  | .commitCompaction needs => tree.commitCompaction needs
  | .endCompact needs => tree.endCompact needs
  | .adaptMem => tree.adaptMem
  | .adaptImm => tree.adaptImm
  | .buildPushDown seen => (tree.buildTable seen tree.pushDown).map
      (fun worker => { tree with pushDown := worker })
  | .commitPushDown => tree.commitPushDown
  | .installed needs =>
      if tree.mutexFree && tree.pushDown == .idle then
        some (tree.maybeScheduleCompaction needs)
      else none
  | .beginScan =>
      if tree.mutexFree && tree.compaction != .compacting then
        some { tree with scans := tree.scans + 1 }
      else none
  | .endScan =>
      if 0 < tree.scans then some { tree with scans := tree.scans - 1 } else none
  | .readSample =>
      if tree.mutexFree && decide (0 < tree.scans) then
        some (tree.maybeScheduleCompaction true)
      else none

/-- One step of one party. -/
def step (tree : Tree) (act : Act) : Option Tree :=
  if tree.crashed then none else tree.perform act

theorem perform_of_step {tree after : Tree} {act : Act}
    (stepped : tree.step act = some after) : tree.perform act = some after := by
  rw [step] at stepped
  split at stepped
  · cases stepped
  · exact stepped

/-! ## What the sections do -/

/-- `MaybeScheduleCompaction` touches nothing but the schedule. -/
theorem maybeScheduleCompaction_eq (needs : Bool) (tree : Tree) :
    ∃ scheduled jobs, tree.maybeScheduleCompaction needs =
      { tree with scheduled := scheduled, jobs := jobs } := by
  rw [maybeScheduleCompaction]
  split
  · exact ⟨_, _, rfl⟩
  · split
    · exact ⟨_, _, rfl⟩
    · exact ⟨_, _, rfl⟩

/-- A section of `MakeRoomForWrite` leaves the tree as it was, or switches the
memtable once, and only when there is no `imm_`. -/
theorem makeRoomForWrite_cases {views : List RoomView} {force allowDelay : Bool}
    {tree after : Tree} {waits : Option (Bool × Bool)}
    (made : makeRoomForWrite views force allowDelay tree = some (after, waits)) :
    after = tree ∨ (tree.imm = none ∧
      ∃ needs, after = tree.switchMem.maybeScheduleCompaction needs) := by
  induction views generalizing force tree with
  | nil => cases made
  | cons view views ih =>
      rw [makeRoomForWrite] at made
      split at made
      · cases made
        exact .inl rfl
      · split at made
        · cases made
          exact .inl rfl
        · split at made
          · cases made
            exact .inl rfl
          · rename_i noImm
            have free : tree.imm = none := by simpa using noImm
            split at made
            · cases made
              exact .inl rfl
            · refine .inr ⟨free, view.needs, ?_⟩
              rcases ih made with same | ⟨stillFree, -⟩
              · exact same
              · obtain ⟨scheduled, jobs, same⟩ :=
                  maybeScheduleCompaction_eq view.needs tree.switchMem
                rw [same] at stillFree
                cases stillFree

/-- What the section of the front writer does. -/
theorem makeRoom_cases {views : List RoomView} {tree after : Tree}
    (made : tree.makeRoom views = some after) :
    ∃ writer rest flags middle, tree.writers = writer :: rest ∧
      roomFlags writer tree.leader = some flags ∧
      (middle = tree ∨ (tree.imm = none ∧
        ∃ needs, middle = tree.switchMem.maybeScheduleCompaction needs)) ∧
      ((∃ force allowDelay, after = { middle with leader := .waiting force allowDelay }) ∨
        after = leaveRoom writer rest middle) := by
  rw [makeRoom] at made
  split at made
  · cases made
  · rename_i writer rest queue
    obtain ⟨flags, isFlags, later⟩ := Option.bind_eq_some_iff.mp made
    obtain ⟨⟨middle, waits⟩, room, ended⟩ := Option.bind_eq_some_iff.mp later
    refine ⟨writer, rest, flags, middle, queue, isFlags, makeRoomForWrite_cases room, ?_⟩
    cases waits with
    | none =>
        cases ended
        exact .inr rfl
    | some flags =>
        cases ended
        exact .inl ⟨_, _, rfl⟩

/-- `BackgroundCall` opens an iterator on `imm_`, or goes on to compact. -/
theorem backgroundCall_cases {tree after : Tree}
    (called : tree.backgroundCall = some after) :
    tree.compaction = .idle ∧ 0 < tree.jobs ∧
      ∃ worker, after = { tree with jobs := tree.jobs - 1, compaction := worker } ∧
        ((∃ table, tree.imm = some table ∧
            worker = .building table (tree.tables table).length) ∨
          (tree.imm = none ∧ worker = .compacting)) := by
  rw [backgroundCall] at called
  split at called
  · rename_i enabled
    simp only [Bool.and_eq_true, beq_iff_eq, decide_eq_true_eq] at enabled
    refine ⟨enabled.1.2, enabled.2, ?_⟩
    simp only at called
    split at called
    · rename_i table held
      cases called
      exact ⟨_, rfl, .inl ⟨table, held, by simp [openImm, held]⟩⟩
    · rename_i free
      cases called
      exact ⟨_, rfl, .inr ⟨free, rfl⟩⟩
  · cases called

theorem adaptMem_cases {tree after : Tree} (adapted : tree.adaptMem = some after) :
    after = tree ∨ (tree.hasImm = false ∧ tree.pushDown = .idle ∧
      ((tree.scheduled = true ∧ after = tree.switchMem) ∨
        (tree.scheduled = false ∧ after = { tree.switchMem with
          pushDown := .building tree.mem (tree.tables tree.mem).length }))) := by
  rw [adaptMem] at adapted
  split at adapted
  · rename_i enabled
    simp only [Bool.and_eq_true, beq_iff_eq] at enabled
    split at adapted
    · cases adapted
      exact .inl rfl
    · rename_i noImm
      have free : tree.hasImm = false := by simpa using noImm
      split at adapted
      · rename_i scheduled
        cases adapted
        exact .inr ⟨free, enabled.2, .inl ⟨scheduled, rfl⟩⟩
      · rename_i notScheduled
        cases adapted
        exact .inr ⟨free, enabled.2, .inr ⟨by simpa using notScheduled, rfl⟩⟩
  · cases adapted

theorem adaptImm_cases {tree after : Tree} (adapted : tree.adaptImm = some after) :
    after = tree ∨ ∃ table, tree.imm = some table ∧ tree.scheduled = false ∧
      tree.pushDown = .idle ∧ after = { tree with
        pushDown := .building table (tree.tables table).length } := by
  rw [adaptImm] at adapted
  split at adapted
  · rename_i enabled
    simp only [Bool.and_eq_true, beq_iff_eq] at enabled
    split at adapted
    · cases adapted
      exact .inl rfl
    · rename_i hasImm
      obtain ⟨table, held⟩ := Option.ne_none_iff_exists'.mp (by simpa using hasImm)
      split at adapted
      · cases adapted
        exact .inl rfl
      · rename_i notScheduled
        cases adapted
        exact .inr ⟨table, held, by simpa using notScheduled, enabled.2,
          by simp [openImm, held]⟩
  · cases adapted

/-- A commit retires `imm_`, and adds the table if it has entries. -/
theorem commitImm_of_imm {tree : Tree} {table held : Nat} {contents : List Entry}
    (isHeld : tree.imm = some held) :
    ∃ hotspot, tree.commitImm table contents = { tree with
      imm := none, hasImm := false, immColdOnly := true
      added := tree.added ++ if contents = [] then [] else [(table, contents)]
      lsmtHotspot := hotspot } := by
  rw [commitImm, isHeld]
  by_cases empty : contents = []
  · exact ⟨tree.lsmtHotspot, by simp [empty]⟩
  · exact ⟨tree.lsmtHotspot || !tree.immColdOnly, by simp [empty]⟩

theorem commitCompaction_cases {needs : Bool} {tree after : Tree}
    (committed : tree.commitCompaction needs = some after) :
    ∃ table contents, tree.compaction = .built table contents ∧
      after = (tree.commitImm table contents).endBackgroundCall needs := by
  rw [commitCompaction] at committed
  split at committed
  · rename_i table contents isBuilt
    split at committed
    · cases committed
      exact ⟨table, contents, isBuilt, rfl⟩
    · cases committed
  · cases committed

theorem commitPushDown_cases {tree after : Tree}
    (committed : tree.commitPushDown = some after) :
    ∃ table contents, tree.pushDown = .built table contents ∧
      after = { tree.commitImm table contents with pushDown := .idle } := by
  rw [commitPushDown] at committed
  split at committed
  · rename_i table contents isBuilt
    split at committed
    · cases committed
      exact ⟨table, contents, isBuilt, rfl⟩
    · cases committed
  · cases committed

theorem buildTable_cases {tree : Tree} {seen : Nat} {worker later : Worker}
    (built : tree.buildTable seen worker = some later) :
    ∃ table base, worker = .building table base ∧ base ≤ seen ∧
      seen ≤ (tree.tables table).length ∧
      later = .built table ((tree.tables table).take seen) := by
  cases worker with
  | building table base =>
      simp only [buildTable] at built
      split at built
      · rename_i bounds
        cases built
        exact ⟨table, base, rfl, bounds.1, bounds.2, rfl⟩
      · cases built
  | idle | compacting | built => cases built

/-! ## Which steps touch which part of the state -/

/-- Both trees agree on memtables, flushes and their schedule. -/
structure SameFlushes (tree after : Tree) : Prop where
  tables : after.tables = tree.tables
  nextTable : after.nextTable = tree.nextTable
  mem : after.mem = tree.mem
  imm : after.imm = tree.imm
  hasImm : after.hasImm = tree.hasImm
  scheduled : after.scheduled = tree.scheduled
  jobs : after.jobs = tree.jobs
  compaction : after.compaction = tree.compaction
  pushDown : after.pushDown = tree.pushDown
  added : after.added = tree.added
  crashed : after.crashed = tree.crashed
  switched : after.switched = tree.switched

theorem sameFlushes_of_perform {tree after : Tree} {act : Act}
    (writes : act.writesOnly = true) (performed : tree.perform act = some after) :
    SameFlushes tree after := by
  cases act with
  | insertBatch batch =>
      simp only [perform, insertBatch] at performed
      split at performed
      · cases performed
        constructor <;> rfl
      · cases performed
  | group =>
      simp only [perform, group] at performed
      split at performed
      · cases performed
        constructor <;> rfl
      · cases performed
  | fetchMem =>
      simp only [perform, fetchMem] at performed
      split at performed
      · cases performed
        constructor <;> rfl
      · cases performed
  | finishGroup =>
      simp only [perform, finishGroup] at performed
      split at performed
      · cases performed
        constructor <;> rfl
      · cases performed
  | callSingle key value =>
      cases performed
      constructor <;> rfl
  | takeSingle id =>
      obtain ⟨call, -, rfl⟩ := Option.map_eq_some_iff.mp performed
      constructor <;> rfl
  | returnSingle id =>
      simp only [perform, returnSingle] at performed
      split at performed
      · cases performed
        constructor <;> rfl
      · cases performed
  | beginScan =>
      simp only [perform] at performed
      split at performed
      · cases performed
        constructor <;> rfl
      · cases performed
  | endScan =>
      simp only [perform] at performed
      split at performed
      · cases performed
        constructor <;> rfl
      · cases performed
  | _ => cases writes

theorem endCompact_cases {needs : Bool} {tree after : Tree}
    (finished : tree.endCompact needs = some after) :
    tree.compaction = .compacting ∧ after = tree.endBackgroundCall needs := by
  rw [endCompact] at finished
  split at finished
  · rename_i enabled
    simp only [Bool.and_eq_true, beq_iff_eq] at enabled
    cases finished
    exact ⟨enabled.2, rfl⟩
  · cases finished

theorem putEntry_cases {tree after : Tree} (put : tree.putEntry = some after) :
    ∃ table group done entry left,
      tree.leader = .inserting table group done (entry :: left) ∧
      after = { tree with
        leader := .inserting table group (done ++ [entry]) left
        tables := Function.update tree.tables table
          (tree.tables table ++ [entry.2]) } := by
  rw [putEntry] at put
  split at put
  · rename_i table group done entry left leader
    cases put
    exact ⟨table, group, done, entry, left, leader, rfl⟩
  · cases put

end Tree

end AhaTree
