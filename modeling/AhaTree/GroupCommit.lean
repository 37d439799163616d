import AhaTree.WritePath

/-!
# Group commit

The queue of `Insert(WriteBatch*)` calls by itself, down to the objects that the
pointers name: the callers' batches, `tmp_batch_`, and the `done` and `status`
fields of the waiting writers.  A step is a critical section of the mutex, a
wake-up, or one record that goes into the memtable with the mutex released.
`MakeRoomForWrite` always answers OK, and only takes time here.
-/

namespace AhaTree

/-! ## Objects -/

/-- A `WriteBatch` object: what it holds, and the number in its header. -/
structure BatchObject where
  batch : WriteBatch
  sequence : Nat
  deriving DecidableEq, Repr

namespace BatchObject

/-- `WriteBatchInternal::Append`. -/
def append (target source : BatchObject) : BatchObject :=
  { target with batch :=
      { target.batch with ops := target.batch.ops ++ source.batch.ops } }

/-- `WriteBatch::Clear`, which leaves the hotspot flag alone. -/
def clear (object : BatchObject) : BatchObject where
  batch := { object.batch with ops := [] }
  sequence := 0

/-- `WriteBatchInternal::SetSequence`. -/
def setSequence (object : BatchObject) (sequence : Nat) : BatchObject :=
  { object with sequence := sequence }

end BatchObject

inductive Status where
  | ok
  | corruption (message : String)
  deriving DecidableEq, Repr

/-- Where `write_batch` points to. -/
inductive BatchRef where
  | caller (address : Nat)
  | tmpBatch
  deriving DecidableEq, Repr

/-- A `Writer`: the pointer it was called with, and a record of what the batch
held at the call. -/
structure Call where
  id : Nat
  batch : Option Nat
  ops : List Op
  deriving DecidableEq, Repr

/-- What the thread of a call does. -/
inductive Thread where
  /-- In `w.cv.Wait()`. -/
  | waiting
  /-- Woken up, before it looks at its condition again. -/
  | signaled
  /-- Past the loop, as the writer at the front. -/
  | leading
  | returned
  deriving DecidableEq, Repr

/-- How far the leading writer has come. -/
inductive Phase where
  /-- There is none. -/
  | idle
  /-- In `MakeRoomForWrite`. -/
  | makingRoom
  /-- In `InsertInto`, after `index` records. -/
  | inserting (result : BatchRef) (lastWriter index : Nat)
  deriving DecidableEq, Repr

def Phase.isInserting : Phase → Bool
  | .inserting _ _ _ => true
  | _ => false

/-- The fields that `Insert(WriteBatch*)` works on, and a record of the calls. -/
structure CommitQueue where
  heap : Nat → BatchObject
  tmpBatch : BatchObject
  writers : List Call
  phase : Phase
  thread : Nat → Thread
  /-- The `status` of the writers that are `done`. -/
  done : Nat → Option Status
  seqNo : Nat
  memtable : List (Nat × Op)
  nextCall : Nat
  /-- What the callers have put into their batches. -/
  filled : Nat → WriteBatch
  /-- The calls that have left the queue, with the status of their group. -/
  groups : List (List Call × Status)
  returns : List (Nat × Status)

namespace CommitQueue

/-- A tree without writers, and batches of the callers. -/
def initial (seqNo : Nat) (heap : Nat → BatchObject) (hot : Bool) : CommitQueue where
  heap := heap
  tmpBatch := ⟨⟨[], hot⟩, 0⟩
  writers := []
  phase := .idle
  thread := fun _ => .waiting
  done := fun _ => none
  seqNo := seqNo
  memtable := []
  nextCall := 0
  filled := fun address => (heap address).batch
  groups := []
  returns := []

def deref (queue : CommitQueue) : BatchRef → BatchObject
  | .caller address => queue.heap address
  | .tmpBatch => queue.tmpBatch

def popped (queue : CommitQueue) : List Call :=
  queue.groups.flatMap Prod.fst

/-! ## `BuildBatchGroup` -/

/-- The variables of the loop. -/
structure Group where
  result : BatchRef
  lastWriter : Nat
  tmpBatch : BatchObject
  deriving DecidableEq, Repr

/-- The loop over the writers behind the first one.  No writer asks for a sync,
so only the size ends it. -/
def groupLoop (heap : Nat → BatchObject) (first maxSize : Nat) :
    Nat → Group → List Call → Group
  | _, group, [] => group
  | size, group, writer :: rest =>
      match writer.batch with
      | none => groupLoop heap first maxSize size
          { group with lastWriter := writer.id } rest
      | some address =>
          let size := size + (heap address).batch.byteSize
          if maxSize < size then group
          else
            -- a temporary batch is used instead of disturbing the caller's
            let target := if group.result = .caller first
              then group.tmpBatch.append (heap first) else group.tmpBatch
            groupLoop heap first maxSize size
              ⟨.tmpBatch, writer.id, target.append (heap address)⟩ rest

def buildBatchGroup (queue : CommitQueue) (first : Call) (address : Nat)
    (rest : List Call) : Group :=
  let size := (queue.heap address).batch.byteSize
  let maxSize := if size ≤ 128 * 2 ^ 10 then size + 128 * 2 ^ 10 else 2 ^ 20
  groupLoop queue.heap address maxSize size ⟨.caller address, first.id, queue.tmpBatch⟩ rest

/-! ## The end of `Insert` -/

/-- `cv.Signal()`. -/
def signal (queue : CommitQueue) (id : Nat) : CommitQueue :=
  if queue.thread id = .waiting then
    { queue with thread := Function.update queue.thread id .signaled }
  else queue

/-- The loop that pops writers up to `last_writer`; it must not run out of
writers. -/
def popLoop (self lastWriter : Nat) (status : Status) :
    List Call → CommitQueue → Option CommitQueue
  | [], _ => none
  | ready :: rest, queue =>
      let popped := { queue with writers := rest }
      let told := if ready.id = self then popped
        else signal { popped with
          done := Function.update queue.done ready.id (some status) } ready.id
      if ready.id = lastWriter then some told
      else popLoop self lastWriter status rest told

/-- The new head of the queue is notified. -/
def notifyHead (queue : CommitQueue) : CommitQueue :=
  match queue.writers with
  | [] => queue
  | next :: _ => queue.signal next.id

/-- From the loop to the return of the leading writer. -/
def leave (self lastWriter : Nat) (status : Status) (queue : CommitQueue) :
    Option CommitQueue :=
  (popLoop self lastWriter status queue.writers queue).map (fun popped =>
    let notified := popped.notifyHead
    { notified with
      phase := .idle
      thread := Function.update notified.thread self .returned
      groups := queue.groups ++
        [(queue.writers.take (queue.writers.length - popped.writers.length), status)]
      returns := queue.returns ++ [(self, status)] })

/-! ## Steps -/

/-- `Insert(WriteBatch*)` up to its wait, or into `MakeRoomForWrite` if the queue
was empty. -/
def insert (batch : Option Nat) (queue : CommitQueue) : CommitQueue :=
  let ops := (batch.map (fun address => (queue.heap address).batch.ops)).getD []
  let joined := { queue with
    writers := queue.writers ++ [⟨queue.nextCall, batch, ops⟩]
    nextCall := queue.nextCall + 1 }
  if queue.writers.isEmpty then { joined with
    phase := .makingRoom
    thread := Function.update queue.thread queue.nextCall .leading }
  else joined

/-- A woken writer looks at its condition again: it returns if it is done, leads
if it is at the front, and else waits on. -/
def wake (id : Nat) (queue : CommitQueue) : Option CommitQueue :=
  if queue.thread id = .signaled then
    match queue.done id with
    | some status => some { queue with
        thread := Function.update queue.thread id .returned
        returns := queue.returns ++ [(id, status)] }
    | none =>
        if queue.writers.head?.map Call.id = some id then
          some { queue with
            thread := Function.update queue.thread id .leading
            phase := .makingRoom }
        else some { queue with thread := Function.update queue.thread id .waiting }
  else none

/-- A condition variable may also wake up by itself. -/
def wakeSpuriously (id : Nat) (queue : CommitQueue) : Option CommitQueue :=
  if id < queue.nextCall ∧ queue.thread id = .waiting then some (queue.signal id)
  else none

/-- Set the number in the header of the batch. -/
def setSequence (queue : CommitQueue) (sequence : Nat) : BatchRef → CommitQueue
  | .caller address => { queue with
      heap := Function.update queue.heap address
        ((queue.heap address).setSequence sequence) }
  | .tmpBatch => { queue with
      tmpBatch := queue.tmpBatch.setSequence sequence }

/-- The section of the leading writer from its return out of `MakeRoomForWrite`
to the release of the mutex; without a batch it leaves at once. -/
def lead (queue : CommitQueue) : Option CommitQueue :=
  match queue.phase, queue.writers with
  | .makingRoom, first :: rest =>
      match first.batch with
      | none => queue.leave first.id first.id .ok
      | some address =>
          let group := queue.buildBatchGroup first address rest
          let grouped := { queue with tmpBatch := group.tmpBatch }.setSequence
            (queue.seqNo + 1) group.result
          some { grouped with
            seqNo := queue.seqNo + (grouped.deref group.result).batch.ops.length
            phase := .inserting group.result group.lastWriter 0 }
  | _, _ => none

/-- `InsertInto` puts one record. -/
def put (queue : CommitQueue) : Option CommitQueue :=
  match queue.phase with
  | .inserting result lastWriter index =>
      let source := queue.deref result
      (source.batch.ops[index]?).map (fun op =>
        { queue with
          memtable := queue.memtable ++ [(source.sequence + index, op)]
          phase := .inserting result lastWriter (index + 1) })
  | _ => none

/-- `InsertInto` has put all records and returned this status: the last section of
the leading writer. -/
def finish (status : Status) (queue : CommitQueue) : Option CommitQueue :=
  match queue.phase, queue.writers with
  | .inserting result lastWriter index, first :: _ =>
      if index = (queue.deref result).batch.ops.length then
        let cleared := match result with
          | .tmpBatch => { queue with tmpBatch := queue.tmpBatch.clear }
          | .caller _ => queue
        cleared.leave first.id lastWriter status
      else none
  | _, _ => none

/-- A caller fills a batch that none of its running calls uses. -/
def fill (address : Nat) (object : BatchObject) (queue : CommitQueue) :
    Option CommitQueue :=
  if ∀ call ∈ queue.popped ++ queue.writers,
      call.batch = some address → queue.thread call.id = .returned then
    some { queue with
      heap := Function.update queue.heap address object
      filled := Function.update queue.filled address object.batch }
  else none

end CommitQueue

inductive CommitAct where
  | insert (batch : Option Nat)
  | wake (id : Nat)
  | wakeSpuriously (id : Nat)
  | lead
  | put
  | finish (status : Status)
  | fill (address : Nat) (object : BatchObject)
  deriving DecidableEq, Repr

def CommitQueue.step (queue : CommitQueue) : CommitAct → Option CommitQueue
  | .insert batch => some (queue.insert batch)
  | .wake id => queue.wake id
  | .wakeSpuriously id => queue.wakeSpuriously id
  | .lead => queue.lead
  | .put => queue.put
  | .finish status => queue.finish status
  | .fill address object => queue.fill address object

/-! ## Numbers in a row -/

/-- Records with consecutive numbers. -/
def sequenced : Nat → List Op → List (Nat × Op)
  | _, [] => []
  | first, op :: ops => (first, op) :: sequenced (first + 1) ops

theorem sequenced_append (first : Nat) (front behind : List Op) :
    sequenced first (front ++ behind) =
      sequenced first front ++ sequenced (first + front.length) behind := by
  induction front generalizing first with
  | nil => rfl
  | cons op ops ih =>
      simp only [List.cons_append, sequenced, ih, List.length_cons]
      rw [Nat.add_right_comm, Nat.add_assoc first]

namespace CommitQueue

/-! ## Grouping -/

/-- The records of the batch that the loop has put together. -/
def Group.ops (heap : Nat → BatchObject) (group : Group) : List Op :=
  match group.result with
  | .caller address => (heap address).batch.ops
  | .tmpBatch => group.tmpBatch.batch.ops

/-- The batches still hold what they held when the calls started. -/
def Matching (heap : Nat → BatchObject) (calls : List Call) : Prop :=
  ∀ call ∈ calls, (call.batch = none → call.ops = []) ∧
    ∀ address ∈ call.batch, (heap address).batch.ops = call.ops

/-- The loop still uses the first batch, or has moved on to `tmp_batch_`. -/
def Group.Switched (first : Nat) (group : Group) : Prop :=
  (group.result = .caller first ∧ group.tmpBatch.batch.ops = []) ∨
    group.result = .tmpBatch

/-- The batch of a group holds the records of the writers up to `last_writer`. -/
theorem groupLoop_spec {heap : Nat → BatchObject} {first maxSize size : Nat}
    {group : Group} {calls : List Call} (matching : Matching heap calls)
    (switched : group.Switched first) :
    ∃ joined rest, calls = joined ++ rest ∧
      (groupLoop heap first maxSize size group calls).Switched first ∧
      (groupLoop heap first maxSize size group calls).lastWriter =
        (joined.map Call.id).getLast?.getD group.lastWriter ∧
      (groupLoop heap first maxSize size group calls).ops heap =
        group.ops heap ++ joined.flatMap Call.ops := by
  induction calls generalizing size group with
  | nil => exact ⟨[], [], rfl, switched, rfl, by simp [groupLoop]⟩
  | cons call calls ih =>
      obtain ⟨noOps, sameOps⟩ := matching call List.mem_cons_self
      have later : Matching heap calls :=
        fun other member => matching other (List.mem_cons_of_mem _ member)
      rw [groupLoop]
      cases isBatch : call.batch with
      | none =>
          obtain ⟨joined, rest, rfl, isSwitched, last, ops⟩ :=
            @ih size { group with lastWriter := call.id } later switched
          refine ⟨call :: joined, rest, rfl, isSwitched, ?_, ?_⟩
          · simp only [last, List.map_cons, List.getLast?_cons, Option.getD_some]
          · simp only [ops, List.flatMap_cons, noOps isBatch, List.nil_append]
            rfl
      | some address =>
          simp only
          split
          · exact ⟨[], call :: calls, rfl, switched, rfl, by simp⟩
          · obtain ⟨joined, rest, rfl, isSwitched, last, ops⟩ :=
              @ih (size + (heap address).batch.byteSize)
                ⟨.tmpBatch, call.id, (if group.result = .caller first
                  then group.tmpBatch.append (heap first)
                  else group.tmpBatch).append (heap address)⟩ later (.inr rfl)
            refine ⟨call :: joined, rest, rfl, isSwitched, ?_, ?_⟩
            · simp only [last, List.map_cons, List.getLast?_cons, Option.getD_some]
            · rw [ops, List.flatMap_cons, ← List.append_assoc, ← sameOps address isBatch]
              rcases switched with ⟨isFirst, empty⟩ | isTmp
              · simp [Group.ops, BatchObject.append, isFirst, empty]
              · simp [Group.ops, BatchObject.append, isTmp]

/-! ## Leaving the queue -/

theorem signal_eq (queue : CommitQueue) (id : Nat) :
    queue.signal id = { queue with
      thread := fun other =>
        if other = id ∧ queue.thread other = .waiting then .signaled
        else queue.thread other } := by
  rw [signal]
  split
  · rename_i waits
    congr 1
    funext other
    by_cases same : other = id
    · simp [same, waits]
    · simp [same]
  · rename_i awake
    have unchanged : (fun other => if other = id ∧ queue.thread other = .waiting
        then Thread.signaled else queue.thread other) = queue.thread := by
      funext other
      by_cases same : other = id
      · simp [same, awake]
      · simp [same]
    rw [unchanged]

/-- The loop takes the group off the queue and tells everyone in it but the
leading writer. -/
theorem popLoop_eq (self lastWriter : Nat) (status : Status) {group : List Call}
    (rest : List Call) (queue : CommitQueue)
    (isLast : (group.map Call.id).getLast? = some lastWriter)
    (distinct : (group.map Call.id).Nodup) :
    popLoop self lastWriter status (group ++ rest) queue = some { queue with
      writers := rest
      done := fun id => if id ∈ group.map Call.id ∧ id ≠ self then some status
        else queue.done id
      thread := fun id => if (id ∈ group.map Call.id ∧ id ≠ self) ∧
          queue.thread id = .waiting then .signaled
        else queue.thread id } := by
  induction group generalizing queue with
  | nil => cases isLast
  | cons ready group ih =>
      obtain ⟨apart, laterDistinct⟩ := List.nodup_cons.mp distinct
      rw [List.cons_append, popLoop]
      -- what the first round does to the threads and to `done`
      have told : (if ready.id = self then { queue with writers := group ++ rest }
          else signal { { queue with writers := group ++ rest } with
            done := Function.update queue.done ready.id (some status) } ready.id) =
          { queue with
            writers := group ++ rest
            done := fun id => if id = ready.id ∧ id ≠ self then some status
              else queue.done id
            thread := fun id => if (id = ready.id ∧ id ≠ self) ∧
                queue.thread id = .waiting then .signaled
              else queue.thread id } := by
        split
        · rename_i isSelf
          have nobody : ∀ id, ¬ (id = ready.id ∧ id ≠ self) :=
            fun id both => both.2 (both.1.trans isSelf)
          simp [nobody]
        · rename_i other
          rw [signal_eq]
          congr 1
          · funext id
            by_cases same : id = ready.id
            · simp [same, other]
            · simp [same]
          · funext id
            by_cases same : id = ready.id
            · simp [same, other]
            · simp [same]
      simp only [told]
      cases group with
      | nil =>
          obtain rfl : ready.id = lastWriter := by simpa using isLast
          simp
      | cons next group =>
          have goesOn : ready.id ≠ lastWriter := by
            rintro rfl
            apply apart
            have member := List.mem_of_getLast? (by simpa using isLast)
            simpa using member
          rw [if_neg goesOn, ih _ (by simpa using isLast) laterDistinct]
          clear told ih isLast distinct
          congr 2
          · funext id
            simp only [List.map_cons, List.mem_cons]
            grind
          · funext id
            simp only [List.map_cons, List.mem_cons]
            grind

theorem notifyHead_eq (queue : CommitQueue) :
    queue.notifyHead = { queue with
      thread := fun id =>
        if queue.writers.head?.map Call.id = some id ∧ queue.thread id = .waiting
        then .signaled else queue.thread id } := by
  rw [notifyHead]
  split
  · rename_i empty
    have unchanged : (fun id => if queue.writers.head?.map Call.id = some id ∧
        queue.thread id = .waiting then Thread.signaled else queue.thread id) =
        queue.thread := by
      funext id
      simp [empty]
    rw [unchanged]
  · rename_i next rest isQueue
    rw [signal_eq]
    congr 1
    funext id
    simp only [isQueue, List.head?_cons, Option.map_some, Option.some.injEq,
      @eq_comm Nat next.id]

/-- What the last section of a leading writer does. -/
theorem leave_eq (status : Status) {queue : CommitQueue} {first : Call}
    {joined rest : List Call} {lastWriter : Nat}
    (isQueue : queue.writers = first :: joined ++ rest)
    (isLast : ((first :: joined).map Call.id).getLast? = some lastWriter)
    (distinct : (queue.writers.map Call.id).Nodup) :
    queue.leave first.id lastWriter status = some { queue with
      writers := rest
      phase := .idle
      done := fun id => if id ∈ joined.map Call.id then some status
        else queue.done id
      thread := fun id =>
        if id = first.id then .returned
        else if queue.thread id = .waiting ∧ (id ∈ joined.map Call.id ∨
            rest.head?.map Call.id = some id) then .signaled
        else queue.thread id
      groups := queue.groups ++ [(first :: joined, status)]
      returns := queue.returns ++ [(first.id, status)] } := by
  have groupDistinct : ((first :: joined).map Call.id).Nodup := by
    rw [isQueue, List.map_append] at distinct
    exact (List.nodup_append.mp distinct).1
  have others : ∀ id, (id ∈ (first :: joined).map Call.id ∧ id ≠ first.id) ↔
      id ∈ joined.map Call.id := by
    intro id
    have apart := (List.nodup_cons.mp groupDistinct).1
    constructor
    · rintro ⟨member, other⟩
      exact (List.mem_cons.mp member).resolve_left other
    · intro member
      refine ⟨List.mem_cons_of_mem _ member, ?_⟩
      rintro rfl
      exact apart member
  have taken : (first :: joined ++ rest).take
      ((first :: joined ++ rest).length - rest.length) = first :: joined := by
    rw [List.length_append, Nat.add_sub_cancel, List.take_left]
  rw [leave, isQueue, popLoop_eq first.id lastWriter status rest queue isLast groupDistinct]
  simp only [Option.map_some, notifyHead_eq, others, taken]
  congr 2
  funext id
  by_cases isFirst : id = first.id
  · simp [isFirst]
  · simp only [Function.update_of_ne isFirst, if_neg isFirst]
    grind

end CommitQueue

end AhaTree
