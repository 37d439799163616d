import AhaTree.GroupCommit
import Mathlib.Algebra.Order.BigOperators.Group.Finset

/-!
# Group commit applies every batch once

Two invariants carry the result: where the records of the calls are, and where
their threads stand.  The work that is left without new calls decreases with
every step of a running call, so that every call returns.
-/

namespace AhaTree

namespace CommitQueue

/-! ## Invariants -/

/-- The records of the calls that have left the queue. -/
def poppedOps (queue : CommitQueue) : List Op :=
  queue.popped.flatMap Call.ops

/-- The leading writer is inserting the batch of the group `first :: joined`, with
the numbers that follow those of the earlier groups. -/
structure Inserting (start : Nat) (queue : CommitQueue) (result : BatchRef)
    (lastWriter index : Nat) (first : Call) (joined rest : List Call) : Prop where
  queued : queue.writers = first :: joined ++ rest
  isLast : ((first :: joined).map Call.id).getLast? = some lastWriter
  ops : (queue.deref result).batch.ops = (first :: joined).flatMap Call.ops
  sequence : (queue.deref result).sequence = start + 1 + queue.poppedOps.length
  seqNo : queue.seqNo = start + (queue.poppedOps ++
    (first :: joined).flatMap Call.ops).length
  memtable : queue.memtable = sequenced (start + 1) (queue.poppedOps ++
    ((first :: joined).flatMap Call.ops).take index)
  bound : index ≤ ((first :: joined).flatMap Call.ops).length
  tmpBatch : result = .tmpBatch ∨ queue.tmpBatch.batch.ops = []
  source : ∀ address, result = .caller address → first.batch = some address

/-- Between groups `tmp_batch_` is empty, and exactly the records of the calls
that have left are in the memtable. -/
structure AtRest (start : Nat) (queue : CommitQueue) : Prop where
  tmpBatch : queue.tmpBatch.batch.ops = []
  memtable : queue.memtable = sequenced (start + 1) queue.poppedOps
  seqNo : queue.seqNo = start + queue.poppedOps.length

structure Applied (start : Nat) (queue : CommitQueue) : Prop where
  contents : ∀ address, (queue.heap address).batch = queue.filled address
  matching : Matching queue.heap queue.writers
  ids : (queue.popped ++ queue.writers).map Call.id = List.range queue.nextCall
  atRest : queue.phase.isInserting = false → AtRest start queue
  inserting : ∀ result lastWriter index,
    queue.phase = .inserting result lastWriter index →
    ∃ first joined rest, Inserting start queue result lastWriter index first joined rest

/-- Where the threads of the calls stand. -/
structure Threads (queue : CommitQueue) : Prop where
  front : ∀ call ∈ queue.writers.head?,
    (queue.phase = .idle ∧ queue.thread call.id = .signaled) ∨
      (queue.phase ≠ .idle ∧ queue.thread call.id = .leading)
  empty : queue.writers = [] → queue.phase = .idle
  behind : ∀ call ∈ queue.writers.tail,
    queue.thread call.id = .waiting ∨ queue.thread call.id = .signaled
  pending : ∀ call ∈ queue.writers, queue.done call.id = none
  gone : ∀ call ∈ queue.popped, queue.thread call.id = .returned ∨
    (queue.thread call.id = .signaled ∧ (queue.done call.id).isSome = true)
  later : ∀ id, queue.nextCall ≤ id →
    queue.thread id = .waiting ∧ queue.done id = none
  told : ∀ id, ∀ status ∈ queue.done id, ∃ group ∈ queue.groups,
    id ∈ group.1.map Call.id ∧ group.2 = status
  returned : ∀ id, queue.thread id = .returned ↔ id ∈ queue.returns.map Prod.fst
  once : (queue.returns.map Prod.fst).Nodup
  statuses : ∀ answer ∈ queue.returns, ∃ group ∈ queue.groups,
    answer.1 ∈ group.1.map Call.id ∧ group.2 = answer.2

variable {start : Nat} {queue after : CommitQueue}

theorem Applied.distinct (inv : Applied start queue) :
    ((queue.popped ++ queue.writers).map Call.id).Nodup := by
  rw [inv.ids]
  exact List.nodup_range

theorem Applied.writers_distinct (inv : Applied start queue) :
    (queue.writers.map Call.id).Nodup := by
  have distinct := inv.distinct
  rw [List.map_append] at distinct
  exact (List.nodup_append.mp distinct).2.1

theorem Applied.id_lt (inv : Applied start queue) {call : Call}
    (member : call ∈ queue.popped ++ queue.writers) : call.id < queue.nextCall := by
  rw [← List.mem_range, ← inv.ids]
  exact List.mem_map_of_mem member

theorem Applied.initial (seqNo : Nat) (heap : Nat → BatchObject) (hot : Bool) :
    Applied seqNo (initial seqNo heap hot) where
  contents := fun _ => rfl
  matching := fun _ member => by cases member
  ids := rfl
  atRest := fun _ => ⟨rfl, rfl, rfl⟩
  inserting := fun _ _ _ isPhase => by cases isPhase

theorem Threads.initial (seqNo : Nat) (heap : Nat → BatchObject) (hot : Bool) :
    Threads (initial seqNo heap hot) := by
  constructor <;> simp [CommitQueue.initial, popped]

/-! ## Arrivals -/

/-- What a call does when it enters. -/
theorem insert_cases (batch : Option Nat) (queue : CommitQueue) :
    ∃ ops phase thread, queue.insert batch = { queue with
        writers := queue.writers ++ [⟨queue.nextCall, batch, ops⟩]
        nextCall := queue.nextCall + 1
        phase := phase
        thread := thread } ∧
      (batch = none → ops = []) ∧
      (∀ address ∈ batch, (queue.heap address).batch.ops = ops) ∧
      ((queue.writers = [] ∧ phase = .makingRoom ∧
          thread = Function.update queue.thread queue.nextCall .leading) ∨
        (queue.writers ≠ [] ∧ phase = queue.phase ∧ thread = queue.thread)) := by
  refine ⟨(batch.map (fun address => (queue.heap address).batch.ops)).getD [], ?_⟩
  have noOps : batch = none →
      (batch.map (fun address => (queue.heap address).batch.ops)).getD [] = [] := by
    rintro rfl
    rfl
  have sameOps : ∀ address ∈ batch, (queue.heap address).batch.ops =
      (batch.map (fun address => (queue.heap address).batch.ops)).getD [] := by
    rintro address ⟨⟩
    rfl
  rw [insert]
  simp only
  split
  · rename_i isEmpty
    exact ⟨_, _, rfl, noOps, sameOps, .inl ⟨by simpa using isEmpty, rfl, rfl⟩⟩
  · rename_i notEmpty
    exact ⟨_, _, rfl, noOps, sameOps, .inr ⟨by simpa using notEmpty, rfl, rfl⟩⟩

theorem Applied.insert (inv : Applied start queue) (batch : Option Nat) :
    Applied start (queue.insert batch) := by
  obtain ⟨ops, phase, thread, isAfter, noOps, sameOps, place⟩ := insert_cases batch queue
  have notInserting : queue.writers = [] → queue.phase.isInserting = false := by
    intro none
    cases isPhase : queue.phase with
    | inserting result lastWriter index =>
        obtain ⟨first, joined, rest, group⟩ := inv.inserting _ _ _ isPhase
        rw [group.queued] at none
        cases none
    | _ => rfl
  rw [isAfter]
  constructor
  · exact inv.contents
  · intro call member
    rcases List.mem_append.mp member with earlier | new
    · exact inv.matching call earlier
    · obtain rfl := List.mem_singleton.mp new
      exact ⟨noOps, sameOps⟩
  · change (queue.popped ++ (queue.writers ++ [_])).map Call.id = _
    rw [← List.append_assoc, List.map_append, inv.ids, List.range_succ]
    rfl
  · intro quiet
    have before : queue.phase.isInserting = false := by
      rcases place with ⟨none, -, -⟩ | ⟨-, rfl, -⟩
      · exact notInserting none
      · exact quiet
    exact { inv.atRest before with }
  · intro result lastWriter index isPhase
    rcases place with ⟨-, rfl, -⟩ | ⟨-, rfl, -⟩
    · cases isPhase
    · obtain ⟨first, joined, rest, group⟩ := inv.inserting _ _ _ isPhase
      refine ⟨first, joined, rest ++ [⟨queue.nextCall, batch, ops⟩],
        { group with queued := ?_ }⟩
      simp [group.queued]

namespace Threads

variable (inv : Threads queue) {id : Nat} {state : Thread}

include inv

theorem notMem_returns (running : queue.thread id ≠ .returned) :
    id ∉ queue.returns.map Prod.fst :=
  fun member => running ((inv.returned id).mpr member)

theorem once_append (running : queue.thread id ≠ .returned) (status : Status) :
    ((queue.returns ++ [(id, status)]).map Prod.fst).Nodup := by
  rw [List.map_append, List.nodup_append]
  refine ⟨inv.once, by simp, ?_⟩
  rintro earlier member _ isNew rfl
  obtain rfl : earlier = id := by simpa using isNew
  exact inv.notMem_returns running member

theorem returned_update (running : queue.thread id ≠ .returned) (runs : state ≠ .returned)
    (other : Nat) : Function.update queue.thread id state other = .returned ↔
      other ∈ queue.returns.map Prod.fst := by
  by_cases same : other = id
  · subst same
    simpa [runs] using inv.notMem_returns running
  · simpa [same] using inv.returned other

theorem later_update (early : id < queue.nextCall) (other : Nat)
    (atLeast : queue.nextCall ≤ other) :
    Function.update queue.thread id state other = .waiting ∧ queue.done other = none := by
  rw [Function.update_of_ne (early.trans_le atLeast).ne']
  exact inv.later other atLeast

theorem behind_update (asleep : state = .waiting ∨ state = .signaled) (call : Call)
    (member : call ∈ queue.writers.tail) :
    Function.update queue.thread id state call.id = .waiting ∨
      Function.update queue.thread id state call.id = .signaled := by
  by_cases same : call.id = id
  · simpa [same] using asleep
  · simpa [same] using inv.behind call member

/-- The thread of a call that has left either returned or was told its status. -/
theorem gone_update (stays : ¬ (queue.thread id = .returned ∨
      (queue.thread id = .signaled ∧ (queue.done id).isSome = true)))
    (call : Call) (member : call ∈ queue.popped) :
    Function.update queue.thread id state call.id = .returned ∨
      (Function.update queue.thread id state call.id = .signaled ∧
        (queue.done call.id).isSome = true) := by
  have apart : call.id ≠ id := by
    rintro rfl
    exact stays (inv.gone call member)
  simpa [apart] using inv.gone call member

end Threads

theorem Threads.insert (inv : Threads queue) (applied : Applied start queue)
    (batch : Option Nat) : Threads (queue.insert batch) := by
  obtain ⟨ops, phase, thread, isAfter, -, -, place⟩ := insert_cases batch queue
  have older : ∀ call ∈ queue.popped ++ queue.writers, call.id ≠ queue.nextCall :=
    fun call member => (applied.id_lt member).ne
  obtain ⟨fresh, notDone⟩ := inv.later queue.nextCall le_rfl
  have running : queue.thread queue.nextCall ≠ .returned := by simp [fresh]
  rw [isAfter]
  rcases place with ⟨none, rfl, rfl⟩ | ⟨some, rfl, rfl⟩
  · constructor
    · simp [none]
    · simp
    · simp [none]
    · simp [none, notDone]
    · intro call member
      have other : call.id ≠ queue.nextCall := older call (List.mem_append_left _ member)
      simpa [other] using inv.gone call member
    · intro id atLeast
      have other : id ≠ queue.nextCall := (Nat.lt_of_succ_le atLeast).ne'
      simpa [other] using inv.later id ((Nat.le_succ _).trans atLeast)
    · exact inv.told
    · exact inv.returned_update running (by simp)
    · exact inv.once
    · exact inv.statuses
  · obtain ⟨first, rest, isQueue⟩ := List.exists_cons_of_ne_nil some
    have behind := inv.behind
    rw [isQueue, List.tail_cons] at behind
    refine { inv with front := ?_, empty := ?_, behind := ?_, pending := ?_, later := ?_ }
    · intro call isFirst
      refine inv.front call ?_
      rw [isQueue] at isFirst ⊢
      exact isFirst
    · simp
    · intro call member
      simp only [isQueue, List.cons_append, List.tail_cons, List.mem_append,
        List.mem_singleton] at member
      rcases member with earlier | rfl
      · exact behind call earlier
      · exact .inl fresh
    · intro call member
      rcases List.mem_append.mp member with earlier | new
      · exact inv.pending call earlier
      · obtain rfl := List.mem_singleton.mp new
        exact notDone
    · exact fun id atLeast => inv.later id ((Nat.le_succ _).trans atLeast)

/-! ## Wake-ups -/

theorem Applied.of_phase (inv : Applied start queue) {phase : Phase}
    {thread : Nat → Thread} {returns : List (Nat × Status)}
    (same : phase = queue.phase ∨
      (phase.isInserting = false ∧ queue.phase.isInserting = false)) :
    Applied start { queue with phase := phase, thread := thread, returns := returns } := by
  refine { inv with atRest := ?_, inserting := ?_ }
  · intro quiet
    have before : queue.phase.isInserting = false := by
      rcases same with rfl | ⟨-, before⟩
      · exact quiet
      · exact before
    exact { inv.atRest before with }
  · rintro result lastWriter index rfl
    rcases same with isPhase | ⟨quiet, -⟩
    · obtain ⟨first, joined, rest, group⟩ := inv.inserting _ _ _ isPhase.symm
      exact ⟨first, joined, rest, { group with }⟩
    · cases quiet

/-- A woken writer returns, leads, or goes back to sleep. -/
theorem wake_cases {id : Nat} (woken : queue.wake id = some after) :
    queue.thread id = .signaled ∧
      ((∃ status, queue.done id = some status ∧ after = { queue with
          thread := Function.update queue.thread id .returned
          returns := queue.returns ++ [(id, status)] }) ∨
        (queue.done id = none ∧ queue.writers.head?.map Call.id = some id ∧
          after = { queue with
            thread := Function.update queue.thread id .leading
            phase := .makingRoom }) ∨
        (queue.done id = none ∧ queue.writers.head?.map Call.id ≠ some id ∧
          after = { queue with
            thread := Function.update queue.thread id .waiting })) := by
  rw [wake] at woken
  split at woken
  · rename_i awake
    refine ⟨awake, ?_⟩
    cases isDone : queue.done id with
    | some status =>
        simp only [isDone] at woken
        cases woken
        exact .inl ⟨status, rfl, rfl⟩
    | none =>
        simp only [isDone] at woken
        split at woken
        · rename_i isFront
          cases woken
          exact .inr (.inl ⟨rfl, isFront, rfl⟩)
        · rename_i notFront
          cases woken
          exact .inr (.inr ⟨rfl, notFront, rfl⟩)
  · cases woken

/-- A signaled writer at the front means that nobody leads. -/
theorem Threads.idle_of_front (inv : Threads queue) {id : Nat}
    (awake : queue.thread id = .signaled)
    (isFront : queue.writers.head?.map Call.id = some id) : queue.phase = .idle := by
  obtain ⟨call, isCall, rfl⟩ := Option.map_eq_some_iff.mp isFront
  rcases inv.front call isCall with ⟨idle, -⟩ | ⟨-, leads⟩
  · exact idle
  · rw [awake] at leads
    cases leads

theorem Applied.wake (inv : Applied start queue) (threads : Threads queue) {id : Nat}
    (woken : queue.wake id = some after) : Applied start after := by
  obtain ⟨awake, ⟨status, -, rfl⟩ | ⟨-, isFront, rfl⟩ | ⟨-, -, rfl⟩⟩ := wake_cases woken
  · exact inv.of_phase (.inl rfl)
  · refine inv.of_phase (.inr ⟨rfl, ?_⟩)
    rw [threads.idle_of_front awake isFront]
    rfl
  · exact inv.of_phase (.inl rfl)

theorem Threads.wake (inv : Threads queue) (applied : Applied start queue) {id : Nat}
    (woken : queue.wake id = some after) : Threads after := by
  obtain ⟨awake, cases⟩ := wake_cases woken
  have running : queue.thread id ≠ .returned := by simp [awake]
  have early : id < queue.nextCall := by
    by_contra late
    rw [(inv.later id (Nat.le_of_not_lt late)).1] at awake
    cases awake
  rcases cases with ⟨status, isDone, rfl⟩ | ⟨notDone, isFront, rfl⟩ |
    ⟨notDone, notFront, rfl⟩
  · -- it has left the queue
    have outside : ∀ call ∈ queue.writers, call.id ≠ id := by
      rintro call member rfl
      rw [inv.pending call member] at isDone
      cases isDone
    refine { inv with
      front := ?_, behind := ?_, gone := ?_, later := inv.later_update early,
      returned := ?_, once := inv.once_append running status, statuses := ?_ }
    · intro call isFirst
      have apart := outside call (List.mem_of_mem_head? isFirst)
      simpa [apart] using inv.front call isFirst
    · intro call member
      have apart := outside call (List.mem_of_mem_tail member)
      simpa [apart] using inv.behind call member
    · intro call member
      by_cases same : call.id = id
      · simp [same]
      · simpa [same] using inv.gone call member
    · intro other
      by_cases same : other = id
      · simp [same]
      · simpa [same] using inv.returned other
    · intro answer member
      rcases List.mem_append.mp member with earlier | new
      · exact inv.statuses answer earlier
      · obtain rfl := List.mem_singleton.mp new
        exact inv.told id status isDone
  · obtain ⟨first, isFirst, rfl⟩ := Option.map_eq_some_iff.mp isFront
    obtain ⟨rest, isQueue⟩ := List.head?_eq_some_iff.mp isFirst
    have distinct := applied.writers_distinct
    rw [isQueue, List.map_cons, List.nodup_cons] at distinct
    refine { inv with
      front := ?_, empty := ?_, behind := ?_,
      gone := inv.gone_update (by simp [awake, notDone]), later := inv.later_update early,
      returned := inv.returned_update running (by simp) }
    · intro call isCall
      obtain rfl : first = call := Option.some.inj (isFirst.symm.trans isCall)
      exact .inr ⟨by simp, by simp⟩
    · simp [isQueue]
    · intro call member
      have apart : call.id ≠ first.id := by
        intro same
        apply distinct.1
        rw [← same]
        exact List.mem_map_of_mem (by simpa [isQueue] using member)
      simpa [apart] using inv.behind call member
  · refine { inv with
      front := ?_, behind := inv.behind_update (.inl rfl),
      gone := inv.gone_update (by simp [awake, notDone]), later := inv.later_update early,
      returned := inv.returned_update running (by simp) }
    intro call isFirst
    have apart : call.id ≠ id := by
      rintro rfl
      exact notFront (by rw [isFirst]; rfl)
    simpa [apart] using inv.front call isFirst

/-- A wake-up without a signal. -/
theorem wakeSpuriously_cases {id : Nat}
    (woken : queue.wakeSpuriously id = some after) :
    id < queue.nextCall ∧ queue.thread id = .waiting ∧
      after = { queue with thread := Function.update queue.thread id .signaled } := by
  rw [wakeSpuriously] at woken
  split at woken
  · rename_i enabled
    rw [signal, if_pos enabled.2] at woken
    cases woken
    exact ⟨enabled.1, enabled.2, rfl⟩
  · cases woken

theorem Threads.wakeSpuriously (inv : Threads queue) {id : Nat}
    (woken : queue.wakeSpuriously id = some after) : Threads after := by
  obtain ⟨early, waits, rfl⟩ := wakeSpuriously_cases woken
  refine { inv with
    front := ?_, behind := inv.behind_update (.inr rfl),
    gone := inv.gone_update (by simp [waits]), later := inv.later_update early,
    returned := inv.returned_update (by simp [waits]) (by simp) }
  intro call isFirst
  have apart : call.id ≠ id := by
    rintro rfl
    rcases inv.front call isFirst with ⟨-, awake⟩ | ⟨-, leads⟩
    · rw [waits] at awake
      cases awake
    · rw [waits] at leads
      cases leads
  simpa [apart] using inv.front call isFirst

/-! ## Leading -/

theorem poppedOps_append (queue : CommitQueue) (group : List Call) (status : Status) :
    (queue.groups ++ [(group, status)]).flatMap Prod.fst = queue.popped ++ group := by
  simp [popped]

section Leaving

variable {first : Call} {joined rest : List Call} {lastWriter : Nat}

/-- A group leaves when all its records are in the memtable. -/
theorem Applied.leave (inv : Applied start queue) {tmpBatch : BatchObject}
    {status : Status} (queued : queue.writers = first :: joined ++ rest)
    (isLast : ((first :: joined).map Call.id).getLast? = some lastWriter)
    (cleared : tmpBatch.batch.ops = [])
    (memtable : queue.memtable = sequenced (start + 1) (queue.poppedOps ++
      (first :: joined).flatMap Call.ops))
    (seqNo : queue.seqNo = start + (queue.poppedOps ++
      (first :: joined).flatMap Call.ops).length)
    (left : leave first.id lastWriter status { queue with tmpBatch := tmpBatch } =
      some after) : Applied start after := by
  rw [@leave_eq status { queue with tmpBatch := tmpBatch } first joined rest
    lastWriter queued isLast inv.writers_distinct] at left
  cases left
  have sameOps : ((queue.groups ++ [(first :: joined, status)]).flatMap
      Prod.fst).flatMap Call.ops =
      queue.poppedOps ++ (first :: joined).flatMap Call.ops := by
    rw [poppedOps_append, List.flatMap_append, poppedOps]
  constructor
  · exact inv.contents
  · intro call member
    apply inv.matching
    rw [queued]
    exact List.mem_append_right _ member
  · have ids := inv.ids
    rw [queued, ← List.append_assoc] at ids
    change ((queue.groups ++ [(first :: joined, status)]).flatMap Prod.fst ++
      rest).map Call.id = _
    rw [poppedOps_append]
    exact ids
  · intro _
    refine ⟨cleared, ?_, ?_⟩
    · exact memtable.trans (congrArg _ sameOps.symm)
    · exact seqNo.trans (congrArg (fun ops => start + List.length ops) sameOps.symm)
  · intro result last index isPhase
    cases isPhase

/-- The leading writer returns, the others of its group are told, and the next
writer is notified. -/
theorem Threads.leave (inv : Threads queue) (applied : Applied start queue)
    {tmpBatch : BatchObject} {status : Status}
    (queued : queue.writers = first :: joined ++ rest)
    (isLast : ((first :: joined).map Call.id).getLast? = some lastWriter)
    (busy : queue.phase ≠ .idle)
    (left : leave first.id lastWriter status { queue with tmpBatch := tmpBatch } =
      some after) : Threads after := by
  rw [@leave_eq status { queue with tmpBatch := tmpBatch } first joined rest
    lastWriter queued isLast applied.writers_distinct] at left
  cases left
  have leads : queue.thread first.id = .leading := by
    rcases inv.front first (by simp [queued]) with ⟨idle, -⟩ | ⟨-, leads⟩
    · exact absurd idle busy
    · exact leads
  have behind : ∀ call ∈ joined ++ rest,
      queue.thread call.id = .waiting ∨ queue.thread call.id = .signaled := by
    simpa [queued] using inv.behind
  have pending : ∀ call ∈ first :: joined ++ rest, queue.done call.id = none := by
    simpa only [queued] using inv.pending
  have distinct := applied.distinct
  rw [queued, List.map_append, List.map_append, List.map_cons] at distinct
  obtain ⟨-, writersDistinct, apart⟩ := List.nodup_append.mp distinct
  obtain ⟨groupDistinct, -, restApart⟩ := List.nodup_append.mp writersDistinct
  obtain ⟨firstApart, -⟩ := List.nodup_cons.mp groupDistinct
  have notFirst : ∀ call ∈ joined ++ rest, call.id ≠ first.id := by
    intro call member same
    rcases List.mem_append.mp member with inJoined | inRest
    · exact firstApart (same ▸ List.mem_map_of_mem inJoined)
    · exact restApart first.id List.mem_cons_self call.id
        (List.mem_map_of_mem inRest) same.symm
  have notJoined : ∀ call ∈ rest, call.id ∉ joined.map Call.id :=
    fun call member inJoined => restApart call.id (List.mem_cons_of_mem _ inJoined)
      call.id (List.mem_map_of_mem member) rfl
  have early : ∀ call ∈ first :: joined ++ rest, call.id < queue.nextCall := by
    intro call member
    apply applied.id_lt
    rw [queued]
    exact List.mem_append_right _ member
  constructor
  · intro call isFront
    have member : call ∈ rest := List.mem_of_mem_head? isFront
    refine .inl ⟨rfl, ?_⟩
    have place := behind call (List.mem_append_right _ member)
    have isHead : rest.head? = some call := isFront
    simp only [if_neg (notFirst call (List.mem_append_right _ member)), isHead]
    rcases place with waits | awake
    · simp [waits]
    · simp [awake]
  · exact fun _ => rfl
  · intro call member
    have inRest : call ∈ rest := List.mem_of_mem_tail member
    have place := behind call (List.mem_append_right _ inRest)
    simp only [if_neg (notFirst call (List.mem_append_right _ inRest))]
    split
    · exact .inr rfl
    · exact place
  · intro call member
    simp only [if_neg (notJoined call member)]
    exact pending call (List.mem_append_right _ member)
  · intro call member
    change call ∈ (queue.groups ++ [(first :: joined, status)]).flatMap Prod.fst at member
    rw [poppedOps_append] at member
    rcases List.mem_append.mp member with earlier | inGroup
    · have outside : ∀ other ∈ first.id :: joined.map Call.id ++ rest.map Call.id,
          call.id ≠ other :=
        fun other isOther => apart call.id (List.mem_map_of_mem earlier) other isOther
      have notFirst : call.id ≠ first.id := outside first.id (by simp)
      have notJoined : call.id ∉ joined.map Call.id :=
        fun inJoined => outside call.id (by simp [List.mem_map.mp inJoined]) rfl
      simp only [if_neg notFirst, if_neg notJoined]
      rcases inv.gone call earlier with returned | ⟨awake, isDone⟩
      · simp [returned]
      · simp [awake, isDone]
    · rcases List.mem_cons.mp inGroup with rfl | inJoined
      · simp
      · have member : call ∈ joined ++ rest := List.mem_append_left _ inJoined
        have isJoined : call.id ∈ joined.map Call.id := List.mem_map_of_mem inJoined
        simp only [if_neg (notFirst call member), if_pos isJoined]
        rcases behind call member with waits | awake
        · simp [waits, List.mem_map.mp isJoined]
        · simp [awake]
  · intro id atLeast
    have outside : ∀ call ∈ first :: joined ++ rest, id ≠ call.id :=
      fun call member => ((early call member).trans_le atLeast).ne'
    have notFirst : id ≠ first.id := outside first (by simp)
    have notJoined : id ∉ joined.map Call.id := by
      intro inJoined
      obtain ⟨call, isCall, rfl⟩ := List.mem_map.mp inJoined
      exact outside call (by simp [isCall]) rfl
    have notNext : rest.head?.map Call.id ≠ some id := by
      intro isNext
      obtain ⟨call, isCall, rfl⟩ := Option.map_eq_some_iff.mp isNext
      exact outside call (by simp [List.mem_of_mem_head? isCall]) rfl
    simp only [if_neg notFirst, notJoined, notNext, or_self, and_false, if_false]
    exact inv.later id atLeast
  · intro id found isFound
    by_cases inJoined : id ∈ joined.map Call.id
    · simp only [if_pos inJoined] at isFound
      cases isFound
      exact ⟨(first :: joined, status), by simp, List.mem_cons_of_mem _ inJoined, rfl⟩
    · simp only [if_neg inJoined] at isFound
      obtain ⟨group, isGroup, inGroup, same⟩ := inv.told id found isFound
      exact ⟨group, List.mem_append_left _ isGroup, inGroup, same⟩
  · intro id
    by_cases isFirst : id = first.id
    · simp [isFirst]
    · have unchanged := inv.returned id
      simp only [if_neg isFirst, List.map_append, List.mem_append, ← unchanged]
      constructor
      · intro returned
        split at returned
        · cases returned
        · exact .inl returned
      · rintro (returned | isNew)
        · simp [returned]
        · exact absurd (by simpa using isNew) isFirst
  · exact inv.once_append (by simp [leads]) status
  · intro answer member
    rcases List.mem_append.mp member with earlier | new
    · obtain ⟨group, isGroup, inGroup, same⟩ := inv.statuses answer earlier
      exact ⟨group, List.mem_append_left _ isGroup, inGroup, same⟩
    · obtain rfl := List.mem_singleton.mp new
      exact ⟨(first :: joined, status), by simp, by simp, rfl⟩

end Leaving

/-- `SetSequence` touches nothing but the number in one header. -/
theorem setSequence_cases (queue : CommitQueue) (sequence : Nat) (result : BatchRef) :
    ∃ heap tmpBatch, queue.setSequence sequence result =
        { queue with heap := heap, tmpBatch := tmpBatch } ∧
      (∀ address, (heap address).batch = (queue.heap address).batch) ∧
      tmpBatch.batch = queue.tmpBatch.batch ∧
      deref { queue with heap := heap, tmpBatch := tmpBatch } result =
        (queue.deref result).setSequence sequence := by
  cases result with
  | caller address =>
      refine ⟨_, _, rfl, ?_, rfl, by simp [deref]⟩
      intro other
      by_cases same : other = address
      · subst same
        simp [BatchObject.setSequence]
      · simp [same]
  | tmpBatch => exact ⟨_, _, rfl, fun _ => rfl, rfl, rfl⟩

/-- The section of the leading writer after `MakeRoomForWrite`. -/
theorem lead_cases (led : queue.lead = some after) :
    queue.phase = .makingRoom ∧ ∃ first rest, queue.writers = first :: rest ∧
      ((first.batch = none ∧ queue.leave first.id first.id .ok = some after) ∨
        ∃ address, first.batch = some address ∧
          ∃ heap tmpBatch group, group = queue.buildBatchGroup first address rest ∧
            (∀ other, (heap other).batch = (queue.heap other).batch) ∧
            tmpBatch.batch = group.tmpBatch.batch ∧
            deref { queue with heap := heap, tmpBatch := tmpBatch } group.result =
              (deref { queue with tmpBatch := group.tmpBatch } group.result).setSequence
                (queue.seqNo + 1) ∧
            after = { queue with
              heap := heap
              tmpBatch := tmpBatch
              seqNo := queue.seqNo + (group.ops queue.heap).length
              phase := .inserting group.result group.lastWriter 0 }) := by
  rw [lead] at led
  split at led
  · rename_i first rest isPhase isQueue
    refine ⟨isPhase, first, rest, isQueue, ?_⟩
    split at led
    · rename_i noBatch
      exact .inl ⟨noBatch, led⟩
    · rename_i address isBatch
      obtain ⟨heap, tmpBatch, isGrouped, sameHeap, sameTmp, header⟩ :=
        setSequence_cases
          { queue with tmpBatch := (queue.buildBatchGroup first address rest).tmpBatch }
          (queue.seqNo + 1) (queue.buildBatchGroup first address rest).result
      refine .inr ⟨address, isBatch, heap, tmpBatch, _, rfl, sameHeap, sameTmp, header, ?_⟩
      simp only [isGrouped] at led
      cases led
      have count : (deref { queue with heap := heap, tmpBatch := tmpBatch }
          (queue.buildBatchGroup first address rest).result).batch.ops =
          (queue.buildBatchGroup first address rest).ops queue.heap := by
        refine (congrArg (fun object => object.batch.ops) header).trans ?_
        rw [Group.ops]
        cases (queue.buildBatchGroup first address rest).result with
        | caller other => rfl
        | tmpBatch => rfl
      rw [← count]
  · cases led

/-- What `BuildBatchGroup` puts together. -/
theorem buildBatchGroup_spec {first : Call} {address : Nat} {rest : List Call}
    (isBatch : first.batch = some address)
    (matching : Matching queue.heap (first :: rest))
    (empty : queue.tmpBatch.batch.ops = []) :
    ∃ joined later, rest = joined ++ later ∧
      (queue.buildBatchGroup first address rest).Switched address ∧
      ((first :: joined).map Call.id).getLast? =
        some (queue.buildBatchGroup first address rest).lastWriter ∧
      (queue.buildBatchGroup first address rest).ops queue.heap =
        (first :: joined).flatMap Call.ops := by
  obtain ⟨joined, later, rfl, switched, last, ops⟩ :=
    @groupLoop_spec queue.heap address
      (if (queue.heap address).batch.byteSize ≤ 128 * 2 ^ 10
        then (queue.heap address).batch.byteSize + 128 * 2 ^ 10 else 2 ^ 20)
      (queue.heap address).batch.byteSize ⟨.caller address, first.id, queue.tmpBatch⟩ rest
      (fun call member => matching call (List.mem_cons_of_mem _ member))
      (.inl ⟨rfl, empty⟩)
  refine ⟨joined, later, rfl, switched, ?_, ?_⟩
  · rw [buildBatchGroup, last, List.map_cons, List.getLast?_cons]
  · rw [buildBatchGroup, ops, List.flatMap_cons]
    exact congrArg (fun ops => ops ++ _)
      ((matching first List.mem_cons_self).2 address isBatch)

theorem Applied.lead (inv : Applied start queue) (led : queue.lead = some after) :
    Applied start after := by
  obtain ⟨isPhase, first, rest, isQueue, left⟩ := lead_cases led
  have rested := inv.atRest (by rw [isPhase]; rfl)
  rcases left with ⟨noBatch, left⟩ | ⟨address, isBatch, heap, tmpBatch, group, isGroup,
    sameHeap, sameTmp, header, rfl⟩
  · have noOps := (inv.matching first (by simp [isQueue])).1 noBatch
    refine @Applied.leave start queue after first [] rest first.id inv queue.tmpBatch .ok
      isQueue rfl rested.tmpBatch ?_ ?_ left
    · simpa [noOps] using rested.memtable
    · simpa [noOps] using rested.seqNo
  · have matching := inv.matching
    rw [isQueue] at matching
    obtain ⟨joined, later, rfl, switched, isLast, ops⟩ :=
      buildBatchGroup_spec isBatch matching rested.tmpBatch
    rw [← isGroup] at switched isLast ops
    refine { inv with contents := ?_, matching := ?_, atRest := ?_, inserting := ?_ }
    · exact fun other => (sameHeap other).trans (inv.contents other)
    · intro call member
      obtain ⟨noOps, sameOps⟩ := inv.matching call member
      refine ⟨noOps, fun other isOther => ?_⟩
      rw [sameHeap]
      exact sameOps other isOther
    · rintro ⟨⟩
    · rintro _ _ _ ⟨⟩
      have groupOps : (deref { queue with heap := heap, tmpBatch := tmpBatch }
          group.result).batch.ops = (first :: joined).flatMap Call.ops := by
        rw [header, ← ops]
        rw [Group.ops]
        cases group.result with
        | caller other => rfl
        | tmpBatch => rfl
      refine ⟨first, joined, later, ?_⟩
      constructor
      · exact isQueue
      · exact isLast
      · exact groupOps
      · refine (congrArg BatchObject.sequence header).trans ?_
        simp only [BatchObject.setSequence, rested.seqNo]
        exact Nat.add_right_comm _ _ _
      · simp only [ops, rested.seqNo, List.length_append]
        exact Nat.add_assoc _ _ _
      · rw [List.take_zero, List.append_nil]
        exact rested.memtable
      · exact Nat.zero_le _
      · rcases switched with ⟨-, empty⟩ | isTmp
        · exact .inr ((congrArg WriteBatch.ops sameTmp).trans empty)
        · exact .inl isTmp
      · intro other isOther
        rcases switched with ⟨isFirst, -⟩ | isTmp
        · rw [isFirst] at isOther
          cases isOther
          exact isBatch
        · rw [isTmp] at isOther
          cases isOther

theorem Threads.lead (inv : Threads queue) (applied : Applied start queue)
    (led : queue.lead = some after) : Threads after := by
  obtain ⟨isPhase, first, rest, isQueue, left⟩ := lead_cases led
  have busy : queue.phase ≠ .idle := by simp [isPhase]
  rcases left with ⟨-, left⟩ | ⟨address, -, heap, tmpBatch, group, -, -, -, -, rfl⟩
  · exact @Threads.leave start queue after first [] rest first.id inv applied
      queue.tmpBatch .ok isQueue rfl busy left
  · refine { inv with front := ?_, empty := ?_ }
    · intro call isFirst
      rcases inv.front call isFirst with ⟨idle, -⟩ | ⟨-, leads⟩
      · exact absurd idle busy
      · exact .inr ⟨by simp, leads⟩
    · simp [isQueue]

/-! ## Inserting and finishing -/

theorem put_cases (isPut : queue.put = some after) :
    ∃ result lastWriter index op, queue.phase = .inserting result lastWriter index ∧
      (queue.deref result).batch.ops[index]? = some op ∧ after = { queue with
        memtable := queue.memtable ++ [((queue.deref result).sequence + index, op)]
        phase := .inserting result lastWriter (index + 1) } := by
  rw [put] at isPut
  split at isPut
  · rename_i result lastWriter index isPhase
    obtain ⟨op, isOp, rfl⟩ := Option.map_eq_some_iff.mp isPut
    exact ⟨result, lastWriter, index, op, isPhase, isOp, rfl⟩
  · cases isPut

theorem Applied.put (inv : Applied start queue) (isPut : queue.put = some after) :
    Applied start after := by
  obtain ⟨result, lastWriter, index, op, isPhase, isOp, rfl⟩ := put_cases isPut
  obtain ⟨first, joined, rest, group⟩ := inv.inserting _ _ _ isPhase
  refine { inv with atRest := ?_, inserting := ?_ }
  · rintro ⟨⟩
  · rintro _ _ _ ⟨⟩
    rw [group.ops] at isOp
    obtain ⟨inside, isOp⟩ := List.getElem?_eq_some_iff.mp isOp
    refine ⟨first, joined, rest, { group with memtable := ?_, bound := inside }⟩
    have taken : ((first :: joined).flatMap Call.ops).take (index + 1) =
        ((first :: joined).flatMap Call.ops).take index ++ [op] := by
      rw [List.take_succ_eq_append_getElem inside, isOp]
    have number : (queue.deref result).sequence + index = start + 1 +
        (queue.poppedOps ++ ((first :: joined).flatMap Call.ops).take index).length := by
      rw [group.sequence, List.length_append, List.length_take, Nat.min_eq_left group.bound,
        Nat.add_assoc (start + 1)]
    change queue.memtable ++ _ = sequenced (start + 1) (queue.poppedOps ++ _)
    rw [taken, ← List.append_assoc, sequenced_append, group.memtable, number]
    rfl

theorem Threads.put (inv : Threads queue) (isPut : queue.put = some after) :
    Threads after := by
  obtain ⟨result, lastWriter, index, op, isPhase, -, rfl⟩ := put_cases isPut
  refine { inv with front := ?_, empty := ?_ }
  · intro call isFirst
    rcases inv.front call isFirst with ⟨idle, -⟩ | ⟨-, leads⟩
    · rw [isPhase] at idle
      cases idle
    · exact .inr ⟨by simp, leads⟩
  · intro none
    have idle := inv.empty none
    rw [isPhase] at idle
    cases idle

/-- When the leading writer locks again, `tmp_batch_` is cleared if it was used. -/
theorem finish_cases {status : Status} (finished : queue.finish status = some after) :
    ∃ result lastWriter index first tmpBatch,
      queue.phase = .inserting result lastWriter index ∧
      queue.writers.head? = some first ∧
      index = (queue.deref result).batch.ops.length ∧
      ((result = .tmpBatch ∧ tmpBatch = queue.tmpBatch.clear) ∨
        (result ≠ .tmpBatch ∧ tmpBatch = queue.tmpBatch)) ∧
      leave first.id lastWriter status { queue with tmpBatch := tmpBatch } =
        some after := by
  rw [finish] at finished
  split at finished
  · rename_i result lastWriter index first rest isPhase isQueue
    split at finished
    · rename_i complete
      cases result with
      | caller address =>
          exact ⟨_, lastWriter, index, first, queue.tmpBatch, isPhase, by simp [isQueue],
            complete, .inr ⟨by simp, rfl⟩, finished⟩
      | tmpBatch =>
          exact ⟨_, lastWriter, index, first, _, isPhase, by simp [isQueue], complete,
            .inl ⟨rfl, rfl⟩, finished⟩
    · cases finished
  · cases finished

theorem Applied.finish (inv : Applied start queue) {status : Status}
    (finished : queue.finish status = some after) : Applied start after := by
  obtain ⟨result, lastWriter, index, first, tmpBatch, isPhase, isFirst, complete, cleared,
    left⟩ := finish_cases finished
  obtain ⟨front, joined, rest, group⟩ := inv.inserting _ _ _ isPhase
  obtain rfl : front = first := by simpa [group.queued] using isFirst
  have memtable := group.memtable
  rw [complete, group.ops, List.take_length] at memtable
  refine inv.leave group.queued group.isLast ?_ memtable group.seqNo left
  rcases cleared with ⟨-, rfl⟩ | ⟨notTmp, rfl⟩
  · rfl
  · exact group.tmpBatch.resolve_left notTmp

theorem Threads.finish (inv : Threads queue) (applied : Applied start queue)
    {status : Status} (finished : queue.finish status = some after) :
    Threads after := by
  obtain ⟨result, lastWriter, index, first, tmpBatch, isPhase, isFirst, -, -, left⟩ :=
    finish_cases finished
  obtain ⟨front, joined, rest, group⟩ := applied.inserting _ _ _ isPhase
  obtain rfl : front = first := by simpa [group.queued] using isFirst
  exact inv.leave applied group.queued group.isLast (by simp [isPhase]) left

/-! ## Callers -/

theorem fill_cases {address : Nat} {object : BatchObject}
    (isFilled : queue.fill address object = some after) :
    (∀ call ∈ queue.popped ++ queue.writers,
      call.batch = some address → queue.thread call.id = .returned) ∧
      after = { queue with
        heap := Function.update queue.heap address object
        filled := Function.update queue.filled address object.batch } := by
  rw [fill] at isFilled
  split at isFilled
  · rename_i unused
    cases isFilled
    exact ⟨unused, rfl⟩
  · cases isFilled

/-- A writer in the queue has not returned. -/
theorem Threads.not_returned (inv : Threads queue) {call : Call}
    (member : call ∈ queue.writers) : queue.thread call.id ≠ .returned := by
  cases isQueue : queue.writers with
  | nil => simp [isQueue] at member
  | cons first rest =>
      rw [isQueue] at member
      rcases List.mem_cons.mp member with rfl | behind
      · rcases inv.front call (by simp [isQueue]) with ⟨-, awake⟩ | ⟨-, leads⟩
        · simp [awake]
        · simp [leads]
      · rcases inv.behind call (by simpa [isQueue] using behind) with waits | awake
        · simp [waits]
        · simp [awake]

theorem Applied.fill (inv : Applied start queue) (threads : Threads queue)
    {address : Nat} {object : BatchObject}
    (isFilled : queue.fill address object = some after) : Applied start after := by
  obtain ⟨unused, rfl⟩ := fill_cases isFilled
  have apart : ∀ call ∈ queue.writers, call.batch ≠ some address := fun call member uses =>
    threads.not_returned member (unused call (List.mem_append_right _ member) uses)
  have unchanged : ∀ result, (∀ other, result = .caller other → other ≠ address) →
      deref { queue with
        heap := Function.update queue.heap address object
        filled := Function.update queue.filled address object.batch } result =
      queue.deref result := by
    intro result elsewhere
    cases result with
    | caller other => simp [deref, elsewhere other rfl]
    | tmpBatch => rfl
  refine { inv with contents := ?_, matching := ?_, atRest := ?_, inserting := ?_ }
  · intro other
    by_cases same : other = address
    · subst same
      simp
    · simpa [same] using inv.contents other
  · intro call member
    obtain ⟨noOps, sameOps⟩ := inv.matching call member
    refine ⟨noOps, fun other isOther => ?_⟩
    have different : other ≠ address := by
      rintro rfl
      exact apart call member isOther
    simpa [different] using sameOps other isOther
  · exact fun quiet => { inv.atRest quiet with }
  · intro result lastWriter index isPhase
    obtain ⟨first, joined, rest, group⟩ := inv.inserting _ _ _ isPhase
    have same := unchanged result (by
      rintro other isOther rfl
      exact apart first (by simp [group.queued]) (group.source other isOther))
    refine ⟨first, joined, rest, { group with ops := ?_, sequence := ?_ }⟩
    · rw [same]
      exact group.ops
    · rw [same]
      exact group.sequence

theorem Threads.fill (inv : Threads queue) {address : Nat} {object : BatchObject}
    (isFilled : queue.fill address object = some after) : Threads after := by
  obtain ⟨-, rfl⟩ := fill_cases isFilled
  exact { inv with }

/-- Both invariants hold in every reached state. -/
theorem invariants_step (applied : Applied start queue) (threads : Threads queue)
    {act : CommitAct} (stepped : queue.step act = some after) :
    Applied start after ∧ Threads after := by
  cases act with
  | insert batch =>
      cases stepped
      exact ⟨applied.insert batch, threads.insert applied batch⟩
  | wake id => exact ⟨applied.wake threads stepped, threads.wake applied stepped⟩
  | wakeSpuriously id =>
      refine ⟨?_, threads.wakeSpuriously stepped⟩
      obtain ⟨-, -, rfl⟩ := wakeSpuriously_cases stepped
      exact applied.of_phase (.inl rfl)
  | lead => exact ⟨applied.lead stepped, threads.lead applied stepped⟩
  | put => exact ⟨applied.put stepped, threads.put stepped⟩
  | finish status => exact ⟨applied.finish stepped, threads.finish applied stepped⟩
  | fill address object => exact ⟨applied.fill threads stepped, threads.fill stepped⟩

/-! ## Every call returns -/

/-- How many steps a thread may still cause. -/
def threadWork : Thread → Nat
  | .signaled => 2
  | _ => 0

def phaseWork : Phase → Nat
  | .makingRoom => 1
  | _ => 0

/-- The records that have arrived. -/
def arrivedOps (queue : CommitQueue) : List Op :=
  (queue.popped ++ queue.writers).flatMap Call.ops

/-- What is left to do without new calls. -/
def work (queue : CommitQueue) : Nat :=
  3 * queue.writers.length +
    (∑ id ∈ Finset.range queue.nextCall, threadWork (queue.thread id)) +
    phaseWork queue.phase + (queue.arrivedOps.length - queue.memtable.length)

theorem sum_threadWork_update {thread : Nat → Thread} {count id : Nat}
    (state : Thread) (inside : id < count) (awake : thread id = .signaled)
    (done : threadWork state = 0) :
    (∑ other ∈ Finset.range count,
      threadWork (Function.update thread id state other)) + 2 =
      ∑ other ∈ Finset.range count, threadWork (thread other) := by
  have member : id ∈ Finset.range count := Finset.mem_range.mpr inside
  rw [← Finset.add_sum_erase _ _ member,
    ← Finset.add_sum_erase _ (fun other => threadWork (thread other)) member]
  have same : ∑ other ∈ (Finset.range count).erase id,
      threadWork (Function.update thread id state other) =
      ∑ other ∈ (Finset.range count).erase id, threadWork (thread other) := by
    refine Finset.sum_congr rfl (fun other isOther => ?_)
    rw [Function.update_of_ne (Finset.ne_of_mem_erase isOther)]
  rw [same, Function.update_self, done, awake]
  simp only [threadWork]
  omega

theorem work_wake (threads : Threads queue) {id : Nat}
    (woken : queue.wake id = some after) : after.work < queue.work := by
  obtain ⟨awake, cases⟩ := wake_cases woken
  have early : id < queue.nextCall := by
    by_contra late
    rw [(threads.later id (Nat.le_of_not_lt late)).1] at awake
    cases awake
  rcases cases with ⟨status, -, rfl⟩ | ⟨-, isFront, rfl⟩ | ⟨-, -, rfl⟩
  · have less := sum_threadWork_update .returned early awake rfl
    simp only [work, arrivedOps, popped]
    omega
  · have less := sum_threadWork_update .leading early awake rfl
    have idle := threads.idle_of_front awake isFront
    simp only [work, arrivedOps, popped, idle, phaseWork]
    omega
  · have less := sum_threadWork_update .waiting early awake rfl
    simp only [work, arrivedOps, popped]
    omega

theorem sum_members_le (woken : List Nat) (count : Nat) :
    ∑ id ∈ Finset.range count, (if id ∈ woken then 2 else 0) ≤ 2 * woken.length := by
  rw [← Finset.sum_filter, Finset.sum_const, Nat.nsmul_eq_mul, Nat.mul_comm]
  apply Nat.mul_le_mul_left
  calc
    _ ≤ woken.toFinset.card := by
      apply Finset.card_le_card
      intro id member
      simpa using (Finset.mem_filter.mp member).2
    _ ≤ woken.length := List.toFinset_card_le woken

/-- A group that leaves wakes up fewer threads than it saves work. -/
theorem work_leave (applied : Applied start queue) {first : Call}
    {joined rest : List Call} {lastWriter : Nat} {tmpBatch : BatchObject}
    {status : Status} (queued : queue.writers = first :: joined ++ rest)
    (isLast : ((first :: joined).map Call.id).getLast? = some lastWriter)
    (left : leave first.id lastWriter status { queue with tmpBatch := tmpBatch } =
      some after) : after.work < queue.work := by
  rw [@leave_eq status { queue with tmpBatch := tmpBatch } first joined rest
    lastWriter queued isLast applied.writers_distinct] at left
  cases left
  have woken : ∑ id ∈ Finset.range queue.nextCall, threadWork
      (if id = first.id then .returned
        else if queue.thread id = .waiting ∧ (id ∈ joined.map Call.id ∨
            rest.head?.map Call.id = some id) then .signaled
        else queue.thread id) ≤
      (∑ id ∈ Finset.range queue.nextCall, threadWork (queue.thread id)) +
        2 * (joined.length + 1) := by
    calc
      _ ≤ ∑ id ∈ Finset.range queue.nextCall, (threadWork (queue.thread id) +
          if id ∈ joined.map Call.id ++ (rest.head?.map Call.id).toList
          then 2 else 0) := by
        refine Finset.sum_le_sum (fun id _ => ?_)
        simp only [List.mem_append, Option.mem_toList]
        split
        · exact Nat.zero_le _
        · split
          · rename_i told
            rw [if_pos told.2, threadWork]
            exact Nat.le_add_left _ _
          · exact Nat.le_add_right _ _
      _ ≤ _ := by
        rw [Finset.sum_add_distrib]
        apply Nat.add_le_add_left
        refine (sum_members_le _ _).trans (Nat.mul_le_mul_left 2 ?_)
        rw [List.length_append, List.length_map]
        apply Nat.add_le_add_left
        cases rest.head? <;> simp
  have sameOps : ((queue.groups ++ [(first :: joined, status)]).flatMap Prod.fst ++
      rest).flatMap Call.ops = queue.arrivedOps := by
    rw [poppedOps_append, arrivedOps, queued, List.append_assoc]
  simp only [work, arrivedOps, popped, phaseWork] at woken ⊢
  simp only [arrivedOps, popped] at sameOps
  rw [sameOps, queued]
  simp only [List.length_append, List.length_cons]
  omega

/-- At most the records that have arrived are in the memtable. -/
theorem Applied.memtable_eq (inv : Applied start queue) :
    ∃ count, queue.poppedOps.length ≤ count ∧
      (queue.phase.isInserting = false → count = queue.poppedOps.length) ∧
      (∀ result lastWriter index, queue.phase = .inserting result lastWriter index →
        count = queue.poppedOps.length + index) ∧
      queue.memtable = sequenced (start + 1) (queue.arrivedOps.take count) := by
  have split : queue.arrivedOps = queue.poppedOps ++ queue.writers.flatMap Call.ops :=
    List.flatMap_append
  cases isPhase : queue.phase with
  | inserting result lastWriter index =>
      obtain ⟨first, joined, rest, group⟩ := inv.inserting _ _ _ isPhase
      refine ⟨queue.poppedOps.length + index, Nat.le_add_right _ _, by simp [Phase.isInserting],
        ?_, ?_⟩
      · rintro _ _ _ ⟨⟩
        rfl
      · rw [group.memtable, split, List.take_length_add_append, group.queued,
          List.flatMap_append, List.take_append_of_le_length group.bound]
  | idle | makingRoom =>
      refine ⟨queue.poppedOps.length, le_rfl, fun _ => rfl, by simp, ?_⟩
      rw [split, List.take_left]
      exact (inv.atRest (by rw [isPhase]; rfl)).memtable

theorem sequenced_length (first : Nat) (ops : List Op) :
    (sequenced first ops).length = ops.length := by
  induction ops generalizing first with
  | nil => rfl
  | cons op ops ih => simp [sequenced, ih]

theorem work_put (applied : Applied start queue) (isPut : queue.put = some after) :
    after.work < queue.work := by
  obtain ⟨result, lastWriter, index, op, isPhase, isOp, rfl⟩ := put_cases isPut
  obtain ⟨first, joined, rest, group⟩ := applied.inserting _ _ _ isPhase
  rw [group.ops] at isOp
  obtain ⟨inside, -⟩ := List.getElem?_eq_some_iff.mp isOp
  have count : queue.memtable.length = queue.poppedOps.length + index := by
    rw [group.memtable, sequenced_length, List.length_append, List.length_take,
      Nat.min_eq_left group.bound]
  have total : queue.arrivedOps.length = queue.poppedOps.length +
      ((first :: joined).flatMap Call.ops).length + (rest.flatMap Call.ops).length := by
    rw [arrivedOps, group.queued, List.flatMap_append, List.flatMap_append,
      List.length_append, List.length_append, poppedOps, Nat.add_assoc]
  have sameArrived : arrivedOps { queue with
      memtable := queue.memtable ++ [((queue.deref result).sequence + index, op)]
      phase := .inserting result lastWriter (index + 1) } = queue.arrivedOps := rfl
  simp only [work, sameArrived, isPhase, phaseWork, List.length_append,
    List.length_singleton]
  omega

end CommitQueue

/-- The steps that running calls take by themselves. -/
def CommitAct.internal : CommitAct → Bool
  | .wake _ | .lead | .put | .finish _ => true
  | _ => false

namespace CommitQueue

variable {start : Nat} {queue after : CommitQueue}

theorem work_lead (applied : Applied start queue) (led : queue.lead = some after) :
    after.work < queue.work := by
  obtain ⟨isPhase, first, rest, isQueue, left⟩ := lead_cases led
  rcases left with ⟨-, left⟩ | ⟨address, -, heap, tmpBatch, group, -, -, -, -, rfl⟩
  · exact @work_leave start queue after applied first [] rest first.id queue.tmpBatch .ok
      isQueue rfl left
  · simp only [work, arrivedOps, popped, isPhase, phaseWork]
    omega

theorem work_lt (applied : Applied start queue) (threads : Threads queue)
    {act : CommitAct} (internal : act.internal = true)
    (stepped : queue.step act = some after) : after.work < queue.work := by
  cases act with
  | wake id => exact work_wake threads stepped
  | lead => exact work_lead applied stepped
  | put => exact work_put applied stepped
  | finish status =>
      obtain ⟨result, lastWriter, index, first, tmpBatch, isPhase, isFirst, -, -, left⟩ :=
        finish_cases stepped
      obtain ⟨front, joined, rest, group⟩ := applied.inserting _ _ _ isPhase
      obtain rfl : front = first := by simpa [group.queued] using isFirst
      exact work_leave applied group.queued group.isLast left
  | _ => cases internal

theorem wake_isSome {id : Nat} (awake : queue.thread id = .signaled) :
    (queue.wake id).isSome = true := by
  rw [wake, if_pos awake]
  cases queue.done id with
  | some status => rfl
  | none =>
      simp only
      split <;> rfl

theorem finish_eq (status : Status) {result : BatchRef} {lastWriter index : Nat}
    {first : Call} {rest : List Call}
    (isPhase : queue.phase = .inserting result lastWriter index)
    (isQueue : queue.writers = first :: rest)
    (complete : index = (queue.deref result).batch.ops.length) :
    queue.finish status = leave first.id lastWriter status { queue with
      tmpBatch := if result = .tmpBatch then queue.tmpBatch.clear
        else queue.tmpBatch } := by
  rw [finish]
  split
  · rename_i samePhase sameQueue
    cases isPhase.symm.trans samePhase
    cases isQueue.symm.trans sameQueue
    rw [if_pos complete]
    cases result with
    | caller address => simp
    | tmpBatch => simp
  · rename_i other
    exact absurd isQueue (other result lastWriter index first rest isPhase)

/-- While a call has not returned, some running call can go on. -/
theorem exists_step (applied : Applied start queue) (threads : Threads queue)
    {call : Call} (member : call ∈ queue.popped ++ queue.writers)
    (running : queue.thread call.id ≠ .returned) :
    ∃ act, act.internal = true ∧ (queue.step act).isSome = true := by
  rcases List.mem_append.mp member with left | inQueue
  · have awake := ((threads.gone call left).resolve_left running).1
    exact ⟨.wake call.id, rfl, wake_isSome awake⟩
  · obtain ⟨first, rest, isQueue⟩ := List.exists_cons_of_ne_nil (List.ne_nil_of_mem inQueue)
    cases isPhase : queue.phase with
    | idle =>
        rcases threads.front first (by simp [isQueue]) with ⟨-, awake⟩ | ⟨busy, -⟩
        · exact ⟨.wake first.id, rfl, wake_isSome awake⟩
        · exact absurd isPhase busy
    | makingRoom =>
        refine ⟨.lead, rfl, ?_⟩
        change queue.lead.isSome = true
        rw [lead, isPhase, isQueue]
        simp only
        split
        · rw [@leave_eq .ok queue first [] rest first.id isQueue rfl
            applied.writers_distinct]
          rfl
        · rfl
    | inserting result lastWriter index =>
        obtain ⟨front, joined, later, group⟩ := applied.inserting _ _ _ isPhase
        by_cases complete : index = (queue.deref result).batch.ops.length
        · refine ⟨.finish .ok, rfl, ?_⟩
          change (queue.finish .ok).isSome = true
          rw [finish_eq .ok isPhase group.queued complete,
            @leave_eq .ok { queue with tmpBatch := if result = .tmpBatch
                then queue.tmpBatch.clear else queue.tmpBatch } front joined later
              lastWriter group.queued group.isLast applied.writers_distinct]
          rfl
        · refine ⟨.put, rfl, ?_⟩
          change queue.put.isSome = true
          have inside : index < (queue.deref result).batch.ops.length := by
            refine lt_of_le_of_ne ?_ complete
            rw [group.ops]
            exact group.bound
          rw [put, isPhase]
          simp only [List.getElem?_eq_getElem inside]
          rfl

/-- Every batch is applied once and in order, and every call returns once. -/
structure CommitsOnce (start : Nat) (queue : CommitQueue) : Prop where
  /-- Calls leave the queue in the order of their arrival. -/
  arrivals : (queue.popped ++ queue.writers).map Call.id = List.range queue.nextCall
  /-- The memtable holds the records of the calls in this order, each of them once
  and with consecutive numbers: all of the calls that have left, and at most those of
  the group that is being inserted besides. -/
  applied : ∃ count, queue.poppedOps.length ≤ count ∧
    (queue.phase.isInserting = false → count = queue.poppedOps.length) ∧
    queue.memtable = sequenced (start + 1) (queue.arrivedOps.take count)
  tmpBatchEmpty : queue.phase = .makingRoom → queue.tmpBatch.batch.ops = []
  callersKept : ∀ address, (queue.heap address).batch = queue.filled address
  returnsOnce : (queue.returns.map Prod.fst).Nodup
  statuses : ∀ answer ∈ queue.returns, ∃ group ∈ queue.groups,
    answer.1 ∈ group.1.map Call.id ∧ group.2 = answer.2
  /-- While a call has not returned, a running call can go on. -/
  progress : ∀ call ∈ queue.popped ++ queue.writers,
    call.id ∉ queue.returns.map Prod.fst →
      ∃ act, act.internal = true ∧ (queue.step act).isSome = true
  /-- Running calls cannot go on forever. -/
  terminates : ∀ act after, act.internal = true → queue.step act = some after →
    after.work < queue.work

/-- Group commit, in every state that any interleaving of calls reaches. -/
theorem commitsOnce_of_reaches {heap : Nat → BatchObject} {hot : Bool}
    (reaches : Lib.Reaches step (fun _ _ => True) (initial start heap hot) queue) :
    CommitsOnce start queue := by
  obtain ⟨applied, threads⟩ : Applied start queue ∧ Threads queue := by
    refine reaches.invariant (fun queue => Applied start queue ∧ Threads queue)
      ⟨Applied.initial start heap hot, Threads.initial start heap hot⟩ ?_
    rintro before act after ⟨applied, threads⟩ - stepped
    exact invariants_step applied threads stepped
  obtain ⟨count, atLeast, exactly, -, memtable⟩ := applied.memtable_eq
  constructor
  · exact applied.ids
  · exact ⟨count, atLeast, exactly, memtable⟩
  · intro isPhase
    exact (applied.atRest (by rw [isPhase]; rfl)).tmpBatch
  · exact applied.contents
  · exact threads.once
  · exact threads.statuses
  · intro call member notReturned
    refine exists_step applied threads member ?_
    rw [Ne, threads.returned]
    exact notReturned
  · exact fun act after internal stepped => work_lt applied threads internal stepped

/-- Two writers with batches and one without form a group behind a first one. -/
theorem commitsOnce_of_three_calls :
    ∃ queue, Lib.run step (fun _ _ => true)
        (initial 1 (fun address => ⟨⟨[⟨.kTypeValue, [1], [2]⟩], address == 0⟩, 0⟩) false)
        [.insert (some 0), .insert none, .insert (some 1), .lead, .insert (some 0),
          .put, .put, .finish .ok, .wake 2, .wake 3, .lead, .put, .wake 1, .finish .ok] =
        some queue ∧
      queue.returns = [(0, .ok), (2, .ok), (1, .ok), (3, .ok)] ∧
      queue.memtable.map Prod.fst = [2, 3, 4] ∧ CommitsOnce 1 queue := by
  have ran : (Lib.run step (fun _ _ => true)
      (initial 1 (fun address => ⟨⟨[⟨.kTypeValue, [1], [2]⟩], address == 0⟩, 0⟩) false)
      [.insert (some 0), .insert none, .insert (some 1), .lead, .insert (some 0),
        .put, .put, .finish .ok, .wake 2, .wake 3, .lead, .put, .wake 1, .finish .ok]).map
        (fun queue => (queue.returns, queue.memtable.map Prod.fst)) =
      some ([(0, .ok), (2, .ok), (1, .ok), (3, .ok)], [2, 3, 4]) := by
    decide +kernel
  obtain ⟨queue, isQueue, ends⟩ := Option.map_eq_some_iff.mp ran
  obtain ⟨returns, numbers⟩ := Prod.mk.inj ends
  exact ⟨queue, isQueue, returns, numbers,
    commitsOnce_of_reaches (Lib.reaches_of_run (fun _ _ _ => trivial) isQueue)⟩

end CommitQueue

end AhaTree
